import JavaMinus.Proofs.Lowering.Kinds
import Mathlib.Logic.Equiv.Defs

/-!
# Lowering with other names

Lowering never looks at the names it draws.  Two runs over the same tree that
start from different supplies draw their names in step.  A renaming that takes
the names of one run to those of the other then takes its code to that of the
other.
-/

namespace JavaMinus

open Ir (Operand Instr Call CallKind Fragment)
open Lowering

/-! ## Renaming -/

namespace Ir

structure Renaming where
  vars : Equiv.Perm String
  labels : Equiv.Perm String

/-- Whether a call of this kind has a class in the place of its target. -/
def CallKind.namesClass : CallKind → Bool
  | .new | .static => true
  | .special | .virtual | .arrayLength => false

variable (names : Ir.Renaming)

def Operand.rename : Operand → Operand
  | .literal value ty => .literal value ty
  | .var name ty => .var (names.vars name) ty
  | .element array position =>
      .element (names.vars array) position.rename
  | .self className => .self className
  | .field ref => .field ref

def Operand.renameTarget (kind : CallKind) (target : Operand) : Operand :=
  if kind.namesClass then target else target.rename names

def Call.rename (call : Call) : Call :=
  { call with
    target := call.target.renameTarget names call.kind
    args := call.args.map (Operand.rename names) }

def Instr.rename : Instr → Instr
  | .assign dest ty value => .assign (dest.rename names) ty value.rename
  | .single operand => .single (operand.rename names)
  | .binary op left right ty =>
      .binary op (left.rename names) (right.rename names) ty
  | .not operand ty => .not (operand.rename names) ty
  | .call invocation => .call (invocation.rename names)
  | .getField object field => .getField (object.rename names) field
  | .putField object field value =>
      .putField (object.rename names) field (value.rename names)
  | .branch condition label =>
      .branch (condition.rename names) (names.labels label)
  | .goto label => .goto (names.labels label)
  | .ret ty operand => .ret ty (operand.map (Operand.rename names))

def Fragment.rename : Fragment → Fragment
  | .label name => .label (names.labels name)
  | .instr code => .instr (code.rename names)

@[simp]
theorem Operand.ty_rename (operand : Operand) :
    (operand.rename names).ty = operand.ty := by
  cases operand <;> rfl

@[simp]
theorem Operand.ty_renameTarget (kind : CallKind) (target : Operand) :
    (target.renameTarget names kind).ty = target.ty := by
  rw [renameTarget]
  split <;> simp

@[simp]
theorem Instr.isJump_rename (instr : Instr) :
    (instr.rename names).isJump = instr.isJump := by
  cases instr <;> rfl

@[simp]
theorem Instr.isReturn_rename (instr : Instr) :
    (instr.rename names).isReturn = instr.isReturn := by
  cases instr <;> rfl

theorem Instr.target?_rename (instr : Instr) :
    (instr.rename names).target? = instr.target?.map names.labels := by
  cases instr <;> rfl

theorem Instr.rename_store (dest : Operand) (value : Instr) :
    (Instr.store dest value).rename names =
      .store (dest.rename names) (value.rename names) := by
  simp [Instr.store, Instr.rename]

end Ir

def Scope.Keeps (scope : Scope) (vars : Equiv.Perm String) : Prop :=
  ∀ name, scope.IsVariable name → vars name = name

def Lowered.rename (names : Ir.Renaming) (lowered : Lowered) : Lowered where
  result := lowered.result.map (Operand.rename names)
  code := lowered.code.map (Fragment.rename names)

/-! ## Supplies in step -/

namespace Supply

def skip (supply : Supply) : Nat → Supply
  | 0 => supply
  | count + 1 => (supply.skip count).freshTemp.2

def temporary (supply : Supply) (index : Nat) : String :=
  (supply.skip index).freshTemp.1

def advance (supply : Supply) (temps labels : Nat) : Supply :=
  { supply.skip temps with nextLabel := supply.nextLabel + labels }

end Supply

def ShiftsLabels (labels : Equiv.Perm String) (first second count : Nat) :
    Prop :=
  ∀ stem ∈ labelStems, ∀ index < count,
    labels (stem ++ toString (first + index)) =
      stem ++ toString (second + index)

theorem ShiftsLabels.take {labels : Equiv.Perm String}
    {first second count fewer : Nat}
    (h : ShiftsLabels labels first second count) (le : fewer ≤ count) :
    ShiftsLabels labels first second fewer :=
  fun stem member index small =>
    h stem member index (Nat.lt_of_lt_of_le small le)

structure Ir.Renaming.Covers (names : Ir.Renaming) (first second : Supply)
    (temps labels : Nat) : Prop where
  temps : ∀ index < temps,
    names.vars (first.temporary index) = second.temporary index
  labels : ShiftsLabels names.labels first.nextLabel second.nextLabel labels

theorem Ir.Renaming.Covers.mono {names : Ir.Renaming} {first second : Supply}
    {temps temps' labels labels' : Nat}
    (h : names.Covers first second temps' labels')
    (fewer : temps ≤ temps') (fewer' : labels ≤ labels') :
    names.Covers first second temps labels where
  temps := fun index small => h.temps index (Nat.lt_of_lt_of_le small fewer)
  labels := h.labels.take fewer'

def Lower.finish {α : Type} (supply : Supply) :
    Except Breach α → EStateM.Result Breach Supply α
  | .ok value => .ok value supply
  | .error cause => .error cause supply

/--
Two actions that draw equally many names.  If the renaming covers the names
that the first one draws, the second one has the renamed value or the same
error.
-/
def InStep {α : Type} (names : Ir.Renaming) (first second : Supply)
    (rename : α → α) (action action' : Lower α) : Prop :=
  ∀ temps labels, ∃ temps' labels' outcome,
    temps ≤ temps' ∧ labels ≤ labels' ∧
    action (first.advance temps labels) =
      Lower.finish (first.advance temps' labels') outcome ∧
    (names.Covers first second temps' labels' →
      action' (second.advance temps labels) =
        Lower.finish (second.advance temps' labels') (outcome.map rename))

namespace InStep

variable {α β : Type} {names : Ir.Renaming} {first second : Supply}
  {rename : α → α} {rename' : β → β}

theorem pure {value value' : α} (h : rename value = value') :
    InStep names first second rename (pure value) (pure value') :=
  fun temps labels => ⟨temps, labels, .ok value, Nat.le_refl _, Nat.le_refl _,
    rfl, fun _ => h ▸ rfl⟩

theorem throw (cause : Breach) :
    InStep names first second rename (throw cause) (throw cause) :=
  fun temps labels => ⟨temps, labels, .error cause, Nat.le_refl _,
    Nat.le_refl _, rfl, fun _ => rfl⟩

theorem bind {action action' : Lower α} {next next' : α → Lower β}
    (h : InStep names first second rename action action')
    (h' : ∀ value, (∃ supply after, action supply = .ok value after) →
      InStep names first second rename' (next value)
        (next' (rename value))) :
    InStep names first second rename' (action >>= next)
      (action' >>= next') := by
  intro temps labels
  obtain ⟨temps', labels', outcome, more, more', ran, follows⟩ :=
    h temps labels
  cases outcome with
  | error cause =>
      exact ⟨temps', labels', .error cause, more, more',
        Action.bind_of_error ran,
        fun covers => Action.bind_of_error (follows covers)⟩
  | ok value =>
      obtain ⟨temps'', labels'', outcome, later, later', ranOn, followsOn⟩ :=
        h' value ⟨_, _, ran⟩ temps' labels'
      refine ⟨temps'', labels'', outcome, Nat.le_trans more later,
        Nat.le_trans more' later', ?_, fun covers => ?_⟩
      · rw [Action.bind_of_ok ran, ranOn]
      · rw [Action.bind_of_ok (follows (covers.mono later later')),
          followsOn covers]

theorem label {stem : String} (member : stem ∈ labelStems) :
    InStep names first second names.labels (Lower.label stem)
      (Lower.label stem) := by
  intro temps labels
  refine ⟨temps, labels + 1, .ok (stem ++ toString (first.nextLabel + labels)),
    Nat.le_refl _, Nat.le_succ _, rfl, fun covers => ?_⟩
  simp only [Except.map]
  rw [covers.labels stem member labels (Nat.lt_succ_self _)]
  rfl

theorem suffix (ty : Ty) :
    InStep names first second id (Lower.suffix ty) (Lower.suffix ty) := by
  cases ty with
  | vararg => exact throw _
  | _ => exact pure rfl

theorem freshTemp :
    InStep names first second names.vars
      (modifyGet Supply.freshTemp) (modifyGet Supply.freshTemp) := by
  intro temps labels
  refine ⟨temps + 1, labels, .ok (first.temporary temps), Nat.le_succ _,
    Nat.le_refl _, rfl, fun covers => ?_⟩
  simp only [Except.map]
  rw [covers.temps temps (Nat.lt_succ_self _)]
  rfl

theorem tempName (ty : Ty) :
    InStep names first second names.vars (Lower.tempName ty)
      (Lower.tempName ty) :=
  (suffix ty).bind fun _ _ => freshTemp

theorem temp (ty : Ty) :
    InStep names first second (Operand.rename names) (Lower.temp ty)
      (Lower.temp ty) :=
  (tempName ty).bind fun _ _ => pure rfl

end InStep

/-! ## Expressions -/

namespace Lowering

variable {names : Ir.Renaming} {first second : Supply} {scope : Scope}

def renameParts (names : Ir.Renaming) :
    Operand × List Fragment → Operand × List Fragment :=
  Prod.map (Operand.rename names) (List.map (Fragment.rename names))

def renameAll (names : Ir.Renaming) :
    List Operand × List Fragment → List Operand × List Fragment :=
  Prod.map (List.map (Operand.rename names))
    (List.map (Fragment.rename names))

theorem parts_inStep (lowered : Lowered) :
    InStep names first second (renameParts names) lowered.parts
      (lowered.rename names).parts := by
  obtain ⟨result, code⟩ := lowered
  cases result with
  | none => exact .throw .noValue
  | some operand => exact .pure rfl

theorem operand_inStep {β : Type} {expr : Tree.Expr} {dest : Destination}
    {next next' : Operand × List Fragment → Lower β} {rename : β → β}
    (h : InStep names first second (Lowered.rename names)
      (expr.lower scope dest) (expr.lower scope dest))
    (h' : ∀ operand code, (∃ supply after,
        expr.lower scope dest supply = .ok ⟨some operand, code⟩ after) →
      InStep names first second rename (next (operand, code))
        (next' (operand.rename names,
          code.map (Fragment.rename names)))) :
    InStep names first second rename
      (do next (← (← expr.lower scope dest).parts))
      (do next' (← (← expr.lower scope dest).parts)) := by
  refine h.bind fun lowered ran => (parts_inStep lowered).bind ?_
  rintro ⟨operand, code⟩ ⟨_, _, parts⟩
  obtain ⟨rfl, _⟩ := parts_eq_ok.mp parts
  exact h' operand code ran

theorem intoTemp_inStep (ty : Ty) (code : List Fragment) (value : Instr) :
    InStep names first second (Lowered.rename names)
      (intoTemp ty code value)
      (intoTemp ty (code.map (Fragment.rename names))
        (value.rename names)) :=
  (InStep.temp ty).bind fun operand _ => .pure (by
    simp [Lowered.rename, Fragment.rename, Instr.rename_store])

theorem readName_inStep {name : String}
    (fixes : scope.Keeps names.vars)
    (hasValue : scope.hasValue name = true) :
    InStep names first second (Lowered.rename names) (readName scope name)
      (readName scope name) := by
  rw [Scope.hasValue] at hasValue
  rw [readName]
  cases origin : scope.resolve name with
  | localVar symbol =>
      exact .pure (by simp [Lowered.rename, Lowered.ofOperand, Operand.rename,
        fixes name ⟨symbol, .inl origin⟩])
  | param symbol =>
      exact .pure (by simp [Lowered.rename, Lowered.ofOperand, Operand.rename,
        fixes name ⟨symbol, .inr origin⟩])
  | field symbol => exact intoTemp_inStep _ [] _
  | enclosing => exact .pure rfl
  | imported path => simp [origin] at hasValue
  | unknown => simp [origin] at hasValue

/-! ### Arrays -/

theorem elementStores_rename (array : String) (values : List Operand) :
    (elementStores array values).map (Fragment.rename names) =
      elementStores (names.vars array)
        (values.map (Operand.rename names)) := by
  simp [elementStores, List.zipIdx_map, Function.comp_def, Fragment.rename,
    Instr.rename_store, Operand.rename, Instr.rename, Operand.int]

theorem packArray_inStep (values : List Operand) :
    InStep names first second (renameParts names) (packArray values)
      (packArray (values.map (Operand.rename names))) := by
  refine (InStep.temp .intArray).bind ?_
  rintro array ⟨supply, after, drawn⟩
  obtain ⟨name, rfl, _⟩ := Lower.drawn_of_temp drawn
  simp only [Operand.rename, Operand.varName?, List.length_map]
  split
  · exact .throw .arrayTooLong
  · exact .pure (by simp [renameParts, elementStores_rename, Fragment.rename,
      Instr.rename_store, Operand.rename, Instr.rename, newArray,
      Ir.Call.rename, Operand.renameTarget, CallKind.namesClass,
      Operand.int])

theorem arrayName_inStep {operand : Operand}
    (simple : operand.isSimple = true) :
    InStep names first second names.vars (arrayName operand)
      (arrayName (operand.rename names)) := by
  cases operand with
  | var name ty => exact .pure rfl
  | literal value ty => exact .throw _
  | self className => exact .throw _
  | element array position => simp [Operand.isSimple] at simple
  | field ref => simp [Operand.isSimple] at simple

theorem finishElement_inStep (element : Operand) (code : List Fragment)
    (dest : Destination) :
    InStep names first second (Lowered.rename names)
      (finishElement element code dest)
      (finishElement (element.rename names)
        (code.map (Fragment.rename names)) dest) := by
  cases dest with
  | assigned ty | returned ty => exact .pure rfl
  | operand | discarded => exact intoTemp_inStep .int code (.single element)

/-! ### Calls -/

theorem finishCall_inStep (call : Call) (code : List Fragment)
    (dest : Destination) :
    InStep names first second (Lowered.rename names)
      (finishCall call code dest)
      (finishCall (call.rename names) (code.map (Fragment.rename names))
        dest) := by
  cases dest with
  | discarded =>
      exact .pure (by simp [Lowered.rename, Fragment.rename, Instr.rename])
  | assigned ty | returned ty | operand =>
      exact intoTemp_inStep call.returnTy code (.call call)

theorem packVarargs_inStep (callee : Option Signature)
    (args : List Operand) :
    InStep names first second (renameAll names) (packVarargs callee args)
      (packVarargs callee (args.map (Operand.rename names))) := by
  have passed : InStep names first second (renameAll names)
      (pure (args, [])) (pure (args.map (Operand.rename names), [])) :=
    .pure rfl
  have packed (fixed : Nat) (extra : List Operand) :
      InStep names first second (renameAll names)
        (packVarargs.pack args fixed extra)
        (packVarargs.pack (args.map (Operand.rename names)) fixed
          (extra.map (Operand.rename names))) :=
    (packArray_inStep extra).bind fun _ _ => .pure (by
      simp [renameAll])
  cases callee with
  | none => exact passed
  | some signature =>
      rw [packVarargs, packVarargs]
      split
      · exact passed
      · simp only [List.length_map, ← List.map_drop]
        split
        · exact .throw _
        · rcases args.drop (signature.params.length - 1) with
            _ | ⟨single, _ | ⟨other, rest⟩⟩
          · exact packed _ []
          · simp only [List.map_cons, List.map_nil, Operand.ty_rename]
            split
            · exact passed
            · exact packed _ [single]
          · exact packed _ (single :: other :: rest)

theorem callee?_renameTarget (kind : CallKind) (target : Operand)
    (method : String) :
    callee? scope kind (target.renameTarget names kind) method =
      callee? scope kind target method := by
  simp [callee?]

theorem directReceiver?_rename {receiver : Tree.Expr} {kind : CallKind}
    {target : Operand}
    (fixes : scope.Keeps names.vars)
    (h : directReceiver? scope receiver = some (kind, target)) :
    target.renameTarget names kind = target := by
  rw [directReceiver?] at h
  split at h
  · cases h
    rfl
  next name _ =>
    split at h
    next symbol origin =>
      cases h
      simp [Operand.renameTarget, Operand.rename, CallKind.namesClass,
        fixes name ⟨symbol, .inl origin⟩]
    next symbol origin =>
      cases h
      simp [Operand.renameTarget, Operand.rename, CallKind.namesClass,
        fixes name ⟨symbol, .inr origin⟩]
    · cases h
    · cases h
      rfl
    · cases h
      rfl
    · cases h
      rfl
  · cases h

end Lowering

namespace Tree.Expr

variable {names : Ir.Renaming} {first second : Supply} {scope : Scope}

private def LowersInStep (names : Ir.Renaming) (first second : Supply)
    (scope : Scope) (expr : Expr) : Prop :=
  expr.resolves scope = true → ∀ dest,
    InStep names first second (Lowered.rename names)
      (expr.lower scope dest) (expr.lower scope dest)

private theorem lowerAll_lowersInStep {exprs : List Expr}
    (each : ∀ expr ∈ exprs, LowersInStep names first second scope expr)
    (resolves : resolvesAll scope exprs = true) :
    InStep names first second (renameAll names) (lowerAll scope exprs)
      (lowerAll scope exprs) := by
  induction exprs with
  | nil => exact .pure rfl
  | cons expr rest ih =>
      rw [resolvesAll, Bool.and_eq_true] at resolves
      rw [lowerAll]
      refine operand_inStep (each expr (by simp) resolves.1 .operand)
        fun operand code _ => ?_
      refine (ih (fun expr member => each expr (by simp [member]))
        resolves.2).bind fun rest _ => .pure ?_
      simp [renameAll]

private theorem invoke_inStep {args : List Expr}
    (onArgs : InStep names first second (renameAll names)
      (lowerAll scope args) (lowerAll scope args))
    (kind : CallKind) (target : Operand) (targetCode : List Fragment)
    (method : String) (ty : Ty) (dest : Destination) :
    InStep names first second (Lowered.rename names)
      (do
        let (args, argCode) ← lowerAll scope args
        let (args, packCode) ←
          packVarargs (callee? scope kind target method) args
        finishCall
          { kind, target, method := some method, args
            returnTy := callTy (callee? scope kind target method) ty dest }
          (targetCode ++ argCode ++ packCode) dest)
      (do
        let (args, argCode) ← lowerAll scope args
        let (args, packCode) ←
          packVarargs (callee? scope kind (target.renameTarget names kind)
            method) args
        finishCall
          { kind, target := target.renameTarget names kind
            method := some method, args
            returnTy := callTy (callee? scope kind
              (target.renameTarget names kind) method) ty dest }
          (targetCode.map (Fragment.rename names) ++ argCode ++ packCode)
          dest) := by
  rw [callee?_renameTarget]
  refine onArgs.bind fun args _ => ?_
  refine (packVarargs_inStep _ args.1).bind fun passed _ => ?_
  have finished : InStep names first second _ _ _ := finishCall_inStep
    { kind, target, method := some method, args := passed.1
      returnTy := callTy (callee? scope kind target method) ty dest }
    (targetCode ++ args.2 ++ passed.2) dest
  simpa [renameAll, Ir.Call.rename] using finished

private theorem lowersInStep
    (fixes : scope.Keeps names.vars)
    (expr : Expr) : LowersInStep names first second scope expr := by
  -- Two runs are compared, which may also fail: the induction is on the tree.
  induction expr with
  | int attr value | bool attr value | self attr =>
      intro _ dest
      exact .pure rfl
  | var attr name =>
      intro resolves dest
      exact readName_inStep fixes resolves
  | paren attr inner ih =>
      intro resolves dest
      exact ih resolves dest
  | binary attr op left right ihLeft ihRight =>
      intro resolves dest
      rw [Expr.resolves, Bool.and_eq_true] at resolves
      by_cases isAnd : op = .and
      · subst isAnd
        rw [lower]
        refine operand_inStep (ihLeft resolves.1 .operand)
          fun leftOp leftCode _ => ?_
        refine (InStep.temp .boolean).bind fun result _ => ?_
        refine (InStep.label (by decide)).bind fun rightLabel _ => ?_
        refine (InStep.label (by decide)).bind fun endLabel _ => ?_
        refine operand_inStep (ihRight resolves.2 .operand)
          fun rightOp rightCode _ => .pure ?_
        simp [Lowered.rename, Fragment.rename, Instr.rename,
          Instr.rename_store, Operand.rename, Operand.bool]
      · rw [lower]
        · refine operand_inStep (ihLeft resolves.1 .operand)
            fun leftOp leftCode _ => ?_
          refine operand_inStep (ihRight resolves.2 .operand)
            fun rightOp rightCode _ => ?_
          dsimp only
          rw [← List.map_append]
          exact intoTemp_inStep attr.ty (leftCode ++ rightCode)
            (.binary op leftOp rightOp attr.ty)
        · exact isAnd
  | not attr operand ih =>
      intro resolves dest
      rw [lower]
      exact operand_inStep (ih resolves .operand) fun op code _ =>
        intoTemp_inStep .boolean code (.not op .boolean)
  | call attr receiver method args ihReceiver ihArgs =>
      intro resolves dest
      rw [Expr.resolves, Bool.and_eq_true] at resolves
      have onArgs := lowerAll_lowersInStep ihArgs resolves.2
      rw [lower]
      rcases direct : directReceiver? scope receiver with _ | ⟨kind, target⟩
      · have isValue : receiver.resolves scope = true := by
          cases named : receiver.namesClass scope with
          | false => simpa [named] using resolves.1
          | true =>
              obtain ⟨target, static⟩ := directReceiver?_static named
              simp [static] at direct
        refine operand_inStep (ihReceiver isValue .operand)
          fun target code _ => ?_
        exact invoke_inStep onArgs .virtual target code method attr.ty dest
      · have same := directReceiver?_rename fixes direct
        have invoked := invoke_inStep onArgs kind target [] method attr.ty dest
        rw [same] at invoked
        exact invoked
  | newObject attr className =>
      intro _ dest
      rw [lower]
      refine (InStep.temp (.object className)).bind fun temp _ => .pure ?_
      simp [Lowered.rename, Fragment.rename, Instr.rename, Instr.rename_store,
        Ir.Call.rename, Operand.renameTarget, CallKind.namesClass]
  | newArray attr size ih =>
      intro resolves dest
      rw [lower]
      exact operand_inStep (ih resolves .operand) fun op code _ =>
        intoTemp_inStep .intArray code (Lowering.newArray op)
  | arrayLiteral attr elements ih =>
      intro resolves dest
      rw [lower]
      refine (lowerAll_lowersInStep ih resolves).bind fun values _ => ?_
      refine (packArray_inStep values.1).bind fun packed _ => .pure ?_
      simp [Lowered.rename]
  | index attr array position ihArray ihPosition =>
      intro resolves dest
      rw [Expr.resolves, Bool.and_eq_true] at resolves
      rw [lower]
      refine operand_inStep (ihArray resolves.1 .operand)
        fun arrayOp arrayCode given => ?_
      obtain ⟨_, _, ran⟩ := given
      refine (arrayName_inStep (lower_computes_operand ran).2).bind
        fun name _ => ?_
      refine operand_inStep (ihPosition resolves.2 .operand)
        fun place code _ => ?_
      dsimp only
      rw [← List.map_append]
      exact finishElement_inStep (.element name place) (arrayCode ++ code) dest
  | length attr array ih =>
      intro resolves dest
      rw [lower]
      exact operand_inStep (ih resolves .operand) fun op code _ =>
        intoTemp_inStep .int code
          (.call { kind := .arrayLength, target := op, returnTy := .int })

theorem lower_inStep {expr : Expr}
    (fixes : scope.Keeps names.vars)
    (resolves : expr.resolves scope = true) (dest : Destination) :
    InStep names first second (Lowered.rename names) (expr.lower scope dest)
      (expr.lower scope dest) :=
  lowersInStep fixes expr resolves dest

theorem lowerOperand_inStep {expr : Expr}
    (fixes : scope.Keeps names.vars)
    (resolves : expr.resolves scope = true) :
    InStep names first second (renameParts names) (expr.lowerOperand scope)
      (expr.lowerOperand scope) :=
  (lower_inStep fixes resolves .operand).bind fun lowered _ =>
    parts_inStep lowered

end Tree.Expr

/-! ## Statements -/

namespace Lowering

variable {names : Ir.Renaming} {first second : Supply} {scope : Scope}
  {value : Tree.Expr}

theorem fallsThrough_rename (code : List Fragment) :
    fallsThrough (code.map (Fragment.rename names)) = fallsThrough code := by
  rw [fallsThrough, fallsThrough, List.getLast?_map]
  rcases code.getLast? with _ | _ | instr
  · rfl
  · rfl
  · simp [Fragment.rename]

theorem thenGoto_rename (label : String) (code : List Fragment) :
    (thenGoto label code).map (Fragment.rename names) =
      thenGoto (names.labels label)
        (code.map (Fragment.rename names)) := by
  simp only [thenGoto, fallsThrough_rename]
  split
  · simp [Fragment.rename, Instr.rename]
  · rfl

theorem increment?_rename {name : String} {ty : Ty} {step : Instr}
    (fixed : names.vars name = name)
    (h : increment? name ty value = some step) :
    step.rename names = step := by
  obtain ⟨_, _, _, _, _, _, _, _, ⟨_, _, rfl⟩ | ⟨_, _, rfl⟩⟩ :=
    increment?_eq_some h <;>
    simp [Instr.rename, Operand.rename, Operand.int, fixed]

theorem assignVar_inStep {name : String} (ty : Ty)
    (fixes : scope.Keeps names.vars)
    (isVariable : scope.IsVariable name)
    (resolves : value.resolves scope = true) :
    InStep names first second (List.map (Fragment.rename names))
      (assignVar scope name ty value) (assignVar scope name ty value) := by
  have fixed := fixes name isVariable
  rw [assignVar]
  cases hstep : increment? name ty value with
  | some step =>
      refine .pure ?_
      simp [Fragment.rename, Instr.rename_store, Operand.rename, fixed,
        increment?_rename fixed hstep]
  | none =>
      refine operand_inStep (Tree.Expr.lower_inStep fixes resolves _)
        fun operand code _ => .pure ?_
      simp [Fragment.rename, Instr.rename_store, Instr.rename, Operand.rename,
        fixed]

theorem assignField_inStep (symbol : Symbol)
    (fixes : scope.Keeps names.vars)
    (resolves : value.resolves scope = true) :
    InStep names first second (List.map (Fragment.rename names))
      (assignField scope symbol value) (assignField scope symbol value) := by
  refine operand_inStep (Tree.Expr.lower_inStep fixes resolves _)
    fun operand code _ => .pure ?_
  simp [Fragment.rename, Instr.rename, Operand.rename]

theorem assignElement_inStep {array position : Tree.Expr}
    (fixes : scope.Keeps names.vars)
    (onArray : array.resolves scope = true)
    (onPosition : position.resolves scope = true)
    (resolves : value.resolves scope = true) :
    InStep names first second (List.map (Fragment.rename names))
      (assignElement scope array position value)
      (assignElement scope array position value) := by
  refine (Tree.Expr.lowerOperand_inStep fixes onArray).bind
    fun ⟨arrayOp, arrayCode⟩ ⟨_, _, ran⟩ => ?_
  have simple := (Tree.Expr.lower_computes_operand
    (Tree.Expr.lowerOperand_eq_ok ran)).2
  refine (arrayName_inStep simple).bind fun name _ => ?_
  refine (Tree.Expr.lowerOperand_inStep fixes onPosition).bind
    fun place _ => ?_
  refine operand_inStep (Tree.Expr.lower_inStep fixes resolves _)
    fun operand code _ => .pure ?_
  simp [Fragment.rename, Instr.rename_store, Instr.rename, Operand.rename]

theorem assign_inStep {target : Tree.Expr}
    (fixes : scope.Keeps names.vars)
    (onTarget : (target.isName || target.resolves scope) = true)
    (resolves : value.resolves scope = true) :
    InStep names first second (List.map (Fragment.rename names))
      (assign scope target value) (assign scope target value) := by
  rw [← Tree.Expr.resolves_skipParens, Tree.Expr.isName] at onTarget
  rw [assign]
  cases form : target.skipParens with
  | var attr name =>
      dsimp only
      cases origin : scope.resolve name with
      | localVar symbol =>
          exact assignVar_inStep _ fixes ⟨symbol, .inl origin⟩ resolves
      | param symbol =>
          exact assignVar_inStep _ fixes ⟨symbol, .inr origin⟩ resolves
      | field symbol => exact assignField_inStep symbol fixes resolves
      | imported path | enclosing | unknown => exact .throw _
  | index attr array position =>
      simp only [form, Bool.false_or, Tree.Expr.resolves,
        Bool.and_eq_true] at onTarget
      exact assignElement_inStep fixes onTarget.1 onTarget.2 resolves
  | _ => exact .throw _

theorem ret_inStep {value : Option Tree.Expr}
    (fixes : scope.Keeps names.vars)
    (resolves : ∀ expr, value = some expr → expr.resolves scope = true) :
    InStep names first second (List.map (Fragment.rename names))
      (ret scope value) (ret scope value) := by
  cases value with
  | none => exact .pure rfl
  | some value =>
      refine operand_inStep
        (Tree.Expr.lower_inStep fixes (resolves value rfl) _)
        fun operand code _ => .pure ?_
      simp [Fragment.rename, Instr.rename]

end Lowering

namespace Tree.Stmt

variable {names : Ir.Renaming} {first second : Supply} {scope : Scope}

private def LowersInStep (names : Ir.Renaming) (first second : Supply)
    (scope : Scope) (stmt : Stmt) : Prop :=
  stmt.resolves scope = true →
    InStep names first second (List.map (Fragment.rename names))
      (stmt.lower scope) (stmt.lower scope)

private theorem lowerAll_lowersInStep {stmts : List Stmt}
    (each : ∀ stmt ∈ stmts, LowersInStep names first second scope stmt)
    (resolves : resolvesAll scope stmts = true) :
    InStep names first second (List.map (Fragment.rename names))
      (lowerAll scope stmts) (lowerAll scope stmts) := by
  induction stmts with
  | nil => exact .pure rfl
  | cons stmt rest ih =>
      rw [resolvesAll, Bool.and_eq_true] at resolves
      rw [lowerAll]
      refine (each stmt (by simp) resolves.1).bind fun code _ => ?_
      refine (ih (fun stmt member => each stmt (by simp [member]))
        resolves.2).bind fun restCode _ => .pure ?_
      simp

private theorem lowersInStep
    (fixes : scope.Keeps names.vars)
    (stmt : Stmt) : LowersInStep names first second scope stmt := by
  induction stmt with
  | block span body ih =>
      intro resolves
      exact lowerAll_lowersInStep ih resolves
  | assign span target value =>
      intro resolves
      rw [Stmt.resolves, Bool.and_eq_true] at resolves
      exact assign_inStep fixes resolves.1 resolves.2
  | expr span value =>
      intro resolves
      rw [lower]
      exact (Expr.lower_inStep fixes resolves _).bind fun lowered _ =>
        .pure rfl
  | ret span value =>
      intro resolves
      refine ret_inStep fixes ?_
      rintro expr rfl
      exact resolves
  | ifThen span cond onTrue ih =>
      intro resolves
      rw [Stmt.resolves, Bool.and_eq_true] at resolves
      rw [lower]
      refine (Expr.lowerOperand_inStep fixes resolves.1).bind
        fun condition _ => ?_
      refine (InStep.label (by decide)).bind fun thenLabel _ => ?_
      refine (InStep.label (by decide)).bind fun endLabel _ => ?_
      refine (ih resolves.2).bind fun trueCode _ => .pure ?_
      simp [thenGoto_rename, Fragment.rename, Instr.rename]
  | ifElse span cond onTrue onFalse ihTrue ihFalse =>
      intro resolves
      simp only [Stmt.resolves, Bool.and_eq_true] at resolves
      rw [lower]
      refine (Expr.lowerOperand_inStep fixes resolves.1.1).bind
        fun condition _ => ?_
      refine (InStep.label (by decide)).bind fun thenLabel _ => ?_
      refine (InStep.label (by decide)).bind fun endLabel _ => ?_
      refine (ihFalse resolves.2).bind fun falseCode _ => ?_
      refine (ihTrue resolves.1.2).bind fun trueCode _ => .pure ?_
      simp [thenGoto_rename, Fragment.rename, Instr.rename]
  | loop span cond body ih =>
      intro resolves
      rw [Stmt.resolves, Bool.and_eq_true] at resolves
      rw [lower]
      refine (InStep.label (by decide)).bind fun condLabel _ => ?_
      refine (InStep.label (by decide)).bind fun bodyLabel _ => ?_
      refine (InStep.label (by decide)).bind fun endLabel _ => ?_
      refine (Expr.lowerOperand_inStep fixes resolves.1).bind
        fun condition _ => ?_
      refine (ih resolves.2).bind fun bodyCode _ => .pure ?_
      simp [thenGoto_rename, Fragment.rename, Instr.rename]

theorem lowerAll_inStep (names : Ir.Renaming) (first second : Supply)
    {stmts : List Stmt}
    (fixes : scope.Keeps names.vars)
    (resolves : resolvesAll scope stmts = true) :
    InStep names first second (List.map (Fragment.rename names))
      (lowerAll scope stmts) (lowerAll scope stmts) :=
  lowerAll_lowersInStep (fun stmt _ => lowersInStep fixes stmt) resolves

end Tree.Stmt

end JavaMinus
