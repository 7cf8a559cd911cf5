import JavaMinus.Proofs.Lists
import JavaMinus.Proofs.Lowering.Paths
import Mathlib.Data.Set.Insert

/-!
# Variables that expressions set

The code of an expression reads only variables and what it has set itself.  A
name that is no variable is taken for a class, and may be called like a
temporary; so names that are used as values have to be declared.
-/

namespace JavaMinus

open Ir (Operand Instr Call Fragment)
open Lowering

/-! ## Names that are used as values -/

/-- Whether the name has a value: that of a variable or field, or a receiver. -/
def Scope.hasValue (scope : Scope) (name : String) : Bool :=
  match scope.resolve name with
  | .localVar _ | .param _ | .field _ | .enclosing => true
  | .imported _ | .unknown => false

def Scope.declared (scope : Scope) : Set String :=
  { name | scope.IsVariable name }

namespace Tree

namespace Expr

/-- Whether the expression only names a class that a method is called on. -/
def namesClass (scope : Scope) (expr : Expr) : Bool :=
  match expr.skipParens with
  | .var _ name => !scope.hasValue name
  | _ => false

def isName (expr : Expr) : Bool :=
  match expr.skipParens with
  | .var _ _ => true
  | _ => false

mutual

def resolves (scope : Scope) : Expr → Bool
  | .int _ _ | .bool _ _ | .self _ | .newObject _ _ => true
  | .var _ name => scope.hasValue name
  | .binary _ _ left right => left.resolves scope && right.resolves scope
  | .call _ receiver _ args =>
      (receiver.namesClass scope || receiver.resolves scope) &&
        resolvesAll scope args
  | .arrayLiteral _ elements => resolvesAll scope elements
  | .index _ array position => array.resolves scope && position.resolves scope
  | .not _ inner | .paren _ inner | .newArray _ inner | .length _ inner =>
      inner.resolves scope

def resolvesAll (scope : Scope) : List Expr → Bool
  | [] => true
  | expr :: rest => expr.resolves scope && resolvesAll scope rest

end

variable {scope : Scope}

theorem resolves_skipParens (expr : Expr) :
    expr.skipParens.resolves scope = expr.resolves scope := by
  induction expr with
  | paren attr inner ih => simpa [skipParens, resolves] using ih
  | _ => rfl

end Expr

namespace Stmt

mutual

def resolves (scope : Scope) : Stmt → Bool
  | .block _ body => resolvesAll scope body
  | .assign _ target value =>
      (target.isName || target.resolves scope) && value.resolves scope
  | .expr _ value | .ret _ (some value) => value.resolves scope
  | .ret _ none => true
  | .ifThen _ cond onTrue => cond.resolves scope && onTrue.resolves scope
  | .ifElse _ cond onTrue onFalse =>
      cond.resolves scope && onTrue.resolves scope && onFalse.resolves scope
  | .loop _ cond body => cond.resolves scope && body.resolves scope

def resolvesAll (scope : Scope) : List Stmt → Bool
  | [] => true
  | stmt :: rest => stmt.resolves scope && resolvesAll scope rest

end

end Stmt

def Program.resolves (table : SymbolTable) (program : Program) : Bool :=
  program.declared.methods.all fun method =>
    Stmt.resolvesAll { table, method := method.name } method.body

end Tree

/-! ## Pieces of code -/

namespace Marks

def within (marks : Marks) (code : List Fragment) (others : Marks) : Marks :=
  fun name => if name ∈ labelNames code then marks name else others name

variable {marks others : Marks} {code code' : List Fragment}
  {known : Set String} {name : String}

theorem within_of_mem (member : name ∈ labelNames code) :
    marks.within code others name = marks name :=
  if_pos member

theorem within_of_not_mem (absent : name ∉ labelNames code) :
    marks.within code others name = others name :=
  if_neg absent

theorem certified_within (h : Certified marks known code)
    (closed : targets code ⊆ labelNames code) :
    Certified (marks.within code others) known code :=
  h.congr (fun _ member => (within_of_mem member).symm)
    fun _ target => (within_of_mem (closed target)).symm

theorem settled_within :
    settled (marks.within code others) known code =
      settled marks known code :=
  settled_congr fun _ member => within_of_mem member

theorem certified_beside (h : Certified others known code')
    (closed : targets code' ⊆ labelNames code')
    (apart : (labelNames code).Disjoint (labelNames code')) :
    Certified (marks.within code others) known code' :=
  h.congr (fun _ member => (within_of_not_mem (apart.symm member)).symm)
    fun _ target => (within_of_not_mem (apart.symm (closed target))).symm

theorem settled_beside
    (apart : (labelNames code).Disjoint (labelNames code')) :
    settled (marks.within code others) known code' =
      settled others known code' :=
  settled_congr fun _ member => within_of_not_mem (apart.symm member)

end Marks

/-- An instruction that has no label and leads to none. -/
def Ir.Instr.isPlain (instr : Instr) : Bool :=
  !instr.isJump && instr.target?.isNone

namespace Lowering

theorem isPlain_store (dest : Operand) (value : Instr) :
    (Instr.store dest value).isPlain = true := rfl

theorem certified_of_plain {marks : Marks} {known : Set String}
    {code : List Fragment}
    (plain : ∀ fragment ∈ code, ∃ instr, fragment = .instr instr ∧
      instr.isPlain = true ∧ ∀ name ∈ instr.reads, name ∈ known) :
    Certified marks known code ∧ known ⊆ settled marks known code := by
  induction code generalizing known with
  | nil => exact ⟨trivial, subset_rfl⟩
  | cons fragment rest ih =>
      obtain ⟨instr, rfl, isPlain, reads⟩ := plain fragment (by simp)
      simp only [Instr.isPlain, Bool.and_eq_true, Bool.not_eq_true',
        Option.isNone_iff_eq_none] at isPlain
      have more : known ⊆ Fragment.after marks known (.instr instr) := by
        simp [Fragment.after, isPlain.1]
      have others : ∀ fragment ∈ rest, ∃ instr', fragment = .instr instr' ∧
          instr'.isPlain = true ∧ ∀ name ∈ instr'.reads,
            name ∈ Fragment.after marks known (.instr instr) := by
        intro fragment member
        obtain ⟨instr', rfl, isPlain', reads'⟩ :=
          plain fragment (by simp [member])
        exact ⟨instr', rfl, isPlain', fun name member =>
          more (reads' name member)⟩
      obtain ⟨certified, keeps⟩ := ih others
      refine ⟨⟨⟨reads, ?_⟩, certified⟩, more.trans keeps⟩
      simp [isPlain.2]

/-- With what is known before it, the code sets what is needed after it. -/
structure Secures (before after : Supply) (known : Set String)
    (code : List Fragment) (gained : Set String) : Prop
    extends Draws before after code where
  certified : ∃ marks, Certified marks known code ∧
    gained ⊆ settled marks known code

namespace Secures

variable {first second third : Supply} {known more gained gained' : Set String}
  {code code' : List Fragment} {instr : Instr}

theorem nil (supply : Supply) (known : Set String) :
    Secures supply supply known [] known where
  toDraws := .nil supply
  certified := ⟨fun _ => ∅, trivial, subset_rfl⟩

theorem mono (h : Secures first second known code gained)
    (less : known ⊆ more) (fewer : gained' ⊆ gained) :
    Secures first second more code gained' where
  toDraws := h.toDraws
  certified := by
    obtain ⟨marks, certified, sets⟩ := h.certified
    exact ⟨marks, certified.mono less,
      fewer.trans (sets.trans (settled_mono less))⟩

theorem append (h : Secures first second known code gained)
    (h' : Secures second third gained code' gained') :
    Secures first third known (code ++ code') gained' where
  toDraws := h.toDraws.append h'.toDraws
  certified := by
    have apart : (labelNames code).Disjoint (labelNames code') := by
      have distinct := (h.toDraws.append h'.toDraws).labelled.distinct
      rw [labelNames_append] at distinct
      exact List.disjoint_of_nodup_append distinct
    obtain ⟨marks, certified, sets⟩ := h.certified
    obtain ⟨marks', certified', sets'⟩ := h'.certified
    refine ⟨marks.within code marks', certified_append.mpr ⟨?_, ?_⟩, ?_⟩
    · exact Marks.certified_within certified h.closed
    · rw [Marks.settled_within]
      exact (Marks.certified_beside certified' h'.closed apart).mono sets
    · rw [settled_append, Marks.settled_within]
      rw [← Marks.settled_beside apart] at sets'
      exact sets'.trans (settled_mono sets)

theorem of_plain (h : first.Extends second)
    (plain : ∀ fragment ∈ code, ∃ instr, fragment = .instr instr ∧
      instr.isPlain = true ∧ ∀ name ∈ instr.reads, name ∈ known) :
    Secures first second known code known where
  toDraws := by
    refine .of_straight h ?_ ?_
    · refine List.eq_nil_iff_forall_not_mem.mpr fun name member => ?_
      obtain ⟨instr, isLabel, _⟩ := plain _ (mem_labelNames.mp member)
      cases isLabel
    · refine List.eq_nil_iff_forall_not_mem.mpr fun name member => ?_
      obtain ⟨instr, member, target⟩ := mem_targets.mp member
      obtain ⟨_, same, isPlain, _⟩ := plain _ member
      cases same
      simp [Instr.isPlain, target] at isPlain
  certified := ⟨fun _ => ∅, certified_of_plain plain⟩

theorem single (h : first.Extends second) (isPlain : instr.isPlain = true)
    (reads : ∀ name ∈ instr.reads, name ∈ known) :
    Secures first second known [.instr instr]
      (known ∪ { name | instr.sets? = some name }) := by
  have plain : ∀ fragment ∈ [Fragment.instr instr], ∃ instr',
      fragment = .instr instr' ∧ instr'.isPlain = true ∧
        ∀ name ∈ instr'.reads, name ∈ known := by
    simpa using ⟨isPlain, reads⟩
  refine ⟨(of_plain h plain).toDraws, fun _ => ∅,
    (certified_of_plain plain).1, ?_⟩
  simp only [Instr.isPlain, Bool.and_eq_true, Bool.not_eq_true'] at isPlain
  simp [Fragment.after, isPlain.1]

theorem andInstr (h : Secures first second known code gained)
    (h' : second.Extends third) (isPlain : instr.isPlain = true)
    (reads : ∀ name ∈ instr.reads, name ∈ gained) :
    Secures first third known (code ++ [.instr instr])
      (gained ∪ { name | instr.sets? = some name }) :=
  h.append (.single h' isPlain reads)

end Secures

/--
Pieces of code that have no labels in common can be certified with the same
marks.  Those of all other labels may be chosen.
-/
theorem exists_marks (own : Marks) {known : Set String}
    (pieces : List (List Fragment × Set String))
    (each : ∀ piece ∈ pieces, ∃ before after,
      Secures before after known piece.1 piece.2)
    (apart : pieces.Pairwise fun piece other =>
      (labelNames piece.1).Disjoint (labelNames other.1)) :
    ∃ marks : Marks,
      (∀ label, (∀ piece ∈ pieces, label ∉ labelNames piece.1) →
        marks label = own label) ∧
      ∀ piece ∈ pieces, Certified marks known piece.1 ∧
        piece.2 ⊆ settled marks known piece.1 := by
  induction pieces with
  | nil => exact ⟨own, by simp, by simp⟩
  | cons piece rest ih =>
      rw [List.forall_mem_cons] at each
      rw [List.pairwise_cons] at apart
      obtain ⟨⟨before, after, secures⟩, each⟩ := each
      obtain ⟨marks, certified, sets⟩ := secures.certified
      obtain ⟨others, atOwn, fits⟩ := ih each apart.2
      refine ⟨marks.within piece.1 others, ?_, ?_⟩
      · intro label absent
        rw [List.forall_mem_cons] at absent
        rw [Marks.within_of_not_mem absent.1]
        exact atOwn label absent.2
      · refine List.forall_mem_cons.mpr ⟨?_, fun other member => ?_⟩
        · exact ⟨Marks.certified_within certified secures.closed,
            sets.trans Marks.settled_within.symm.subset⟩
        · obtain ⟨_, _, secures'⟩ := each other member
          have apart' := apart.1 other member
          rw [Marks.settled_beside apart']
          exact ⟨Marks.certified_beside (fits other member).1 secures'.closed
            apart', (fits other member).2⟩

/-! ## Expressions -/

def uses (operand : Operand) : Set String :=
  { name | name ∈ operand.variables }

def usesAll (operands : List Operand) : Set String :=
  { name | ∃ operand ∈ operands, name ∈ operand.variables }

def usesResult (lowered : Lowered) : Set String :=
  lowered.result.elim ∅ uses

@[simp] theorem mem_uses {name : String} {operand : Operand} :
    name ∈ uses operand ↔ name ∈ operand.variables :=
  Iff.rfl

@[simp] theorem uses_var (name : String) (ty : Ty) :
    uses (.var name ty) = {name} := by
  ext other
  simp [uses, Operand.variables]

@[simp] theorem uses_self (className : String) :
    uses (.self className) = ∅ := by
  simp [uses, Operand.variables]

theorem usesResult_some (operand : Operand) (code : List Fragment) :
    usesResult ⟨some operand, code⟩ = uses operand := rfl

theorem uses_of_call {call : Call} {name : String}
    (h : name ∈ (Instr.call call).reads) :
    name ∈ (if call.kind = .static then ∅ else uses call.target) ∪
      usesAll call.args := by
  simp only [Instr.reads, List.mem_flatMap] at h
  obtain ⟨operand, member, isRead⟩ := h
  rw [Ir.Call.loads] at member
  cases kind : call.kind with
  | new =>
      simp only [kind] at member
      exact .inr ⟨operand, member, isRead⟩
  | static =>
      simp only [kind, Jvm.loaded, if_true] at member
      exact .inr ⟨operand, member, isRead⟩
  | arrayLength =>
      simp only [kind, List.mem_singleton] at member
      subst member
      exact .inl isRead
  | special | virtual =>
      simp only [kind, Jvm.loaded, reduceCtorEq, if_false, List.mem_cons]
        at member
      rcases member with rfl | member
      · exact .inl isRead
      · exact .inr ⟨operand, member, isRead⟩

variable {scope : Scope} {supply after before : Supply} {lowered : Lowered}
  {code : List Fragment} {known gained : Set String}

theorem Secures.andStore {name : String} {ty : Ty} {value : Instr}
    (h : Secures before supply known code gained)
    (drawn : supply.Drawn after name)
    (reads : ∀ name ∈ value.reads, name ∈ gained) (less : known ⊆ gained) :
    Secures before after known
      (code ++ [.instr (.store (.var name ty) value)])
      (known ∪ usesResult ⟨some (.var name ty),
        code ++ [.instr (.store (.var name ty) value)]⟩) := by
  refine (h.andInstr drawn.toExtends
    (isPlain_store (.var name ty) value) reads).mono subset_rfl ?_
  rw [usesResult_some]
  refine Set.union_subset_union less ?_
  simp [Instr.sets?, Instr.store]

theorem intoTemp_secures {ty : Ty} {value : Instr}
    (h : intoTemp ty code value supply = .ok lowered after)
    (secures : Secures before supply known code gained)
    (reads : ∀ name ∈ value.reads, name ∈ gained) (less : known ⊆ gained) :
    Secures before after known lowered.code (known ∪ usesResult lowered) := by
  obtain ⟨name, drawn, rfl⟩ := intoTemp_eq_ok h
  exact secures.andStore drawn reads less

theorem finishCall_secures {dest : Destination} {call : Call}
    (h : finishCall call code dest supply = .ok lowered after)
    (secures : Secures before supply known code gained)
    (reads : ∀ name ∈ (Instr.call call).reads, name ∈ gained)
    (less : known ⊆ gained) :
    Secures before after known lowered.code (known ∪ usesResult lowered) := by
  cases dest with
  | discarded =>
      obtain ⟨rfl, rfl⟩ := Action.pure_eq_ok.mp h
      refine (secures.andInstr (.refl supply) rfl reads).mono subset_rfl ?_
      simpa [usesResult, Instr.sets?] using less
  | assigned ty | returned ty | operand =>
      exact intoTemp_secures h secures reads less

theorem finishElement_secures {dest : Destination} {element : Operand}
    (h : finishElement element code dest supply = .ok lowered after)
    (secures : Secures before supply known code gained)
    (reads : ∀ name ∈ element.variables, name ∈ gained)
    (less : known ⊆ gained) :
    Secures before after known lowered.code (known ∪ usesResult lowered) := by
  cases dest with
  | discarded | operand => exact intoTemp_secures h secures reads less
  | assigned ty | returned ty =>
      obtain ⟨rfl, rfl⟩ := Action.pure_eq_ok.mp h
      rw [usesResult_some]
      exact secures.mono subset_rfl (Set.union_subset less reads)

theorem packArray_secures {values : List Operand} {array : Operand}
    (h : packArray values supply = .ok (array, code) after)
    (reads : usesAll values ⊆ known) :
    Secures supply after known code (known ∪ uses array) := by
  obtain ⟨name, drawn, _, rfl, rfl⟩ := packArray_eq_ok h
  have made : Secures supply after known
      [.instr (.store (.var name .intArray)
        (newArray (.int (Int32.ofNat values.length))))]
      (known ∪ uses (.var name .intArray)) := by
    refine (Secures.single drawn.toExtends rfl ?_).mono subset_rfl ?_
    · simp [Instr.reads, Instr.store, newArray, Ir.Call.loads, Operand.int,
        Operand.variables]
    · refine Set.union_subset_union_right _ ?_
      simp [Instr.sets?, Instr.store]
  rw [← List.singleton_append]
  refine made.append (.of_plain (.refl after) fun fragment member => ?_)
  obtain ⟨index, value, isValue, rfl⟩ := mem_elementStores member
  refine ⟨_, rfl, rfl, fun other isRead => ?_⟩
  simp only [Instr.reads, Instr.store, Operand.int, Operand.variables,
    List.cons_append, List.nil_append, List.mem_cons] at isRead
  rcases isRead with rfl | isRead
  · exact .inr (by simp)
  · exact .inl (reads ⟨value, isValue, isRead⟩)

theorem packVarargs_secures {callee : Option Signature}
    {args passed : List Operand}
    (h : packVarargs callee args supply = .ok (passed, code) after)
    (reads : usesAll args ⊆ known) :
    Secures supply after known code (known ∪ usesAll passed) := by
  rcases packVarargs_eq_ok h with
    ⟨_, rfl, rfl, rfl⟩ | ⟨fixed, array, _, hpack, rfl⟩
  · exact (Secures.nil _ known).mono subset_rfl
      (Set.union_subset subset_rfl reads)
  · refine (packArray_secures hpack ?_).mono subset_rfl
      (Set.union_subset Set.subset_union_left ?_)
    · rintro name ⟨value, member, isRead⟩
      exact reads ⟨value, List.mem_of_mem_drop member, isRead⟩
    · rintro name ⟨value, member, isRead⟩
      rcases List.mem_append.mp member with member | member
      · exact .inl (reads ⟨value, List.mem_of_mem_take member, isRead⟩)
      · rw [List.mem_singleton.mp member] at isRead
        exact .inr isRead

end Lowering

namespace Tree.Expr

variable {scope : Scope} {supply after : Supply} {code : List Fragment}
  {known : Set String}

theorem namesClass_of_directReceiver? {receiver : Expr}
    (direct : directReceiver? scope receiver = none) :
    receiver.namesClass scope = false := by
  rw [directReceiver?] at direct
  rw [namesClass]
  split
  next attr name form =>
    rw [form] at direct
    unfold Scope.hasValue
    cases origin : scope.resolve name <;> simp [origin] at direct ⊢
  · rfl

private theorem receives_secures {receiver : Expr} {kind : Ir.CallKind}
    {target : Operand}
    (h : Receives scope receiver kind target code supply after)
    (base : scope.declared ⊆ known)
    (onValue : receiver.lower scope .operand supply =
        .ok ⟨some target, code⟩ after →
      receiver.namesClass scope = false →
      Secures supply after known code (known ∪ uses target)) :
    Secures supply after known code
      (known ∪ if kind = .static then ∅ else uses target) := by
  rcases h with ⟨direct, rfl, rfl⟩ | ⟨direct, rfl, hreceiver⟩
  · refine (Secures.nil _ known).mono subset_rfl
      (Set.union_subset subset_rfl ?_)
    rw [directReceiver?] at direct
    split at direct
    · cases direct
      simp
    next attr name _ =>
      split at direct
      next symbol origin =>
        cases direct
        simpa using base ⟨symbol, .inl origin⟩
      next symbol origin =>
        cases direct
        simpa using base ⟨symbol, .inr origin⟩
      · cases direct
      all_goals
        cases direct
        simp
    · cases direct
  · exact onValue hreceiver (namesClass_of_directReceiver? direct)

private theorem newObject_secures {className name : String}
    (drawn : supply.Drawn after name) :
    Secures supply after known
      [.instr (.store (.var name (.object className))
          (.call {
            kind := .new
            target := .var className (.object className)
            returnTy := .object className })),
        .instr (.call {
          kind := .special
          target := .var name (.object className)
          method := some "<init>"
          returnTy := .void })]
      (known ∪ uses (.var name (.object className))) := by
  have made : Secures supply after known
      [.instr (.store (.var name (.object className))
        (.call {
          kind := .new
          target := .var className (.object className)
          returnTy := .object className }))] (known ∪ {name}) := by
    refine (Secures.single drawn.toExtends rfl ?_).mono subset_rfl ?_
    · simp [Instr.reads, Instr.store, Ir.Call.loads]
    · simp [Instr.sets?, Instr.store]
  refine (made.andInstr (.refl after) rfl ?_).mono subset_rfl ?_
  · simp [Instr.reads, Ir.Call.loads, Jvm.loaded, Operand.variables]
  · simp

private theorem and_secures {before first second third fourth : Supply}
    {leftOp rightOp : Operand} {leftCode rightCode : List Fragment}
    {name rightLabel endLabel : String}
    (onLeft : Secures before first known leftCode (known ∪ uses leftOp))
    (drawn : first.Drawn second name)
    (hright : Lower.label "andRight" second = .ok rightLabel third)
    (hend : Lower.label "andEnd" third = .ok endLabel fourth)
    (onRight : Secures fourth after known rightCode
      (known ∪ uses rightOp)) :
    Secures before after known
      (leftCode ++
        [.instr (.branch leftOp rightLabel),
          .instr (.store (.var name .boolean) (.single (.bool false))),
          .instr (.goto endLabel),
          .label rightLabel] ++
        rightCode ++
        [.instr (.store (.var name .boolean) (.single rightOp)),
          .label endLabel]) (known ∪ {name}) := by
  have draws := and_draws leftOp rightOp onLeft.toDraws drawn hright hend
    onRight.toDraws
  have distinct := draws.labelled.distinct
  simp only [labelNames_append, labelNames_instr, labelNames_label,
    labelNames_nil, List.nodup_append, List.nodup_cons, List.mem_append,
    List.mem_singleton] at distinct
  -- The result is known to be set at the end only.
  obtain ⟨all, atOwn, each⟩ := exists_marks
    (fun label => if label = endLabel then known ∪ {name} else known)
    [(leftCode, known ∪ uses leftOp), (rightCode, known ∪ uses rightOp)]
    (by simpa using ⟨⟨_, _, onLeft⟩, _, _, onRight⟩)
    (by simp; grind [List.Disjoint])
  simp only [List.forall_mem_cons, List.not_mem_nil, false_implies,
    implies_true, and_true] at atOwn each
  obtain ⟨⟨leftFits, leftSets⟩, rightFits, rightSets⟩ := each
  have atRight : all rightLabel = known := by
    rw [atOwn rightLabel (by grind), if_neg (by grind)]
  have atEnd : all endLabel = known ∪ {name} := by
    rw [atOwn endLabel (by grind), if_pos rfl]
  refine ⟨draws, all, ?_, ?_⟩
  · obtain ⟨leftKeeps, leftUses⟩ := Set.union_subset_iff.mp leftSets
    obtain ⟨rightKeeps, rightUses⟩ := Set.union_subset_iff.mp rightSets
    simpa [certified_append, Certified, Fragment.Fits, Fragment.after,
      Instr.reads, Instr.target?, Instr.isJump, Instr.store, Instr.sets?,
      Operand.bool, Operand.variables, atRight, atEnd, leftFits,
      rightFits] using
      And.intro ⟨leftUses, leftKeeps⟩
        ⟨Set.insert_subset_insert leftKeeps, rightUses,
          Set.insert_subset_insert rightKeeps⟩
  · simp [Fragment.after, atEnd]

private theorem lower_secures_result {expr : Expr} {dest : Destination}
    {lowered : Lowered}
    (h : expr.lower scope dest supply = .ok lowered after)
    (resolves : expr.resolves scope = true)
    (base : scope.declared ⊆ known) :
    Secures supply after known lowered.code (known ∪ usesResult lowered) := by
  induction h using lower_induction (fun exprs supply operands code after =>
    resolvesAll scope exprs = true → ∀ known, scope.declared ⊆ known →
      Secures supply after known code (known ∪ usesAll operands))
    generalizing known with
  | nil _ known _ =>
      exact (Secures.nil _ known).mono subset_rfl (by simp [usesAll])
  | cons _ _ onFirst onRest resolves known base =>
      simp only [resolvesAll, Bool.and_eq_true] at resolves
      refine ((onFirst resolves.1 base).append
        (onRest resolves.2 _ (base.trans Set.subset_union_left))).mono
          subset_rfl ?_
      rw [Set.union_assoc]
      refine Set.union_subset_union_right known ?_
      rintro name ⟨operand, member, isRead⟩
      rcases List.mem_cons.mp member with rfl | member
      · exact .inl isRead
      · exact .inr ⟨operand, member, isRead⟩
  | int | bool | self | readEnclosing =>
      refine (Secures.nil _ known).mono subset_rfl ?_
      simp [Lowered.ofOperand, usesResult_some, uses, Operand.variables,
        Operand.int, Operand.bool]
  | readVar origin =>
      refine (Secures.nil _ known).mono subset_rfl
        (Set.union_subset subset_rfl ?_)
      simpa [Lowered.ofOperand, usesResult_some] using base ⟨_, origin⟩
  | readField _ drawn =>
      exact (Secures.nil _ known).andStore drawn
        (by simp [Instr.reads, Operand.variables]) subset_rfl
  | readClass origin =>
      rcases origin with origin | ⟨path, origin⟩ <;>
        simp [Expr.resolves, Scope.hasValue, origin] at resolves
  | paren _ ih =>
      rw [Expr.resolves] at resolves
      exact ih resolves base
  | and _ drawn hright hend _ ihLeft ihRight =>
      simp only [Expr.resolves, Bool.and_eq_true] at resolves
      rw [usesResult_some, uses_var]
      exact and_secures (ihLeft resolves.1 base) drawn hright hend
        (ihRight resolves.2 base)
  | binary _ _ _ _ drawn ihLeft ihRight =>
      simp only [Expr.resolves, Bool.and_eq_true] at resolves
      refine ((ihLeft resolves.1 base).append
        (ihRight resolves.2 (base.trans Set.subset_union_left))).andStore
          drawn (fun other isRead => ?_)
          (Set.subset_union_left.trans Set.subset_union_left)
      rcases List.mem_append.mp isRead with isRead | isRead
      · exact .inl (.inr isRead)
      · exact .inr isRead
  | not _ drawn ih =>
      rw [Expr.resolves] at resolves
      exact (ih resolves base).andStore drawn (fun _ => .inr)
        Set.subset_union_left
  | call receives _ hpack hfinish ihReceiver ihArgs =>
      simp only [Expr.resolves, Bool.and_eq_true] at resolves
      have onTarget := receives_secures receives base fun hreceiver isValue =>
        ihReceiver hreceiver (by simpa [isValue] using resolves.1) base
      refine finishCall_secures hfinish ((onTarget.append
        (ihArgs resolves.2 _ (base.trans Set.subset_union_left))).append
          (packVarargs_secures hpack Set.subset_union_right))
        (fun name isRead => ?_) (Set.subset_union_left.trans
          (Set.subset_union_left.trans Set.subset_union_left))
      rcases uses_of_call isRead with isRead | isRead
      · exact .inl (.inl (.inr isRead))
      · exact .inr isRead
  | newObject drawn => exact newObject_secures drawn
  | newArray _ drawn ih =>
      rw [Expr.resolves] at resolves
      refine (ih resolves base).andStore drawn ?_ Set.subset_union_left
      intro other isRead
      exact .inr (by simpa [Lowering.newArray, Instr.reads, Ir.Call.loads,
        usesResult_some] using isRead)
  | arrayLiteral _ hpack ih =>
      rw [Expr.resolves] at resolves
      refine ((ih resolves known base).append (packArray_secures hpack
        Set.subset_union_right)).mono subset_rfl ?_
      rw [usesResult_some]
      exact Set.union_subset_union_left _ Set.subset_union_left
  | index _ _ hfinish ihArray ihPosition =>
      simp only [Expr.resolves, Bool.and_eq_true] at resolves
      refine finishElement_secures hfinish
        ((ihArray resolves.1 base).append
          (ihPosition resolves.2 (base.trans Set.subset_union_left))) ?_
        (Set.subset_union_left.trans Set.subset_union_left)
      intro other isRead
      rcases List.mem_cons.mp isRead with rfl | isRead
      · exact .inl (.inr (by simp [usesResult_some]))
      · exact .inr isRead
  | length _ drawn ih =>
      rw [Expr.resolves] at resolves
      refine (ih resolves base).andStore drawn ?_ Set.subset_union_left
      intro other isRead
      exact .inr (by simpa [Instr.reads, Ir.Call.loads, usesResult_some]
        using isRead)

theorem lower_secures {expr : Expr} {dest : Destination} {operand : Operand}
    (h : expr.lower scope dest supply = .ok ⟨some operand, code⟩ after)
    (resolves : expr.resolves scope = true)
    (base : scope.declared ⊆ known) :
    Secures supply after known code (known ∪ uses operand) :=
  lower_secures_result h resolves base

theorem lower_secures_discarded {expr : Expr} {lowered : Lowered}
    (h : expr.lower scope .discarded supply = .ok lowered after)
    (resolves : expr.resolves scope = true) :
    Secures supply after scope.declared lowered.code scope.declared :=
  (lower_secures_result h resolves subset_rfl).mono subset_rfl
    Set.subset_union_left

end Tree.Expr

end JavaMinus
