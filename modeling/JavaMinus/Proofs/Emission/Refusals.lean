import JavaMinus.Proofs.Emission.Methods
import JavaMinus.Proofs.Emission.Progress
import JavaMinus.Proofs.Lowering.LabelTables

/-!
# What is refused

Lowered code can be emitted, apart from a few exceptions: a call without a
result that is assigned, a receiver that is no object, a value that is
returned from a method without a result, and more values or variables than
the machine has room for.
-/

namespace JavaMinus

open Ir (Operand Instr Call Registers)

/-! ## The exceptions -/

theorem Ty.isVoid_eq_true {ty : Ty} : ty.isVoid = true ↔ ty = .void := by
  cases ty <;> simp [isVoid]

namespace Ir

def Call.loads (call : Call) : List Operand :=
  match call.kind with
  | .new => call.args
  | .arrayLength => [call.target]
  | .special | .static | .virtual => Jvm.loaded call

def Instr.variables : Instr → List String
  | .assign dest _ value => dest.variables ++ value.variables
  | .single operand | .not operand _ | .branch operand _
  | .ret _ (some operand) => operand.variables
  | .binary _ left right _ => left.variables ++ right.variables
  | .call invocation => invocation.loads.flatMap Operand.variables
  | .getField object _ => object.variables
  | .putField object _ value => object.variables ++ value.variables
  | .goto _ | .ret _ none => []

/-- All names that need a slot, some of them more than once. -/
def Method.variables (method : Method) : List String :=
  ((if method.isStatic then [] else ["this"]) ++
    method.params.map Symbol.name) ++
    method.instrs.flatMap Instr.variables

inductive Call.Refused (call : Call) : Breach → Prop where
  | tooMany (full : Jvm.maxDepth < call.loads.length) :
      Refused call (.fault .overflow)
  | noObject (isVirtual : call.kind = .virtual)
      (noClass : call.target.ty.className? = none) :
      Refused call .virtualOnNonObject

inductive Instr.Refused : Instr → Breach → Prop where
  | call {instr : Instr} {call : Call} {cause : Breach}
      (calls : instr.call? = some call) (refused : call.Refused cause) :
      Refused instr cause
  | noResult {dest : Operand} {ty : Ty} {call : Call} {op : Jvm.Opcode}
      (isVoid : call.returnTy = .void) :
      Refused (.assign dest ty (.call call)) (.fault (.underflow op 1 0))
  | ret {value : Operand} : Refused (.ret .void (some value)) .valueInVoidReturn

inductive Method.Refused (method : Method) : Error → Prop where
  | instr {instr : Instr} {cause : Breach} (member : instr ∈ method.instrs)
      (refused : instr.Refused cause) : Refused method (.breach cause)
  | params (many : Jvm.maxLocals < method.params.length) :
      Refused method (.tooManyLocals (Jvm.Method.targetName method))
  | variables (many : Jvm.maxLocals < method.variables.dedup.length) :
      Refused method (.tooManyLocals (Jvm.Method.targetName method))

end Ir

theorem Ir.Call.not_refused {call : Call}
    (few : call.loads.length ≤ Jvm.maxDepth)
    (object : call.kind = .virtual → call.target.ty.className? ≠ none) :
    ∀ cause, ¬ call.Refused cause := by
  rintro cause (full | ⟨isVirtual, noClass⟩)
  · omega
  · exact object isVirtual noClass

theorem Ir.Instr.not_refused {instr : Instr}
    (calls : ∀ call, instr.call? = some call → ∀ cause, ¬ call.Refused cause)
    (results : ∀ dest ty call, instr = .assign dest ty (.call call) →
      call.returnTy ≠ .void)
    (returns : ∀ value, instr ≠ .ret .void (some value)) :
    ∀ cause, ¬ instr.Refused cause := by
  intro cause refused
  cases refused with
  | call isCall refused => exact calls _ isCall cause refused
  | noResult isVoid => exact results _ _ _ rfl isVoid
  | ret => exact returns _ rfl

namespace Jvm

/--
From an empty stack the action goes through if nothing speaks against it, and
fails for one of the causes otherwise.
-/
inductive Gen.Settles (action : Gen Unit) (causes : Breach → Prop)
    (names : List String) (final : Nat) : Prop where
  | passes (fine : ∀ cause, ¬ causes cause)
      (passes : Passes action names 0 final)
  | stops (stops : Stops action 0 causes)

/-! ## Calls -/

def HasOwner (call : Call) : Prop :=
  (call.kind = .static ∧ ∃ name ty, call.target = .var name ty) ∨
    (call.kind ≠ .static ∧ ∃ name, call.target.ty.className? = some name)

namespace Gen

variable (linkage : Linkage) {call : Call}

theorem dispatch_eq_pure (own : Option Signature)
    (owned : HasOwner call) :
    ∃ op owner, dispatch linkage call own = pure (op, owner) := by
  rw [dispatch]
  rcases owned with ⟨isStatic, name, ty, target⟩ | ⟨notStatic, name, known⟩
  · simp only [isStatic, target]
    exact ⟨_, _, rfl⟩
  · cases kind : call.kind with
    | static => exact absurd kind notStatic
    | special =>
        simp only
        split
        · exact ⟨_, _, rfl⟩
        · rw [known]
          exact ⟨_, _, rfl⟩
    | new | arrayLength | virtual =>
        simp only [known]
        split
        · exact ⟨_, _, rfl⟩
        · exact ⟨_, _, rfl⟩

theorem invoke_passes (named : ∃ method, call.method = some method)
    (simple : ∀ operand ∈ loaded call, operand.isSimple = true)
    (few : (loaded call).length ≤ maxDepth) (owned : HasOwner call) :
    Passes (invoke linkage call) ((loaded call).flatMap Operand.variables) 0
      (if call.returnTy.isVoid then 0 else 1) := by
  obtain ⟨method, named⟩ := named
  obtain ⟨op, owner, known⟩ :=
    dispatch_eq_pure linkage (ownSignature? linkage call method) owned
  have all := loadAll_passes simple (by omega : 0 + _ ≤ maxDepth)
  simp only [invoke, named]
  refine all.andThen ?_
  rw [known, pure_bind, Nat.zero_add]
  refine .emit (.invoke _ _ _ _) (Nat.le_refl _) (by simp [loaded]) ?_
  split <;> decide

/-- The receiver is only looked at when everything is on the stack. -/
theorem invoke_stops (named : ∃ method, call.method = some method)
    (simple : ∀ operand ∈ loaded call, operand.isSimple = true)
    (few : (loaded call).length ≤ maxDepth) (isVirtual : call.kind = .virtual)
    (noClass : call.target.ty.className? = none) :
    Stops (invoke linkage call) 0 (· = .virtualOnNonObject) := by
  obtain ⟨method, named⟩ := named
  have all := loadAll_passes simple (by omega : 0 + _ ≤ maxDepth)
  have failed : dispatch linkage call (ownSignature? linkage call method) =
      throw .virtualOnNonObject := by
    simp [dispatch, isVirtual, noClass]
  simp only [invoke, named]
  refine .later all ?_
  rw [failed]
  exact .throw rfl

theorem invoke_overflows (named : ∃ method, call.method = some method)
    (simple : ∀ operand ∈ loaded call, operand.isSimple = true)
    (full : maxDepth < (loaded call).length) :
    Stops (invoke linkage call) 0 (· = .fault .overflow) := by
  obtain ⟨method, named⟩ := named
  have stops := loadAll_stops simple (Nat.zero_le _)
    (by omega : maxDepth < 0 + _)
  simp only [invoke, named]
  exact stops.atOnce

theorem loaded_isSimple (invokes : call.Invokes) :
    ∀ operand ∈ loaded call, operand.isSimple = true := by
  intro operand member
  rw [loaded] at member
  split at member
  · exact invokes.args operand member
  next notStatic =>
    rcases List.mem_cons.mp member with rfl | member
    · rcases invokes.target with ⟨_, simple⟩ | ⟨isStatic, _⟩
      · exact simple
      · exact absurd isStatic notStatic
    · exact invokes.args operand member

theorem loads_of_invokes (invokes : call.Invokes) :
    call.loads = loaded call := by
  rcases invokes.target with ⟨kind, _⟩ | ⟨kind, _⟩ <;> rw [Call.loads, kind]

theorem call_of_invokes (invokes : call.Invokes) :
    Gen.call linkage call = invoke linkage call := by
  rcases invokes.target with ⟨kind, _⟩ | ⟨kind, _⟩ <;> rw [Gen.call, kind]

theorem call_settles (invokes : call.Invokes) :
    Settles (instr linkage (.call call)) call.Refused
      (Instr.call call).variables (if call.returnTy.isVoid then 0 else 1) := by
  have simple := loaded_isSimple invokes
  rw [instr, call_of_invokes linkage invokes, Instr.variables]
  rcases Nat.lt_or_ge maxDepth call.loads.length with full | few
  · have stops := invoke_overflows linkage invokes.method simple
      (loads_of_invokes invokes ▸ full)
    exact .stops (stops.mono fun _ isCause => isCause ▸ .tooMany full)
  · have passes := invoke_passes linkage invokes.method simple
      (loads_of_invokes invokes ▸ few)
    rw [← loads_of_invokes invokes] at passes
    rcases invokes.target with ⟨isVirtual, _⟩ | ⟨isStatic, isClass⟩
    · cases known : call.target.ty.className? with
      | none =>
          have stops := invoke_stops linkage invokes.method simple
            (loads_of_invokes invokes ▸ few) isVirtual known
          exact .stops (stops.mono fun _ isCause =>
            isCause ▸ .noObject isVirtual known)
      | some className =>
          exact .passes (Call.not_refused few (by simp [known]))
            (passes (.inr ⟨by simp [isVirtual], className, known⟩))
    · exact .passes (Call.not_refused few (by simp [isStatic]))
        (passes (.inl ⟨isStatic, isClass⟩))

/-! ## Values -/

theorem value_cases {value : Instr} (yields : value.Yields) :
    (∃ call, value = .call call ∧ call.Invokes) ∨
      (Passes (instr linkage value) value.variables 0 1 ∧
        ∀ call, value.call? = some call →
          call.returnTy ≠ .void ∧ ∀ cause, ¬ call.Refused cause) := by
  cases yields with
  | single readable =>
      exact .inr ⟨load_passes_of_isReadable readable (by decide), nofun⟩
  | binary leftSimple rightSimple =>
      refine .inr ⟨.bind (load_passes leftSimple (by decide)) ?_, nofun⟩
      exact .andThen (load_passes rightSimple (by decide))
        (operate_passes _ (by decide))
  | not simple =>
      refine .inr ⟨.andThen (load_passes simple (by decide)) ?_, nofun⟩
      exact .bind (.emit (.plain rfl) (by decide) rfl (by decide))
        (.emit (.plain rfl) (by decide) rfl (by decide))
  | getField =>
      refine .inr ⟨.andThen (load_passes rfl (by decide)) ?_, nofun⟩
      exact .emit (.apply rfl _) (by decide) rfl (by decide)
  | newObject =>
      refine .inr ⟨.emit (.apply rfl _) (by decide) rfl (by decide), ?_⟩
      rintro _ ⟨⟩
      exact ⟨nofun, Call.not_refused (Nat.zero_le _) nofun⟩
  | newArray simple =>
      refine .inr ⟨?_, ?_⟩
      · exact Passes.bind (load_passes simple (by decide))
          (.emit (.apply rfl _) (by decide) rfl (by decide))
      · rintro _ ⟨⟩
        exact ⟨nofun,
          Call.not_refused (show 1 ≤ maxDepth by decide) nofun⟩
  | length simple =>
      refine .inr ⟨?_, ?_⟩
      · exact Passes.bind (load_passes simple (by decide))
          (.emit (.plain rfl) (by decide) rfl (by decide))
      · rintro _ ⟨⟩
        exact ⟨nofun,
          Call.not_refused (show 1 ≤ maxDepth by decide) nofun⟩
  | invoke invokes => exact .inl ⟨_, rfl, invokes⟩

theorem variables_of_increment {name : String} {ty : Ty} {value : Instr}
    {delta : Int8} (h : increment? name ty value = some delta) :
    ∀ other ∈ value.variables, other = name := by
  cases value with
  | binary op left right ty' =>
      obtain ⟨step, known, _⟩ := Option.bind_eq_some_iff.mp h
      obtain ⟨_, _, _, ⟨_, rfl, rfl, _⟩ | ⟨_, rfl, rfl, _⟩ | ⟨_, rfl, rfl, _⟩⟩ :=
        step?_eq_some known <;>
        simp [Instr.variables, Operand.variables]
  | _ => contradiction

theorem assignVar_passes {name : String} {ty ty' : Ty} {value : Instr}
    (h : Passes (instr linkage value) value.variables 0 1) :
    Passes (instr linkage (.assign (.var name ty') ty value))
      (name :: value.variables) 0 0 := by
  have stored : Passes (do instr linkage value; store name ty)
      (value.variables ++ [name]) 0 0 :=
    h.bind (store_passes name ty (Nat.zero_le _))
  rw [instr]
  cases known : increment? name ty value with
  | none =>
      rw [tryIncrement, known]
      exact stored.of_iff (by simp [or_comm])
  | some delta =>
      have only := variables_of_increment known
      intro frame atStart
      let met : Frame :=
        { frame with registers := frame.registers.allocate name }
      by_cases small : frame.registers.slot name ≤ 255
      · have added : Passes (emit (.increment (frame.registers.slot name)
            delta)) [] 0 0 :=
          .emit (.increment small delta) (by decide) rfl (by decide)
        obtain ⟨after, ok, atFinal, kept⟩ := added met atStart
        have tried : tryIncrement name ty value frame = .ok true after := by
          rw [tryIncrement, known]
          change (if frame.registers.slot name ≤ 255 then _ else _ : Gen Bool)
            met = _
          rw [if_pos small, Action.bind_of_ok ok]
          rfl
        refine ⟨after, by rw [Action.bind_of_ok tried]; rfl, atFinal, ?_⟩
        exact ((Registers.met_allocate _ name).trans kept).of_iff (by
          simpa using only)
      · obtain ⟨after, ok, atFinal, more⟩ := stored met atStart
        have tried : tryIncrement name ty value frame = .ok false met := by
          rw [tryIncrement, known]
          change (if frame.registers.slot name ≤ 255 then _ else _ : Gen Bool)
            met = _
          rw [if_neg small]
          rfl
        refine ⟨after, by rw [Action.bind_of_ok tried]; exact ok, atFinal, ?_⟩
        exact ((Registers.met_allocate _ name).trans more).of_iff (by
          simp [or_comm])

end Gen

/-! ## Instructions -/

/-- Whether the code of an instruction is emitted is known beforehand. -/
def Settled (linkage : Linkage) (code : Instr) : Prop :=
  Gen.Settles (do Gen.instr linkage code; Gen.dropResult code) code.Refused
    code.variables 0

namespace Settled

open Gen (Passes Stops)

variable {linkage : Linkage}

theorem of_passes {code : Instr} (noCall : code.call? = none)
    (noRet : ∀ value, code ≠ .ret .void (some value))
    (passes : Passes (Gen.instr linkage code) code.variables 0 0) :
    Settled linkage code := by
  refine .passes (Instr.not_refused ?_ ?_ noRet) (passes.andThen ?_)
  · simp [noCall]
  · rintro dest ty call rfl
    simp [Instr.call?] at noCall
  · cases code with
    | call invocation => simp [Instr.call?] at noCall
    | _ => exact .pure

theorem call {call : Call}
    (h : Gen.Settles (Gen.instr linkage (.call call)) call.Refused
      (Instr.call call).variables (if call.returnTy.isVoid then 0 else 1)) :
    Settled linkage (.call call) := by
  cases h with
  | passes fine passes =>
      have drops : Passes (Gen.dropResult (.call call)) []
          (if call.returnTy.isVoid then 0 else 1) 0 := by
        rw [Gen.dropResult]
        cases call.returnTy.isVoid with
        | true => exact .pure
        | false => exact .emit (.plain rfl) (by decide) rfl (by decide)
      have notRefused : ∀ cause, ¬ (Instr.call call).Refused cause := by
        refine Instr.not_refused ?_ ?_ (by simp)
        · rintro _ ⟨⟩
          exact fine
        · rintro _ _ _ ⟨⟩
      exact .passes notRefused (passes.andThen drops)
  | stops stops =>
      exact .stops (stops.atOnce.mono fun _ refused => .call rfl refused)

theorem special {call : Call} (kind : call.kind = .special)
    (named : ∃ method, call.method = some method) (noArgs : call.args = [])
    (simple : call.target.isSimple = true)
    (object : ∃ name, call.target.ty.className? = some name) :
    Settled linkage (.call call) := by
  have one : loaded call = [call.target] := by simp [loaded, kind, noArgs]
  have all : call.loads = loaded call := by rw [Call.loads, kind]
  have few : (loaded call).length ≤ maxDepth := by simp [one, maxDepth]
  have opened : Gen.call linkage call = Gen.invoke linkage call := by
    rw [Gen.call, kind]
  apply Settled.call
  rw [Gen.instr, opened, Instr.variables, all]
  refine .passes (Call.not_refused (all ▸ few) (by simp [kind])) ?_
  exact Gen.invoke_passes linkage named (by simpa [one] using simple) few
    (.inr ⟨by simp [kind], object⟩)

theorem store {name : String} {ty : Ty} {value : Instr}
    (yields : value.Yields) :
    Settled linkage (.store (.var name ty) value) := by
  rcases Gen.value_cases linkage yields with
    ⟨call, rfl, invokes⟩ | ⟨passes, fine⟩
  · cases Gen.call_settles linkage invokes with
    | stops stops =>
        exact .stops (stops.atOnce.atOnce.mono fun _ refused =>
          .call rfl refused)
    | passes fine passes =>
        cases isVoid : call.returnTy.isVoid with
        | true =>
            simp only [isVoid, if_true] at passes
            refine .stops (.atOnce (.mono
              (.later passes (Gen.store_stops name ty)) ?_))
            rintro _ ⟨op, rfl⟩
            exact .noResult (Ty.isVoid_eq_true.mp isVoid)
        | false =>
            simp only [isVoid, Bool.false_eq_true, if_false] at passes
            refine .passes (Instr.not_refused ?_ ?_ nofun)
              ((Gen.assignVar_passes linkage passes).andThen .pure)
            · rintro _ ⟨⟩
              exact fine
            · rintro _ _ _ ⟨⟩ known
              simp [known, Ty.isVoid] at isVoid
  · refine .passes (Instr.not_refused (fun call calls => (fine call calls).2)
      ?_ nofun) ((Gen.assignVar_passes linkage passes).andThen .pure)
    rintro _ _ call ⟨⟩
    exact (fine call rfl).1

theorem storeElement {array : String} {position value : Operand}
    (simple : position.isSimple = true)
    (readable : value.isReadable = true) :
    Settled linkage (.store (.element array position) (.single value)) := by
  refine of_passes rfl nofun (.slot fun index => ?_)
  have array : Passes (Gen.emit (.slot .aload index)) [] 0 1 :=
    .emit (.slot rfl index) (by decide) rfl (by decide)
  refine array.bind (.bind (Gen.load_passes simple (by decide)) ?_)
  exact .andThen (Gen.load_passes_of_isReadable readable (by decide))
    (.emit (.plain rfl) (by decide) rfl (by decide))

theorem putField {className : String} {field : Ir.FieldRef} {value : Operand}
    (readable : value.isReadable = true) :
    Settled linkage (.putField (.self className) field value) := by
  refine of_passes rfl nofun (.bind (Gen.load_passes rfl (by decide)) ?_)
  exact .andThen (Gen.load_passes_of_isReadable readable (by decide))
    (.emit (.apply rfl _) (by decide) rfl (by decide))

theorem branch {condition : Operand} {label : String}
    (simple : condition.isSimple = true) :
    Settled linkage (.branch condition label) :=
  of_passes rfl nofun (.andThen (Gen.load_passes simple (by decide))
    (.emit (.apply rfl _) (by decide) rfl (by decide)))

theorem goto {label : String} : Settled linkage (.goto label) :=
  of_passes rfl nofun (.emit (.apply rfl _) (by decide) rfl (by decide))

theorem retVoid : Settled linkage (.ret .void none) :=
  of_passes rfl nofun (.emit (.plain rfl) (by decide) rfl (by decide))

theorem ret {ty : Ty} {value : Operand} (readable : value.isReadable = true) :
    Settled linkage (.ret ty (some value)) := by
  have loads := Gen.load_passes_of_isReadable readable
    (by decide : 0 + 1 < maxDepth)
  cases ty with
  | void => exact .stops (.atOnce (.later loads (.throw .ret)))
  | _ =>
      exact of_passes rfl nofun (loads.andThen
        (.emit (.plain rfl) (by decide) rfl (by decide)))

end Settled

theorem settled_of_executes {linkage : Linkage} {scope : Scope}
    {written : String → Prop} {before after : Supply} {code : Instr}
    (h : Lowering.Executes scope written before after code) :
    Settled linkage code := by
  cases h with
  | evaluates h =>
      cases h with
      | store drawn yields => exact .store yields
      | element drawn simple =>
          exact .storeElement rfl (Operand.isReadable_of_isSimple simple)
      | start => exact .special rfl ⟨_, rfl⟩ rfl rfl ⟨_, rfl⟩
      | invoke invokes => exact .call (Gen.call_settles linkage invokes)
      | branch simple => exact .branch simple
      | goto => exact .goto
  | assign isVariable isWritten yields => exact .store yields
  | assignElement simple readable => exact .storeElement simple readable
  | putField readable => exact .putField readable
  | ret readable => exact .ret readable
  | retVoid => exact .retVoid

/-! ## Methods -/

namespace Gen

variable {linkage : Linkage}

theorem labels_passes (names : List String) : Passes (labels names) [] 0 0 := by
  induction names with
  | nil => exact .pure
  | cons name names ih => exact .bind (.label name) ih

theorem body_settles (place : Ir.Labels) (name : String) (index : Nat)
    {code : List Instr} (each : ∀ instr ∈ code, Settled linkage instr) :
    Settles (body linkage place name index code)
      (fun cause => ∃ instr ∈ code, instr.Refused cause)
      (code.flatMap Instr.variables) 0 := by
  induction code generalizing index with
  | nil => exact .passes (by simp) (labels_passes _)
  | cons first rest ih =>
      have marks := labels_passes (place.before index)
      have others := ih (index + 1) fun instr member =>
        each instr (by simp [member])
      rw [body]
      cases each first (by simp) with
      | stops stops =>
          refine .stops (.later marks ?_)
          rw [← bind_assoc]
          exact stops.atOnce.mono fun cause refused =>
            ⟨first, by simp, refused⟩
      | passes fine passes =>
          cases others with
          | stops stops =>
              refine .stops (.later marks ?_)
              rw [← bind_assoc]
              refine .later passes (.depth (stops.mono ?_))
              rintro cause ⟨instr, member, refused⟩
              exact ⟨instr, by simp [member], refused⟩
          | passes allFine allPass =>
              refine .passes ?_ (.after marks ?_)
              · rintro cause ⟨instr, member, refused⟩
                rcases List.mem_cons.mp member with rfl | member
                · exact fine cause refused
                · exact allFine cause ⟨instr, member, refused⟩
              · rw [← bind_assoc]
                exact .bind passes (.depth allPass)

theorem method_settles {source : Ir.Method} (name : String)
    (each : ∀ instr ∈ source.instrs, Settled linkage instr) :
    Settles (method linkage name source)
      (fun cause => ∃ instr ∈ source.instrs, instr.Refused cause)
      (source.instrs.flatMap Instr.variables) 0 := by
  rw [method]
  cases body_settles source.labels name 0 each with
  | stops stops => exact .stops stops.atOnce
  | passes fine passes =>
      refine .passes fine (passes.andThen ?_)
      split
      · exact .emit (.plain rfl) (by decide) rfl (by decide)
      · exact .pure

end Gen

inductive Decided {α : Type} (causes : Error → Prop) : Except Error α → Prop
  where
  | ok {value : α} (fine : ∀ cause, ¬ causes cause) :
      Decided causes (.ok value)
  | error {cause : Error} (isCause : causes cause) :
      Decided causes (.error cause)

namespace Decided

variable {α β : Type} {causes causes' : Error → Prop}

theorem pure {value : α} : Decided (fun _ => False) (pure value) :=
  .ok fun _ none => none

theorem of_iff {result : Except Error α} (h : Decided causes result)
    (same : ∀ cause, causes cause ↔ causes' cause) :
    Decided causes' result := by
  cases h with
  | ok fine => exact .ok fun cause => (same cause).not.mp (fine cause)
  | error isCause => exact .error ((same _).mp isCause)

theorem bind {first : Except Error α} {second : α → Except Error β}
    (h : Decided causes first) (h' : ∀ value, Decided causes' (second value)) :
    Decided (fun cause => causes cause ∨ causes' cause) (first >>= second) := by
  cases h with
  | error isCause => exact .error (.inl isCause)
  | @ok value fine =>
      change Decided _ (second value)
      cases known : second value with
      | error cause =>
          have later := h' value
          rw [known] at later
          cases later with
          | error isCause => exact .error (.inr isCause)
      | ok result =>
          have later := h' value
          rw [known] at later
          cases later with
          | ok fine' => exact .ok fun cause => not_or.mpr ⟨fine cause, fine' cause⟩

theorem exists_ok_iff {result : Except Error α} (h : Decided causes result) :
    (∃ value, result = .ok value) ↔ ∀ cause, ¬ causes cause := by
  cases h with
  | ok fine => simpa using fine
  | error isCause => simpa using ⟨_, isCause⟩

theorem of_error {cause : Error} (h : Decided causes (.error cause : Except Error α)) :
    causes cause := by
  cases h with
  | error isCause => exact isCause

end Decided

structure Predictable (linkage : Linkage) (source : Ir.Method) : Prop where
  settled : ∀ instr ∈ source.instrs, Settled linkage instr
  registers : source.registers =
    .ofMethod source.isStatic (source.params.map Symbol.name)

theorem met_ofMethod (isStatic : Bool) (params : List String) :
    Registers.Met ((if isStatic then [] else ["this"]) ++ params) {}
      (.ofMethod isStatic params) := by
  cases isStatic with
  | true => exact Registers.met_allocateAll {} params
  | false =>
      exact (Registers.met_allocate {} "this").trans
        (Registers.met_allocateAll _ params)

/-- The receiver has a slot already, so that none is added for it. -/
theorem localCount_eq {source : Ir.Method} {registers : Registers}
    (met : Registers.Met source.variables {} registers) :
    localCount source registers =
      max source.variables.dedup.length source.params.length := by
  have receiver : (!source.isStatic && !registers.contains "this") = false := by
    cases isStatic : source.isStatic with
    | true => rfl
    | false =>
        have member : "this" ∈ registers.names :=
          (met.members "this").mpr (.inr (by simp [Ir.Method.variables, isStatic]))
        simpa [Registers.contains] using member
  simp [localCount, receiver, met.size]

namespace Predictable

variable {linkage : Linkage}

theorem ofIr_decided {source : Ir.Method} (h : Predictable linkage source) :
    Decided source.Refused (Method.ofIr linkage source) := by
  rw [Method.ofIr]
  cases Gen.method_settles (Method.targetName source) h.settled with
  | stops stops =>
      obtain ⟨cause, after, failed, instr, member, refused⟩ :=
        stops { registers := source.registers } rfl
      simp only [failed]
      exact .error (.instr member refused)
  | passes fine passes =>
      obtain ⟨after, ok, _, more⟩ :=
        passes { registers := source.registers } rfl
      have started := met_ofMethod source.isStatic
        (source.params.map Symbol.name)
      rw [← h.registers] at started
      have count := localCount_eq (started.trans more)
      simp only [ok, count]
      split
      next full =>
        rcases Nat.lt_or_ge maxLocals source.params.length with many | few
        · exact .error (.params many)
        · exact .error (.variables (by omega))
      next few =>
        refine .ok ?_
        rintro cause (⟨member, refused⟩ | many | many)
        · exact fine _ ⟨_, member, refused⟩
        · omega
        · omega

end Predictable

/-! ## Classes -/

theorem Method.ofIrAll_decided {linkage : Linkage} {sources : List Ir.Method}
    (each : ∀ source ∈ sources, Predictable linkage source) :
    Decided (fun cause => ∃ source ∈ sources, source.Refused cause)
      (Method.ofIrAll linkage sources) := by
  induction sources with
  | nil => exact .ok (by simp)
  | cons source rest ih =>
      have first := (each source (by simp)).ofIr_decided
      have others := ih fun other member => each other (by simp [member])
      rw [Method.ofIrAll]
      exact (first.bind fun _ => others.bind fun _ => .pure).of_iff
        (by simp)

theorem Class.ofIr_decided {table : SymbolTable} {source : Ir.Class}
    (each : ∀ method ∈ source.methods,
      Predictable (linkageOf table source) method) :
    Decided (fun cause => ∃ method ∈ source.methods, method.Refused cause)
      (Class.ofIr table source) :=
  ((Method.ofIrAll_decided each).bind fun _ => .pure).of_iff (by simp)

end Jvm

namespace Tree

open Lowering

variable {table : SymbolTable} {supply after : Supply}

theorem Method.lower_predictable {method : Method} {lowered : Ir.Method}
    (linkage : Jvm.Linkage)
    (h : method.lower table supply = .ok lowered after) :
    Jvm.Predictable linkage lowered := by
  obtain ⟨code, hcode, labels, body⟩ := lower_eq_ok h
  refine ⟨fun instr member => ?_, (lower_fields h).registers⟩
  have each := (Stmt.lowerAll_implements hcode).each
  rw [body] at member
  rcases mem_close member with member | rfl
  · exact Jvm.settled_of_executes (each instr member)
  · exact .retVoid

theorem Method.lowerAll_predictable {methods : List Method}
    {lowered : List Ir.Method} (linkage : Jvm.Linkage)
    (h : Method.lowerAll table methods supply = .ok lowered after) :
    ∀ method ∈ lowered, Jvm.Predictable linkage method := by
  induction methods generalizing supply lowered with
  | nil =>
      obtain ⟨rfl, rfl⟩ := Action.pure_eq_ok.mp h
      simp
  | cons method methods ih =>
      obtain ⟨first, mid, hfirst, h⟩ := Action.bind_eq_ok.mp h
      obtain ⟨rest, last, hrest, h⟩ := Action.bind_eq_ok.mp h
      obtain ⟨rfl, rfl⟩ := Action.pure_eq_ok.mp h
      intro other member
      rcases List.mem_cons.mp member with rfl | member
      · exact Method.lower_predictable linkage hfirst
      · exact ih hrest other member

theorem constructor_predictable (linkage : Jvm.Linkage) (className : String) :
    Jvm.Predictable linkage (defaultConstructor className) := by
  refine ⟨?_, rfl⟩
  simp only [defaultConstructor, List.mem_cons, List.not_mem_nil, or_false,
    forall_eq_or_imp, forall_eq]
  exact ⟨.special rfl ⟨_, rfl⟩ rfl rfl ⟨_, rfl⟩, .retVoid⟩

theorem Program.lower_predictable {program : Program} {cls : Ir.Class}
    (linkage : Jvm.Linkage) (h : program.lower table supply = .ok cls after) :
    ∀ method ∈ cls.methods, Jvm.Predictable linkage method := by
  obtain ⟨lowered, mid, hlowered, h⟩ := Action.bind_eq_ok.mp h
  obtain ⟨rfl, rfl⟩ := Action.pure_eq_ok.mp h
  intro method member
  rcases List.mem_append.mp member with member | member
  · exact Method.lowerAll_predictable linkage hlowered method member
  · rw [List.mem_singleton.mp member]
    exact constructor_predictable linkage _

/--
Lowered code can be emitted exactly if no method of it is refused, and an
error is always one for which a method is refused.
-/
theorem Program.lower_emits_iff {program : Program} {cls : Ir.Class}
    (h : program.lower table supply = .ok cls after) (linked : SymbolTable) :
    ((∃ target, Jvm.Class.ofIr linked cls = .ok target) ↔
      ∀ method ∈ cls.methods, ∀ cause, ¬ method.Refused cause) ∧
    ∀ cause, Jvm.Class.ofIr linked cls = .error cause →
      ∃ method ∈ cls.methods, method.Refused cause := by
  have decided := Jvm.Class.ofIr_decided
    (Program.lower_predictable (Jvm.linkageOf linked cls) h)
  constructor
  · rw [decided.exists_ok_iff]
    constructor
    · intro fine method member cause refused
      exact fine cause ⟨method, member, refused⟩
    · rintro fine cause ⟨method, member, refused⟩
      exact fine method member cause refused
  · intro cause failed
    rw [failed] at decided
    exact decided.of_error

def addingCall (ty : Ty) : Program where
  declared := { name := "A", methods := [{
    name := "f"
    returnTy := .int
    body := [.ret {} (some
      (.binary ⟨.int, {}⟩ .add
        (.call ⟨ty, {}⟩ (.self ⟨.object "A", {}⟩) "g" [])
        (.int ⟨.int, {}⟩ 1)))] }] }

theorem Program.lower_emits_iff_addingCall :
    (∃ cls after, (addingCall .int).lower (.ofProgram (addingCall .int)) {} =
        .ok cls after ∧
      ∀ method ∈ cls.methods, ∀ cause, ¬ method.Refused cause) ∧
    ∃ cls after cause,
      (addingCall .void).lower (.ofProgram (addingCall .void)) {} =
        .ok cls after ∧
      Jvm.Class.ofIr (.ofProgram (addingCall .void)) cls = .error cause ∧
      ∃ method ∈ cls.methods, method.Refused cause := by
  have emitted : (((addingCall .int).lower
      (.ofProgram (addingCall .int))).run' {}).any (fun cls =>
        (Jvm.Class.ofIr (.ofProgram (addingCall .int)) cls).isOk) = true := by
    decide +kernel
  have refused : (((addingCall .void).lower
      (.ofProgram (addingCall .void))).run' {}).all (fun cls =>
        (Jvm.Class.ofIr (.ofProgram (addingCall .void)) cls).isOk) = false := by
    decide +kernel
  constructor
  · cases lowered : (addingCall .int).lower (.ofProgram (addingCall .int))
        {} with
    | error cause after => simp [Action.run'_of_error lowered] at emitted
    | ok cls after =>
        rw [Action.run'_of_ok lowered, Option.any_some] at emitted
        refine ⟨cls, after, rfl, (lower_emits_iff lowered
          (.ofProgram (addingCall .int))).1.mp ?_⟩
        cases known : Jvm.Class.ofIr (.ofProgram (addingCall .int)) cls with
        | error cause => simp [known, Except.isOk, Except.toBool] at emitted
        | ok target => exact ⟨target, rfl⟩
  · cases lowered : (addingCall .void).lower (.ofProgram (addingCall .void))
        {} with
    | error cause after => simp [Action.run'_of_error lowered] at refused
    | ok cls after =>
        rw [Action.run'_of_ok lowered, Option.all_some] at refused
        cases known : Jvm.Class.ofIr (.ofProgram (addingCall .void)) cls with
        | ok target => simp [known, Except.isOk, Except.toBool] at refused
        | error cause =>
            exact ⟨cls, after, cause, rfl, known,
              (lower_emits_iff lowered _).2 cause known⟩

end Tree

end JavaMinus
