import JavaMinus.Proofs.Emission.Operations
import JavaMinus.Proofs.Emission.References

/-!
# Running emitted calls

A call is linked by the name of its method, with the class that it is looked
up in and its descriptor.  What the machine reads there decides how many values
it takes from the stack, so that it has to fit the call.
-/

namespace JavaMinus.Jvm

open Ir (Operand Instr Call CallKind Registers)

/-! ## Linking -/

def invocation : CallKind → Opcode
  | .special => .invokespecial
  | .static => .invokestatic
  | .virtual | .new | .arrayLength => .invokevirtual

theorem Gen.dispatch_cases (linkage : Linkage) (call : Call) :
    (∃ owner, linkage.owner? call = some owner ∧
      Gen.dispatch linkage call (linkage.own? call) =
        pure (invocation call.kind, owner)) ∨
    ∃ cause, Gen.dispatch linkage call (linkage.own? call) = throw cause := by
  rw [Gen.dispatch, Linkage.owner?]
  cases kind : call.kind with
  | special =>
      cases call.target with
      | self className =>
          refine .inl ⟨_, rfl, ?_⟩
          rw [Linkage.superName]
          cases linkage.superclass <;> rfl
      | literal | var | element | field =>
          dsimp only
          split
          next known => exact .inl ⟨_, by simp [known], rfl⟩
          next => exact .inr ⟨_, rfl⟩
  | static =>
      cases call.target with
      | var name ty => exact .inl ⟨_, rfl, rfl⟩
      | literal | element | self | field => exact .inr ⟨_, rfl⟩
  | virtual | new | arrayLength =>
      dsimp only
      split
      next receiver known =>
        rw [known, Option.map_some]
        refine .inl ⟨_, rfl, ?_⟩
        simp only [ne_eq, reduceCtorEq, not_false_eq_true, true_and,
          Linkage.superName]
        by_cases foreign : receiver = linkage.className ∧
          linkage.own? call = none
        · cases linkage.superclass <;> simp [foreign, invocation]
        · rw [if_neg foreign, if_neg fun both => foreign ⟨both.1, both.2.1⟩]
          rfl
      next => exact .inr ⟨_, rfl⟩

def Linkage.target (linkage : Linkage) (call : Call) : String :=
  (linkage.owner? call).getD "" ++ "/" ++ call.method.getD "" ++
    methodDescriptor linkage.names (linkage.shape call).1
      (linkage.shape call).2

theorem Gen.invoke_cases {linkage : Linkage} {call : Call}
    {frame after : Frame} (h : Gen.invoke linkage call frame = .ok () after) :
    ∃ owner name mid, linkage.owner? call = some owner ∧
      call.method = some name ∧
      Gen.loadAll (loaded call) frame = .ok () mid ∧
      Emitted (.apply (invocation call.kind) (.method (linkage.target call)
          (loaded call).length (if call.returnTy.isVoid then 0 else 1)))
        (loaded call).length (if call.returnTy.isVoid then 0 else 1) mid
        after := by
  rw [Gen.invoke] at h
  cases named : call.method with
  | none =>
      rw [named] at h
      exact absurd h Action.throw_ne_ok
  | some name =>
      simp only [named, ownSignature?_eq named, callDescriptor_own?] at h
      obtain ⟨_, mid, hload, h⟩ := Action.bind_eq_ok.mp h
      obtain ⟨⟨op, owner⟩, mid', hdispatch, hinvoke⟩ :=
        Action.bind_eq_ok.mp h
      rcases Gen.dispatch_cases linkage call with
        ⟨owner', isOwner, found⟩ | ⟨cause, failed⟩
      · rw [found] at hdispatch
        obtain ⟨same, rfl⟩ := Action.pure_eq_ok.mp hdispatch
        cases same
        refine ⟨owner, name, mid, isOwner, rfl, hload, ?_⟩
        rw [Linkage.target, isOwner, named]
        exact Gen.emit_invoke hinvoke
      · rw [failed] at hdispatch
        exact absurd hdispatch Action.throw_ne_ok

theorem Gen.invoke_eq_ok {linkage : Linkage} {call : Call}
    {frame after : Frame} (h : Gen.invoke linkage call frame = .ok () after) :
    ∃ mid, Gen.loadAll (loaded call) frame = .ok () mid ∧
      Emitted (.apply (invocation call.kind) (.method (linkage.target call)
          (loaded call).length (if call.returnTy.isVoid then 0 else 1)))
        (loaded call).length (if call.returnTy.isVoid then 0 else 1) mid
        after := by
  obtain ⟨_, _, mid, _, _, emitted⟩ := Gen.invoke_cases h
  exact ⟨mid, emitted⟩

theorem Gen.allocate_eq_ok {linkage : Linkage} {call : Call}
    {frame after : Frame}
    (h : Gen.allocate linkage call frame = .ok () after) :
    (∃ size mid, call.returnTy.isArray = true ∧ call.args = [size] ∧
      Gen.load size frame = .ok () mid ∧
      Emitted (.apply .newarray (.symbol "int")) 1 1 mid after) ∨
    (∃ className, call.returnTy.isArray = false ∧ call.args = [] ∧
      call.returnTy.className? = some className ∧
      Emitted (.apply .new (.symbol (linkage.names.binaryName className))) 0 1
        frame after) := by
  rw [Gen.allocate] at h
  cases isArray : call.returnTy.isArray with
  | true =>
      rw [if_pos isArray] at h
      cases args : call.args with
      | nil =>
          rw [args] at h
          exact absurd h Action.throw_ne_ok
      | cons size rest =>
          rw [args] at h
          cases rest with
          | nil =>
              obtain ⟨_, mid, hload, hnew⟩ := Action.bind_eq_ok.mp h
              exact .inl ⟨size, mid, rfl, rfl, hload, Gen.emit_apply rfl hnew⟩
          | cons next rest => exact absurd h Action.throw_ne_ok
  | false =>
      rw [if_neg (by simp [isArray])] at h
      cases args : call.args with
      | cons first rest =>
          rw [args] at h
          exact absurd h Action.throw_ne_ok
      | nil =>
          rw [args] at h
          cases named : call.returnTy.className? with
          | none =>
              rw [named] at h
              exact absurd h Action.throw_ne_ok
          | some className =>
              rw [named] at h
              exact .inr ⟨className, rfl, rfl, rfl, Gen.emit_apply rfl h⟩

/-! ## Running calls -/

structure Fits (runtime : Runtime) (linkage : Linkage) (call : Call)
    (method : MethodRef) : Prop where
  reads : runtime.method? (linkage.target call) = some method
  callee : linkage.callee call = method.callee call.kind
  params : method.ty.params.length = call.args.length
  result : method.isVoid = call.returnTy.isVoid

namespace Execution

structure Linked (exec : Execution) (linkage : Linkage) : Prop where
  apart : exec.Apart
  small : exec.registers.names.length ≤ 65535
  receiver : exec.hasSelf = true → exec.registers.names.head? = some "this"
  operate : exec.setting.operate = Effect.operateExactly
  oracle : exec.setting.oracle = exec.runtime.oracle
  field : exec.setting.field = linkage.fieldId
  callee : exec.setting.callee = linkage.callee

variable {exec : Execution} {linkage : Linkage} {frame after : Frame}
  {stack : List Value} {slots : Slots} {seen : List String} {start : State}
  {β : Type} {vars : Locals} {call : Call} {next : Value → Effect β}
  {post : β → World → State → Prop}

theorem allocate_runs (linked : exec.Linked linkage)
    (kind : call.kind = .new)
    (h : Gen.allocate linkage call frame = .ok () after)
    (within : exec.Within after) (here : exec.At frame stack slots seen start)
    (held : exec.Held vars slots)
    (self : ∀ operand ∈ call.args, operand.usesSelf = true →
      slots 0 = some exec.setting.self)
    (rest : ∀ reached value, exec.At after (value :: stack) slots seen reached →
      exec.Runs seen reached (next value reached.world) post) :
    exec.Runs seen start
      ((call.perform exec.setting vars >>= next) start.world) post := by
  simp only [Ir.Call.perform, kind]
  rcases Gen.allocate_eq_ok h with
    ⟨size, mid, isArray, args, hload, emitted⟩ |
    ⟨className, isObject, args, named, emitted⟩
  · simp only [isArray, args, if_true, bind_assoc]
    refine load_runs hload (within.before (emitted.grows (by simp))) here
      held (self size (by simp [args])) fun mid value past => ?_
    exact line_runs (fun value => value :: stack) (fun _ => slots) emitted
      within past rfl fun value reached past => rest reached value past
  · simp only [isObject, args, Bool.false_eq_true, if_false,
      List.isEmpty_nil, if_true]
    refine line_runs (fun value => value :: stack) (fun _ => slots) emitted
      within here ?_ fun value reached past => rest reached value past
    rw [linked.oracle, linked.callee]
    simp only [Linkage.callee, kind, named, Option.map_some]
    rfl

theorem invoke_runs (linked : exec.Linked linkage)
    (fits : ∀ owner name, linkage.owner? call = some owner →
      call.method = some name →
      ∃ method, Fits exec.runtime linkage call method)
    (kind : call.kind = .special ∨ call.kind = .static ∨
      call.kind = .virtual)
    (h : Gen.invoke linkage call frame = .ok () after)
    (within : exec.Within after) (here : exec.At frame stack slots seen start)
    (held : exec.Held vars slots)
    (self : ∀ operand ∈ call.target :: call.args, operand.usesSelf = true →
      slots 0 = some exec.setting.self)
    (rest : ∀ reached value,
      exec.At after (if call.returnTy.isVoid then stack else value :: stack)
        slots seen reached →
      exec.Runs seen reached (next value reached.world) post) :
    exec.Runs seen start
      ((call.perform exec.setting vars >>= next) start.world) post := by
  obtain ⟨owner, name, mid, isOwner, named, hload, emitted⟩ :=
    Gen.invoke_cases h
  obtain ⟨method, fits⟩ := fits owner name isOwner named
  have performs : call.perform exec.setting vars =
      Operand.readAll exec.setting vars (loaded call) >>= fun values =>
        Effect.call exec.runtime.oracle (method.callee call.kind)
          values := by
    rw [← fits.callee, ← linked.callee, ← linked.oracle]
    rcases kind with kind | kind | kind <;>
      simp [Ir.Call.perform, loaded, kind]
  have selfLoaded : ∀ operand ∈ loaded call, operand.usesSelf = true →
      slots 0 = some exec.setting.self := by
    intro operand member
    rw [loaded] at member
    split at member
    · exact self operand (List.mem_cons_of_mem _ member)
    · exact self operand member
  rw [performs, bind_assoc]
  refine loadAll_runs hload (within.before (emitted.grows (by simp))) here
    held selfLoaded fun mid values length past => ?_
  refine line_runs
    (fun value => if call.returnTy.isVoid then stack else value :: stack)
    (fun _ => slots) emitted within past ?_
    fun value reached past => rest reached value past
  have runs : (Line.apply (invocation call.kind) (.method
      (linkage.target call) (loaded call).length
        (if call.returnTy.isVoid then 0 else 1))).run exec.runtime
          (values.reverse ++ stack) slots =
      invoke (values.reverse ++ stack) slots exec.runtime call.kind
        (linkage.target call) := by
    rcases kind with kind | kind | kind <;> rw [kind] <;> rfl
  have count : method.taken call.kind = values.reverse.length := by
    rw [List.length_reverse, length, loaded, MethodRef.taken, fits.params]
    split <;> rfl
  rw [runs, invoke]
  simp only [fits.reads, count, fits.result]
  rw [if_neg (by simp), List.take_left, List.drop_left,
    List.reverse_reverse]

theorem call_runs (linked : exec.Linked linkage)
    (fits : call.kind ≠ .new → ∀ owner name,
      linkage.owner? call = some owner → call.method = some name →
      ∃ method, Fits exec.runtime linkage call method)
    (h : Gen.call linkage call frame = .ok () after)
    (within : exec.Within after) (here : exec.At frame stack slots seen start)
    (held : exec.Held vars slots)
    (self : ∀ operand ∈ call.target :: call.args, operand.usesSelf = true →
      slots 0 = some exec.setting.self)
    (rest : ∀ reached value,
      exec.At after (if pushesResult call then value :: stack else stack)
        slots seen reached →
      exec.Runs seen reached (next value reached.world) post) :
    exec.Runs seen start
      ((call.perform exec.setting vars >>= next) start.world) post := by
  rw [Gen.call] at h
  cases kind : call.kind with
  | new =>
      simp only [kind, pushesResult, if_true] at h rest
      exact allocate_runs linked kind h within here held
        (fun operand member => self operand (by simp [member])) rest
  | arrayLength =>
      simp only [kind, pushesResult, if_true] at h rest
      obtain ⟨_, mid, hload, hlength⟩ := Action.bind_eq_ok.mp h
      have emitted := Gen.emit_plain rfl hlength
      simp only [Ir.Call.perform, kind, bind_assoc]
      refine load_runs hload (within.before (emitted.grows (by simp))) here
        held (self call.target (by simp)) fun mid value past => ?_
      exact line_runs (fun value => value :: stack) (fun _ => slots) emitted
        within past rfl fun value reached past => rest reached value past
  | special | static | virtual =>
      simp only [kind] at h
      have fits := fits (by simp [kind])
      refine invoke_runs linked fits (by simp [kind]) h within here held self
        fun reached value past => rest reached value ?_
      cases isVoid : call.returnTy.isVoid <;>
        simpa [pushesResult, kind, isVoid] using past

end Execution

end JavaMinus.Jvm
