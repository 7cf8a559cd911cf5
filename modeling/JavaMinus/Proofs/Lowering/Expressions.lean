import JavaMinus.Proofs.Lowering.Activation

/-!
# Lowered expressions

The code of every form of expressions does what the tree does, if the code of
its parts does.  Only `&&` has jumps.
-/

namespace JavaMinus.Activation

open Ir (Operand Instr Fragment)
open Lowering JavaMinus.Tree

variable {run : Activation} {locals : Locals} {attr : Attr}

/-! ## Names -/

theorem read_variable {name : String} {vars : Locals} {ty : Ty}
    (isVariable : run.scope.IsVariable name)
    (agrees : run.scope.Agrees locals vars) :
    run.tree.read locals name =
      (Operand.var name ty).read run.code vars := by
  have same := agrees name isVariable
  obtain ⟨symbol, origin | origin⟩ := isVariable <;>
    simp [Setting.read, tree, Scope.setting, origin, Operand.read,
      Effect.read, same]

theorem read_enclosing {name : String}
    (origin : run.scope.resolve name = .enclosing) :
    run.tree.read locals name = pure run.self := by
  simp [Setting.read, tree, Scope.setting, origin]

theorem var_simulates (name : String) :
    run.Simulates locals (.var attr name) := by
  intro dest supply lowered after start β next post _ h placed agrees rest
  rw [Expr.lower, readName] at h
  cases origin : run.scope.resolve name with
  | localVar symbol =>
      rw [origin] at h
      obtain ⟨rfl, rfl⟩ := Action.pure_eq_ok.mp h
      rw [Expr.eval, read_variable ⟨symbol, .inl origin⟩ agrees]
      exact rest start rfl (.refl supply _)
  | param symbol =>
      rw [origin] at h
      obtain ⟨rfl, rfl⟩ := Action.pure_eq_ok.mp h
      rw [Expr.eval, read_variable ⟨symbol, .inr origin⟩ agrees]
      exact rest start rfl (.refl supply _)
  | field symbol =>
      rw [origin] at h
      have reads : run.tree.read locals name =
          (Instr.getField (.self run.scope.className)
            (fieldRef run.scope symbol)).value run.code start.vars := by
        simp only [Setting.read, tree, Scope.setting, origin]
        rfl
      rw [Expr.eval, reads]
      exact intoTemp_runs h (.refl supply) placed rfl (.refl supply _) rest
  | enclosing =>
      rw [origin] at h
      obtain ⟨rfl, rfl⟩ := Action.pure_eq_ok.mp h
      rw [Expr.eval, read_enclosing origin]
      exact rest start rfl (.refl supply _)
  | imported path =>
      rw [tree, Expr.eval_unresolved (.inr ⟨path, origin⟩)]
      exact .stuck
  | unknown =>
      rw [tree, Expr.eval_unresolved (.inl origin)]
      exact .stuck

/-! ## Operators -/

theorem binary_simulates {op : Operator} {left right : Expr}
    (strict : op ≠ .and) (simLeft : run.Simulates locals left)
    (simRight : run.Simulates locals right) :
    run.Simulates locals (.binary attr op left right) := by
  intro dest supply lowered after start β next post reserved h placed agrees
    rest
  obtain ⟨leftOp, leftCode, first, rightOp, rightCode, second, name, hleft,
    hright, drawn, _, same⟩ := Expr.lower_binary_eq_ok strict h
  subst same
  have extendLeft := (Expr.lower_draws hleft).toExtends
  have extendRight := (Expr.lower_draws hright).toExtends
  simp only [Expr.eval_binary _ _ _ _ _ strict, bind_assoc]
  refine simLeft.operand reserved hleft placed.left.left agrees
    fun mid leftValue atMid same leftGives => ?_
  refine simRight.operand (reserved.after extendLeft) hright
    (atMid ▸ placed.left.right) (agrees.after reserved same)
    fun last rightValue atLast same' rightGives => ?_
  have computes : (Instr.binary op leftOp rightOp attr.ty).value run.code
      last.vars = Effect.operate op leftValue rightValue := by
    rw [Instr.value, leftGives last.vars same', rightGives.now]
    rfl
  rw [← computes]
  exact store_runs drawn (extendLeft.trans extendRight) placed
    (by simp [atLast, atMid, Nat.add_assoc])
    (same.trans (same'.mono extendLeft)) rest

theorem not_simulates {operand : Expr} (sim : run.Simulates locals operand) :
    run.Simulates locals (.not attr operand) := by
  intro dest supply lowered after start β next post reserved h placed agrees
    rest
  obtain ⟨op, code, mid, name, hoperand, drawn, same⟩ :=
    Expr.lower_not_eq_ok h
  subst same
  simp only [Expr.eval, bind_assoc]
  refine sim.operand reserved hoperand placed.left agrees
    fun last value atLast same gives => ?_
  have computes : (Instr.not op .boolean).value run.code last.vars =
      (Effect.truth value >>= fun truth => pure (.ofBool !truth)) := by
    rw [Instr.value, gives.now]
    rfl
  rw [← bind_assoc, ← computes]
  exact store_runs drawn (Expr.lower_draws hoperand).toExtends placed atLast
    same rest

theorem and_simulates {left right : Expr} (simLeft : run.Simulates locals left)
    (simRight : run.Simulates locals right) :
    run.Simulates locals (.binary attr .and left right) := by
  intro dest supply lowered after start β next post reserved h placed agrees
    rest
  obtain ⟨leftOp, leftCode, first, name, second, rightLabel, third, endLabel,
    fourth, rightOp, rightCode, hleft, drawn, hrightLabel, hendLabel, hright,
    rfl⟩ := Expr.lower_and_eq_ok h
  have extendLeft := (Expr.lower_draws hleft).toExtends
  have extendLabels := (Lower.labelled_of_label hrightLabel
    (by decide)).toExtends.trans
      (Lower.labelled_of_label hendLabel (by decide)).toExtends
  have extend := (extendLeft.trans drawn.toExtends).trans extendLabels
  have fresh : ¬ supply.Kept name := fun kept =>
    drawn.isNew (extendLeft.kept kept)
  have toRight := placed.jump
    (leftCode ++ [.instr (.branch leftOp rightLabel),
      .instr (.store (.var name .boolean) (.single (.bool false))),
      .instr (.goto endLabel)])
    (.branch leftOp rightLabel) ⟨_, by simp; rfl⟩ (by simp) rfl
  have toEnd := placed.jump
    (leftCode ++ [.instr (.branch leftOp rightLabel),
      .instr (.store (.var name .boolean) (.single (.bool false))),
      .instr (.goto endLabel), .label rightLabel] ++ rightCode ++
      [.instr (.store (.var name .boolean) (.single rightOp))])
    (.goto endLabel) ⟨[], by simp⟩ (by simp) rfl
  -- Both ways to the end label leave the value in the temporary.
  have finish (before last : Ir.State) (value : Value)
      (atLast : last.pc = start.pc + (position leftCode + 3 +
        position rightCode + 1))
      (same : supply.Preserves start.vars before.vars)
      (vars : last.vars = before.vars.set name value) :
      Runs run.code run.method last (next value last.world) post := by
    have delivers := rest last (by simp [atLast]; omega)
      (same.trans (vars ▸ .set fresh before.vars value))
    have known : (Operand.var name .boolean).read run.code last.vars =
        pure value := by
      simp [Operand.read, Effect.read, vars]
    exact (delivers_of_gives known).mp delivers
  have onLeft := placed.left.left.right
  simp only [Expr.eval, bind_assoc]
  refine simLeft.operand reserved hleft placed.left.left.left agrees
    fun mid leftValue atMid same leftGives => ?_
  refine Runs.truth fun truth isTruth => ?_
  subst isTruth
  refine Runs.branch (atMid ▸ onLeft.fetch) toRight leftGives.now
    fun branched atBranch vars world => ?_
  rw [← vars] at same
  cases truth with
  | false =>
      have atStore : branched.pc = start.pc + position leftCode + 1 := by
        simp [atBranch, atMid]
      simp only [Bool.false_eq_true, if_false, ← world]
      refine Runs.next (branched.vars.set name) (atStore ▸ onLeft.tail.fetch)
        rfl fun value stored atGoto vars' => ?_
      refine Runs.goto (by rw [atGoto, atStore]; exact onLeft.tail.tail.fetch)
        toEnd fun last atLast vars'' world' => ?_
      rw [← world']
      exact finish branched last value (by simp [atLast]; omega) same
        (vars''.trans vars')
  | true =>
      have atRight : branched.pc = start.pc + position (leftCode ++
          [.instr (.branch leftOp rightLabel),
            .instr (.store (.var name .boolean) (.single (.bool false))),
            .instr (.goto endLabel), .label rightLabel]) := by
        simp [atBranch]
      simp only [if_true, bind_assoc, ← world]
      refine simRight.operand (reserved.after extend) hright
        (atRight ▸ placed.left.right) (agrees.after reserved same)
        fun computed rightValue atComputed same' rightGives => ?_
      refine Runs.truth fun truth isTruth => ?_
      subst isTruth
      have fetch : run.method.instrs[computed.pc]? =
          some (.store (.var name .boolean) (.single rightOp)) := by
        have := placed.right.fetch
        rwa [position_append, ← Nat.add_assoc, ← atRight, ← atComputed]
          at this
      refine Runs.next (computed.vars.set name) fetch
        (by rw [← rightGives.now]; rfl) fun value last atLast vars' => ?_
      exact finish computed last value
        (by simp [atLast, atComputed, atRight]; omega)
        (same.trans (same'.mono extend)) vars'

/-! ## Arrays -/

theorem newArray_simulates {size : Expr} (sim : run.Simulates locals size) :
    run.Simulates locals (.newArray attr size) := by
  intro dest supply lowered after start β next post reserved h placed agrees
    rest
  obtain ⟨op, code, mid, name, hsize, drawn, same⟩ :=
    Expr.lower_newArray_eq_ok h
  subst same
  simp only [Expr.eval, bind_assoc]
  refine sim.operand reserved hsize placed.left agrees
    fun last value atLast same gives => ?_
  have computes : (Lowering.newArray op).value run.code last.vars =
      Effect.newArray value := by
    change (op.read run.code last.vars >>= Effect.newArray) = _
    rw [gives.now, pure_bind]
  rw [← computes]
  exact store_runs drawn (Expr.lower_draws hsize).toExtends placed atLast
    same rest

theorem length_simulates {array : Expr} (sim : run.Simulates locals array) :
    run.Simulates locals (.length attr array) := by
  intro dest supply lowered after start β next post reserved h placed agrees
    rest
  obtain ⟨op, code, mid, name, harray, drawn, same⟩ :=
    Expr.lower_length_eq_ok h
  subst same
  simp only [Expr.eval, bind_assoc]
  refine sim.operand reserved harray placed.left agrees
    fun last value atLast same gives => ?_
  have computes : (Instr.call
      { kind := .arrayLength, target := op, returnTy := .int }).value
        run.code last.vars = Effect.length value := by
    change (op.read run.code last.vars >>= Effect.length) = _
    rw [gives.now, pure_bind]
  rw [← computes]
  exact store_runs drawn (Expr.lower_draws harray).toExtends placed atLast
    same rest

theorem arrayLiteral_simulates {elements : List Expr}
    (each : ∀ element ∈ elements, run.Simulates locals element) :
    run.Simulates locals (.arrayLiteral attr elements) := by
  intro dest supply lowered after start β next post reserved h placed agrees
    rest
  obtain ⟨ops, code, mid, array, packCode, helements, hpack, same⟩ :=
    Expr.lower_arrayLiteral_eq_ok h
  subst same
  have extend := (Expr.lowerAll_draws helements).toExtends
  simp only [Expr.eval, bind_assoc]
  refine lowerAll_runs each reserved helements placed.left agrees
    fun first values atFirst same givesAll => ?_
  refine packArray_runs hpack givesAll (atFirst ▸ placed.right)
    fun last value atLast same' gives => ?_
  have delivers := rest last (by simp [atLast, atFirst, Nat.add_assoc])
    (same.trans (same'.mono extend))
  exact (delivers_of_gives gives.now).mp delivers

theorem index_simulates {array position : Expr}
    (simArray : run.Simulates locals array)
    (simPosition : run.Simulates locals position) :
    run.Simulates locals (.index attr array position) := by
  intro dest supply lowered after start β next post reserved h placed agrees
    rest
  obtain ⟨name, ty, arrayCode, first, op, code, second, harray, hposition,
    hfinish⟩ := Expr.lower_index_eq_ok h
  have extendArray := (Expr.lower_draws harray).toExtends
  have extendPosition := (Expr.lower_draws hposition).toExtends
  obtain ⟨copy, whole⟩ := finishElement_code hfinish
  have placedParts : Placed run.method start.pc (arrayCode ++ code) :=
    (whole ▸ placed).left
  simp only [Expr.eval, bind_assoc]
  refine simArray.operand reserved harray placedParts.left agrees
    fun mid arrayValue atMid same arrayGives => ?_
  refine simPosition.operand (reserved.after extendArray) hposition
    (atMid ▸ placedParts.right) (agrees.after reserved same)
    fun last placeValue atLast same' placeGives => ?_
  have loads : (Operand.element name op).read run.code last.vars =
      Effect.load arrayValue placeValue := by
    have arrayRead := arrayGives last.vars same'
    rw [Operand.read] at arrayRead
    rw [Operand.read, arrayRead, placeGives.now]
    rfl
  rw [← loads]
  exact finishElement_runs hfinish (extendArray.trans extendPosition) placed
    (by simp [atLast, atMid, Nat.add_assoc])
    (same.trans (same'.mono extendArray)) rest

/-! ## Objects -/

theorem newObject_simulates (className : String) :
    run.Simulates locals (.newObject attr className) := by
  intro dest supply lowered after start β next post _ h placed _ rest
  obtain ⟨name, drawn, same⟩ := Expr.lower_newObject_eq_ok h
  subst same
  simp only [Expr.eval, bind_assoc, pure_bind]
  refine Runs.next (start.vars.set name) placed.fetch rfl
    fun object mid atMid vars => ?_
  have known : Effect.read mid.vars name = pure object := by
    simp [Effect.read, vars]
  refine Runs.next (fun _ => mid.vars) (atMid ▸ placed.tail.fetch) ?_
    fun _ last atLast vars' => ?_
  · simp only [Instr.run, Instr.value, Ir.Call.perform, Operand.readAll,
      Operand.read, known, pure_bind]
    rfl
  · have delivers := rest last (by simp [atLast, atMid])
      (vars' ▸ vars ▸ .set drawn.isNew start.vars object)
    exact (delivers_of_gives (vars' ▸ known)).mp delivers

/-! ## Calls -/

theorem directReceiver_of_class {receiver : Expr} {owner : String}
    (h : run.tree.classOf? receiver = some owner) :
    directReceiver? run.scope receiver =
      some (.static, .var owner (.object owner)) := by
  rw [Setting.classOf?] at h
  rw [directReceiver?]
  cases form : receiver.skipParens with
  | var attr name =>
      simp only [form, tree, Scope.setting] at h ⊢
      cases origin : run.scope.resolve name with
      | imported path | unknown =>
          simp only [origin, Option.some.injEq] at h ⊢
          rw [h]
      | localVar symbol | param symbol | field symbol | enclosing =>
          simp [origin] at h
  | _ => simp [form] at h

theorem directReceiver_of_value {receiver : Expr} {kind : Ir.CallKind}
    {target : Operand} {supply : Supply} {vars : Locals}
    (h : directReceiver? run.scope receiver = some (kind, target))
    (noClass : run.tree.classOf? receiver = none)
    (reserved : run.scope.Reserved supply)
    (agrees : run.scope.Agrees locals vars) :
    kind = .virtual ∧ target.ty = run.scope.typeOf receiver ∧
      target.Settled supply ∧
      receiver.eval run.tree locals = target.read run.code vars := by
  rw [Setting.classOf?] at noClass
  rw [directReceiver?] at h
  rw [← Expr.typeOf_skipParens, ← Expr.eval_skipParens]
  cases form : receiver.skipParens with
  | self attr =>
      simp only [form, Option.some.injEq, Prod.mk.injEq] at h
      obtain ⟨rfl, rfl⟩ := h
      exact ⟨rfl, rfl, trivial, rfl⟩
  | var attr name =>
      simp only [form, tree, Scope.setting] at h noClass
      rw [Expr.eval, Scope.typeOf]
      cases origin : run.scope.resolve name with
      | localVar symbol =>
          simp only [origin, Option.some.injEq, Prod.mk.injEq] at h
          obtain ⟨rfl, rfl⟩ := h
          have isVariable : run.scope.IsVariable name :=
            ⟨symbol, .inl origin⟩
          exact ⟨rfl, rfl, .inl (reserved name isVariable),
            read_variable isVariable agrees⟩
      | param symbol =>
          simp only [origin, Option.some.injEq, Prod.mk.injEq] at h
          obtain ⟨rfl, rfl⟩ := h
          have isVariable : run.scope.IsVariable name :=
            ⟨symbol, .inr origin⟩
          exact ⟨rfl, rfl, .inl (reserved name isVariable),
            read_variable isVariable agrees⟩
      | field symbol => simp [origin] at h
      | enclosing =>
          simp only [origin, Option.some.injEq, Prod.mk.injEq] at h
          obtain ⟨rfl, rfl⟩ := h
          exact ⟨rfl, rfl, trivial, read_enclosing origin⟩
      | imported path => simp [origin] at noClass
      | unknown => simp [origin] at noClass
  | _ => simp [form] at h

theorem receiver_runs {receiver : Expr} {kind : Ir.CallKind}
    {target : Operand} {code : List Fragment} {supply after : Supply}
    {start : Ir.State} {β : Type} {next : Value → Effect β}
    {post : β → World → Ir.State → Prop}
    (sim : run.Simulates locals receiver)
    (reserved : run.scope.Reserved supply)
    (h : Receives run.scope receiver kind target code supply after)
    (noClass : run.tree.classOf? receiver = none)
    (placed : Placed run.method start.pc code)
    (agrees : run.scope.Agrees locals start.vars)
    (rest : ∀ reached value, reached.pc = start.pc + position code →
      supply.Preserves start.vars reached.vars →
      target.Gives run.code after reached.vars value →
      Runs run.code run.method reached (next value reached.world) post) :
    Runs run.code run.method start
      ((receiver.eval run.tree locals >>= next) start.world) post := by
  rcases h with ⟨direct, rfl, rfl⟩ | ⟨_, _, hlower⟩
  · obtain ⟨_, _, settled, reads⟩ :=
      directReceiver_of_value direct noClass reserved agrees
    rw [reads]
    rcases settled.read run.code start.vars with ⟨value, gives⟩ | stuck
    · rw [gives.now, pure_bind]
      exact rest start value rfl (.refl _ _) gives
    · rw [stuck]
      exact .stuck
  · exact sim.operand reserved hlower placed agrees rest

theorem receiver_virtual {receiver : Expr} {kind : Ir.CallKind}
    {target : Operand} {code : List Fragment} {supply after : Supply}
    {vars : Locals} (reserved : run.scope.Reserved supply)
    (h : Receives run.scope receiver kind target code supply after)
    (noClass : run.tree.classOf? receiver = none)
    (agrees : run.scope.Agrees locals vars) :
    kind = .virtual ∧ target.ty = run.scope.typeOf receiver := by
  rcases h with ⟨direct, rfl, rfl⟩ | ⟨_, isVirtual, hlower⟩
  · obtain ⟨isVirtual, sameTy, _⟩ :=
      directReceiver_of_value direct noClass reserved agrees
    exact ⟨isVirtual, sameTy⟩
  · exact ⟨isVirtual, Expr.lower_typeOf hlower⟩

theorem static_simulates {receiver : Expr} {method owner : String}
    {args : List Expr} (each : ∀ arg ∈ args, run.Simulates locals arg)
    (isClass : run.tree.classOf? receiver = some owner) :
    run.Simulates locals (.call attr receiver method args) := by
  intro dest supply lowered after start β next post reserved h placed agrees
    rest
  obtain ⟨kind, target, targetCode, first, ops, argCode, second, passed,
    packCode, third, receives, hargs, hpack, hfinish⟩ :=
    Expr.lower_call_eq_ok h
  have direct := directReceiver_of_class isClass
  rcases receives with ⟨direct', rfl, rfl⟩ | ⟨noDirect, _⟩
  · cases direct.symm.trans direct'
    obtain ⟨samePassed, rfl⟩ := Action.pure_eq_ok.mp hpack
    cases samePassed
    obtain ⟨last, whole⟩ := finishCall_code hfinish
    have placedArgs : Placed run.method start.pc ([] ++ argCode ++ []) :=
      (whole ▸ placed).left
    simp only [Expr.eval, isClass, bind_assoc]
    refine lowerAll_runs each reserved hargs placedArgs.left agrees
      fun mid values atMid same givesAll => ?_
    have calls : (Ir.Call.perform run.code mid.vars
        { kind := .static, target := .var owner (.object owner)
          method := some method, args := ops
          returnTy := callTy (callee? run.scope .static
            (.var owner (.object owner)) method) attr.ty dest }) =
        Effect.call run.tree.oracle
          { kind := .static, owner := some owner, name := method }
          values := by
      rw [Ir.Call.perform, givesAll.readAll, pure_bind]
      rfl
    rw [← calls]
    exact finishCall_runs hfinish (Expr.lowerAll_draws hargs).toExtends
      placed (by simp [atMid]) same rest
  · simp [direct] at noDirect

theorem virtual_simulates {receiver : Expr} {method : String}
    {args : List Expr} (simReceiver : run.Simulates locals receiver)
    (each : ∀ arg ∈ args, run.Simulates locals arg)
    (noClass : run.tree.classOf? receiver = none) :
    run.Simulates locals (.call attr receiver method args) := by
  intro dest supply lowered after start β next post reserved h placed agrees
    rest
  obtain ⟨kind, target, targetCode, first, ops, argCode, second, passed,
    packCode, third, receives, hargs, hpack, hfinish⟩ :=
    Expr.lower_call_eq_ok h
  obtain ⟨rfl, sameTy⟩ := receiver_virtual reserved receives noClass agrees
  have extendTarget := (Expr.receives_draws receives).toExtends
  have extendArgs := (Expr.lowerAll_draws hargs).toExtends
  have extendPack := (packVarargs_draws hpack).toExtends
  have reserved' := reserved.after extendTarget
  obtain ⟨last, whole⟩ := finishCall_code hfinish
  have placedParts : Placed run.method start.pc
      (targetCode ++ argCode ++ packCode) := (whole ▸ placed).left
  have sameCallee : callee? run.scope .virtual target method =
      run.tree.callee? receiver method := by
    simp only [callee?, Setting.callee?, sameTy, true_and]
    rfl
  rw [sameCallee] at hpack hfinish
  simp only [Expr.eval, noClass, bind_assoc]
  refine receiver_runs simReceiver reserved receives noClass
    placedParts.left.left agrees
    fun mid object atMid same targetGives => ?_
  refine lowerAll_runs each reserved' hargs
    (atMid ▸ placedParts.left.right) (agrees.after reserved same)
    fun evaluated values atEvaluated same' givesAll => ?_
  have atEvaluated : evaluated.pc =
      start.pc + position (targetCode ++ argCode) := by
    simp [atEvaluated, atMid, Nat.add_assoc]
  refine packVarargs_runs hpack (Expr.lowerAll_typeOf hargs) givesAll
    (atEvaluated ▸ placedParts.right)
    fun packed values' atPacked same'' givesPassed => ?_
  have targetLater := (targetGives.later extendArgs same').later extendPack
    same''
  have calls : (Ir.Call.perform run.code packed.vars
      { kind := .virtual, target, method := some method, args := passed
        returnTy := callTy (run.tree.callee? receiver method) attr.ty
          dest }) =
      Effect.call run.tree.oracle
        { kind := .virtual
          owner := (run.tree.typeOf receiver).className?
          name := method } (object :: values') := by
    have readAll : Operand.readAll run.code packed.vars (target :: passed) =
        pure (object :: values') :=
      GivesAll.readAll (.cons targetLater givesPassed)
    rw [Ir.Call.perform, readAll, pure_bind]
    simp only [code, Ir.Setting.named, sameTy]
    rfl
  rw [← calls]
  have sameAll := same.trans ((same'.trans (same''.mono extendArgs)).mono
    extendTarget)
  exact finishCall_runs hfinish
    ((extendTarget.trans extendArgs).trans extendPack) placed
    (by simp [atPacked, atEvaluated, Nat.add_assoc]) sameAll rest

theorem call_simulates {receiver : Expr} {method : String}
    {args : List Expr} (simReceiver : run.Simulates locals receiver)
    (each : ∀ arg ∈ args, run.Simulates locals arg) :
    run.Simulates locals (.call attr receiver method args) := by
  cases isClass : run.tree.classOf? receiver with
  | some owner => exact static_simulates each isClass
  | none => exact virtual_simulates simReceiver each isClass

/-! ## All expressions -/

theorem simulates (run : Activation) (locals : Locals) (expr : Expr) :
    run.Simulates locals expr := by
  induction expr with
  | int attr value | bool attr value | self attr =>
      intro dest supply lowered after start β next post _ h _ _ rest
      rw [Expr.lower] at h
      obtain ⟨rfl, rfl⟩ := Action.pure_eq_ok.mp h
      exact rest start rfl (.refl supply _)
  | var attr name => exact var_simulates name
  | binary attr op left right simLeft simRight =>
      by_cases isAnd : op = .and
      · subst isAnd
        exact and_simulates simLeft simRight
      · exact binary_simulates isAnd simLeft simRight
  | not attr operand sim => exact not_simulates sim
  | paren attr inner sim =>
      intro dest supply lowered after start β next post reserved h placed
        agrees rest
      rw [Expr.lower] at h
      rw [Expr.eval]
      exact sim reserved h placed agrees rest
  | call attr receiver method args simReceiver each =>
      exact call_simulates simReceiver each
  | newObject attr className => exact newObject_simulates className
  | newArray attr size sim => exact newArray_simulates sim
  | arrayLiteral attr elements each => exact arrayLiteral_simulates each
  | index attr array position simArray simPosition =>
      exact index_simulates simArray simPosition
  | length attr array sim => exact length_simulates sim

end JavaMinus.Activation
