import JavaMinus.Proofs.Lowering.Expressions
import JavaMinus.Proofs.Lowering.FallThrough

/-!
# Lowered statements

The code of a statement does what the statement does, and goes on behind its
last instruction if the statement completes.  Between statements only the
variables of the tree matter; temporaries are forgotten.
-/

namespace JavaMinus

open Ir (Operand Instr Fragment)
open Lowering JavaMinus.Tree

theorem Runs.effect {α : Type} {setting : Ir.Setting} {method : Ir.Method}
    {start : Ir.State} {action : Locals → Effect α} {state : Tree.State}
    {post : α → Tree.State → Ir.State → Prop}
    (h : Runs setting method start (action state.locals state.world)
      fun value world reached => post value ⟨state.locals, world⟩ reached) :
    Runs setting method start (Exec.effect action state) post := by
  rw [Exec.effect]
  cases result : action state.locals state.world with
  | ok value world =>
      rw [result] at h
      exact h
  | error exit world =>
      rw [result] at h
      exact h

theorem Runs.setLocal {setting : Ir.Setting} {method : Ir.Method}
    {start : Ir.State} {action : Locals → Effect Value} {state : Tree.State}
    {name : String} {post : Unit → Tree.State → Ir.State → Prop}
    (h : Runs setting method start (action state.locals state.world)
      fun value world => post () ⟨state.locals.set name value, world⟩) :
    Runs setting method start
      ((Exec.effect action >>= Exec.setLocal name) state) post := by
  cases result : action state.locals state.world with
  | ok value world =>
      have ran : Exec.effect action state =
          .ok value ⟨state.locals, world⟩ := by
        rw [Exec.effect, result]
      rw [Action.bind_of_ok ran]
      rw [result] at h
      exact h
  | error exit world =>
      have ran : Exec.effect action state =
          .error exit ⟨state.locals, world⟩ := by
        rw [Exec.effect, result]
      rw [Action.bind_of_error ran]
      rw [result] at h
      exact h

namespace Activation

variable {run : Activation} {supply after : Supply} {start : Ir.State}
  {state : Tree.State}

def Past (run : Activation) (index : Nat) (state : Tree.State)
    (reached : Ir.State) : Prop :=
  reached.pc = index ∧ run.scope.Agrees state.locals reached.vars

def Performs (run : Activation) (action : Exec Unit) (code : List Fragment) :
    Prop :=
  ∀ ⦃start state⦄, Placed run.method start.pc code →
    run.scope.Agrees state.locals start.vars → start.world = state.world →
    Runs run.code run.method start (action state)
      fun _ state => run.Past (start.pc + position code) state

/-! ## Assignments -/

theorem eval_of_reads {name : String} {expr : Expr} {locals : Locals}
    (h : expr.reads name = true) :
    expr.eval run.tree locals = run.tree.read locals name := by
  rw [← Expr.eval_skipParens]
  rw [Expr.reads] at h
  cases form : expr.skipParens with
  | var attr other =>
      rw [form] at h
      rw [Expr.eval, of_decide_eq_true h]
  | _ => simp [form] at h

theorem eval_of_increment {name : String} {ty : Ty} {value : Expr}
    {step : Instr} {locals vars : Locals}
    (h : increment? name ty value = some step)
    (isVariable : run.scope.IsVariable name)
    (agrees : run.scope.Agrees locals vars) :
    value.eval run.tree locals = step.value run.code vars := by
  have reads {expr : Expr} (h : expr.reads name = true) :
      expr.eval run.tree locals =
        (Operand.var name .int).read run.code vars :=
    (eval_of_reads h).trans (read_variable isVariable agrees)
  obtain ⟨attr, op, left, right, literal, _, form, moves, step⟩ :=
    increment?_eq_some h
  have strict : op ≠ .and := by
    rintro rfl
    simp at moves
  rw [← Expr.eval_skipParens, form, Expr.eval_binary _ _ _ _ _ strict]
  rcases step with ⟨onLeft, isLiteral, rfl⟩ | ⟨onRight, isLiteral, rfl⟩
  · rw [reads onLeft, Expr.eval_of_literal isLiteral]
    rfl
  · rw [reads onRight, Expr.eval_of_literal isLiteral]
    rfl

theorem execAssign_variable {target value : Expr} {attr : Attr}
    {name : String} {symbol : Symbol}
    (form : target.skipParens = .var attr name)
    (origin : run.scope.resolve name = .localVar symbol ∨
      run.scope.resolve name = .param symbol) :
    Stmt.execAssign run.tree target value = (do
      let value ← Exec.effect fun locals => value.eval run.tree locals
      Exec.setLocal name value) := by
  rw [Stmt.execAssign, form]
  rcases origin with origin | origin <;>
    simp only [tree, Scope.setting, origin]

theorem increment_performs {name : String} {ty : Ty} {value : Expr}
    {step : Instr} (h : increment? name ty value = some step)
    (isVariable : run.scope.IsVariable name) :
    run.Performs (do
      let value ← Exec.effect fun locals => value.eval run.tree locals
      Exec.setLocal name value) [.instr (.store (.var name ty) step)] := by
  intro start state placed agrees sees
  refine Runs.setLocal ?_
  rw [← sees, ← bind_pure (value.eval run.tree state.locals),
    eval_of_increment h isVariable agrees]
  refine Runs.next (start.vars.set name) placed.fetch rfl
    fun value reached atEnd vars => ?_
  exact .ok rfl ⟨atEnd, vars ▸ agrees.set name value⟩

theorem assignVar_performs {name : String} {ty : Ty} {value : Expr}
    {dest : Destination} {op : Operand} {code : List Fragment}
    (reserved : run.scope.Reserved supply)
    (h : value.lower run.scope dest supply = .ok ⟨some op, code⟩ after) :
    run.Performs (do
      let value ← Exec.effect fun locals => value.eval run.tree locals
      Exec.setLocal name value)
      (code ++ [.instr (.store (.var name ty) (.single op))]) := by
  intro start state placed agrees sees
  refine Runs.setLocal ?_
  rw [← sees, ← bind_pure (value.eval run.tree state.locals)]
  refine run.simulates _ value reserved h placed.left agrees
    fun mid atMid same => ?_
  rw [delivers_some]
  refine Runs.next (mid.vars.set name) (atMid ▸ placed.right.fetch) rfl
    fun value reached atEnd vars => ?_
  exact .ok rfl ⟨by simp [atEnd, atMid, Nat.add_assoc],
    vars ▸ (agrees.after reserved same).set name value⟩

theorem assignField_performs {symbol : Symbol} {value : Expr}
    {dest : Destination} {op : Operand} {code : List Fragment}
    (reserved : run.scope.Reserved supply)
    (h : value.lower run.scope dest supply = .ok ⟨some op, code⟩ after) :
    run.Performs (Exec.effect fun locals => do
      let value ← value.eval run.tree locals
      Effect.putField run.self { name := symbol.name } value)
      (code ++ [.instr (.putField (.self run.scope.className)
        (fieldRef run.scope symbol) op)]) := by
  intro start state placed agrees sees
  refine Runs.effect ?_
  rw [← sees]
  refine run.simulates _ value reserved h placed.left agrees
    fun mid atMid same => ?_
  rw [delivers_some, ← bind_pure (_ >>= _)]
  refine Runs.next (fun _ => mid.vars) (atMid ▸ placed.right.fetch) ?_
    fun _ reached atEnd vars => ?_
  · rw [bind_assoc]
    rfl
  · exact .ok rfl ⟨by simp [atEnd, atMid, Nat.add_assoc],
      vars ▸ agrees.after reserved same⟩

theorem assignElement_performs {array position value : Expr} {name : String}
    {ty : Ty} {dest : Destination} {first second : Supply}
    {place op : Operand} {arrayCode placeCode valueCode : List Fragment}
    (reserved : run.scope.Reserved supply)
    (harray : array.lower run.scope .operand supply =
      .ok ⟨some (.var name ty), arrayCode⟩ first)
    (hposition : position.lower run.scope .operand first =
      .ok ⟨some place, placeCode⟩ second)
    (hvalue : value.lower run.scope dest second =
      .ok ⟨some op, valueCode⟩ after) :
    run.Performs (Exec.effect fun locals => do
      let array ← array.eval run.tree locals
      let position ← position.eval run.tree locals
      let value ← value.eval run.tree locals
      Effect.store array position value)
      (arrayCode ++ placeCode ++ valueCode ++
        [.instr (.store (.element name place) (.single op))]) := by
  intro start state placed agrees sees
  refine Runs.effect ?_
  have extendArray := (Expr.lower_draws harray).toExtends
  have extendPlace := (Expr.lower_draws hposition).toExtends
  have reservedPlace := reserved.after extendArray
  have reservedValue := reservedPlace.after extendPlace
  rw [← sees]
  refine (run.simulates _ array).operand reserved harray
    placed.left.left.left agrees
    fun atArray arrayValue pcArray sameArray arrayGives => ?_
  have agreesArray := agrees.after reserved sameArray
  refine (run.simulates _ position).operand reservedPlace hposition
    (pcArray ▸ placed.left.left.right) agreesArray
    fun atPlace placeValue pcPlace samePlace placeGives => ?_
  have agreesPlace := agreesArray.after reservedPlace samePlace
  have pcPlace : atPlace.pc =
      start.pc + Lowering.position (arrayCode ++ placeCode) := by
    simp [pcPlace, pcArray, Nat.add_assoc]
  refine run.simulates _ value reservedValue hvalue
    (pcPlace ▸ placed.left.right) agreesPlace fun mid pcMid same => ?_
  have pcMid : mid.pc = start.pc +
      Lowering.position (arrayCode ++ placeCode ++ valueCode) := by
    simp [pcMid, pcPlace, Nat.add_assoc]
  have arrayRead := (arrayGives.later extendPlace samePlace) _ same
  have placeRead := placeGives _ same
  rw [Operand.read] at arrayRead
  rw [delivers_some, ← bind_pure (_ >>= _)]
  refine Runs.next (fun _ => mid.vars) (pcMid ▸ placed.right.fetch) ?_
    fun _ reached atEnd vars => ?_
  · simp only [Instr.store, Instr.run, Instr.value, arrayRead, placeRead,
      pure_bind, bind_assoc]
  · exact .ok rfl ⟨by simp [atEnd, pcMid, Nat.add_assoc],
      vars ▸ agreesPlace.after reservedValue same⟩

/-! ## Values that are dropped or returned -/

theorem expr_performs {value : Expr} {lowered : Lowered}
    (reserved : run.scope.Reserved supply)
    (h : value.lower run.scope .discarded supply = .ok lowered after) :
    run.Performs (Exec.effect fun locals => do
      let _ ← value.eval run.tree locals
      pure ()) lowered.code := by
  intro start state placed agrees sees
  refine Runs.effect ?_
  rw [← sees]
  obtain ⟨result, code⟩ := lowered
  -- The value is not used, but an expression without one gets stuck.
  have past {mid : Ir.State} (atMid : mid.pc = start.pc + position code)
      (same : supply.Preserves start.vars mid.vars) :
      Runs run.code run.method mid ((pure () : Effect Unit) mid.world)
        fun _ world => run.Past (start.pc + position code)
          ⟨state.locals, world⟩ :=
    .ok rfl ⟨atMid, agrees.after reserved same⟩
  cases result with
  | none =>
      exact run.simulates _ value reserved h placed agrees
        fun mid atMid same _ => past atMid same
  | some op =>
      rcases Expr.lower_settled run.self run.oracle (.inr rfl) reserved h op
        rfl with settled | stuck
      · refine run.simulates _ value reserved h placed agrees
          fun mid atMid same => ?_
        rcases settled.read run.code mid.vars with ⟨value, gives⟩ | stuck
        · rw [delivers_of_gives gives.now]
          exact past atMid same
        · rw [delivers_some, stuck]
          exact .stuck
      · rw [tree, stuck]
        exact .stuck

theorem ret_performs {value : Expr} {dest : Destination} {op : Operand}
    {code : List Fragment} {ty : Ty} (reserved : run.scope.Reserved supply)
    (h : value.lower run.scope dest supply = .ok ⟨some op, code⟩ after) :
    run.Performs (Exec.effect fun locals => do
      let value ← value.eval run.tree locals
      throw (.returned (some value)))
      (code ++ [.instr (.ret ty (some op))]) := by
  intro start state placed agrees sees
  refine Runs.effect ?_
  rw [← sees]
  refine run.simulates _ value reserved h placed.left agrees
    fun mid atMid same => ?_
  exact Runs.retValue (atMid ▸ placed.right.fetch)

/-! ## Conditions and jumps -/

theorem holds_runs {cond : Expr} {op : Operand} {code : List Fragment}
    (reserved : run.scope.Reserved supply)
    (h : cond.lower run.scope .operand supply = .ok ⟨some op, code⟩ after)
    (placed : Placed run.method start.pc code)
    (agrees : run.scope.Agrees state.locals start.vars)
    (sees : start.world = state.world) :
    Runs run.code run.method start (cond.holds run.tree state)
      fun truth state reached =>
        run.Past (start.pc + position code) state reached ∧
          op.read run.code reached.vars = pure (.ofBool truth) := by
  refine Runs.effect ?_
  rw [← sees]
  refine (run.simulates _ cond).operand reserved h placed agrees
    fun mid value atMid same gives => ?_
  rw [← bind_pure (Effect.truth value)]
  refine Runs.truth fun truth isTruth => ?_
  exact .ok rfl ⟨⟨atMid, agrees.after reserved same⟩,
    isTruth ▸ gives.now⟩

/--
Behind the code of an action there is a jump to a label, unless the action
never gets there.
-/
theorem thenGoto_runs {before code : List Fragment} {action : Exec Unit}
    {name : String} {first target : Nat} (performs : run.Performs action code)
    (falls : ∀ state final, action state = .ok () final →
      fallsThrough (before ++ code) = true)
    (placed : Placed run.method first (thenGoto name (before ++ code)))
    (jump : fallsThrough (before ++ code) = true →
      run.method.labels.lookup name = some target)
    (here : start.pc = first + position before)
    (agrees : run.scope.Agrees state.locals start.vars)
    (sees : start.world = state.world) :
    Runs run.code run.method start (action state)
      fun _ state => run.Past target state := by
  rw [thenGoto] at placed
  split at placed
  next isOpen =>
    refine (performs (here ▸ placed.left.right) agrees sees).andThen ?_
    intro _ state mid sees past
    have fetch := placed.right.fetch
    rw [position_append, ← Nat.add_assoc, ← here, ← past.1] at fetch
    refine Runs.goto fetch (jump isOpen) fun reached atEnd vars world => ?_
    exact .ok ((congrArg id world).trans sees) ⟨atEnd, vars ▸ past.2⟩
  next isClosed =>
    have runs := performs (here ▸ placed.right) agrees sees
    cases result : action state with
    | ok _ final => exact absurd (falls state final result) isClosed
    | error exit final =>
        rw [result] at runs
        exact runs

/-! ## Conditionals and loops -/

theorem conditional_performs {cond : Expr} {onTrue onFalse : Exec Unit}
    {op : Operand} {condCode falseCode trueCode : List Fragment}
    {thenLabel endLabel : String} (reserved : run.scope.Reserved supply)
    (hcond : cond.lower run.scope .operand supply =
      .ok ⟨some op, condCode⟩ after)
    (performsTrue : run.Performs onTrue trueCode)
    (performsFalse : run.Performs onFalse falseCode)
    (falls : ∀ state final, onFalse state = .ok () final →
      fallsThrough falseCode = true) :
    run.Performs (do
      let truth ← cond.holds run.tree
      if truth then onTrue else onFalse)
      (thenGoto endLabel
          (condCode ++ .instr (.branch op thenLabel) :: falseCode)
        ++ .label thenLabel :: trueCode ++ [.label endLabel]) := by
  intro start state placed agrees sees
  rw [List.append_cons condCode] at placed ⊢
  generalize whole : condCode ++ [.instr (.branch op thenLabel)] ++
    falseCode = first at placed ⊢
  have branches : .instr (.branch op thenLabel) ∈ first := by
    simp [← whole]
  have toThen := placed.jump (thenGoto endLabel first)
    (.branch op thenLabel) ⟨trueCode ++ [.label endLabel], by simp⟩
    (List.mem_append_left _ (List.mem_append_left _
      ((prefix_thenGoto endLabel first).subset branches))) rfl
  have toEnd (isOpen : fallsThrough first = true) := placed.jump
    (thenGoto endLabel first ++ .label thenLabel :: trueCode)
    (.goto endLabel) ⟨[], by simp⟩ (List.mem_append_left _
      (List.mem_append_left _ (goto_mem_thenGoto isOpen))) rfl
  have placedFirst : Placed run.method start.pc
      (condCode ++ [.instr (.branch op thenLabel)] ++ falseCode) :=
    placed.left.left.ofPrefix (whole ▸ prefix_thenGoto endLabel first)
  have atEnd : position (thenGoto endLabel first ++ .label thenLabel ::
      trueCode ++ [.label endLabel]) =
        position (thenGoto endLabel first ++ .label thenLabel ::
          trueCode) := by
    simp
  rw [atEnd]
  refine Follows.bind (holds_runs reserved hcond placedFirst.left.left
    agrees sees) fun truth state mid sees ⟨past, gives⟩ => ?_
  refine Runs.branch (past.1 ▸ placedFirst.left.right.fetch) toThen gives
    fun branched atBranch vars world => ?_
  have agrees : run.scope.Agrees state.locals branched.vars := vars ▸ past.2
  have sees : branched.world = state.world := world.trans sees
  cases truth with
  | true =>
      have here : branched.pc =
          start.pc + position (thenGoto endLabel first) := by
        simp [atBranch]
      refine (performsTrue (here ▸ placed.left.right.afterLabel) agrees
        sees).mono (fun _ => id) fun _ state reached _ past => ?_
      exact ⟨by simp [past.1, here, Nat.add_assoc], past.2⟩
  | false =>
      have here : branched.pc = start.pc +
          position (condCode ++ [.instr (.branch op thenLabel)]) := by
        simp [atBranch, past.1, Nat.add_assoc]
      refine thenGoto_runs performsFalse (fun state final completes => ?_)
        (whole ▸ placed.left.left) (whole ▸ toEnd) here agrees sees
      exact fallsThrough_both (fallsThrough_instr _ _)
        (falls state final completes)

theorem loop_performs {cond : Expr} {body : Exec Unit} {op : Operand}
    {condCode bodyCode : List Fragment}
    {condLabel bodyLabel endLabel : String} (fuel : Nat)
    (reserved : run.scope.Reserved supply)
    (hcond : cond.lower run.scope .operand supply =
      .ok ⟨some op, condCode⟩ after)
    (performs : run.Performs body bodyCode)
    (falls : ∀ state final, body state = .ok () final →
      fallsThrough bodyCode = true) :
    run.Performs (Exec.loop (cond.holds run.tree) body fuel)
      (thenGoto condLabel
          (.label condLabel :: condCode ++
            [.instr (.branch op bodyLabel), .instr (.goto endLabel),
              .label bodyLabel] ++ bodyCode)
        ++ [.label endLabel]) := by
  intro start state placed agrees sees
  generalize whole : .label condLabel :: condCode ++
    [.instr (.branch op bodyLabel), .instr (.goto endLabel),
      .label bodyLabel] ++ bodyCode = inner at placed ⊢
  -- The loop comes back to where it starts; only the state changes.
  generalize atStart : start.pc = place at placed ⊢
  have front : inner <+: thenGoto condLabel inner ++ [.label endLabel] :=
    (prefix_thenGoto condLabel inner).trans (List.prefix_append _ _)
  have toBody := placed.jump (.label condLabel :: condCode ++
      [.instr (.branch op bodyLabel), .instr (.goto endLabel)])
    (.branch op bodyLabel)
    (List.IsPrefix.trans ⟨bodyCode, by simp [← whole]⟩ front)
    (front.subset (by simp [← whole])) rfl
  have toEnd := placed.jump (thenGoto condLabel inner) (.goto endLabel)
    (List.prefix_refl _) (front.subset (by simp [← whole])) rfl
  have toCond (isOpen : fallsThrough inner = true) := placed.jump []
    (.goto condLabel) (List.IsPrefix.trans ⟨_, by simp [← whole]; rfl⟩ front)
    (List.mem_append_left _ (goto_mem_thenGoto isOpen)) rfl
  have placedInner : Placed run.method place
      (.label condLabel :: condCode ++ [.instr (.branch op bodyLabel),
        .instr (.goto endLabel), .label bodyLabel] ++ bodyCode) :=
    placed.ofPrefix (whole ▸ front)
  have placedJumps := placedInner.left.right
  have falls' (state final : Tree.State) (h : body state = .ok () final) :
      fallsThrough (.label condLabel :: condCode ++
        [.instr (.branch op bodyLabel), .instr (.goto endLabel),
          .label bodyLabel] ++ bodyCode) = true := by
    refine fallsThrough_both ?_ (falls state final h)
    rw [fallsThrough_append _ (by simp)]
    rfl
  induction fuel generalizing start state with
  | zero => exact .outOfFuel
  | succ fuel ih =>
      rw [Exec.loop]
      refine Follows.bind (holds_runs reserved hcond
        (atStart ▸ placedInner.left.left.afterLabel) agrees sees)
        fun truth state mid sees ⟨past, gives⟩ => ?_
      have atMid : mid.pc = place + position (.label condLabel :: condCode) :=
        atStart ▸ past.1
      refine Runs.branch (atMid ▸ placedJumps.fetch) toBody gives
        fun branched atBranch vars world => ?_
      have agrees : run.scope.Agrees state.locals branched.vars :=
        vars ▸ past.2
      have sees : branched.world = state.world := world.trans sees
      cases truth with
      | false =>
          have here : branched.pc =
              place + position (.label condLabel :: condCode) + 1 := by
            simp [atBranch, atMid]
          refine Runs.goto (here ▸ placedJumps.tail.fetch) toEnd
            fun last atLast vars world => ?_
          exact .ok (world.trans sees) ⟨by simp [atLast], vars ▸ agrees⟩
      | true =>
          have here : branched.pc = place + position
              (.label condLabel :: condCode ++
                [.instr (.branch op bodyLabel), .instr (.goto endLabel),
                  .label bodyLabel]) := by
            simp [atBranch]
          refine Follows.bind (thenGoto_runs performs falls'
            (whole ▸ placed.left) (whole ▸ toCond) here agrees sees)
            fun _ state again sees past => ?_
          exact ih past.2 sees past.1

/-! ## All statements -/

private theorem reserved_branch {cond : Expr} {lowered : Lowered}
    {first second third : Supply} {thenLabel endLabel : String}
    (reserved : run.scope.Reserved supply)
    (hcond : cond.lower run.scope .operand supply = .ok lowered first)
    (hthen : Lower.label "then" first = .ok thenLabel second)
    (hend : Lower.label "endif" second = .ok endLabel third) :
    run.scope.Reserved third :=
  reserved.after (((Expr.lower_draws hcond).toExtends.trans
    (Lower.labelled_of_label hthen (by decide)).toExtends).trans
    (Lower.labelled_of_label hend (by decide)).toExtends)

theorem stmt_performs {fuel : Nat} {stmt : Stmt} {code : List Fragment}
    (reserved : run.scope.Reserved supply)
    (h : stmt.lower run.scope supply = .ok code after) :
    run.Performs (stmt.exec run.tree fuel) code := by
  induction h using Stmt.lower_induction with
  | nil => exact fun _ _ _ agrees sees => .ok sees ⟨rfl, agrees⟩
  | cons hfirst _ ihFirst ihRest =>
      have extend := (Stmt.lower_draws hfirst).toExtends
      intro start state placed agrees sees
      rw [Stmt.exec, Stmt.execAll]
      refine Follows.bind (ihFirst reserved placed.left agrees sees)
        fun _ state mid sees past => ?_
      rw [← Stmt.exec]
      refine (ihRest (reserved.after extend) (past.1 ▸ placed.right) past.2
        sees).mono (fun _ => id) fun _ state reached _ past' => ?_
      exact ⟨by simp [past'.1, past.1, Nat.add_assoc], past'.2⟩
  | increment form origin hstep =>
      rw [Stmt.exec, execAssign_variable form origin]
      exact increment_performs hstep ⟨_, origin⟩
  | assignVar form origin hvalue =>
      rw [Stmt.exec, execAssign_variable form origin]
      exact assignVar_performs reserved hvalue
  | assignField form origin hvalue =>
      rw [Stmt.exec, Stmt.execAssign, form]
      simp only [tree, Scope.setting, origin]
      exact assignField_performs reserved hvalue
  | assignElement form harray hposition hvalue =>
      rw [Stmt.exec, Stmt.execAssign, form]
      exact assignElement_performs reserved harray hposition hvalue
  | expr hvalue => exact expr_performs reserved hvalue
  | retVoid => exact fun _ _ placed _ sees => Runs.retVoid placed.fetch sees
  | ret hvalue =>
      rw [Stmt.exec]
      exact ret_performs reserved hvalue
  | ifThen hcond hthen hend _ ih =>
      have performsNothing : run.Performs (pure ()) [] :=
        fun _ _ _ agrees sees => .ok sees ⟨rfl, agrees⟩
      rw [Stmt.exec]
      exact conditional_performs reserved hcond
        (ih (reserved_branch reserved hcond hthen hend)) performsNothing
        fun _ _ _ => rfl
  | ifElse hcond hthen hend hfalse _ ihFalse ihTrue =>
      have reservedFalse := reserved_branch reserved hcond hthen hend
      rw [Stmt.exec]
      exact conditional_performs reserved hcond
        (ihTrue (reservedFalse.after (Stmt.lower_draws hfalse).toExtends))
        (ihFalse reservedFalse)
        fun _ _ => Stmt.fallsThrough_of_completes hfalse
  | loop hcondLabel hbodyLabel hendLabel hcond hbody ih =>
      have reservedCond := reserved.after
        (((Lower.labelled_of_label hcondLabel (by decide)).toExtends.trans
          (Lower.labelled_of_label hbodyLabel (by decide)).toExtends).trans
          (Lower.labelled_of_label hendLabel (by decide)).toExtends)
      have reservedBody := reservedCond.after
        (Expr.lower_draws hcond).toExtends
      rw [Stmt.exec]
      exact loop_performs _ reservedCond hcond (ih reservedBody)
        fun _ _ => Stmt.fallsThrough_of_completes hbody

theorem body_performs {fuel : Nat} {stmts : List Stmt}
    {code : List Fragment} (reserved : run.scope.Reserved supply)
    (h : Stmt.lowerAll run.scope stmts supply = .ok code after) :
    run.Performs (Stmt.execAll run.tree fuel stmts) code := by
  rw [← Stmt.exec]
  exact stmt_performs reserved (Stmt.lower_of_lowerAll h)

end Activation

end JavaMinus
