import JavaMinus.Tree.Basic

/-!
# Induction on trees

Trees are nested through lists.  The principles here give, for every list of
parts, the hypothesis about each of its members.
-/

namespace JavaMinus.Tree

@[induction_eliminator]
theorem Expr.induction {motive : Expr → Prop}
    (int : ∀ attr value, motive (.int attr value))
    (bool : ∀ attr value, motive (.bool attr value))
    (var : ∀ attr name, motive (.var attr name))
    (self : ∀ attr, motive (.self attr))
    (binary : ∀ attr op left right, motive left → motive right →
      motive (.binary attr op left right))
    (not : ∀ attr operand, motive operand → motive (.not attr operand))
    (paren : ∀ attr inner, motive inner → motive (.paren attr inner))
    (call : ∀ attr receiver method args, motive receiver →
      (∀ arg ∈ args, motive arg) → motive (.call attr receiver method args))
    (newObject : ∀ attr className, motive (.newObject attr className))
    (newArray : ∀ attr size, motive size → motive (.newArray attr size))
    (arrayLiteral : ∀ attr elements, (∀ element ∈ elements, motive element) →
      motive (.arrayLiteral attr elements))
    (index : ∀ attr array position, motive array → motive position →
      motive (.index attr array position))
    (length : ∀ attr array, motive array → motive (.length attr array))
    (expr : Expr) : motive expr := by
  refine @Expr.rec motive (fun exprs => ∀ expr ∈ exprs, motive expr)
    int bool var self binary not paren call newObject newArray arrayLiteral
    index length ?_ ?_ expr
  · simp
  · intro head rest ihHead ihRest expr member
    rcases List.mem_cons.mp member with rfl | member
    · exact ihHead
    · exact ihRest expr member

@[induction_eliminator]
theorem Stmt.induction {motive : Stmt → Prop}
    (block : ∀ span body, (∀ stmt ∈ body, motive stmt) →
      motive (.block span body))
    (assign : ∀ span target value, motive (.assign span target value))
    (expr : ∀ span value, motive (.expr span value))
    (ret : ∀ span value, motive (.ret span value))
    (ifThen : ∀ span cond onTrue, motive onTrue →
      motive (.ifThen span cond onTrue))
    (ifElse : ∀ span cond onTrue onFalse, motive onTrue → motive onFalse →
      motive (.ifElse span cond onTrue onFalse))
    (loop : ∀ span cond body, motive body → motive (.loop span cond body))
    (stmt : Stmt) : motive stmt := by
  refine @Stmt.rec motive (fun stmts => ∀ stmt ∈ stmts, motive stmt)
    block assign expr ret ifThen ifElse loop ?_ ?_ stmt
  · simp
  · intro head rest ihHead ihRest stmt member
    rcases List.mem_cons.mp member with rfl | member
    · exact ihHead
    · exact ihRest stmt member

end JavaMinus.Tree
