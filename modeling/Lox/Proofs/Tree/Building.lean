import Lox.Proofs.Tree.Placement

/-!
# Building well-placed code

For each kind of expression and statement, what makes it well placed in terms of what it is made
of.
-/

namespace Lox

variable {k : Enclosure} {span : Span}

namespace Expr.Placed

/-- An expression that makes no function is well placed with its parts. -/
theorem of_parts
    {e : Expr}
    (hallowed : k.AllowsExpr e)
    (hbody : e.body = [])
    (hparts : ∀ part ∈ e.parts, part.Placed k) :
    e.Placed k :=
  .intro hallowed hparts (by simp [hbody])

theorem of_literal (value : Literal) : (Expr.literal value span).Placed k :=
  of_parts ⟨nofun, trivial⟩ rfl nofun

theorem of_reference
    {name : String}
    (hname : ¬IsReserved name) :
    (Expr.reference name span).Placed k :=
  of_parts ⟨List.forall_mem_singleton.mpr hname, trivial⟩ rfl nofun

theorem of_assign
    {name : String} {value : Expr}
    (hname : ¬IsReserved name)
    (hvalue : value.Placed k) :
    (Expr.assign name value span).Placed k :=
  of_parts ⟨List.forall_mem_singleton.mpr hname, trivial⟩ rfl (List.forall_mem_singleton.mpr hvalue)

theorem of_binary
    {left right : Expr} {op : BinaryOp}
    (hleft : left.Placed k)
    (hright : right.Placed k) :
    (Expr.binary left op right span).Placed k :=
  of_parts ⟨nofun, trivial⟩ rfl
    (List.forall_mem_cons.mpr ⟨hleft, List.forall_mem_singleton.mpr hright⟩)

theorem of_unary
    {op : UnaryOp} {operand : Expr}
    (hoperand : operand.Placed k) :
    (Expr.unary op operand span).Placed k :=
  of_parts ⟨nofun, trivial⟩ rfl (List.forall_mem_singleton.mpr hoperand)

theorem of_logical
    {left right : Expr} {op : LogicalOp}
    (hleft : left.Placed k)
    (hright : right.Placed k) :
    (Expr.logical left op right span).Placed k :=
  of_parts ⟨nofun, trivial⟩ rfl
    (List.forall_mem_cons.mpr ⟨hleft, List.forall_mem_singleton.mpr hright⟩)

theorem of_conditional
    {condition thenBranch elseBranch : Expr}
    (hcondition : condition.Placed k)
    (hthen : thenBranch.Placed k)
    (helse : elseBranch.Placed k) :
    (Expr.conditional condition thenBranch elseBranch span).Placed k := by
  have hbranches : ∀ e ∈ [thenBranch, elseBranch], e.Placed k :=
    List.forall_mem_cons.mpr ⟨hthen, List.forall_mem_singleton.mpr helse⟩
  exact of_parts ⟨nofun, trivial⟩ rfl (List.forall_mem_cons.mpr ⟨hcondition, hbranches⟩)

theorem of_call
    {callee : Expr} {arguments : List Expr}
    (hcallee : callee.Placed k)
    (harguments : ∀ e ∈ arguments, e.Placed k) :
    (Expr.call callee arguments span).Placed k :=
  of_parts ⟨nofun, trivial⟩ rfl (List.forall_mem_cons.mpr ⟨hcallee, harguments⟩)

theorem of_get
    {object : Expr} {name : String}
    (hobject : object.Placed k) :
    (Expr.get object name span).Placed k :=
  of_parts ⟨nofun, trivial⟩ rfl (List.forall_mem_singleton.mpr hobject)

theorem of_set
    {object value : Expr} {name : String}
    (hobject : object.Placed k)
    (hvalue : value.Placed k) :
    (Expr.set object name value span).Placed k :=
  of_parts ⟨nofun, trivial⟩ rfl
    (List.forall_mem_cons.mpr ⟨hobject, List.forall_mem_singleton.mpr hvalue⟩)

theorem of_this (hk : k.classHasSuperclass.isSome = true) : (Expr.this span).Placed k :=
  of_parts ⟨nofun, hk⟩ rfl nofun

theorem of_super
    {method : String}
    (hk : k.classHasSuperclass = some true) :
    (Expr.super method span).Placed k :=
  of_parts ⟨nofun, hk⟩ rfl nofun

theorem of_list
    {elements : List Expr}
    (helements : ∀ e ∈ elements, e.Placed k) :
    (Expr.list elements span).Placed k :=
  of_parts ⟨nofun, trivial⟩ rfl helements

theorem of_map
    {entries : List MapEntry}
    (hentries : ∀ entry ∈ entries, ∀ e ∈ entry.parts, e.Placed k) :
    (Expr.map entries span).Placed k := by
  refine of_parts ⟨nofun, trivial⟩ rfl fun e he => ?_
  obtain ⟨entry, hentry, he⟩ := List.mem_flatMap.mp he
  exact hentries entry hentry e he

theorem of_index
    {object key : Expr}
    (hobject : object.Placed k)
    (hkey : key.Placed k) :
    (Expr.index object key span).Placed k :=
  of_parts ⟨nofun, trivial⟩ rfl
    (List.forall_mem_cons.mpr ⟨hobject, List.forall_mem_singleton.mpr hkey⟩)

theorem of_indexSet
    {object key value : Expr}
    (hobject : object.Placed k)
    (hkey : key.Placed k)
    (hvalue : value.Placed k) :
    (Expr.indexSet object key value span).Placed k := by
  have hrest : ∀ e ∈ [key, value], e.Placed k :=
    List.forall_mem_cons.mpr ⟨hkey, List.forall_mem_singleton.mpr hvalue⟩
  exact of_parts ⟨nofun, trivial⟩ rfl (List.forall_mem_cons.mpr ⟨hobject, hrest⟩)

theorem of_function
    {params : List String} {body : List Stmt}
    (hparams : ∀ name ∈ params, ¬IsReserved name)
    (hbody : ∀ s ∈ body, s.Placed k.enterFunction) :
    (Expr.function params body span).Placed k :=
  .intro ⟨hparams, trivial⟩ nofun hbody

end Expr.Placed

namespace Stmt.Placed

section Simple

/-- A statement that contains no other statements. -/
theorem of_expressions
    {s : Stmt}
    (hallowed : k.AllowsStmt s)
    (hexpressions : ∀ e ∈ s.expressions, e.Placed k)
    (hbranches : s.branches = [])
    (hinner : s.inner = [])
    (hloop : s.loopBody? = none)
    (hfunctions : s.functions = [])
    (hmethods : s.methods = []) :
    s.Placed k :=
  .intro hallowed hexpressions (by simp [hbranches]) (by simp [hinner]) (by simp [hloop])
    (by simp [hfunctions]) (by simp [hmethods])

theorem of_expression {e : Expr} (he : e.Placed k) : (Stmt.expression e span).Placed k :=
  of_expressions ⟨nofun, nofun, trivial⟩ (List.forall_mem_singleton.mpr he) rfl rfl rfl rfl rfl

theorem of_print {e : Expr} (he : e.Placed k) : (Stmt.print e span).Placed k :=
  of_expressions ⟨nofun, nofun, trivial⟩ (List.forall_mem_singleton.mpr he) rfl rfl rfl rfl rfl

theorem of_throwValue {e : Expr} (he : e.Placed k) : (Stmt.throwValue e span).Placed k :=
  of_expressions ⟨nofun, nofun, trivial⟩ (List.forall_mem_singleton.mpr he) rfl rfl rfl rfl rfl

theorem of_declare
    {name : String} {initial : Option Expr} {isConst : Bool}
    (hname : ¬IsReserved name)
    (hinitial : ∀ e ∈ initial, e.Placed k) :
    (Stmt.declare name initial isConst span).Placed k :=
  of_expressions ⟨List.forall_mem_singleton.mpr hname, nofun, trivial⟩
    (fun e he => hinitial e (Option.mem_toList.mp he)) rfl rfl rfl rfl rfl

theorem of_returnValue
    {value : Option Expr}
    (hk : k.inFunction = true)
    (hvalue : ∀ e ∈ value, e.Placed k) :
    (Stmt.returnValue value span).Placed k :=
  of_expressions ⟨nofun, nofun, hk⟩ (fun e he => hvalue e (Option.mem_toList.mp he))
    rfl rfl rfl rfl rfl

theorem of_breakLoop (hk : k.inLoop = true) : (Stmt.breakLoop span).Placed k :=
  of_expressions ⟨nofun, nofun, hk⟩ nofun rfl rfl rfl rfl rfl

theorem of_continueLoop (hk : k.inLoop = true) : (Stmt.continueLoop span).Placed k :=
  of_expressions ⟨nofun, nofun, hk⟩ nofun rfl rfl rfl rfl rfl

theorem of_dump : (Stmt.dump span).Placed k :=
  of_expressions ⟨nofun, nofun, trivial⟩ nofun rfl rfl rfl rfl rfl

end Simple

section Compound

theorem of_block
    {statements : List Stmt}
    (hstatements : ∀ s ∈ statements, s.Placed k) :
    (Stmt.block statements span).Placed k :=
  .intro ⟨nofun, nofun, trivial⟩ nofun nofun hstatements nofun nofun nofun

theorem of_ifElse
    {condition : Expr} {thenBranch : Stmt} {elseBranch : Option Stmt}
    (hcondition : condition.Placed k)
    (hthen : thenBranch.Placed k ∧ thenBranch.declared? = none)
    (helse : ∀ s ∈ elseBranch, s.Placed k ∧ s.declared? = none) :
    (Stmt.ifElse condition thenBranch elseBranch span).Placed k := by
  have hbranches : ∀ s ∈ thenBranch :: elseBranch.toList, s.Placed k ∧ s.declared? = none :=
    List.forall_mem_cons.mpr ⟨hthen, fun s hs => helse s (Option.mem_toList.mp hs)⟩
  exact .intro ⟨nofun, fun s hs => (hbranches s hs).2, trivial⟩
    (List.forall_mem_singleton.mpr hcondition) (fun s hs => (hbranches s hs).1) nofun nofun nofun
    nofun

/-- A loop with its body and, in a scope of its own, its first clause. -/
theorem of_loopBody
    {s body : Stmt}
    (hallowed : k.AllowsStmt s)
    (hexpressions : ∀ e ∈ s.expressions, e.Placed k)
    (hinner : ∀ t ∈ s.inner, t.Placed k)
    (hloop : s.loopBody? = some body)
    (hbody : body.Placed k.enterLoop)
    (hbranches : s.branches = [])
    (hfunctions : s.functions = [])
    (hmethods : s.methods = []) :
    s.Placed k :=
  .intro hallowed hexpressions (by simp [hbranches]) hinner (by simpa [hloop] using hbody)
    (by simp [hfunctions]) (by simp [hmethods])

theorem of_whileLoop
    {condition : Expr} {body : Stmt}
    (hcondition : condition.Placed k)
    (hbody : body.Placed k.enterLoop) :
    (Stmt.whileLoop condition body span).Placed k :=
  of_loopBody ⟨nofun, nofun, trivial⟩ (List.forall_mem_singleton.mpr hcondition) nofun rfl hbody
    rfl rfl rfl

theorem of_doWhile
    {condition : Expr} {body : Stmt}
    (hbody : body.Placed k.enterLoop)
    (hcondition : condition.Placed k) :
    (Stmt.doWhile body condition span).Placed k :=
  of_loopBody ⟨nofun, nofun, trivial⟩ (List.forall_mem_singleton.mpr hcondition) nofun rfl hbody
    rfl rfl rfl

theorem of_forLoop
    {initial : Option Stmt} {condition increment : Option Expr} {body : Stmt}
    (hinitial : ∀ s ∈ initial, s.Placed k)
    (hcondition : ∀ e ∈ condition, e.Placed k)
    (hincrement : ∀ e ∈ increment, e.Placed k)
    (hbody : body.Placed k.enterLoop) :
    (Stmt.forLoop initial condition increment body span).Placed k := by
  have hexpressions : ∀ e ∈ condition.toList ++ increment.toList, e.Placed k := by
    intro e he
    rcases List.mem_append.mp he with he | he
    · exact hcondition e (Option.mem_toList.mp he)
    · exact hincrement e (Option.mem_toList.mp he)
  exact of_loopBody ⟨nofun, nofun, trivial⟩ hexpressions
    (fun s hs => hinitial s (Option.mem_toList.mp hs)) rfl hbody rfl rfl rfl

theorem of_tryBlock
    {body : List Stmt} {handler : Option CatchClause} {cleanup : Option (List Stmt)}
    (hbody : ∀ s ∈ body, s.Placed k)
    (hhandler : ∀ clause ∈ handler, ¬IsReserved clause.name ∧ ∀ s ∈ clause.body, s.Placed k)
    (hcleanup : ∀ statements ∈ cleanup, ∀ s ∈ statements, s.Placed k) :
    (Stmt.tryBlock body handler cleanup span).Placed k := by
  have hnames : ∀ name ∈ handler.toList.map CatchClause.name ++ [], ¬IsReserved name := by
    intro name hname
    rw [List.append_nil] at hname
    obtain ⟨clause, hclause, rfl⟩ := List.mem_map.mp hname
    exact (hhandler clause (Option.mem_toList.mp hclause)).1
  refine .intro ⟨hnames, nofun, trivial⟩ nofun nofun (fun s hs => ?_) nofun nofun nofun
  rcases List.mem_append.mp hs with hs | hs
  · rcases List.mem_append.mp hs with hs | hs
    · exact hbody s hs
    · obtain ⟨clause, hclause, hs⟩ := List.mem_flatMap.mp hs
      exact (hhandler clause (Option.mem_toList.mp hclause)).2 s hs
  · obtain ⟨statements, hstatements, hs⟩ := List.mem_flatten.mp hs
    exact hcleanup statements (Option.mem_toList.mp hstatements) s hs

end Compound

section Declarations

theorem of_function
    {d : FunctionDecl}
    (hname : ¬IsReserved d.name)
    (hparams : ∀ name ∈ d.params, ¬IsReserved name)
    (hbody : ∀ s ∈ d.body, s.Placed k.enterFunction) :
    (Stmt.function d).Placed k := by
  have hnames : ∀ name ∈ d.name :: (d.params ++ []), ¬IsReserved name := by
    rw [List.append_nil]
    exact List.forall_mem_cons.mpr ⟨hname, hparams⟩
  exact .intro ⟨hnames, nofun, trivial⟩ nofun nofun nofun nofun
    (List.forall_mem_singleton.mpr hbody) nofun

theorem of_classDecl
    {name : String} {superclass : Option (String × Span)} {methods : List FunctionDecl}
    (hname : ¬IsReserved name)
    (hsuperclass : ∀ parent ∈ superclass, ¬IsReserved parent.1)
    (hmethods : ∀ d ∈ methods, (∀ name ∈ d.params, ¬IsReserved name) ∧
      ∀ s ∈ d.body, s.Placed (k.enterClass superclass.isSome).enterFunction) :
    (Stmt.classDecl name superclass methods span).Placed k := by
  have hparams : ∀ param ∈ methods.flatMap FunctionDecl.params, ¬IsReserved param := by
    intro param hparam
    obtain ⟨d, hd, hparam⟩ := List.mem_flatMap.mp hparam
    exact (hmethods d hd).1 param hparam
  have hparent : ∀ e ∈ (Stmt.classDecl name superclass methods span).expressions, e.Placed k := by
    intro e he
    obtain ⟨parent, hmem, rfl⟩ := List.mem_map.mp he
    exact .of_reference (hsuperclass parent (Option.mem_toList.mp hmem))
  exact .intro ⟨List.forall_mem_cons.mpr ⟨hname, hparams⟩, nofun, trivial⟩ hparent nofun nofun nofun
    nofun fun d hd => (hmethods d hd).2

end Declarations

end Stmt.Placed

end Lox
