import Lox.Proofs.Journal.Narrative

/-!
# Narratives of code

What the stories of blocks, loops and declarations are depends on the narrative. If it has them, one
narrative for each setting of a discipline (`Narration`), then every function of a recorder is
covered as soon as the answers of the recorder are. Only assignments and calls are left to each
narrative.
-/

namespace Lox

/-- A class has a superclass exactly if its declaration names one. -/
theorem Recorded.isSome_of_evaluateSuperclass
    {R : Recorder}
    {superclass : Option (String × Span)}
    {parent : Option ClassId}
    {m n : Machine}
    (h : (evaluateSuperclass R superclass m).1 = .done parent n) :
    parent.isSome = superclass.isSome := by
  cases superclass with
  | none =>
      cases h
      rfl
  | some named =>
      cases ho : (R.evaluate (.reference named.1 named.2) m).1 with
      | stopped why n' =>
          rw [evaluateSuperclass, bind_stopped ho] at h
          cases h
      | done v n' =>
          rw [evaluateSuperclass, bind_done ho] at h
          cases v with
          | «class» id =>
              cases h
              rfl
          | nil | boolean | number | string | function | native | «instance» | list | map =>
              cases h

/-- The expression assigns a variable or a field. -/
def Expr.IsAssignment : Expr → Prop
  | .assign _ _ _ | .set _ _ _ _ => True
  | _ => False

/-- The narratives of code, one for each setting, have stories of blocks, of the iterations of loops
and of declarations. -/
class Narration (code : Discipline) (N : code.Setting → Narrative) : Prop where
  enter : ∀ {k m bindings}, (∀ b ∈ bindings, code.binds k b.name) → (N k).admits m →
    (N (code.block k)).admits (m.enter m.current bindings)
  block : ∀ {k m n bindings journal}, (∀ b ∈ bindings, code.binds k b.name) →
    (N (code.block k)).tells (m.enter m.current bindings) journal n →
    (N k).tells m journal (n.leave m.current)
  copy : ∀ {k m}, (N (code.block k)).admits m →
    (N (code.block k)).tells m [] (m.enterCopy m.current)
  loop : ∀ k, N (code.loop (code.block k)) = N (code.block k)
  newClosure : ∀ {k m params body span},
    code.expr k (.function params body span) → (N k).admits m →
    (N k).step m (m.newFunction (.closure "lambda" params body m.current)).2
  newFunction : ∀ {k m d}, code.stmt k (.function d) → (N k).admits m →
    (N k).step m (m.newFunction (.closure d.name d.params d.body m.current)).2
  define : ∀ {k m s name} (v : Value) (isConst : Bool), code.stmt k s → name ∈ s.declared? →
    (N k).admits m → (N k).step m (m.define m.current ⟨name, v, isConst⟩)
  defineClass : ∀ {k m name superclass methods span} {parent : Option ClassId},
    code.stmt k (.classDecl name superclass methods span) →
    parent.isSome = superclass.isSome → (N k).admits m →
    (N k).step m (Eval.defineClass name parent methods m).machine

/-- All answers of the recorder are covered. -/
structure Recorder.Narrates
    (code : Discipline)
    (N : code.Setting → Narrative)
    (R : Recorder) :
    Prop where
  evaluate : ∀ {k e}, code.expr k e → ∀ m, (N k).Covers m (R.evaluate e)
  execute : ∀ {k s}, code.stmt k s → ∀ m, (N k).Covers m (R.execute s)
  run : ∀ {k body}, code.body k body → ∀ m, (N k).Covers m (R.run body)

namespace Narration

variable {code : Discipline} {N : code.Setting → Narrative} [∀ k, (N k).Lawful] [Narration code N]
variable {k : code.Setting} {limits : Limits} {room : Nat}
variable (hR : (Recorder.ofRoom limits room).Narrates code N)

section Blocks

include hR

omit [Narration code N] in
theorem executeAll
    {statements : List Stmt}
    (hstatements : ∀ s ∈ statements, code.stmt k s)
    (m : Machine) :
    (N k).Covers m (Recorded.executeAll (.ofRoom limits room) statements) := by
  induction statements generalizing m with
  | nil => exact .pure _
  | cons s rest ih =>
      refine .bind (hR.execute (hstatements s (by simp)) m) fun signal n => ?_
      cases signal with
      | normal => exact ih (fun t ht => hstatements t (by simp [ht])) n
      | returned | broke | continued | thrown => exact .pure _

omit [∀ k, (N k).Lawful] hR in
theorem inInnerScope
    {α : Type}
    {c : Recorded α}
    {bindings : List Binding}
    {m : Machine}
    (hbindings : ∀ b ∈ bindings, code.binds k b.name)
    (hc : (N (code.block k)).Covers (m.enter m.current bindings) c) :
    (N k).Covers m (Recorded.inInnerScope bindings c) := by
  intro hm
  simp only [Recorded.inInnerScope, Recorded.around, Outcome.machine_onMachine]
  exact block hbindings (hc (enter hbindings hm))

theorem executeBlock
    {statements : List Stmt}
    {bindings : List Binding}
    (hstatements : ∀ s ∈ statements, code.stmt (code.block k) s)
    (hbindings : ∀ b ∈ bindings, code.binds k b.name)
    (m : Machine) :
    (N k).Covers m (Recorded.executeBlock (.ofRoom limits room) statements bindings) :=
  inInnerScope hbindings (executeAll hR hstatements _)

omit [Narration code N] in
theorem evaluateAll {es : List Expr} (hes : ∀ e ∈ es, code.expr k e) (m : Machine) :
    (N k).Covers m (Recorded.evaluateAll (.ofRoom limits room) es) := by
  induction es generalizing m with
  | nil => exact .pure _
  | cons e rest ih =>
      refine .bind (hR.evaluate (hes e (by simp)) m) fun v n => ?_
      exact .bind (ih (fun e' he' => hes e' (by simp [he'])) n) fun vs _ => .pure _

end Blocks

section Expressions

variable
  (hcall : ∀ (frame : Frame) (callee : Value) (arguments : List Value) (m : Machine),
    (N k).Covers m (Recorded.inCall frame (Recorded.invoke (.ofRoom limits room) callee arguments)))

omit [Narration code N] in
include hcall in
theorem callValue
    (callee : Value)
    (arguments : List Value)
    (site : Option Span)
    (m : Machine) :
    (N k).Covers m (Recorded.callValue limits (.ofRoom limits room) callee arguments site) := by
  refine .bind (.ask _) fun arity n => ?_
  cases arity with
  | none => exact .fail _
  | some expected =>
      refine .bind (.ask _) fun name n => ?_
      split
      · exact .fail _
      · refine .bind (.ask _) fun depth n => ?_
        split
        · exact .fail _
        · exact hcall _ callee arguments n

include hR

omit [Narration code N] in
theorem evaluateBinary
    {left right : Expr}
    (hleft : code.expr k left)
    (hright : code.expr k right)
    (op : BinaryOp)
    (m : Machine) :
    (N k).Covers m (Recorded.evaluateBinary (.ofRoom limits room) left op right) := by
  refine .bind (hR.evaluate hleft m) fun l n => .bind (hR.evaluate hright n) fun r n => ?_
  split
  · exact .pure _
  · exact .elementary (.failAt _ (by decide) _)
  · exact .elementary (.failAt _ (by decide) _)
  · exact .fail _

omit [Narration code N] in
theorem addEntries
    {entries : List MapEntry}
    (hentries : ∀ e ∈ entries.flatMap MapEntry.parts, code.expr k e)
    (map : MapId)
    (m : Machine) :
    (N k).Covers m (Recorded.addEntries (.ofRoom limits room) map entries) := by
  induction entries generalizing m with
  | nil => exact .pure _
  | cons entry rest ih =>
      cases entry with
      | mk key value =>
          have hkey : code.expr k key := hentries key (by simp [MapEntry.parts])
          have hvalue : code.expr k value := hentries value (by simp [MapEntry.parts])
          have hrest := ih fun e he => hentries e (by
            rw [List.flatMap_cons]
            exact List.mem_append_right _ he)
          refine .bind (hR.evaluate hkey m) fun k n => .bind (hR.evaluate hvalue n) fun v n => ?_
          exact .bind (.elementary (.locating (.setItem (.map map) k v) key.span)) fun _ n => hrest n

include hcall in
/-- An expression that is no assignment. -/
theorem evaluateParts
    {e : Expr}
    (he : code.expr k e)
    (hassignment : ¬e.IsAssignment)
    (m : Machine) :
    (N k).Covers m (Recorded.evaluateParts limits (.ofRoom limits room) e) := by
  have hparts := code.expr_parts he
  refine .locating e.span ?_
  cases e with
  | literal value span => exact .pure _
  | reference name span => exact .elementary (.lookup name)
  | assign name value span => exact absurd trivial hassignment
  | binary left op right span =>
      exact evaluateBinary hR (hparts left (by simp [Expr.parts]))
        (hparts right (by simp [Expr.parts])) op m
  | unary op operand span =>
      exact .bind (hR.evaluate (hparts operand (by simp [Expr.parts])) m) fun v n =>
        .elementary (.ofExcept _)
  | logical left op right span =>
      refine .bind (hR.evaluate (hparts left (by simp [Expr.parts])) m) fun l n => ?_
      split
      · exact .pure _
      · exact hR.evaluate (hparts right (by simp [Expr.parts])) n
  | conditional condition thenBranch elseBranch span =>
      refine .bind (hR.evaluate (hparts condition (by simp [Expr.parts])) m) fun v n => ?_
      split
      · exact hR.evaluate (hparts thenBranch (by simp [Expr.parts])) n
      · exact hR.evaluate (hparts elseBranch (by simp [Expr.parts])) n
  | call callee arguments span =>
      have harguments : ∀ e ∈ arguments, code.expr k e :=
        fun e he => hparts e (by simp [Expr.parts, he])
      exact .bind (hR.evaluate (hparts callee (by simp [Expr.parts])) m) fun f n =>
        .bind (evaluateAll hR harguments n) fun vs n => callValue hcall f vs (some span) n
  | get object name span =>
      exact .bind (hR.evaluate (hparts object (by simp [Expr.parts])) m) fun o n =>
        .elementary (.property o name)
  | set object name value span => exact absurd trivial hassignment
  | this span => exact .elementary (.lookup "this")
  | super method span => exact .elementary (.evaluateSuper method)
  | list elements span =>
      refine .bind (evaluateAll hR (fun e he => hparts e (by simpa [Expr.parts] using he)) m)
        fun vs n => ?_
      exact .elementary (.newList fun _ => vs.toArray)
  | map entries span =>
      refine .bind (.elementary (.newMap [])) fun v n => ?_
      cases v with
      | map id => exact .bind (addEntries hR hparts id n) fun _ _ => .pure _
      | nil | boolean | number | string | function | native | «class» | «instance» | list =>
          exact .pure _
  | index object index span =>
      exact .bind (hR.evaluate (hparts object (by simp [Expr.parts])) m) fun o n =>
        .bind (hR.evaluate (hparts index (by simp [Expr.parts])) n) fun i n =>
          .elementary (.item o i)
  | indexSet object index value span =>
      exact .bind (hR.evaluate (hparts object (by simp [Expr.parts])) m) fun o n =>
        .bind (hR.evaluate (hparts index (by simp [Expr.parts])) n) fun i n =>
          .bind (hR.evaluate (hparts value (by simp [Expr.parts])) n) fun v n =>
            .elementary (.setItem o i v)
  | function params body span => exact .own fun hm => newClosure he hm

end Expressions

section Loops

include hR

theorem loopBody
    {body : Stmt}
    (hbody : code.stmt (code.loop (code.block k)) body)
    (m : Machine) :
    (N k).Covers m (Recorded.loopBody (.ofRoom limits room) body) := by
  have hloop : N (code.loop (code.block k)) = N (code.block k) := loop k
  refine inInnerScope (by simp) ?_
  rw [← hloop]
  exact executeAll hR (by simpa using hbody) _

theorem whileIterations
    {condition : Expr}
    {body : Stmt}
    (hcondition : code.expr k condition)
    (hbody : code.stmt (code.loop (code.block k)) body)
    (fuel : Nat)
    (m : Machine) :
    (N k).Covers m (Recorded.whileIterations (.ofRoom limits room) condition body fuel) := by
  induction fuel generalizing m with
  | zero => exact .stop trivial
  | succ fuel ih =>
      refine .bind (hR.evaluate hcondition m) fun v n => ?_
      split
      · refine .bind (loopBody hR hbody n) fun signal n => ?_
        cases signal with
        | normal => exact ih n
        | continued => exact ih n
        | broke => exact .pure _
        | returned | thrown => exact .pure _
      · exact .pure _

theorem doWhile
    {condition : Expr}
    {body : Stmt}
    (hcondition : code.expr k condition)
    (hbody : code.stmt (code.loop (code.block k)) body)
    (fuel : Nat)
    (m : Machine) :
    (N k).Covers m (Recorded.doWhile (.ofRoom limits room) condition body fuel) := by
  refine .bind (loopBody hR hbody m) fun signal n => ?_
  cases signal with
  | normal => exact whileIterations hR hcondition hbody fuel n
  | continued => exact whileIterations hR hcondition hbody fuel n
  | broke => exact .pure _
  | returned | thrown => exact .pure _

omit [Narration code N] in
theorem holds
    {condition : Option Expr}
    (hcondition : ∀ e ∈ condition, code.expr k e)
    (m : Machine) :
    (N k).Covers m (Recorded.holds (.ofRoom limits room) condition) := by
  cases condition with
  | none => exact .pure _
  | some e => exact .bind (hR.evaluate (hcondition e rfl) m) fun _ _ => .pure _

omit [Narration code N] in
theorem advance
    {increment : Option Expr}
    (hincrement : ∀ e ∈ increment, code.expr k e)
    (isFirst : Bool)
    (m : Machine) :
    (N k).Covers m (Recorded.advance (.ofRoom limits room) isFirst increment) := by
  cases increment with
  | none => cases isFirst <;> exact .pure _
  | some e =>
      cases isFirst with
      | true => exact .pure _
      | false => exact .bind (hR.evaluate (hincrement e rfl) m) fun _ _ => .pure _

omit [Narration code N] in
theorem executeOptional
    {s : Option Stmt}
    (hs : ∀ t ∈ s, code.stmt k t)
    (m : Machine) :
    (N k).Covers m (Recorded.executeOptional (.ofRoom limits room) s) := by
  cases s with
  | none => exact .pure _
  | some s => exact hR.execute (hs s rfl) m

/-- Each iteration works on a copy of the scope that is current when it begins. -/
theorem forIterations
    {condition increment : Option Expr}
    {body : Stmt}
    (hcondition : ∀ e ∈ condition, code.expr (code.block k) e)
    (hincrement : ∀ e ∈ increment, code.expr (code.block k) e)
    (hbody : code.stmt (code.loop (code.block (code.block k))) body)
    (fuel : Nat)
    (isFirst : Bool)
    {before : ScopeId}
    {m : Machine}
    (hcurrent : m.current = before) :
    (N (code.block k)).Covers m
      (Recorded.forIterations (.ofRoom limits room) condition increment body fuel isFirst
        before) := by
  induction fuel generalizing isFirst before m with
  | zero => exact .stop trivial
  | succ fuel ih =>
      subst hcurrent
      have hcopy : (N (code.block k)).Covers m (Recorded.own (Eval.enterCopy m.current)) :=
        fun hm => copy hm
      refine hcopy.bind_of fun scope n hn => ?_
      cases hn
      refine .bind_of (advance hR hincrement isFirst _) fun _ n₁ hn₁ => ?_
      have hcurrent₁ : n₁.current = m.scopes.all.size :=
        (Recorded.Returning.advance limits room increment isFirst).current_of_done hn₁
      refine .bind_of (holds hR hcondition n₁) fun goesOn n₂ hn₂ => ?_
      have hcurrent₂ : n₂.current = m.scopes.all.size :=
        ((Recorded.Returning.holds limits room condition).current_of_done hn₂).trans hcurrent₁
      split
      · refine .bind_of (loopBody hR hbody n₂) fun signal n₃ hn₃ => ?_
        have hcurrent₃ : n₃.current = m.scopes.all.size :=
          ((Recorded.Returning.loopBody limits room body).current_of_done hn₃).trans hcurrent₂
        cases signal with
        | normal => exact ih false hcurrent₃
        | continued => exact ih false hcurrent₃
        | broke => exact .pure _
        | returned | thrown => exact .pure _
      · exact .pure _

theorem executeFor
    {initial : Option Stmt}
    {condition increment : Option Expr}
    {body : Stmt}
    (hinitial : ∀ s ∈ initial, code.stmt (code.block k) s)
    (hcondition : ∀ e ∈ condition, code.expr (code.block k) e)
    (hincrement : ∀ e ∈ increment, code.expr (code.block k) e)
    (hbody : code.stmt (code.loop (code.block (code.block k))) body)
    (fuel : Nat)
    (m : Machine) :
    (N k).Covers m
      (Recorded.executeFor (.ofRoom limits room) initial condition increment body fuel) := by
  refine inInnerScope (by simp) (.bind (executeOptional hR hinitial _) fun signal n => ?_)
  cases signal with
  | normal =>
      refine .bind_of (.ask _) fun scope n' hn => ?_
      cases hn
      exact forIterations hR hcondition hincrement hbody fuel true rfl
  | returned | broke | continued | thrown => exact .pure _

end Loops

section Statements

include hR

omit [Narration code N] in
theorem evaluateSuperclass
    {superclass : Option (String × Span)}
    (hsuperclass : ∀ parent ∈ superclass, code.expr k (.reference parent.1 parent.2))
    (m : Machine) :
    (N k).Covers m (Recorded.evaluateSuperclass (.ofRoom limits room) superclass) := by
  cases superclass with
  | none => exact .pure _
  | some parent =>
      refine .bind (hR.evaluate (hsuperclass parent rfl) m) fun v n => ?_
      cases v with
      | «class» id => exact .pure _
      | nil | boolean | number | string | function | native | «instance» | list | map =>
          exact .elementary (.failAt _ (Fault.message_ne _) _)

theorem declareClass
    {name : String}
    {superclass : Option (String × Span)}
    {methods : List FunctionDecl}
    {span : Span}
    (hs : code.stmt k (.classDecl name superclass methods span))
    (m : Machine) :
    (N k).Covers m
      (Recorded.declareClass (.ofRoom limits room) name superclass methods) := by
  have hsuperclass : ∀ parent ∈ superclass, code.expr k (.reference parent.1 parent.2) :=
    fun parent hparent =>
      code.stmt_expressions hs _ (by simp [Stmt.expressions, Option.mem_def.mp hparent])
  refine .bind_of (evaluateSuperclass hR hsuperclass m) fun parent n hn => ?_
  exact .own fun hm => defineClass hs (Recorded.isSome_of_evaluateSuperclass hn) hm

theorem executeHandler
    {handler : Option CatchClause}
    (hname : ∀ name ∈ handler.toList.map CatchClause.name, code.binds k name)
    (hbody : ∀ s ∈ handler.toList.flatMap CatchClause.body, code.stmt (code.block k) s)
    (signal : Signal)
    (m : Machine) :
    (N k).Covers m (Recorded.executeHandler (.ofRoom limits room) handler signal) := by
  cases handler with
  | none => exact .pure _
  | some clause =>
      cases clause with
      | mk name body =>
          cases signal with
          | thrown t =>
              refine .inClause .handler body (executeBlock hR ?_ ?_ m)
              · simpa [CatchClause.body] using hbody
              · simpa [CatchClause.name] using hname
          | normal | returned | broke | continued => exact .pure _

theorem executeCleanup
    {cleanup : Option (List Stmt)}
    (hcleanup : ∀ statements ∈ cleanup, ∀ s ∈ statements, code.stmt (code.block k) s)
    (signal : Signal)
    (m : Machine) :
    (N k).Covers m (Recorded.executeCleanup (.ofRoom limits room) cleanup signal) := by
  cases cleanup with
  | none => exact .pure _
  | some statements =>
      have hblock : (N k).Covers m (Recorded.executeBlock (.ofRoom limits room) statements []) :=
        executeBlock hR (hcleanup statements rfl) (by simp) m
      refine .bind (.inClause .cleanup statements hblock) fun last _ => ?_
      cases last <;> exact .pure _

theorem executeTry
    {body : List Stmt}
    {handler : Option CatchClause}
    {cleanup : Option (List Stmt)}
    (hbody : ∀ s ∈ body, code.stmt (code.block k) s)
    (hname : ∀ name ∈ handler.toList.map CatchClause.name, code.binds k name)
    (hhandler : ∀ s ∈ handler.toList.flatMap CatchClause.body, code.stmt (code.block k) s)
    (hcleanup : ∀ statements ∈ cleanup, ∀ s ∈ statements, code.stmt (code.block k) s)
    (m : Machine) :
    (N k).Covers m (Recorded.executeTry (.ofRoom limits room) body handler cleanup) :=
  .bind (.inClause .body body (executeBlock hR hbody (by simp) m)) fun first n =>
    .bind (executeHandler hR hname hhandler first n) fun pending n =>
      executeCleanup hR hcleanup pending n

omit [Narration code N] in
theorem evaluateOptional
    {e : Option Expr}
    (he : ∀ part ∈ e, code.expr k part)
    (m : Machine) :
    (N k).Covers m (Recorded.evaluateOptional (.ofRoom limits room) e) := by
  cases e with
  | none => exact .pure _
  | some e => exact hR.evaluate (he e rfl) m

omit hR in
/-- A function is made and then bound to its name. -/
theorem declareFunction {d : FunctionDecl} (hd : code.stmt k (.function d)) (m : Machine) :
    (N k).Covers m (Recorded.own (Eval.declareFunction d)) := by
  refine .own fun hm => ?_
  have hmade : (N k).step m _ := newFunction hd hm
  have hbound := define (.function m.functions.size) false hd rfl
    (Narrative.Lawful.admits_later (Narrative.Lawful.told hmade) hm)
  exact trans_of (N k).step hmade hbound

theorem executeParts
    {s : Stmt}
    (hs : code.stmt k s)
    (m : Machine) :
    (N k).Covers m (Recorded.executeParts limits (.ofRoom limits room) s) := by
  have hexpressions := code.stmt_expressions hs
  have hinner := code.stmt_inner hs
  cases s with
  | expression e span =>
      refine .bind (hR.evaluate (hexpressions e (by simp [Stmt.expressions])) m) fun v n => ?_
      exact .bind (.elementary (.keepValue v)) fun _ _ => .pure _
  | print e span =>
      refine .bind (hR.evaluate (hexpressions e (by simp [Stmt.expressions])) m) fun v n => ?_
      refine .bind (.ask _) fun line n => ?_
      exact .bind (.elementary (.printLine line)) fun _ _ => .pure _
  | declare name initial isConst span =>
      refine .bind (evaluateOptional hR
        (fun e he => hexpressions e (by simpa [Stmt.expressions] using he)) m) fun v n => ?_
      exact .bind (.own fun hn => define v isConst hs rfl hn) fun _ _ => .pure _
  | block statements span =>
      exact executeBlock hR (fun t ht => hinner t (by simpa [Stmt.inner] using ht)) (by simp) m
  | ifElse condition thenBranch elseBranch span =>
      have hbranches := code.stmt_branches hs
      refine .bind (hR.evaluate (hexpressions condition (by simp [Stmt.expressions])) m)
        fun v n => ?_
      split
      · exact hR.execute (hbranches thenBranch (by simp [Stmt.branches])) n
      · exact executeOptional hR
          (fun t ht => hbranches t (by simpa [Stmt.branches] using .inr ht)) n
  | whileLoop condition body span =>
      exact whileIterations hR (hexpressions condition (by simp [Stmt.expressions]))
        (code.stmt_loopBody hs body rfl) limits.fuel m
  | doWhile body condition span =>
      exact doWhile hR (hexpressions condition (by simp [Stmt.expressions]))
        (code.stmt_loopBody hs body rfl) limits.fuel m
  | forLoop initial condition increment body span =>
      have hblock (e : Expr) (he : e ∈ condition ∨ e ∈ increment) :
          code.expr (code.block k) e :=
        code.expr_block (hexpressions e (by simpa [Stmt.expressions] using he))
      refine executeFor hR (fun t ht => hinner t (by simpa [Stmt.inner] using ht))
        (fun e he => hblock e (.inl he)) (fun e he => hblock e (.inr he)) ?_ limits.fuel m
      rw [code.block_block]
      exact code.stmt_loopBody hs body rfl
  | breakLoop span => exact .pure _
  | continueLoop span => exact .pure _
  | function d => exact declareFunction hs m
  | returnValue value span =>
      exact .bind (evaluateOptional hR
        (fun e he => hexpressions e (by simpa [Stmt.expressions] using he)) m) fun v n => .pure _
  | classDecl name superclass methods span => exact declareClass hR hs m
  | tryBlock body handler cleanup span =>
      refine executeTry hR (fun t ht => hinner t ?_)
        (fun name hname => code.stmt_handlerNames hs name hname)
        (fun t ht => hinner t ?_) (fun statements hstatements t ht => hinner t ?_) m
      · simp [Stmt.inner, ht]
      · simp only [Stmt.inner, List.mem_append]
        exact .inl (.inr ht)
      · simp_all [Stmt.inner]
  | throwValue value span =>
      exact .bind (hR.evaluate (hexpressions value (by simp [Stmt.expressions])) m)
        fun payload n => .bind (.ask _) fun trace n => .pure _
  | dump span => exact .elementary .dumpBindings

omit [Narration code N] in
theorem runStatements
    {statements : List Stmt}
    (hstatements : ∀ s ∈ statements, code.stmt k s)
    (echo : Bool)
    (m : Machine) :
    (N k).Covers m (Recorded.runStatements (.ofRoom limits room) echo statements) := by
  induction statements generalizing m with
  | nil => exact .pure _
  | cons s rest ih =>
      have ih := ih fun t ht => hstatements t (by simp [ht])
      have hrest (n : Machine) : (N k).Covers n
          (if echo then Recorded.own (Eval.echoValue s) >>= fun _ =>
              Recorded.runStatements (.ofRoom limits room) echo rest
            else Recorded.runStatements (.ofRoom limits room) echo rest) := by
        split
        · exact .bind (.elementary (.echoValue s)) fun _ n => ih n
        · exact ih n
      refine .bind (hR.execute (hstatements s (by simp)) m) fun signal n => ?_
      cases signal with
      | thrown t => exact .pure _
      | normal | returned | broke | continued => exact hrest n

end Statements

end Narration

end Lox
