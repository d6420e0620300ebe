import Lox.Proofs.Journal.Run
import Lox.Proofs.Tracing

/-!
# Traces, function by function

Each function of the recorder is traced if the recorder of the parts is. A call is entered in
`Recorded.callValue`, and the expression that enters it is known in `Recorded.evaluateParts`.
-/

namespace Lox

/-- The answers of the recorder are traced, whatever has happened before. -/
structure Recorder.IsTraced (limits : Limits) (R : Recorder) : Prop where
  evaluate : ∀ {before m} (e : Expr), Entered limits before m.frames →
    (R.evaluate e).IsTraced limits (fun _ => none) before m
  execute : ∀ {before m} (s : Stmt), Entered limits before m.frames →
    (R.execute s).IsTraced limits Signal.thrown? before m
  run : ∀ {before m} (body : List Stmt), Entered limits before m.frames →
    (R.run body).IsTraced limits Signal.thrown? before m

namespace Recorded.IsTraced

variable {α β : Type} {limits : Limits} {R : Recorder} {before : List Event} {m : Machine}

section Blocks

theorem executeAll
    (hR : R.IsTraced limits)
    (statements : List Stmt)
    (hm : Entered limits before m.frames) :
    (Recorded.executeAll R statements).IsTraced limits Signal.thrown? before m := by
  induction statements generalizing before m with
  | nil => exact plain rfl
  | cons s rest ih =>
      refine (hR.execute s hm).bind hm fun signal n journal _ _ hn hsignal => ?_
      cases signal with
      | normal => exact ih hn
      | returned | broke | continued => exact plain rfl
      | thrown t => exact pure hsignal

theorem executeBlock
    (hR : R.IsTraced limits)
    (statements : List Stmt)
    (bindings : List Binding)
    (hm : Entered limits before m.frames) :
    (Recorded.executeBlock R statements bindings).IsTraced limits Signal.thrown? before m := by
  refine inInnerScope (executeAll hR statements ?_)
  rwa [Machine.enter_eq]

theorem evaluateAll
    (hR : R.IsTraced limits)
    (es : List Expr)
    (hm : Entered limits before m.frames) :
    (Recorded.evaluateAll R es).IsTraced limits (fun _ => none) before m := by
  induction es generalizing before m with
  | nil => exact plain rfl
  | cons e rest ih =>
      refine (hR.evaluate e hm).bind hm fun v n _ _ _ hn _ => ?_
      exact (ih hn).bind hn fun _ _ _ _ _ _ _ => plain rfl

end Blocks

section Calls

/-- A thrown value leaves the call as it is. -/
theorem callResult {signal : Signal} (h : ∀ t ∈ signal.thrown?, t.HasOrigin before) :
    (Recorded.own (Eval.callResult signal)).IsTraced limits (fun _ => none) before m := by
  have hopen : openActivations (before ++ []) = openActivations before :=
    congrArg openActivations (List.append_nil before)
  cases signal with
  | thrown t => exact ⟨rfl, trivial, hopen, (h t rfl).append []⟩
  | normal | returned | broke | continued => exact ⟨rfl, trivial, hopen, nofun⟩

theorem runBody
    (hR : R.IsTraced limits)
    (params : List String)
    (body : List Stmt)
    (scope : ScopeId)
    (arguments : List Value)
    (hm : Entered limits before m.frames) :
    (Recorded.runBody R params body scope arguments).IsTraced limits (fun _ => none) before m := by
  have hbody : (Recorded.inNewScope scope (parameterBindings params arguments)
      (R.run body)).IsTraced limits Signal.thrown? before m := by
    refine inNewScope (hR.run body ?_)
    rwa [Machine.enter_eq]
  exact hbody.bind hm fun _ _ _ _ _ _ hsignal => callResult hsignal

theorem runMethod
    (hR : R.IsTraced limits)
    (receiver : InstanceId)
    (method : MethodId)
    (arguments : List Value)
    (hm : Entered limits before m.frames) :
    (Recorded.runMethod R receiver method arguments).IsTraced limits (fun _ => none) before m := by
  refine ask ?_
  cases m.methods[method]? with
  | none => exact plain rfl
  | some f =>
      have hmake : (Eval.make fun m => m.newScope f.scope).Elementary Machine.SameFrames :=
        .make fun _ => rfl
      refine (ownValue hmake hm).bind hm fun inner n _ _ _ hn _ => ?_
      have hdefine : (Eval.update fun m =>
          m.define inner ⟨"this", .instance receiver, false⟩).Elementary Machine.SameFrames :=
        .update fun _ => rfl
      refine (ownValue hdefine hn).bind hn fun _ n _ _ _ hn _ => ?_
      exact (runBody hR _ _ _ _ hn).bind hn fun _ _ _ _ _ _ _ => plain rfl

theorem runFunction
    (hR : R.IsTraced limits)
    (id : FunctionId)
    (arguments : List Value)
    (hm : Entered limits before m.frames) :
    (Recorded.runFunction R id arguments).IsTraced limits (fun _ => none) before m := by
  refine ask ?_
  cases m.functions[id]? with
  | none => exact plain rfl
  | some f =>
      cases f with
      | closure => exact runBody hR _ _ _ _ hm
      | bound => exact runMethod hR _ _ _ hm

theorem construct
    (hR : R.IsTraced limits)
    (classId : ClassId)
    (arguments : List Value)
    (hm : Entered limits before m.frames) :
    (Recorded.construct R classId arguments).IsTraced limits (fun _ => none) before m := by
  have hmake : (Eval.make fun m => m.newInstance classId).Elementary Machine.SameFrames :=
    .make fun _ => rfl
  refine (ownValue hmake hm).bind hm fun id n _ _ _ hn _ => ask ?_
  cases n.findMethod? classId "init" with
  | none => exact plain rfl
  | some method => exact (runMethod hR id method _ hn).bind hn fun _ _ _ _ _ _ _ => plain rfl

theorem invoke
    (hR : R.IsTraced limits)
    (callee : Value)
    (arguments : List Value)
    (hm : Entered limits before m.frames) :
    (Recorded.invoke R callee arguments).IsTraced limits (fun _ => none) before m := by
  cases callee with
  | function id => exact runFunction hR id arguments hm
  | native id => exact ownValue (.callNative id arguments) hm
  | «class» id => exact construct hR id arguments hm
  | nil | boolean | number | string | «instance» | list | map => exact plain rfl

/-- The call that is entered, if one is, must be one that is known to be entered. -/
theorem callValue
    (hR : R.IsTraced limits)
    (callee : Value)
    (arguments : List Value)
    (site : Option Span)
    (hm : Entered limits before m.frames)
    (hentered :
      let frame := Frame.mk (Eval.calleeName m callee) site
      Eval.callValue limits R.evaluator callee arguments site m =
        Eval.inCall frame (Eval.invoke R.evaluator callee arguments) m →
      Entered limits before (frame :: m.frames)) :
    (Recorded.callValue limits R callee arguments site).IsTraced limits (fun _ => none) before
      m := by
  simp only [Eval.callValue, Eval.bind_apply, Eval.ask, Outcome.andThen] at hentered
  refine ask ?_
  cases harity : Eval.arity? m callee with
  | none => exact ownValue (.fail _) hm
  | some expected =>
      simp only [harity, Eval.bind_apply, Eval.ask, Outcome.andThen] at hentered
      refine ask ?_
      by_cases hlength : arguments.length ≠ expected
      · rw [if_pos hlength]
        exact ownValue (.fail _) hm
      · simp only [if_neg hlength, Eval.bind_apply, Eval.ask, Outcome.andThen] at hentered ⊢
        refine ask ?_
        by_cases hdepth : limits.maxCallDepth ≤ m.frames.length
        · rw [if_pos hdepth]
          exact ownValue (.fail _) hm
        · rw [if_neg hdepth] at hentered ⊢
          exact inCall (invoke hR callee arguments (hentered rfl))

end Calls

section Expressions

theorem evaluateBinary
    (hR : R.IsTraced limits)
    (left : Expr)
    (op : BinaryOp)
    (right : Expr)
    (hm : Entered limits before m.frames) :
    (Recorded.evaluateBinary R left op right).IsTraced limits (fun _ => none) before m := by
  refine (hR.evaluate left hm).bind hm fun l n _ _ _ hn _ => ?_
  refine (hR.evaluate right hn).bind hn fun r n _ _ _ hn _ => ?_
  have hop := ownValue (.ofOperator right.span (op.apply l r)) hn
  cases hvalue : op.apply l r with
  | ok v => exact plain rfl
  | error fault =>
      rw [hvalue] at hop
      cases fault <;> exact hop

theorem addEntries
    (hR : R.IsTraced limits)
    (map : MapId)
    (entries : List MapEntry)
    (hm : Entered limits before m.frames) :
    (Recorded.addEntries R map entries).IsTraced limits (fun _ => none) before m := by
  induction entries generalizing before m with
  | nil => exact plain rfl
  | cons entry rest ih =>
      cases entry with
      | mk key value =>
          refine (hR.evaluate key hm).bind hm fun k n _ _ _ hn _ => ?_
          refine (hR.evaluate value hn).bind hn fun v n _ _ _ hn _ => ?_
          have hstore := ownValue (.locating (.setItem (.map map) k v) key.span) hn
          exact hstore.bind hn fun _ _ _ _ _ hn _ => ih hn

/-- A call expression that was begun on the machine enters the call of its callee. -/
theorem evaluateCall
    {callee : Expr} {arguments : List Expr} {span : Span} {room : Nat}
    (hR : R.IsTraced limits)
    (hroom : R.evaluator = .ofRoom limits room)
    (hm : Entered limits before m.frames)
    (hbegan : .began (.evaluate (.call callee arguments span)) m ∈ before) :
    (do
      let f ← R.evaluate callee
      let vs ← Recorded.evaluateAll R arguments
      Recorded.callValue limits R f vs (some span)).IsTraced limits (fun _ => none) before m := by
  refine (hR.evaluate callee hm).bind hm fun f n₁ journal₁ hf hframes₁ hn₁ _ => ?_
  refine (evaluateAll hR arguments hn₁).bind hn₁ fun vs n₂ journal₂ hvs hframes₂ hn₂ _ => ?_
  refine callValue hR f vs (some span) hn₂ fun henters => ?_
  have hf : R.evaluator.evaluate callee m = .done f n₁ := congrArg Prod.fst hf
  have hvs : Eval.evaluateAll R.evaluator arguments n₁ = .done vs n₂ := by
    have htracks : Tracks false false [] _ _ _ := Tracks.evaluateAll arguments
    exact (htracks.erases R n₁).symm.trans (congrArg Prod.fst hvs)
  rw [hroom] at hf hvs henters
  refine .call (List.mem_append_left _ (List.mem_append_left _ hbegan))
    (hframes₂.trans hframes₁).symm ⟨room, f, n₁, vs, n₂, hf, hvs, rfl, henters⟩ hn₂

theorem evaluateParts
    {room : Nat}
    (hR : R.IsTraced limits)
    (hroom : R.evaluator = .ofRoom limits room)
    (e : Expr)
    (hm : Entered limits before m.frames)
    (hbegan : .began (.evaluate e) m ∈ before) :
    (Recorded.evaluateParts limits R e).IsTraced limits (fun _ => none) before m := by
  refine locating ?_ e.span
  cases e with
  | literal value span => exact plain rfl
  | reference name span => exact ownValue (.lookup name) hm
  | assign name value span =>
      refine (hR.evaluate value hm).bind hm fun v _ _ _ _ hn _ => ?_
      exact (ownValue (.assign name v) hn).bind hn fun _ _ _ _ _ _ _ => plain rfl
  | binary left op right span => exact evaluateBinary hR left op right hm
  | unary op operand span =>
      exact (hR.evaluate operand hm).bind hm fun v _ _ _ _ hn _ =>
        ownValue (.ofExcept (op.apply v)) hn
  | logical left op right span =>
      refine (hR.evaluate left hm).bind hm fun l _ _ _ _ hn _ => ?_
      split
      · exact plain rfl
      · exact hR.evaluate right hn
  | conditional condition thenBranch elseBranch span =>
      refine (hR.evaluate condition hm).bind hm fun c _ _ _ _ hn _ => ?_
      split
      · exact hR.evaluate thenBranch hn
      · exact hR.evaluate elseBranch hn
  | call callee arguments span => exact evaluateCall hR hroom hm hbegan
  | get object name span =>
      exact (hR.evaluate object hm).bind hm fun o _ _ _ _ hn _ => ownValue (.property o name) hn
  | set object name value span =>
      refine (hR.evaluate object hm).bind hm fun o _ _ _ _ hn _ => ?_
      cases o with
      | «instance» id =>
          refine (hR.evaluate value hn).bind hn fun v _ _ _ _ hn _ => ?_
          exact (ownValue (.setField id name v) hn).bind hn fun _ _ _ _ _ _ _ => plain rfl
      | nil | boolean | number | string | function | native | «class» | list | map =>
          exact ownValue (.fail _) hn
  | this span => exact ownValue (.lookup "this") hm
  | super method span => exact ownValue (.evaluateSuper method) hm
  | list elements span =>
      exact (evaluateAll hR elements hm).bind hm fun vs _ _ _ _ hn _ =>
        ownValue (.make fun _ => rfl) hn
  | map entries span =>
      refine (ownValue (.newMap []) hm).bind hm fun v _ _ _ _ hn _ => ?_
      cases v with
      | map id => exact (addEntries hR id entries hn).bind hn fun _ _ _ _ _ _ _ => plain rfl
      | nil | boolean | number | string | function | native | «class» | «instance» | list =>
          exact plain rfl
  | index object index span =>
      refine (hR.evaluate object hm).bind hm fun o _ _ _ _ hn _ => ?_
      exact (hR.evaluate index hn).bind hn fun i _ _ _ _ hn _ => ownValue (.item o i) hn
  | indexSet object index value span =>
      refine (hR.evaluate object hm).bind hm fun o _ _ _ _ hn _ => ?_
      refine (hR.evaluate index hn).bind hn fun i _ _ _ _ hn _ => ?_
      exact (hR.evaluate value hn).bind hn fun v _ _ _ _ hn _ => ownValue (.setItem o i v) hn
  | function params body span => exact ownValue (.makeClosure "lambda" params body) hm

end Expressions

section Loops

theorem loopBody
    (hR : R.IsTraced limits)
    (body : Stmt)
    (hm : Entered limits before m.frames) :
    (Recorded.loopBody R body).IsTraced limits Signal.thrown? before m :=
  executeBlock hR [body] [] hm

/-- Running out of fuel is no fault and throws nothing. -/
theorem outOfFuel {carried : α → Option Thrown} :
    (Recorded.own (Eval.stop .outOfFuel)).IsTraced limits carried before m :=
  ⟨rfl, trivial, trivial⟩

theorem whileIterations
    (hR : R.IsTraced limits)
    (condition : Expr)
    (body : Stmt)
    (fuel : Nat)
    (hm : Entered limits before m.frames) :
    (Recorded.whileIterations R condition body fuel).IsTraced limits Signal.thrown? before m := by
  induction fuel generalizing before m with
  | zero => exact outOfFuel
  | succ fuel ih =>
      refine (hR.evaluate condition hm).bind hm fun c _ _ _ _ hn _ => ?_
      split
      · refine (loopBody hR body hn).bind hn fun signal _ _ _ _ hn hsignal => ?_
        cases signal with
        | normal => exact ih hn
        | continued => exact ih hn
        | broke => exact plain rfl
        | returned => exact plain rfl
        | thrown t => exact pure hsignal
      · exact plain rfl

theorem doWhile
    (hR : R.IsTraced limits)
    (condition : Expr)
    (body : Stmt)
    (fuel : Nat)
    (hm : Entered limits before m.frames) :
    (Recorded.doWhile R condition body fuel).IsTraced limits Signal.thrown? before m := by
  refine (loopBody hR body hm).bind hm fun signal _ _ _ _ hn hsignal => ?_
  cases signal with
  | normal => exact whileIterations hR condition body fuel hn
  | continued => exact whileIterations hR condition body fuel hn
  | broke => exact plain rfl
  | returned => exact plain rfl
  | thrown t => exact pure hsignal

theorem holds
    (hR : R.IsTraced limits)
    (condition : Option Expr)
    (hm : Entered limits before m.frames) :
    (Recorded.holds R condition).IsTraced limits (fun _ => none) before m := by
  cases condition with
  | none => exact plain rfl
  | some e => exact (hR.evaluate e hm).bind hm fun _ _ _ _ _ _ _ => plain rfl

theorem advance
    (hR : R.IsTraced limits)
    (isFirst : Bool)
    (increment : Option Expr)
    (hm : Entered limits before m.frames) :
    (Recorded.advance R isFirst increment).IsTraced limits (fun _ => none) before m := by
  cases increment with
  | none => cases isFirst <;> exact plain rfl
  | some e =>
      cases isFirst with
      | true => exact plain rfl
      | false => exact (hR.evaluate e hm).bind hm fun _ _ _ _ _ _ _ => plain rfl

theorem forIterations
    (hR : R.IsTraced limits)
    (condition increment : Option Expr)
    (body : Stmt)
    (fuel : Nat)
    (isFirst : Bool)
    (scope : ScopeId)
    (hm : Entered limits before m.frames) :
    (Recorded.forIterations R condition increment body fuel isFirst scope).IsTraced limits
      Signal.thrown? before m := by
  induction fuel generalizing before m isFirst scope with
  | zero => exact outOfFuel
  | succ fuel ih =>
      refine (ownValue (.enterCopy scope) hm).bind hm fun copy _ _ _ _ hn _ => ?_
      refine (advance hR isFirst increment hn).bind hn fun _ _ _ _ _ hn _ => ?_
      refine (holds hR condition hn).bind hn fun c _ _ _ _ hn _ => ?_
      split
      · refine (loopBody hR body hn).bind hn fun signal _ _ _ _ hn hsignal => ?_
        cases signal with
        | normal => exact ih false copy hn
        | continued => exact ih false copy hn
        | broke => exact plain rfl
        | returned => exact plain rfl
        | thrown t => exact pure hsignal
      · exact plain rfl

theorem executeOptional
    (hR : R.IsTraced limits)
    (s : Option Stmt)
    (hm : Entered limits before m.frames) :
    (Recorded.executeOptional R s).IsTraced limits Signal.thrown? before m := by
  cases s with
  | none => exact plain rfl
  | some s => exact hR.execute s hm

theorem executeFor
    (hR : R.IsTraced limits)
    (initial : Option Stmt)
    (condition increment : Option Expr)
    (body : Stmt)
    (fuel : Nat)
    (hm : Entered limits before m.frames) :
    (Recorded.executeFor R initial condition increment body fuel).IsTraced limits Signal.thrown?
      before m := by
  refine inInnerScope ?_
  have hinner : Entered limits before (m.enter m.current []).frames := hm
  refine (executeOptional hR initial hinner).bind hinner fun signal _ _ _ _ hn hsignal => ?_
  cases signal with
  | normal => exact ask (forIterations hR condition increment body fuel true _ hn)
  | returned => exact plain rfl
  | broke => exact plain rfl
  | continued => exact plain rfl
  | thrown t => exact pure hsignal

end Loops

section Statements

theorem declareClass
    (hR : R.IsTraced limits)
    (name : String)
    (superclass : Option (String × Span))
    (methods : List FunctionDecl)
    (hm : Entered limits before m.frames) :
    (Recorded.declareClass R name superclass methods).IsTraced limits Signal.thrown? before m := by
  have hparent : (Recorded.evaluateSuperclass R superclass).IsTraced limits (fun _ => none) before
      m := by
    cases superclass with
    | none => exact plain rfl
    | some superclass =>
        refine (hR.evaluate _ hm).bind hm fun v _ _ _ _ hn _ => ?_
        cases v with
        | «class» id => exact plain rfl
        | nil | boolean | number | string | function | native | «instance» | list | map =>
            exact ownValue (.failAt superclass.2 (Fault.message_ne _) _) hn
  refine hparent.bind hm fun parent n _ _ _ hn _ => own (.defineClass name parent methods) ?_ hn
  intro signal n' h
  rw [Invariance.defineClass_normal h]
  rfl

theorem executeHandler
    (hR : R.IsTraced limits)
    (handler : Option CatchClause)
    {signal : Signal}
    (hsignal : ∀ t ∈ signal.thrown?, t.HasOrigin before)
    (hm : Entered limits before m.frames) :
    (Recorded.executeHandler R handler signal).IsTraced limits Signal.thrown? before m := by
  unfold Recorded.executeHandler
  split
  · exact inClause .handler _ hm (executeBlock hR _ _ (hm.append _))
  · exact pure hsignal

theorem executeCleanup
    (hR : R.IsTraced limits)
    (cleanup : Option (List Stmt))
    {signal : Signal}
    (hsignal : ∀ t ∈ signal.thrown?, t.HasOrigin before)
    (hm : Entered limits before m.frames) :
    (Recorded.executeCleanup R cleanup signal).IsTraced limits Signal.thrown? before m := by
  cases cleanup with
  | none => exact pure hsignal
  | some statements =>
      have hclause := inClause .cleanup statements hm (executeBlock hR statements [] (hm.append _))
      refine hclause.bind hm fun last _ _ _ _ _ hlast => ?_
      cases last with
      | normal => exact pure fun t ht => (hsignal t ht).append _
      | thrown t => exact pure hlast
      | returned | broke | continued => exact plain rfl

theorem executeTry
    (hR : R.IsTraced limits)
    (body : List Stmt)
    (handler : Option CatchClause)
    (cleanup : Option (List Stmt))
    (hm : Entered limits before m.frames) :
    (Recorded.executeTry R body handler cleanup).IsTraced limits Signal.thrown? before m := by
  have hbody := inClause .body body hm (executeBlock hR body [] (hm.append _))
  refine hbody.bind hm fun first _ _ _ _ hn hfirst => ?_
  refine (executeHandler hR handler hfirst hn).bind hn fun signal _ _ _ _ hn hsignal => ?_
  exact executeCleanup hR cleanup hsignal hn

theorem evaluateOptional
    (hR : R.IsTraced limits)
    (value : Option Expr)
    (hm : Entered limits before m.frames) :
    (Recorded.evaluateOptional R value).IsTraced limits (fun _ => none) before m := by
  cases value with
  | none => exact plain rfl
  | some e => exact hR.evaluate e hm

/-- What a statement consists of, other than one that throws. -/
theorem executeParts
    (hR : R.IsTraced limits)
    {s : Stmt}
    (hs : ∀ value span, s ≠ .throwValue value span)
    (hm : Entered limits before m.frames) :
    (Recorded.executeParts limits R s).IsTraced limits Signal.thrown? before m := by
  cases s with
  | expression e span =>
      refine (hR.evaluate e hm).bind hm fun v _ _ _ _ hn _ => ?_
      exact (ownValue (.keepValue v) hn).bind hn fun _ _ _ _ _ _ _ => plain rfl
  | print e span =>
      refine (hR.evaluate e hm).bind hm fun v _ _ _ _ hn _ => ask ?_
      exact (ownValue (.printLine _) hn).bind hn fun _ _ _ _ _ _ _ => plain rfl
  | declare name initial isConst span =>
      refine (evaluateOptional hR initial hm).bind hm fun v _ _ _ _ hn _ => ?_
      exact (ownValue (.define name v isConst) hn).bind hn fun _ _ _ _ _ _ _ => plain rfl
  | block statements span => exact executeBlock hR statements [] hm
  | ifElse condition thenBranch elseBranch span =>
      refine (hR.evaluate condition hm).bind hm fun c _ _ _ _ hn _ => ?_
      split
      · exact hR.execute thenBranch hn
      · exact executeOptional hR elseBranch hn
  | whileLoop condition body span => exact whileIterations hR condition body _ hm
  | doWhile body condition span => exact doWhile hR condition body _ hm
  | forLoop initial condition increment body span =>
      exact executeFor hR initial condition increment body _ hm
  | breakLoop span => exact plain rfl
  | continueLoop span => exact plain rfl
  | function d =>
      refine own (.declareFunction d) (fun signal n h => ?_) hm
      cases h
      rfl
  | returnValue value span =>
      exact (evaluateOptional hR value hm).bind hm fun _ _ _ _ _ _ _ => plain rfl
  | classDecl name superclass methods span => exact declareClass hR name superclass methods hm
  | tryBlock body handler cleanup span => exact executeTry hR body handler cleanup hm
  | throwValue value span => exact absurd rfl (hs value span)
  | dump span =>
      refine own .dumpBindings (fun signal n h => ?_) hm
      cases h
      rfl

/-- A `throw` statement, with the origin of its value still open. -/
theorem executeThrow
    (hR : R.IsTraced limits)
    (value : Expr)
    (span : Span)
    (hm : Entered limits before m.frames) :
    (Recorded.executeParts limits R (.throwValue value span)).IsTraced limits (fun _ => none)
        before m ∧
      ∀ t n, (Recorded.executeParts limits R (.throwValue value span) m).1 = .done (.thrown t) n →
        t.span = span ∧ t.trace = stackTrace (some span) m.frames := by
  have hvalue := hR.evaluate value hm
  refine ⟨hvalue.bind hm fun _ _ _ _ _ _ _ => ask (plain rfl), fun t n h => ?_⟩
  simp only [Recorded.executeParts] at h
  have hframes := hvalue.frames
  cases ho : (R.evaluate value m).1 with
  | done payload n₁ =>
      rw [ho] at hframes
      have hn₁ : n₁.frames = m.frames := hframes
      rw [Recorded.bind_done ho] at h
      cases h
      exact ⟨rfl, congrArg (stackTrace (some span)) hn₁⟩
  | stopped why n₁ =>
      rw [Recorded.bind_stopped ho] at h
      cases h

theorem executeStep
    (hR : R.IsTraced limits)
    (s : Stmt)
    (hm : Entered limits before m.frames) :
    (Recorded.starting (.execute s) (Recorded.executeStep limits R s)).IsTraced limits
      Signal.thrown? before m := by
  have hbegan := hm.append [.began (.execute s) m]
  by_cases hs : ∀ value span, s ≠ .throwValue value span
  · exact statement hm (executeParts hR hs hbegan) fun _ _ _ => .inl rfl
  · obtain ⟨value, span, rfl⟩ : ∃ value span, s = .throwValue value span := by
      simpa using hs
    obtain ⟨hparts, hthrown⟩ := executeThrow hR value span hbegan
    refine statement hm hparts fun t n h => .inr ?_
    obtain ⟨rfl, htrace⟩ := hthrown t n h
    exact ⟨⟨value, rfl⟩, htrace⟩

end Statements

end Recorded.IsTraced

end Lox
