import Lox.Proofs.Parse.Repetition
import Lox.Proofs.Tree.Nesting

/-!
# How deep readers nest

`Yields room p Q` says of a reader that begins `room` levels above the limit on nesting: if it
succeeds, what it has read satisfies `Q`. Every reader of the language reads only what fits into the
levels that are left: where it counts a level, one less is left for what is read there. The bodies of
arrow functions that are expressions count none.
-/

namespace Lox.Parse

/-- With so many levels left, the reader reads what satisfies the condition, if it succeeds. -/
def Yields {α : Type} (room : Nat) (p : Parse α) (Q : α → Prop) : Prop :=
  ∀ (c : Context) (s : Cursor) (a : α) (t : Cursor),
    c.depth + room = maxNesting → p c s = .ok a t → Q a

namespace Yields

variable {α β : Type} {room : Nat} {p : Parse α} {f : α → Parse β} {Q R : α → Prop} {S : β → Prop}

section Rules

theorem any : Yields room p fun _ => True :=
  fun _ _ _ _ _ _ => trivial

theorem pure {a : α} (h : Q a) : Yields room (Pure.pure a) Q := by
  rintro c s _ t - ⟨⟩
  exact h

theorem bind (hp : Yields room p R) (hf : ∀ a, R a → Yields room (f a) S) :
    Yields room (p >>= f) S := by
  intro c s b u hc h
  obtain ⟨a, t, hpa, hfa⟩ := bind_eq_ok.mp h
  exact hf a (hp c s a t hc hpa) c t b u hc hfa

/-- What comes first does not matter. -/
theorem behind (hf : ∀ a, Yields room (f a) S) : Yields room (p >>= f) S :=
  any.bind fun a _ => hf a

theorem mono (hp : Yields room p R) (h : ∀ a, R a → Q a) : Yields room p Q :=
  fun c s a t hc hpa => h a (hp c s a t hc hpa)

theorem of_never (h : ∀ c s a t, p c s ≠ .ok a t) : Yields room p Q :=
  fun c s a t _ hpa => absurd hpa (h c s a t)

theorem tooDeep : Yields room (Parse.tooDeep : Parse α) Q :=
  of_never fun _ _ _ _ h => by cases h

theorem fail (fault : ParseFault) : Yields room (Parse.fail fault : Parse α) Q :=
  of_never fun _ _ _ _ h => by cases h

theorem within
    {change : Context → Context}
    (hchange : ∀ c, (change c).depth = c.depth)
    (hp : Yields room p Q) :
    Yields room (Parse.within change p) Q :=
  fun c s a t hc h => hp (change c) s a t (by rw [hchange, hc]) h

/-- One level further in there is one level less. -/
theorem nested (hp : ∀ left, room = left + 1 → Yields left p Q) :
    Yields room (Parse.nested p) Q := by
  intro c s a t hc h
  unfold Parse.nested at h
  split at h
  · cases h
  · next hdepth =>
      refine hp (room - 1) (by omega) { c with depth := c.depth + 1 } s a t ?_ h
      change c.depth + 1 + (room - 1) = maxNesting
      omega

/-- The body of an arrow function is no level. -/
theorem nestedArrow (hp : Yields room p Q) : Yields room (Parse.nestedArrow p) Q := by
  intro c s a t hc h
  unfold Parse.nestedArrow at h
  split at h
  · cases h
  · exact hp { c.enterFunction with arrows := c.arrows + 1 } s a t hc h

theorem recovering {p : Parse Stmt} {Q : Stmt → Prop} (hp : Yields room p Q) :
    Yields room (Parse.recovering p) fun result => ∀ s ∈ result, Q s := by
  intro c s result t hc h
  unfold Parse.recovering at h
  split at h
  · next stmt _ hstmt =>
      cases h
      simpa using hp c s stmt _ hc hstmt
  · cases h
  · split at h <;> cases h
    simp

end Rules

section Repetition

/-- What is read turn by turn. -/
theorem repeatWhile
    {σ ρ : Type}
    {test : Parse Bool}
    {turn : σ → Parse (σ × Bool)}
    {result : σ → ρ}
    {I : σ → Prop}
    {S : ρ → Prop}
    (hturn : ∀ s, I s → Yields room (turn s) fun next => I next.1)
    (hresult : ∀ s, I s → S (result s))
    (tokens : List Token)
    {s : σ}
    (hs : I s) :
    Yields room (Parse.repeatWhile test turn result tokens s) S := by
  induction tokens generalizing s with
  | nil => exact .pure (hresult s hs)
  | cons _ tokens ih =>
      refine behind fun holds => ?_
      split
      · refine (hturn s hs).bind fun next hnext => ?_
        split
        · exact ih hnext
        · exact .pure (hresult _ hnext)
      · exact .pure (hresult s hs)

/-- The items of a list. -/
theorem items
    {test : Parse Bool}
    {turn : List α → Parse (List α × Bool)}
    (hturn : ∀ done, Yields room (turn done) fun next => ∃ a, next.1 = a :: done ∧ Q a)
    (tokens : List Token) :
    Yields room (Parse.repeatWhile test turn List.reverse tokens []) fun as => ∀ a ∈ as, Q a := by
  refine repeatWhile (I := fun done => ∀ a ∈ done, Q a) (fun done hdone => ?_) (fun done hdone => ?_)
    tokens nofun
  · refine (hturn done).mono ?_
    rintro ⟨_, more⟩ ⟨a, rfl, ha⟩
    exact List.forall_mem_cons.mpr ⟨ha, hdone⟩
  · simpa using hdone

theorem manyUntil {stop : Parse Bool} (hp : Yields room p Q) (tokens : List Token) :
    Yields room (Parse.manyUntil stop p tokens []) fun as => ∀ a ∈ as, Q a := by
  rw [manyUntil_eq]
  exact items (fun done => hp.bind fun a ha => .pure ⟨a, rfl, ha⟩) tokens

theorem commaTurn (hp : Yields room p Q) (done : List α) :
    Yields room (Parse.commaTurn p done) fun next => ∃ a, next.1 = a :: done ∧ Q a :=
  hp.bind fun a ha => behind fun _ => .pure ⟨a, rfl, ha⟩

theorem listBefore (close : TokenKind) (hp : Yields room p Q) (tokens : List Token) :
    Yields room (Parse.listBefore close p tokens []) fun as => ∀ a ∈ as, Q a := by
  rw [listBefore_eq]
  exact items hp.commaTurn tokens

theorem parenthesised (what : Counted) (hp : Yields room p Q) :
    Yields room (Parse.parenthesised what p) fun as => ∀ a ∈ as, Q a := by
  refine behind fun closed => ?_
  split
  · exact .pure (by simp)
  · refine behind fun tokens => ?_
    rw [countedList_eq]
    refine items (fun done => ?_) tokens
    unfold Parse.countedTurn
    split
    · exact behind fun _ => behind fun _ => hp.commaTurn done
    · exact hp.commaTurn done

end Repetition

end Yields

/-- The readers of the grammar read what fits into the levels that are left. -/
structure Grammar.Shallow (g : Grammar) : Prop where
  assignment : ∀ room, Yields room g.assignment fun e => (Node.expression e).Fits room
  ternary : ∀ room, Yields room g.ternary fun e => (Node.expression e).Fits room
  unary : ∀ room, Yields room g.unary fun e => (Node.expression e).Fits room
  statement : ∀ room, Yields room g.statement fun s => (Inner.stmt s).Fits room
  declaration : ∀ room, Yields room g.declaration fun result => ∀ s ∈ result, (Inner.stmt s).Fits room

namespace Yields

variable {room : Nat}

/-- What is read one level further in. -/
theorem inside
    {p : Parse Expr}
    (hp : ∀ left, Yields left p fun e => (Node.expression e).Fits left) :
    Yields room (Parse.nested p) fun e => (Inner.value 1 e).Fits room :=
  nested fun left hleft => (hp left).mono fun _ he => hleft ▸ Inner.fits_value_one he

variable {g : Grammar} (hg : g.Shallow)
include hg

section Grammar

theorem expression : Yields room g.expression fun e => (Inner.value 1 e).Fits room :=
  inside hg.assignment

theorem block : Yields room g.block fun statements => ∀ s ∈ statements, (Inner.stmt s).Fits room := by
  refine behind fun tokens => (manyUntil (hg.declaration room) tokens).bind fun read hread => ?_
  refine behind fun _ => .pure fun s hs => ?_
  obtain ⟨result, hresult, rfl⟩ := List.mem_filterMap.mp hs
  exact hread _ hresult s rfl

theorem functionBody :
    Yields room g.functionBody fun body => ∀ s ∈ body, (Inner.bodyStmt s).Fits room := by
  refine within (fun _ => rfl) (nested fun left hleft => (block hg).mono fun body hbody s hs => ?_)
  obtain ⟨deeper, hle, hfits⟩ := hbody s hs
  exact ⟨deeper, by simp only [Inner.bodyStmt, Inner.stmt] at hle ⊢; omega, hfits⟩

theorem functionRest :
    Yields room g.functionRest fun f => ∀ s ∈ f.2, (Inner.bodyStmt s).Fits room :=
  behind fun _ => behind fun _ => behind fun _ => behind fun _ =>
    (functionBody hg).bind fun _ hbody => .pure hbody

end Grammar

section Primary

omit hg in
/-- An expression fits if all its parts do. -/
theorem made {e : Expr} (h : ∀ part ∈ e.nested, part.Fits room) :
    Yields room (Pure.pure e : Parse Expr) fun e => (Node.expression e).Fits room :=
  .pure (Node.fits_iff.mpr h)

omit hg in
/-- However the body of a function is told from an arrow and an expression, it fits. -/
theorem fits_bodyNested
    {body : List Stmt}
    (h : ∀ s ∈ body, (Inner.bodyStmt s).Fits room) :
    ∀ part ∈ Stmt.bodyNested body, part.Fits room := by
  unfold Stmt.bodyNested
  split
  · next value hvalue =>
      unfold Stmt.arrowValue? at hvalue
      split at hvalue
      · next value' span =>
          obtain ⟨-, rfl⟩ : span = value'.span ∧ value' = value := by simpa using hvalue
          obtain ⟨deeper, hle, hfits⟩ := h _ List.mem_cons_self
          obtain ⟨deepest, hle', hfits'⟩ :=
            Node.fits_iff.mp hfits (Inner.value 1 value') List.mem_cons_self
          rintro _ hpart
          rw [List.mem_singleton.mp hpart]
          refine ⟨deepest, ?_, hfits'⟩
          simp only [Inner.value] at hle'
          simp only
          omega
      · cases hvalue
  · simpa using h

theorem arrowFunction :
    Yields room (Parse.arrowFunction g) fun e => (Node.expression e).Fits room := by
  refine behind fun start => behind fun params => behind fun _ => behind fun _ =>
    behind fun braced => ?_
  have hrest (body : List Stmt) (hbody : ∀ part ∈ Stmt.bodyNested body, part.Fits room) :
      Yields room (do return Expr.function params body (← Parse.spanFrom start))
        fun e => (Node.expression e).Fits room :=
    behind fun _ => made hbody
  split
  · exact (functionBody hg).bind fun body hbody => hrest body (fits_bodyNested hbody)
  · refine (nestedArrow (hg.assignment room)).bind fun value hvalue => ?_
    refine hrest [.returnValue (some value) value.span] fun part hpart => ?_
    have hpart : part = ⟨0, 1, .expression value⟩ := by
      simpa [Stmt.bodyNested, Stmt.arrowValue?] using hpart
    exact hpart ▸ ⟨room, by simp, hvalue⟩

omit hg in
theorem superExpression (keyword : Token) :
    Yields room (Parse.superExpression keyword) fun e => (Node.expression e).Fits room := by
  refine behind fun c => ?_
  have hrest : Yields room
      (do let _ ← Parse.require .dot "'.' after 'super'"
          let method ← Parse.require .identifier "superclass method name"
          return Expr.super method.lexeme (← Parse.spanFrom keyword))
      fun e => (Node.expression e).Fits room :=
    behind fun _ => behind fun _ => behind fun _ => made nofun
  split
  · exact behind fun _ => hrest
  · exact behind fun _ => hrest
  · exact hrest

/-- A name that stands for itself has no parts; any other key is one level further in. -/
theorem mapKey :
    Yields room (Parse.mapKey g) fun key => key.nested = [] ∨ (Inner.value 1 key).Fits room := by
  refine behind fun named => ?_
  have hname : Yields room
      (do let token ← Parse.advance; return Expr.literal (.string token.lexeme) token.span)
      fun key => key.nested = [] ∨ (Inner.value 1 key).Fits room :=
    behind fun token => .pure (.inl rfl)
  have hexpression : Yields room g.expression
      fun key => key.nested = [] ∨ (Inner.value 1 key).Fits room :=
    (expression hg).mono fun _ hkey => .inr hkey
  refine behind fun colon => ?_
  split
  · exact hname
  · exact hexpression

theorem mapEntry :
    Yields room (Parse.mapEntry g) fun entry =>
      ∀ e ∈ entry.parts, (Inner.value 1 e).Fits room := by
  refine (mapKey hg).bind fun key hkey => behind fun _ => ?_
  refine (expression hg).bind fun value hvalue => .pure ?_
  have hroom : 1 ≤ room := by
    obtain ⟨left, hle, -⟩ := hvalue
    simp only [Inner.value] at hle
    omega
  have hkey : (Inner.value 1 key).Fits room := by
    refine hkey.elim (fun hnone => ⟨0, hroom, Node.fits_iff.mpr ?_⟩) id
    simp [Inner.value, Node.nested, hnone]
  simp [MapEntry.parts, hkey, hvalue]

theorem listLiteral (start : Token) :
    Yields room (Parse.listLiteral g start) fun e => (Node.expression e).Fits room := by
  refine behind fun tokens => (listBefore _ (expression hg) tokens).bind fun elements helements => ?_
  exact behind fun _ => behind fun _ => made (by simpa [Expr.nested] using helements)

theorem mapLiteral (start : Token) :
    Yields room (Parse.mapLiteral g start) fun e => (Node.expression e).Fits room := by
  refine behind fun tokens => (listBefore _ (mapEntry hg) tokens).bind fun entries hentries => ?_
  refine behind fun _ => behind fun _ => made ?_
  simp only [Expr.nested, List.forall_mem_map, List.mem_flatMap]
  rintro e ⟨entry, hentry, he⟩
  exact hentries entry hentry e he

theorem grouping : Yields room (Parse.grouping g) fun e => (Node.expression e).Fits room := by
  refine behind fun _ => (expression hg).bind fun e he => behind fun _ => .pure ?_
  obtain ⟨left, hle, hfits⟩ := he
  exact hfits.mono (Nat.le_trans (Nat.le_add_left _ _) hle)

theorem primary : Yields room (Parse.primary g) fun e => (Node.expression e).Fits room := by
  refine behind fun token => ?_
  split
  · exact behind fun _ => made nofun
  · exact behind fun _ => made nofun
  · exact behind fun _ => made nofun
  · exact behind fun _ => made nofun
  · exact behind fun _ => made nofun
  · exact behind fun _ => behind fun _ => behind fun _ => made nofun
  · exact behind fun _ => superExpression _
  · exact behind fun _ => made nofun
  · exact behind fun _ => (functionRest hg).bind fun f hf => behind fun _ =>
      made (fits_bodyNested hf)
  · refine behind fun tokens => ?_
    split
    · exact arrowFunction hg
    · exact grouping hg
  · exact behind fun _ => listLiteral hg _
  · exact behind fun _ => mapLiteral hg _
  · exact fail _

end Primary

section Operators

theorem suffix {e : Expr} (he : (Node.expression e).Fits room) :
    Yields room (Parse.suffix g e) fun e => (Node.expression e).Fits room := by
  refine behind fun token => ?_
  split
  · refine behind fun _ => (parenthesised _ (expression hg)).bind fun arguments harguments => ?_
    refine behind fun _ => made ?_
    simpa [Expr.nested, he] using harguments
  · exact behind fun _ => behind fun _ => made (by simpa [Expr.nested] using he)
  · refine behind fun _ => (expression hg).bind fun key hkey => behind fun _ => made ?_
    simp [Expr.nested, he, hkey]
  · exact fail _

theorem call : Yields room (Parse.call g) fun e => (Node.expression e).Fits room := by
  refine (primary hg).bind fun e he => behind fun tokens => ?_
  rw [suffixes_eq]
  refine repeatWhile (I := fun e => (Node.expression e).Fits room)
    (S := fun e => (Node.expression e).Fits room) (fun e he => ?_) (fun _ h => h) tokens he
  exact (suffix hg he).bind fun next hnext => .pure (a := (next, true)) hnext

theorem power : Yields room (Parse.power g) fun e => (Node.expression e).Fits room := by
  refine (call hg).bind fun base hbase => behind fun raised => ?_
  split
  · refine (inside hg.unary).bind fun exponent hexponent => made ?_
    simp [Expr.nested, hbase, hexponent]
  · exact .pure hbase

theorem unary : Yields room (Parse.unary g) fun e => (Node.expression e).Fits room := by
  refine behind fun token => ?_
  split
  · exact behind fun _ => (inside hg.unary).bind fun operand hoperand =>
      made (by simpa [Expr.nested] using hoperand)
  · exact power hg

omit hg in
/-- Operands on the level of the whole, joined by operators that keep them there. -/
theorem leftAssociative
    {operand : Parse Expr}
    (join? : TokenKind → Option Join)
    (hoperand : Yields room operand fun e => (Node.expression e).Fits room)
    (hjoin : ∀ kind, ∀ join ∈ join? kind,
      (∃ op, join = joinBinary op ∧ op ≠ .power) ∨ ∃ op, join = joinLogical op) :
    Yields room (Parse.leftAssociative operand join?) fun e => (Node.expression e).Fits room := by
  refine hoperand.bind fun first hfirst => behind fun tokens => ?_
  rw [chain_eq]
  refine repeatWhile (fun left hleft => behind fun token => ?_) (fun _ h => h) tokens hfirst
  split
  · next join hfound =>
      refine behind fun _ => hoperand.bind fun right hright => .pure (Node.fits_iff.mpr ?_)
      rcases hjoin _ join hfound with ⟨op, rfl, hop⟩ | ⟨op, rfl⟩
      · simp [joinBinary, Node.nested, Expr.nested, hop, hleft, hright]
      · simp [joinLogical, Node.nested, Expr.nested, hleft, hright]
  · exact fail _

theorem logicalOr : Yields room (Parse.logicalOr g) fun e => (Node.expression e).Fits room := by
  have hunary : Yields room (Parse.unary g) fun e => (Node.expression e).Fits room := unary hg
  have hfactor := leftAssociative factorOp? hunary fun kind join h => by
    unfold factorOp? at h
    split at h <;> cases h <;> exact .inl ⟨_, rfl, nofun⟩
  have hterm := leftAssociative termOp? hfactor fun kind join h => by
    unfold termOp? at h
    split at h <;> cases h <;> exact .inl ⟨_, rfl, nofun⟩
  have hcomparison := leftAssociative comparisonOp? hterm fun kind join h => by
    unfold comparisonOp? at h
    split at h <;> cases h <;> exact .inl ⟨_, rfl, nofun⟩
  have hequality := leftAssociative equalityOp? hcomparison fun kind join h => by
    unfold equalityOp? at h
    split at h <;> cases h <;> exact .inl ⟨_, rfl, nofun⟩
  have hand := leftAssociative andOp? hequality fun kind join h => by
    unfold andOp? at h
    split at h <;> cases h
    exact .inr ⟨_, rfl⟩
  exact leftAssociative _ hand fun kind join h => by
    unfold orOp? at h
    split at h <;> cases h
    exact .inr ⟨_, rfl⟩

theorem ternary : Yields room (Parse.ternary g) fun e => (Node.expression e).Fits room := by
  refine (logicalOr hg).bind fun condition hcondition => behind fun asks => ?_
  split
  · refine (expression hg).bind fun thenBranch hthen => behind fun _ => ?_
    refine (inside hg.ternary).bind fun elseBranch helse => made ?_
    simp [Expr.nested, hcondition, hthen, helse]
  · exact .pure hcondition

omit hg in
theorem fits_assignmentTo?
    {target value e : Expr} {span : Span}
    (htarget : (Node.expression target).Fits room)
    (hvalue : (Inner.value 1 value).Fits room)
    (h : assignmentTo? target value span = some e) :
    (Node.expression e).Fits room := by
  have hparts := Node.fits_iff.mp htarget
  refine Node.fits_iff.mpr ?_
  unfold assignmentTo? at h
  split at h <;> cases h
  all_goals simp_all [Node.nested, Expr.nested]

theorem assignment : Yields room (Parse.assignment g) fun e => (Node.expression e).Fits room := by
  refine (ternary hg).bind fun target htarget => behind fun assigns => ?_
  split
  · refine behind fun equals => (inside hg.assignment).bind fun value hvalue => ?_
    split
    · next e he => exact .pure (fits_assignmentTo? htarget hvalue he)
    · exact behind fun _ => .pure htarget
  · exact .pure htarget

end Operators

section Statements

theorem initialValue (isConst : Bool) :
    Yields room (Parse.initialValue g isConst) fun initial =>
      ∀ e ∈ initial, (Inner.value 1 e).Fits room := by
  have hsome : Yields room (do return some (← g.expression))
      fun initial : Option Expr => ∀ e ∈ initial, (Inner.value 1 e).Fits room :=
    (expression hg).bind fun e he => .pure (by simpa using he)
  unfold Parse.initialValue
  split
  · exact behind fun _ => hsome
  · refine behind fun given => ?_
    split
    · exact hsome
    · exact .pure (by simp)

omit hg in
/-- A statement fits if all its parts do; that it is a level counts where it stands. -/
theorem stated {s : Stmt} (h : ∀ part ∈ s.nested, part.Fits room) :
    Yields room (Pure.pure s : Parse Stmt) fun s => (Node.statement s).Fits room :=
  .pure (Node.fits_iff.mpr h)

theorem varDeclaration (keyword : Token) (isConst : Bool) :
    Yields room (Parse.varDeclaration g keyword isConst) fun s =>
      s.level = 0 ∧ (Node.statement s).Fits room := by
  refine behind fun _ => (initialValue hg isConst).bind fun initial hinitial => ?_
  refine behind fun _ => behind fun _ => .pure ⟨rfl, Node.fits_iff.mpr ?_⟩
  simpa [Node.nested, Stmt.nested] using hinitial

theorem functionDeclaration (keyword : Token) :
    Yields room (Parse.functionDeclaration g keyword) fun s =>
      s.level = 0 ∧ (Node.statement s).Fits room :=
  behind fun _ => (functionRest hg).bind fun _ hf => behind fun _ =>
    .pure ⟨rfl, Node.fits_iff.mpr (List.forall_mem_map.mpr hf)⟩

theorem method :
    Yields room (Parse.method g) fun d => ∀ s ∈ d.body, (Inner.bodyStmt s).Fits room :=
  behind fun _ => (functionRest hg).bind fun _ hf => behind fun _ => .pure hf

theorem classDeclaration (keyword : Token) :
    Yields room (Parse.classDeclaration g keyword) fun s =>
      s.level = 0 ∧ (Node.statement s).Fits room := by
  refine behind fun _ => behind fun parent => behind fun _ => behind fun tokens => ?_
  have henter (c : Context) : (c.enterClass parent.isSome).depth = c.depth := rfl
  refine (within henter (manyUntil (method hg) tokens)).bind fun methods hmethods => ?_
  refine behind fun _ => behind fun _ => ?_
  refine .pure ⟨rfl, Node.fits_iff.mpr ?_⟩
  simp only [Node.nested, Stmt.nested, List.mem_flatMap]
  rintro part ⟨d, hd, hpart⟩
  exact List.forall_mem_map.mpr (hmethods d hd) part hpart

theorem expressionStatement :
    Yields room (Parse.expressionStatement g) fun s => (Node.statement s).Fits room :=
  (expression hg).bind fun e he => behind fun _ => behind fun _ =>
    stated (by simpa [Stmt.nested] using he)

theorem printStatement (keyword : Token) :
    Yields room (Parse.printStatement g keyword) fun s => (Node.statement s).Fits room :=
  (expression hg).bind fun e he => behind fun _ => behind fun _ =>
    stated (by simpa [Stmt.nested] using he)

theorem throwStatement (keyword : Token) :
    Yields room (Parse.throwStatement g keyword) fun s => (Node.statement s).Fits room :=
  (expression hg).bind fun e he => behind fun _ => behind fun _ =>
    stated (by simpa [Stmt.nested] using he)

theorem ifStatement (keyword : Token) :
    Yields room (Parse.ifStatement g keyword) fun s => (Node.statement s).Fits room := by
  refine behind fun _ => (expression hg).bind fun condition hcondition => behind fun _ => ?_
  refine (hg.statement room).bind fun thenBranch hthen => behind fun found => ?_
  have hrest (elseBranch : Option Stmt) (helse : ∀ s ∈ elseBranch, (Inner.stmt s).Fits room) :
      Yields room (do return Stmt.ifElse condition thenBranch elseBranch (← Parse.spanFrom keyword))
        fun s => (Node.statement s).Fits room :=
    behind fun _ => stated (by simpa [Stmt.nested, hcondition, hthen] using helse)
  split
  · refine ((hg.statement room).bind fun s hs => .pure ?_).bind hrest
    simpa using hs
  · exact hrest none (by simp)

theorem loopBody : Yields room (Parse.loopBody g) fun s => (Inner.stmt s).Fits room :=
  within (fun _ => rfl) (hg.statement room)

theorem whileStatement (keyword : Token) :
    Yields room (Parse.whileStatement g keyword) fun s => (Node.statement s).Fits room :=
  behind fun _ => (expression hg).bind fun condition hcondition => behind fun _ =>
    (loopBody hg).bind fun body hbody => behind fun _ =>
      stated (by simp [Stmt.nested, hcondition, hbody])

theorem doWhileStatement (keyword : Token) :
    Yields room (Parse.doWhileStatement g keyword) fun s => (Node.statement s).Fits room :=
  (loopBody hg).bind fun body hbody => behind fun _ => behind fun _ =>
    (expression hg).bind fun condition hcondition => behind fun _ => behind fun _ => behind fun _ =>
      stated (by simp [Stmt.nested, hcondition, hbody])

theorem forInitial :
    Yields room (Parse.forInitial g) fun initial =>
      ∀ s ∈ initial, (Node.statement s).Fits room := by
  refine behind fun none => ?_
  split
  · exact .pure (by simp)
  · refine behind fun isVar => ?_
    split
    · exact behind fun keyword => (varDeclaration hg keyword false).bind fun s hs =>
        .pure (by simpa using hs.2)
    · exact (expressionStatement hg).bind fun s hs => .pure (by simpa using hs)

theorem optionalBefore (kind : TokenKind) :
    Yields room (Parse.optionalBefore g kind) fun value =>
      ∀ e ∈ value, (Inner.value 1 e).Fits room := by
  refine behind fun missing => ?_
  split
  · exact .pure (by simp)
  · exact (expression hg).bind fun e he => .pure (by simpa using he)

theorem forStatement (keyword : Token) :
    Yields room (Parse.forStatement g keyword) fun s => (Node.statement s).Fits room := by
  refine behind fun _ => (forInitial hg).bind fun initial hinitial => ?_
  refine (optionalBefore hg _).bind fun condition hcondition => behind fun _ => ?_
  refine (optionalBefore hg _).bind fun increment hincrement => behind fun _ => ?_
  refine (loopBody hg).bind fun body hbody => behind fun _ => stated ?_
  have hclause (s : Stmt) (hs : s ∈ initial) : Inner.Fits room ⟨0, 0, .statement s⟩ :=
    ⟨room, by simp, hinitial s hs⟩
  simp only [Stmt.nested, List.cons_append, List.forall_mem_cons, List.forall_mem_append,
    List.forall_mem_map, Option.mem_toList]
  exact ⟨hbody, hclause, hcondition, hincrement⟩

theorem returnStatement (keyword : Token) :
    Yields room (Parse.returnStatement g keyword) fun s => (Node.statement s).Fits room :=
  behind fun _ => behind fun _ => (optionalBefore hg _).bind fun value hvalue => behind fun _ =>
    behind fun _ => stated (by simpa [Stmt.nested] using hvalue)

theorem catchClause :
    Yields room (Parse.catchClause g) fun handler =>
      ∀ clause ∈ handler, ∀ s ∈ clause.body, (Inner.stmt s).Fits room := by
  refine behind fun found => ?_
  split
  · exact behind fun _ => behind fun _ => behind fun _ => behind fun _ =>
      (block hg).bind fun body hbody => .pure (by simpa [CatchClause.body] using hbody)
  · exact .pure (by simp)

theorem finallyClause :
    Yields room (Parse.finallyClause g) fun cleanup =>
      ∀ body ∈ cleanup, ∀ s ∈ body, (Inner.stmt s).Fits room := by
  refine behind fun found => ?_
  split
  · exact behind fun _ => (block hg).bind fun body hbody => .pure (by simpa using hbody)
  · exact .pure (by simp)

theorem tryStatement (keyword : Token) :
    Yields room (Parse.tryStatement g keyword) fun s => (Node.statement s).Fits room := by
  refine behind fun _ => (block hg).bind fun body hbody => ?_
  refine (catchClause hg).bind fun handler hhandler => ?_
  refine (finallyClause hg).bind fun cleanup hcleanup => ?_
  split
  · exact fail _
  · refine behind fun _ => stated ?_
    simp only [Stmt.nested, List.forall_mem_map, List.mem_append, List.mem_flatMap,
      Option.mem_toList, List.mem_flatten]
    rintro s ((hs | ⟨clause, hclause, hs⟩) | ⟨cleanupBody, hcleanupBody, hs⟩)
    · exact hbody s hs
    · exact hhandler clause hclause s hs
    · exact hcleanup cleanupBody hcleanupBody s hs

theorem blockStatement (start : Token) :
    Yields room (Parse.blockStatement g start) fun s => (Node.statement s).Fits room :=
  (block hg).bind fun _ hstatements => behind fun _ =>
    stated (by simpa [Stmt.nested] using hstatements)

theorem keywordStatement
    {kind : TokenKind} {read : Token → Parse Stmt}
    (h : keywordStatement? g kind = some read)
    (token : Token) :
    Yields room (read token) fun s => (Node.statement s).Fits room := by
  unfold keywordStatement? at h
  split at h <;> cases h
  · exact printStatement hg token
  · exact blockStatement hg token
  · exact ifStatement hg token
  · exact whileStatement hg token
  · exact doWhileStatement hg token
  · exact forStatement hg token
  · exact returnStatement hg token
  · exact behind fun _ => behind fun _ => behind fun _ => behind fun _ => stated nofun
  · exact behind fun _ => behind fun _ => behind fun _ => behind fun _ => stated nofun
  · exact tryStatement hg token
  · exact throwStatement hg token
  · exact behind fun _ => behind fun _ => stated nofun

theorem statement : Yields room (Parse.statement g) fun s => (Inner.stmt s).Fits room := by
  refine nested fun left hleft => ?_
  have hinside (s : Stmt) (hs : (Node.statement s).Fits left) : (Inner.stmt s).Fits room := by
    have hlevel : s.level ≤ 1 := by
      unfold Stmt.level
      split <;> decide
    exact ⟨left, by simp only [Inner.stmt]; omega, hs⟩
  refine behind fun token => ?_
  split
  · next read hread => exact behind fun token => (keywordStatement hg hread token).mono hinside
  · exact (expressionStatement hg).mono hinside

theorem declarationBody :
    Yields room (Parse.declarationBody g) fun s => (Inner.stmt s).Fits room := by
  have hdeclared (s : Stmt) (hs : s.level = 0 ∧ (Node.statement s).Fits room) :
      (Inner.stmt s).Fits room :=
    ⟨room, by simp [Inner.stmt, hs.1], hs.2⟩
  refine behind fun token => ?_
  split
  · exact behind fun keyword => (varDeclaration hg keyword false).mono hdeclared
  · exact behind fun keyword => (varDeclaration hg keyword true).mono hdeclared
  · refine behind fun isNamed => ?_
    split
    · exact behind fun keyword => (functionDeclaration hg keyword).mono hdeclared
    · exact statement hg
  · exact behind fun keyword => (classDeclaration hg keyword).mono hdeclared
  · exact statement hg

end Statements

end Yields

/-- The grammar of every depth reads what fits into the levels that are left. -/
theorem Grammar.shallow_ofDepth (depth : Nat) : (Grammar.ofDepth depth).Shallow := by
  induction depth with
  | zero =>
      exact
        { assignment := fun _ => .tooDeep
          ternary := fun _ => .tooDeep
          unary := fun _ => .tooDeep
          statement := fun _ => .tooDeep
          declaration := fun _ => .tooDeep }
  | succ depth ih =>
      exact
        { assignment := fun _ => .assignment ih
          ternary := fun _ => .ternary ih
          unary := fun _ => .unary ih
          statement := fun _ => .statement ih
          declaration := fun _ => .recovering (.declarationBody ih) }

end Lox.Parse
