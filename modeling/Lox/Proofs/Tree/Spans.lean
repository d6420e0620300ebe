import Lox.Proofs.Surface.Grammar
import Lox.Proofs.Tree.Nesting

/-!
# Spans of a tree

Reading replaces tokens by the nodes that are made of them, as in a bottom-up parser: what is read so
far is a list of portions, each a token or a node, and a step puts one node in the place of several
portions (`Reduces`). The invariant is that the spans of the portions follow one another in the source
(`Span.Follow`). A node that takes the span from its first portion to its last keeps it, and has its
children in order inside its own span.
-/

namespace Lox

section Spans

namespace Span

/-- The spans are not empty and follow one another in a source, between two offsets. -/
def Follow (file : Int) : Int → List Span → Int → Prop
  | lo, [], hi => lo ≤ hi
  | lo, span :: spans, hi =>
      span.file = file ∧ lo ≤ span.start ∧ span.start < span.stop ∧ Follow file span.stop spans hi

/-- The characters of a text that a span covers. -/
def slice (span : Span) (text : List Char) : List Char :=
  (text.drop span.start.toNat).take (span.stop - span.start).toNat

/-- The span is not empty and lies in a text of so many characters. -/
structure Covers (span : Span) (file : Int) (length : Nat) : Prop where
  file_eq : span.file = file
  start_nonneg : 0 ≤ span.start
  start_lt_stop : span.start < span.stop
  stop_le : span.stop ≤ length

/-- The parts lie inside the whole, one behind the other. -/
structure Nests (whole : Span) (parts : List Span) : Prop where
  contains : ∀ part ∈ parts, whole.start ≤ part.start ∧ part.stop ≤ whole.stop
  increasing : parts.Pairwise fun a b => a.stop ≤ b.start

theorem merge_self (a : Span) : a.merge a = a := by
  simp [merge]

variable {file lo hi : Int} {spans later : List Span}

namespace Follow

theorem le (h : Follow file lo spans hi) : lo ≤ hi := by
  induction spans generalizing lo with
  | nil => exact h
  | cons span spans ih =>
      obtain ⟨-, hstart, hstop, hrest⟩ := h
      have := ih hrest
      omega

theorem widen {lo' : Int} (h : Follow file lo spans hi) (hle : lo' ≤ lo) :
    Follow file lo' spans hi := by
  cases spans with
  | nil => exact Int.le_trans hle h
  | cons span spans => exact ⟨h.1, Int.le_trans hle h.2.1, h.2.2⟩

theorem append_iff :
    Follow file lo (spans ++ later) hi ↔
      ∃ mid, Follow file lo spans mid ∧ Follow file mid later hi := by
  induction spans generalizing lo with
  | nil =>
      constructor
      · intro h
        exact ⟨lo, Int.le_refl lo, h⟩
      · rintro ⟨mid, hle, h⟩
        exact h.widen hle
  | cons span spans ih =>
      constructor
      · rintro ⟨hfile, hstart, hstop, hrest⟩
        obtain ⟨mid, hfirst, hsecond⟩ := ih.mp hrest
        exact ⟨mid, ⟨hfile, hstart, hstop, hfirst⟩, hsecond⟩
      · rintro ⟨mid, ⟨hfile, hstart, hstop, hfirst⟩, hsecond⟩
        exact ⟨hfile, hstart, hstop, ih.mpr ⟨mid, hfirst, hsecond⟩⟩

/-- Spans that are left out leave the others in order. -/
theorem sublist (h : Follow file lo spans hi) (hsub : later.Sublist spans) :
    Follow file lo later hi := by
  induction hsub generalizing lo with
  | slnil => exact h
  | cons span hsub ih => exact ih (h.2.2.2.widen (by have := h.2; omega))
  | cons_cons span hsub ih => exact ⟨h.1, h.2.1, h.2.2.1, ih h.2.2.2⟩

theorem between (h : Follow file lo spans hi) :
    ∀ part ∈ spans, part.file = file ∧ lo ≤ part.start ∧ part.start < part.stop ∧ part.stop ≤ hi := by
  induction spans generalizing lo with
  | nil => nofun
  | cons span spans ih =>
      obtain ⟨hfile, hstart, hstop, hrest⟩ := h
      intro part hpart
      rcases List.mem_cons.mp hpart with rfl | hpart
      · exact ⟨hfile, hstart, hstop, hrest.le⟩
      · obtain ⟨hpart, hle, hrest⟩ := ih hrest part hpart
        exact ⟨hpart, by omega, hrest⟩

theorem increasing (h : Follow file lo spans hi) : spans.Pairwise fun a b => a.stop ≤ b.start := by
  induction spans generalizing lo with
  | nil => exact .nil
  | cons span spans ih =>
      obtain ⟨-, -, -, hrest⟩ := h
      exact .cons (fun part hpart => (hrest.between part hpart).2.1) (ih hrest)

theorem nests {whole : Span} (h : Follow file whole.start spans whole.stop) : whole.Nests spans where
  contains part hpart := by
    obtain ⟨-, hstart, -, hstop⟩ := h.between part hpart
    exact ⟨hstart, hstop⟩
  increasing := h.increasing

theorem of_increasing
    (hordered : spans.Pairwise fun a b => a.stop ≤ b.start)
    (h : ∀ part ∈ spans,
      part.file = file ∧ lo ≤ part.start ∧ part.start < part.stop ∧ part.stop ≤ hi)
    (hle : lo ≤ hi) :
    Follow file lo spans hi := by
  induction hordered generalizing lo with
  | nil => exact hle
  | @cons span spans hspan _ ih =>
      obtain ⟨hfile, hstart, hstop, hhi⟩ := h span List.mem_cons_self
      refine ⟨hfile, hstart, hstop, ih (fun part hpart => ?_) hhi⟩
      obtain ⟨hpartFile, -, hrest⟩ := h part (List.mem_cons_of_mem _ hpart)
      exact ⟨hpartFile, hspan part hpart, hrest⟩

/-- Where spans follow one another, the span from the first to the last begins where the first one
begins and ends where the last one ends, and it leaves them room. -/
theorem merge {first : Span} (h : Follow file lo (first :: spans) hi) :
    Follow file lo [first.merge (spans.getLastD first)] hi ∧
      Follow file (first.merge (spans.getLastD first)).start (first :: spans)
        (first.merge (spans.getLastD first)).stop := by
  have hends : ∀ {lo first}, Follow file lo (first :: spans) hi →
      (spans.getLastD first).file = file ∧ first.start ≤ (spans.getLastD first).start ∧
        first.stop ≤ (spans.getLastD first).stop ∧ (spans.getLastD first).stop ≤ hi ∧
        Follow file first.start (first :: spans) (spans.getLastD first).stop := by
    clear h
    induction spans with
    | nil =>
        rintro lo first ⟨hfile, hstart, hstop, hle⟩
        exact ⟨hfile, Int.le_refl _, Int.le_refl _, hle, hfile, Int.le_refl _, hstop, Int.le_refl _⟩
    | cons second spans ih =>
        rintro lo first ⟨hfile, hstart, hstop, hrest⟩
        obtain ⟨hlast, hfirst, hsecond, hle, hinner⟩ := ih hrest
        have hnext := hrest.2.1
        have hnonempty := hrest.2.2.1
        rw [List.getLastD_cons]
        exact ⟨hlast, by omega, by omega, hle, hfile, Int.le_refl _, hstop, hinner.widen hnext⟩
  obtain ⟨hlast, hstart, hstop, hle, hinner⟩ := hends h
  obtain ⟨hfile, hlo, hnonempty, -⟩ := h
  have hmerge : first.merge (spans.getLastD first) =
      ⟨file, first.start, (spans.getLastD first).stop, by omega⟩ := by
    simp only [Span.merge, hlast, hfile, if_true, Span.mk.injEq, true_and]
    omega
  have hlt : first.start < (spans.getLastD first).stop := by omega
  rw [hmerge]
  exact ⟨⟨rfl, hlo, hlt, hle⟩, hinner⟩

end Follow

end Span

end Spans

section Nodes

/-- What stands directly inside an expression, from left to right. -/
def Expr.children : Expr → List Node
  | .function _ body _ => body.map .statement
  | e => e.parts.map .expression

/-- What stands directly inside a statement, from left to right. A method is a statement that declares
a function, and a superclass is an expression that is its name. -/
def Stmt.children : Stmt → List Node
  | .expression e _ | .print e _ | .throwValue e _ => [.expression e]
  | .declare _ value _ _ | .returnValue value _ => value.toList.map .expression
  | .block statements _ => statements.map .statement
  | .ifElse condition thenBranch elseBranch _ =>
      .expression condition :: .statement thenBranch :: elseBranch.toList.map .statement
  | .whileLoop condition body _ => [.expression condition, .statement body]
  | .doWhile body condition _ => [.statement body, .expression condition]
  | .forLoop initial condition increment body _ =>
      initial.toList.map .statement ++ condition.toList.map .expression ++
        increment.toList.map .expression ++ [.statement body]
  | .function d => d.body.map .statement
  | .classDecl _ superclass methods _ =>
      superclass.toList.map (fun parent => .expression (.reference parent.1 parent.2)) ++
        methods.map (.statement <| .function ·)
  | .tryBlock body handler cleanup _ =>
      body.map .statement ++ (handler.toList.flatMap CatchClause.body).map .statement ++
        cleanup.toList.flatten.map .statement
  | .breakLoop _ | .continueLoop _ | .dump _ => []

namespace Node

/-- The span of a node. -/
def span : Node → Span
  | expression e => e.span
  | statement s => s.span

/-- What stands directly inside a node, from left to right. -/
def children : Node → List Node
  | expression e => e.children
  | statement s => s.children

/-- The second node is the first one or stands somewhere inside it. -/
inductive Has : Node → Node → Prop
  | self (a : Node) : Has a a
  | child {a b c : Node} : b ∈ a.children → Has b c → Has a c

/-- A node that is one word has the span of a token that is this word. -/
def Worded (tokens : List Token) : Node → Prop
  | expression (.reference name span) => ∃ token ∈ tokens, token.span = span ∧ token.lexeme = name
  | expression (.literal _ span) | expression (.this span) => ∃ token ∈ tokens, token.span = span
  | _ => True

variable (file : Int) (tokens : List Token)

/-- The node has its children in order inside its own span. -/
structure Fit (a : Node) : Prop where
  file_eq : a.span.file = file
  nonempty : a.span.start < a.span.stop
  follow : Span.Follow file a.span.start (a.children.map Node.span) a.span.stop
  worded : a.Worded tokens

/-- All nodes of the tree fit. -/
def FitThroughout (a : Node) : Prop :=
  ∀ b, a.Has b → b.Fit file tokens

variable {file : Int} {tokens : List Token}

theorem fitThroughout_iff {a : Node} :
    a.FitThroughout file tokens ↔
      a.Fit file tokens ∧ ∀ b ∈ a.children, b.FitThroughout file tokens := by
  constructor
  · intro h
    exact ⟨h a (.self a), fun b hb c hc => h c (.child hb hc)⟩
  · rintro ⟨hfit, hchildren⟩ c (_ | ⟨hb, hc⟩)
    · exact hfit
    · exact hchildren _ hb c hc

/-- Whatever stands inside a node has its span inside that of the node. -/
theorem Has.within {a b : Node} (h : a.Has b) (hfit : a.FitThroughout file tokens) :
    a.span.start ≤ b.span.start ∧ b.span.stop ≤ a.span.stop := by
  induction h with
  | self a => exact ⟨Int.le_refl _, Int.le_refl _⟩
  | @child a b c hb _ ih =>
      obtain ⟨ha, hchildren⟩ := fitThroughout_iff.mp hfit
      have hinside := ha.follow.nests.contains b.span (List.mem_map_of_mem hb)
      have hbeyond := ih (hchildren b hb)
      omega

end Node

end Nodes

section Reduction

/-- What is read of a source so far: a token, or a node that was made of tokens. -/
inductive Portion
  | token (word : Token)
  | node (a : Node)

/-- The span of a portion. -/
def Portion.span : Portion → Span
  | token word => word.span
  | node a => a.span

variable (file : Int) (tokens : List Token)

/-- The portion is one of the tokens, or a tree all of whose nodes fit. -/
def Portion.Sound : Portion → Prop
  | token word => word ∈ tokens
  | node a => a.FitThroughout file tokens

/-- The portions follow one another between two offsets, and all of them are sound. -/
structure Lie (lo : Int) (portions : List Portion) (hi : Int) : Prop where
  follow : Span.Follow file lo (portions.map Portion.span) hi
  sound : ∀ portion ∈ portions, portion.Sound file tokens

/-- Wherever the first portions lie, the second ones can take their place. -/
def Reduces (portions reduced : List Portion) : Prop :=
  ∀ lo hi, Lie file tokens lo portions hi → Lie file tokens lo reduced hi

/-- The tokens of a phrase can be replaced by the portions. -/
abbrev Reads (w : List Token) (portions : List Portion) : Prop :=
  Reduces file tokens (w.map .token) portions

/-- The tokens of a phrase can be replaced by the nodes. -/
abbrev Leaves (w : List Token) (nodes : List Node) : Prop :=
  Reads file tokens w (nodes.map .node)

variable {file : Int} {tokens : List Token} {ms ns ms' ns' : List Portion}

namespace Reduces

theorem refl (ms : List Portion) : Reduces file tokens ms ms :=
  fun _ _ h => h

theorem trans (h : Reduces file tokens ms ns) (h' : Reduces file tokens ns ns') :
    Reduces file tokens ms ns' :=
  fun lo hi hlie => h' lo hi (h lo hi hlie)

/-- Portions may be left out. -/
theorem of_sublist (h : ns.Sublist ms) : Reduces file tokens ms ns :=
  fun _ _ hlie => ⟨hlie.follow.sublist (h.map _),
    fun portion hportion => hlie.sound portion (h.subset hportion)⟩

theorem append (h : Reduces file tokens ms ns) (h' : Reduces file tokens ms' ns') :
    Reduces file tokens (ms ++ ms') (ns ++ ns') := by
  intro lo hi hlie
  obtain ⟨hfollow, hsound⟩ := hlie
  rw [List.map_append] at hfollow
  obtain ⟨mid, hfirst, hsecond⟩ := Span.Follow.append_iff.mp hfollow
  have hn := h lo mid ⟨hfirst, fun portion hp => hsound portion (List.mem_append_left _ hp)⟩
  have hn' := h' mid hi ⟨hsecond, fun portion hp => hsound portion (List.mem_append_right _ hp)⟩
  constructor
  · rw [List.map_append]
    exact Span.Follow.append_iff.mpr ⟨mid, hn.follow, hn'.follow⟩
  · intro portion hportion
    rcases List.mem_append.mp hportion with hportion | hportion
    · exact hn.sound portion hportion
    · exact hn'.sound portion hportion

/-- A node may be replaced by what stands in it. -/
theorem children (a : Node) : Reduces file tokens [.node a] (a.children.map .node) := by
  rintro lo hi ⟨⟨-, hlo, -, hhi⟩, hsound⟩
  obtain ⟨hfit, hchildren⟩ := Node.fitThroughout_iff.mp (hsound _ List.mem_cons_self)
  constructor
  · rw [List.map_map]
    have hwide : Span.Follow file lo (a.children.map Node.span ++ []) hi :=
      Span.Follow.append_iff.mpr ⟨a.span.stop, hfit.follow.widen hlo, hhi⟩
    rwa [List.append_nil] at hwide
  · intro portion hportion
    obtain ⟨b, hb, rfl⟩ := List.mem_map.mp hportion
    exact hchildren b hb

/-- Portions are replaced by a node that takes the span from the first of them to the last one, if they
can be replaced by its children. -/
theorem node
    {a : Node}
    {first : Portion}
    {rest : List Portion}
    (hspan : a.span = first.span.merge (rest.getLastD first).span)
    (hchildren : Reduces file tokens (first :: rest) (a.children.map .node))
    (hworded : (∀ portion ∈ first :: rest, portion.Sound file tokens) → a.Worded tokens) :
    Reduces file tokens (first :: rest) [.node a] := by
  rintro lo hi ⟨hfollow, hsound⟩
  obtain ⟨houter, hinner⟩ := Span.Follow.merge hfollow
  rw [List.getLastD_map, ← hspan] at houter hinner
  obtain ⟨hfollow, hsound'⟩ := hchildren _ _ ⟨hinner, hsound⟩
  rw [List.map_map] at hfollow
  have hfit : a.Fit file tokens := ⟨houter.1, houter.2.2.1, hfollow, hworded hsound⟩
  constructor
  · exact houter
  · intro portion hportion
    rw [List.mem_singleton.mp hportion]
    exact Node.fitThroughout_iff.mpr
      ⟨hfit, fun b hb => hsound' (.node b) (List.mem_map_of_mem hb)⟩

/-- Portions are replaced by a node whose children are among them. -/
theorem merged
    {a : Node}
    {first : Portion}
    {rest : List Portion}
    (hspan : a.span = first.span.merge (rest.getLastD first).span)
    (hchildren : (a.children.map Portion.node).Sublist (first :: rest))
    (hworded : a.Worded tokens) :
    Reduces file tokens (first :: rest) [.node a] :=
  node hspan (.of_sublist hchildren) fun _ => hworded

end Reduces

section Phrases

variable {v w : List Token} {as bs : List Node}

theorem Reads.token (word : Token) : Reads file tokens [word] [.token word] :=
  .refl _

theorem Reads.append (h : Reads file tokens v ms) (h' : Reads file tokens w ns) :
    Reads file tokens (v ++ w) (ms ++ ns) := by
  rw [Reads, List.map_append]
  exact Reduces.append h h'

/-- Tokens that follow one another lie in the text. -/
theorem Lie.of_tokens
    {lo hi : Int}
    (hfollow : Span.Follow file lo (w.map Token.span) hi)
    (hmem : ∀ token ∈ w, token ∈ tokens) :
    Lie file tokens lo (w.map .token) hi := by
  constructor
  · rwa [List.map_map]
  · intro portion hportion
    obtain ⟨token, htoken, rfl⟩ := List.mem_map.mp hportion
    exact hmem token htoken

namespace Leaves

theorem nothing (w : List Token) : Leaves file tokens w [] :=
  .of_sublist (List.nil_sublist _)

theorem append (h : Leaves file tokens v as) (h' : Leaves file tokens w bs) :
    Leaves file tokens (v ++ w) (as ++ bs) := by
  rw [Leaves, List.map_append]
  exact Reads.append h h'

/-- Tokens before a phrase that leave nothing. -/
theorem behind (v : List Token) (h : Leaves file tokens w as) : Leaves file tokens (v ++ w) as :=
  (nothing v).append h

/-- Tokens after a phrase that leave nothing. -/
theorem before (w : List Token) (h : Leaves file tokens v as) : Leaves file tokens (v ++ w) as := by
  have hmore := h.append (nothing w)
  rwa [List.append_nil] at hmore

/-- A phrase that begins with a token is replaced by a node whose span is that of the phrase. -/
theorem node
    {first : Token}
    {a : Node}
    (hfirst : w.head? = some first)
    (hspan : a.span = first.spanTo w)
    (hchildren : Leaves file tokens w a.children)
    (hworded : a.Worded tokens) :
    Leaves file tokens w [a] := by
  obtain ⟨rest, rfl⟩ := List.head?_eq_some_iff.mp hfirst
  refine Reduces.node ?_ hchildren fun _ => hworded
  rw [hspan, List.getLastD_map, Token.spanTo, List.getLastD_cons]
  rfl

/-- A token is replaced by a node that is this token. -/
theorem word
    {first : Token}
    {a : Node}
    (hspan : a.span = first.span)
    (hchildren : a.children = [])
    (hworded : first ∈ tokens → a.Worded tokens) :
    Leaves file tokens [first] [a] := by
  refine Reduces.node ?_ ?_ fun hsound => hworded (hsound _ List.mem_cons_self)
  · rw [hspan]
    exact (Span.merge_self first.span).symm
  · rw [hchildren]
    exact nothing [first]

end Leaves

end Phrases

end Reduction

end Lox
