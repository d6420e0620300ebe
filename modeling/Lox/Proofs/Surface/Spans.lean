import Lox.Proofs.Surface.Targets
import Lox.Proofs.Token.Lossless
import Lox.Proofs.Tree.Spans

/-!
# Spans of programs

By induction on the derivation of a phrase, its tokens can be replaced by the nodes that it leaves
(`Expression.leaves` and the theorems beside it, one for every kind of phrase). There are only two ways
in which a node comes by its span: a phrase that begins with a keyword or a bracket covers all of its
tokens, and any other one reaches from its first part to its last, where parentheses around these parts
may be left outside. Either way the parts are inside, in order.

So the nodes of a program are well nested (`Program.spans_nested`): its tokens follow one another in the
text, and so does everything that takes their place.
-/

namespace Lox

namespace Surface

variable {file : Int} {tokens : List Token}

section Derivations

/-- An assignment has the parts of its target and the value. -/
theorem children_of_assignmentTo?
    {target value e : Expr} {span : Span}
    (h : Parse.assignmentTo? target value span = some e) :
    e.span = span ∧ e.children = target.children ++ [.expression value] ∧
      (Node.expression e).Worded tokens := by
  unfold Parse.assignmentTo? at h
  split at h <;> cases h <;> exact ⟨rfl, rfl, trivial⟩

/-- An operation that joins two operands has them as its parts. -/
theorem children_of_operators
    {level : Level} {kind : TokenKind} {join : Parse.Join}
    (h : (kind, join) ∈ level.operators)
    (left right : Expr)
    (span : Span) :
    (join left right span).span = span ∧
      (join left right span).children = [.expression left, .expression right] ∧
      (Node.expression (join left right span)).Worded tokens := by
  have hjoin : (∃ op, join = Parse.joinBinary op) ∨ ∃ op, join = Parse.joinLogical op := by
    cases level <;> simp [Level.operators] at h <;> grind
  obtain ⟨op, rfl⟩ | ⟨op, rfl⟩ := hjoin
  · exact ⟨rfl, rfl, trivial⟩
  · exact ⟨rfl, rfl, trivial⟩

/-- A property, as a value or as a target. -/
theorem reads_property
    {w us : List Token} {object : Expr} {dot : Word .dot} {name : Word .identifier}
    (hw : w = us ++ [dot.1, name.1])
    (h : Leaves file tokens us [.expression object]) :
    Leaves file tokens w
      [.expression (.get object name.1.lexeme (object.span.merge name.1.span))] := by
  subst hw
  refine (Reads.append h ((Reads.token dot.1).append (.token name.1))).trans ?_
  exact .merged rfl (by simp [Node.children, Expr.children, Expr.parts]) trivial

/-- An element, as a value or as a target. -/
theorem reads_element
    {w us vs : List Token}
    {object index : Expr}
    {opening : Word .leftBracket}
    {closing : Word .rightBracket}
    (hw : w = us ++ [opening.1] ++ vs ++ [closing.1])
    (hobject : Leaves file tokens us [.expression object])
    (hindex : Leaves file tokens vs [.expression index]) :
    Leaves file tokens w
      [.expression (.index object index (object.span.merge closing.1.span))] := by
  subst hw
  refine (((Reads.append hobject (.token opening.1)).append hindex).append
    (.token closing.1)).trans ?_
  exact .merged rfl (by simp [Node.children, Expr.children, Expr.parts]) trivial

theorem leaves_superclass {w : List Token} {parent : Option (String × Span)}
    (h : Optional Superclass w parent) :
    Leaves file tokens w
      (parent.toList.map fun parent => .expression (.reference parent.1 parent.2)) := by
  cases h with
  | none => exact .nothing []
  | some h =>
      obtain ⟨less, name⟩ := h
      have hname : Leaves file tokens [name.1]
          [.expression (.reference name.1.lexeme name.1.span)] :=
        .word rfl rfl fun h => ⟨name.1, h, rfl, rfl⟩
      exact hname.behind [less.1]

/- One theorem for every kind of phrase, and one for every kind of repetition in which phrases occur;
the cases are the rules of the grammar. -/
mutual

theorem Expression.leaves {level : Level} {w : List Token} {e : Expr} :
    Expression level w e → Leaves file tokens w [.expression e]
  | .tighter _ h => h.leaves
  | .assign equals hw htarget hvalue hassign => by
      subst hw
      obtain ⟨hspan, hchildren, hworded⟩ := children_of_assignmentTo? hassign
      refine ((Reads.append htarget.leaves (.token equals.1)).append hvalue.leaves).trans ?_
      refine .node hspan ?_ fun _ => hworded
      rw [Node.children, hchildren, List.map_append]
      exact (Reduces.children _).append (.of_sublist (List.sublist_cons_self ..))
  | .conditional question colon hw hc ht he => by
      subst hw
      refine ((((Reads.append hc.leaves (.token question.1)).append ht.leaves).append
        (.token colon.1)).append he.leaves).trans ?_
      exact .merged rfl (by simp [Node.children, Expr.children, Expr.parts]) trivial
  | @Expression.joined _ _ _ _ _ left right join op _ hop hw hleft hright => by
      subst hw
      obtain ⟨hspan, hchildren, hworded⟩ := children_of_operators hop _ _ _
      refine ((Reads.append hleft.leaves (.token op)).append hright.leaves).trans ?_
      exact .merged hspan (by simp [Node.children, hchildren]) hworded
  | .unary sign _ hw h => by
      subst hw
      refine ((Reads.token sign).append h.leaves).trans ?_
      exact .merged rfl (by simp [Node.children, Expr.children, Expr.parts]) trivial
  | .power op hw hbase hexponent => by
      subst hw
      refine ((Reads.append hbase.leaves (.token op.1)).append hexponent.leaves).trans ?_
      exact .merged rfl (by simp [Node.children, Expr.children, Expr.parts]) trivial
  | @Expression.call _ _ _ callee arguments opening closing hw hcallee harguments => by
      subst hw
      refine (((Reads.append hcallee.leaves (.token opening.1)).append
        (leaves_enumerated harguments)).append (.token closing.1)).trans ?_
      refine .merged ?_ (by simp [Node.children, Expr.children, Expr.parts]) trivial
      show _ = Span.merge _ (List.getLastD (_ ++ [Portion.token closing.1]) _).span
      rw [List.getLastD_concat]
      rfl
  | .property dot name hw h => reads_property hw h.leaves
  | .element opening closing hw hobject hindex => reads_element hw hobject.leaves hindex.leaves
  | .literal token _ => .word rfl rfl fun h => ⟨token, h, rfl⟩
  | .name name => .word rfl rfl fun h => ⟨name.1, h, rfl, rfl⟩
  | .this keyword => .word rfl rfl fun h => ⟨keyword.1, h, rfl⟩
  | .super _ _ _ hw => by
      subst hw
      exact .node rfl rfl (.nothing _) trivial
  | .group opening closing hw h => by
      subst hw
      exact (h.leaves.behind [opening.1]).before [closing.1]
  | .list opening closing hw h => by
      subst hw
      exact .node rfl rfl (((leaves_listed h).behind [opening.1]).before [closing.1]) trivial
  | .map opening closing hw h => by
      subst hw
      exact .node rfl rfl (((leaves_entries h).behind [opening.1]).before [closing.1]) trivial
  | .function keyword hw h => by
      subst hw
      exact .node rfl rfl (h.leaves.behind [keyword.1]) trivial
  | .arrow opening closing arrow hw _ h => by
      subst hw
      exact .node rfl rfl (h.leaves.behind _) trivial

theorem Target.leaves {w : List Token} {e : Expr} :
    Target w e → Leaves file tokens w [.expression e]
  | .name name => .word rfl rfl fun h => ⟨name.1, h, rfl, rfl⟩
  | .property dot name hw h => reads_property hw h.leaves
  | .element opening closing hw hobject hindex => reads_element hw hobject.leaves hindex.leaves
  | .group opening closing hw h => by
      subst hw
      exact (h.leaves.behind [opening.1]).before [closing.1]

theorem Entry.leaves {w : List Token} {entry : MapEntry} :
    Entry w entry → Leaves file tokens w (entry.parts.map .expression)
  | .name key colon hw h => by
      subst hw
      have hkey : Leaves file tokens [key.1]
          [.expression (.literal (.string key.1.lexeme) key.1.span)] :=
        .word rfl rfl fun h => ⟨key.1, h, rfl⟩
      exact (hkey.before [colon.1]).append h.leaves
  | .key colon hw hkey _ hvalue => by
      subst hw
      exact (hkey.leaves.before [colon.1]).append hvalue.leaves

theorem ArrowBody.leaves {w : List Token} {body : List Stmt} :
    ArrowBody w body → Leaves file tokens w (body.map .statement)
  | .block h => h.leaves
  | .expression h => by
      -- the statement that returns the value has the span of the value
      refine h.leaves.trans (.merged ?_ (.refl _) trivial)
      exact (Span.merge_self _).symm

theorem FunctionRest.leaves {w : List Token} {rest : List String × List Stmt} :
    FunctionRest w rest → Leaves file tokens w (rest.2.map .statement)
  | .mk opening closing hw _ h => by
      subst hw
      exact h.leaves.behind _

theorem Block.leaves {w : List Token} {body : List Stmt} :
    Block w body → Leaves file tokens w (body.map .statement)
  | .mk opening closing hw h => by
      subst hw
      exact ((leaves_declarations h).behind [opening.1]).before [closing.1]

theorem ExpressionStatement.leaves {w : List Token} {s : Stmt} :
    ExpressionStatement w s → Leaves file tokens w [.statement s]
  | .mk semicolon hw h => by
      subst hw
      refine (Reads.append h.leaves (.token semicolon.1)).trans ?_
      exact .merged rfl (by simp [Node.children, Stmt.children]) trivial

theorem ForInitial.leaves {w : List Token} {initial : Option Stmt} :
    ForInitial w initial → Leaves file tokens w (initial.toList.map .statement)
  | .none semicolon => .nothing _
  | .var h => h.leaves
  | .expression h => h.leaves

theorem Catch.leaves {w : List Token} {handler : CatchClause} :
    Catch w handler → Leaves file tokens w (handler.body.map .statement)
  | .mk keyword opening name closing hw h => by
      subst hw
      exact h.leaves.behind _

theorem Finally.leaves {w : List Token} {cleanup : List Stmt} :
    Finally w cleanup → Leaves file tokens w (cleanup.map .statement)
  | .mk keyword hw h => by
      subst hw
      exact h.leaves.behind _

theorem Statement.leaves {w : List Token} {s : Stmt} :
    Statement w s → Leaves file tokens w [.statement s]
  | .expression h => h.leaves
  | .print keyword semicolon hw h => by
      subst hw
      exact .node rfl rfl ((h.leaves.behind _).before _) trivial
  | .block opening hw h => .node (hw ▸ rfl) rfl h.leaves trivial
  | .ifThen keyword opening closing hw hc ht => by
      subst hw
      exact .node rfl rfl (((hc.leaves.behind _).before _).append ht.leaves) trivial
  | .ifElse keyword opening closing otherwise hw hc ht _ he => by
      subst hw
      have hbranches :=
        ((hc.leaves.behind [keyword.1, opening.1]).before [closing.1]).append ht.leaves
      exact .node rfl rfl ((hbranches.before _).append he.leaves) trivial
  | .whileLoop keyword opening closing hw hc h => by
      subst hw
      exact .node rfl rfl (((hc.leaves.behind _).before _).append h.leaves) trivial
  | .doWhile keyword whileWord opening closing semicolon hw h hc => by
      subst hw
      have hbody := (h.leaves.behind [keyword.1]).before [whileWord.1, opening.1]
      exact .node rfl rfl ((hbody.append hc.leaves).before _) trivial
  | .forLoop keyword opening semicolon closing hw hinitial hc hincrement h => by
      subst hw
      have hinitial := hinitial.leaves.behind [keyword.1, opening.1]
      have hclauses := (hinitial.append (leaves_optional hc)).before [semicolon.1]
      exact .node rfl rfl (((hclauses.append (leaves_optional hincrement)).before _).append h.leaves)
        trivial
  | .breakLoop _ _ hw => by
      subst hw
      exact .node rfl rfl (.nothing _) trivial
  | .continueLoop _ _ hw => by
      subst hw
      exact .node rfl rfl (.nothing _) trivial
  | .returnValue keyword semicolon hw h => by
      subst hw
      exact .node rfl rfl (((leaves_optional h).behind _).before _) trivial
  | .tryBlock keyword hw h hhandler hcleanup _ => by
      subst hw
      have hbodies := (h.leaves.behind [keyword.1]).append (leaves_handler hhandler)
      exact .node rfl rfl (hbodies.append (leaves_cleanup hcleanup)) trivial
  | .throwValue keyword semicolon hw h => by
      subst hw
      exact .node rfl rfl ((h.leaves.behind _).before _) trivial
  | .dump _ _ hw => by
      subst hw
      exact .node rfl rfl (.nothing _) trivial

theorem VarDeclaration.leaves {w : List Token} {s : Stmt} :
    VarDeclaration w s → Leaves file tokens w [.statement s]
  | .bare _ _ _ hw => by
      subst hw
      exact .node rfl rfl (.nothing _) trivial
  | .initialized keyword name equals semicolon hw h => by
      subst hw
      exact .node rfl rfl ((h.leaves.behind _).before _) trivial

theorem Method.leaves {w : List Token} {d : FunctionDecl} :
    Method w d → Leaves file tokens w [.statement (.function d)]
  | .mk name hw h => by
      subst hw
      exact .node rfl rfl (h.leaves.behind [name.1]) trivial

theorem Declaration.leaves {w : List Token} {s : Stmt} :
    Declaration w s → Leaves file tokens w [.statement s]
  | .statement h => h.leaves
  | .var h => h.leaves
  | .const keyword name equals semicolon hw h => by
      subst hw
      exact .node rfl rfl ((h.leaves.behind _).before _) trivial
  | .function keyword name hw h => by
      subst hw
      exact .node rfl rfl (h.leaves.behind _) trivial
  | .classDecl keyword name opening closing hw hparent hmethods => by
      subst hw
      have hparent : Leaves file tokens _ _ := leaves_superclass hparent
      have hhead := (hparent.behind [keyword.1, name.1]).before [opening.1]
      exact .node rfl rfl ((hhead.append (leaves_methods hmethods)).before _) trivial

theorem leaves_declarations {w : List Token} {statements : List Stmt} :
    Many Declaration w statements → Leaves file tokens w (statements.map .statement)
  | .nil => .nothing []
  | .cons h hrest => h.leaves.append (leaves_declarations hrest)

theorem leaves_methods {w : List Token} {methods : List FunctionDecl} :
    Many Method w methods →
      Leaves file tokens w (methods.map fun d => .statement (.function d))
  | .nil => .nothing []
  | .cons h hrest => h.leaves.append (leaves_methods hrest)

theorem leaves_optional {w : List Token} {e : Option Expr} :
    Optional (Expression .assignment) w e → Leaves file tokens w (e.toList.map .expression)
  | .none => .nothing []
  | .some h => h.leaves

theorem leaves_handler {w : List Token} {handler : Option CatchClause} :
    Optional Catch w handler →
      Leaves file tokens w ((handler.toList.flatMap CatchClause.body).map .statement)
  | .none => .nothing []
  | @Optional.some _ _ _ handler h => by
      rw [Option.toList_some, List.flatMap_singleton]
      exact h.leaves

theorem leaves_cleanup {w : List Token} {cleanup : Option (List Stmt)} :
    Optional Finally w cleanup → Leaves file tokens w (cleanup.toList.flatten.map .statement)
  | .none => .nothing []
  | .some h => by
      rw [Option.toList_some, List.flatten_singleton]
      exact h.leaves

theorem leaves_separated {w : List Token} {es : List Expr} :
    Separated (Expression .assignment) w es → Leaves file tokens w (es.map .expression)
  | .one h => h.leaves
  | .cons comma h hrest => (h.leaves.before [comma.1]).append (leaves_separated hrest)

theorem leaves_enumerated {w : List Token} {es : List Expr} :
    Enumerated (Expression .assignment) w es → Leaves file tokens w (es.map .expression)
  | .none => .nothing []
  | .some h => leaves_separated h

theorem leaves_listed {w : List Token} {es : List Expr} :
    Listed (Expression .assignment) w es → Leaves file tokens w (es.map .expression)
  | .none => .nothing []
  | .some h => leaves_separated h
  | .comma comma h => (leaves_separated h).before [comma.1]

theorem leaves_separatedEntries {w : List Token} {entries : List MapEntry} :
    Separated Entry w entries →
      Leaves file tokens w ((entries.flatMap MapEntry.parts).map .expression)
  | .one h => by
      rw [List.flatMap_singleton]
      exact h.leaves
  | .cons comma h hrest => by
      rw [List.flatMap_cons, List.map_append]
      exact (h.leaves.before [comma.1]).append (leaves_separatedEntries hrest)

theorem leaves_entries {w : List Token} {entries : List MapEntry} :
    Listed Entry w entries →
      Leaves file tokens w ((entries.flatMap MapEntry.parts).map .expression)
  | .none => .nothing []
  | .some h => leaves_separatedEntries h
  | .comma comma h => (leaves_separatedEntries h).before [comma.1]

end

end Derivations

end Surface

section Programs

variable {file : Nat} {text : List Char}

/-- A token that is read from a text covers its own characters. -/
theorem Token.slice_of_segment
    {token : Token}
    (h : .ok token ∈ (segments text).filterMap (·.event? file)) :
    token.span.Covers file text.length ∧ token.span.slice text = token.lexeme.toList := by
  obtain ⟨segment, hsegment, hevent⟩ := List.mem_filterMap.mp h
  obtain ⟨before, after, hsplit⟩ := List.append_of_mem hsegment
  have hcut : Cut 0 Position.first text (segments text) := Cut.of_text text 0 Position.first
  obtain ⟨hnonempty, hoffset, hyields⟩ := hcut.accounted [] rfl file hsplit
  have htoken : segment.token? file = some token := by rw [Segment.token?, hevent]; rfl
  have htext : text = before.flatMap (·.chars) ++ (segment.chars ++ after.flatMap (·.chars)) := by
    rw [← hcut.flatMap_chars, hsplit, List.flatMap_append, List.flatMap_cons]
  rw [htoken] at hyields
  generalize segment.error? file = e at hyields
  cases hyields with
  | token _ hlexeme hspan =>
      have hpos : 0 < segment.chars.length := List.length_pos_of_ne_nil hnonempty
      have hlength := congrArg List.length htext
      simp only [List.nil_append] at hoffset
      simp only [List.length_append] at hlength
      rw [hspan, hlexeme, String.toList_ofList]
      constructor
      · constructor
        · rfl
        · exact Int.natCast_nonneg _
        · simp only [Span.ofLength]
          omega
        · simp only [Span.ofLength]
          omega
      · have hstart : (Span.ofLength file segment.offset segment.chars.length).start.toNat =
            (before.flatMap (·.chars)).length := by
          simp only [Span.ofLength]
          omega
        have hsize : ((Span.ofLength file segment.offset segment.chars.length).stop -
            (Span.ofLength file segment.offset segment.chars.length).start).toNat =
              segment.chars.length := by
          simp only [Span.ofLength]
          omega
        rw [Span.slice, hstart, hsize, htext, List.drop_left, List.take_left]

/-- The tokens before the end token follow one another. -/
theorem follow_of_scanEvents
    {tokens : List Token}
    (h : scanEvents file text = tokens.map .ok) :
    (∀ token ∈ tokens.dropLast, token.span.slice text = token.lexeme.toList) ∧
      Span.Follow file 0 (tokens.dropLast.map Token.span) text.length := by
  have hsegments : (segments text).filterMap (·.event? file) = tokens.dropLast.map .ok := by
    have hends := h
    rw [tokens_eq_concat h, List.map_append, scanEvents] at hends
    exact List.append_cancel_right hends
  have hcovers : ∀ token ∈ tokens.dropLast,
      token.span.Covers file text.length ∧ token.span.slice text = token.lexeme.toList :=
    fun token htoken => Token.slice_of_segment (hsegments ▸ List.mem_map_of_mem htoken)
  have hordered : tokens.dropLast.Pairwise fun a b => a.span.stop ≤ b.span.start := by
    have hpairwise := scanEvents_ordered file text
    rw [h] at hpairwise
    refine (List.pairwise_map.mp hpairwise).sublist (List.dropLast_sublist _) |>.imp ?_
    exact fun hab => hab.token_le _ rfl
  constructor
  · exact fun token htoken => (hcovers token htoken).2
  · refine Span.Follow.of_increasing (List.pairwise_map.mpr hordered) ?_ (Int.natCast_nonneg _)
    intro span hspan
    obtain ⟨token, htoken, rfl⟩ := List.mem_map.mp hspan
    obtain ⟨⟨hfile, hstart, hlt, hstop⟩, -⟩ := hcovers token htoken
    exact ⟨hfile, hstart, hlt, hstop⟩

/-- In the text, a name stands where its node is, and at every other node that is one word the lexeme
of a token. -/
def Node.Shown (text : List Char) (tokens : List Token) : Node → Prop
  | expression (.reference name span) => span.slice text = name.toList
  | expression (.literal _ span) | expression (.this span) =>
      ∃ token ∈ tokens, token.span = span ∧ span.slice text = token.lexeme.toList
  | _ => True

theorem Node.Worded.shown
    {tokens : List Token}
    {a : Node}
    (h : a.Worded tokens.dropLast)
    (hslice : ∀ token ∈ tokens.dropLast, token.span.slice text = token.lexeme.toList) :
    a.Shown text tokens := by
  have hword {span : Span} (h : ∃ token ∈ tokens.dropLast, token.span = span) :
      ∃ token ∈ tokens, token.span = span ∧ span.slice text = token.lexeme.toList := by
    obtain ⟨token, htoken, rfl⟩ := h
    exact ⟨token, List.dropLast_subset _ htoken, rfl, hslice token htoken⟩
  cases a with
  | statement s => trivial
  | expression e =>
      cases e with
      | reference name span =>
          obtain ⟨token, htoken, rfl, rfl⟩ := h
          exact hslice token htoken
      | literal value span => exact hword h
      | this span => exact hword h
      | _ => trivial

/-- The statements of a program follow one another in the text, and every tree fits. -/
theorem Program.follow_of_ofText
    {collectAll : Bool}
    {program : Program}
    (h : Program.ofText file text collectAll = .ok program) :
    ∃ tokens, Scan.tokenize file text collectAll = .ok tokens ∧
      (∀ token ∈ tokens.dropLast, token.span.slice text = token.lexeme.toList) ∧
      Span.Follow file 0 (program.statements.map Stmt.span) text.length ∧
      ∀ s ∈ program.statements, (Node.statement s).FitThroughout file tokens.dropLast := by
  obtain ⟨tokens, hevents, htokens⟩ := Program.ofText_eq_ok.mp h
  obtain ⟨hslice, hfollow⟩ := follow_of_scanEvents hevents
  have hread : Leaves file tokens.dropLast tokens.dropLast (program.statements.map .statement) :=
    Surface.leaves_declarations (Program.declarations_of_ofTokens hevents htokens)
  obtain ⟨hstatements, hsound⟩ := hread 0 text.length (.of_tokens hfollow fun _ htoken => htoken)
  rw [List.map_map, List.map_map] at hstatements
  refine ⟨tokens, Scan.tokenize_eq_ok.mpr hevents, hslice, hstatements, fun s hs => ?_⟩
  exact hsound (.node (.statement s)) (List.mem_map_of_mem (List.mem_map_of_mem hs))

theorem Program.span?_cons (first : Stmt) (rest : List Stmt) :
    Program.span? ⟨first :: rest⟩ =
      some (first.span.merge ((rest.map Stmt.span).getLastD first.span)) := by
  rw [Program.span?, List.head?_cons, List.getLast?_cons, List.getLastD_map,
    List.getLastD_eq_getLast?]

/-- **Spans are well nested.** Whenever a text is read as a program, a program without statements has no
span, and one with statements has a span that is not empty, lies in the text and has the spans of the
statements inside, one behind the other. The same is true of every node of the program with what stands
directly inside it, from left to right. And in the text, every use of a variable is its name, and every
literal and every `this` is the lexeme of one of the tokens. -/
theorem Program.spans_nested
    {collectAll : Bool}
    {program : Program}
    (h : Program.ofText file text collectAll = .ok program) :
    (program.span? = none ↔ program.statements = []) ∧
      (∀ span ∈ program.span?,
        span.Covers file text.length ∧ span.Nests (program.statements.map Stmt.span)) ∧
      ∃ tokens, Scan.tokenize file text collectAll = .ok tokens ∧
        ∀ s ∈ program.statements, ∀ a, (Node.statement s).Has a →
          a.span.Covers file text.length ∧ a.span.Nests (a.children.map Node.span) ∧
            a.Shown text tokens := by
  obtain ⟨tokens, htokens, hslice, hfollow, hfit⟩ := Program.follow_of_ofText h
  obtain ⟨statements⟩ := program
  refine ⟨?_, fun span hspan => ?_, tokens, htokens, fun s hs a ha => ?_⟩
  · cases statements with
    | nil => exact iff_of_true rfl rfl
    | cons first rest => simp [Program.span?_cons]
  · cases statements with
    | nil => cases hspan
    | cons first rest =>
        obtain rfl : first.span.merge ((rest.map Stmt.span).getLastD first.span) = span := by
          rwa [Program.span?_cons, Option.mem_some_iff] at hspan
        obtain ⟨⟨hfile, hstart, hlt, hstop⟩, hinner⟩ := Span.Follow.merge hfollow
        exact ⟨⟨hfile, hstart, hlt, hstop⟩, hinner.nests⟩
  · obtain ⟨-, hstart, -, hstop⟩ := hfollow.between s.span (List.mem_map_of_mem hs)
    obtain ⟨hleft, hright⟩ := ha.within (hfit s hs)
    obtain ⟨hfile, hlt, hchildren, hworded⟩ := hfit s hs a ha
    exact ⟨⟨hfile, Int.le_trans hstart hleft, hlt, Int.le_trans hright hstop⟩, hchildren.nests,
      hworded.shown hslice⟩

/-- A program with parentheses that leave no trace, and with a superclass and a method. -/
theorem Program.spans_nested_class :
    ∃ program, Program.ofText 1
        "var a = (f)(1)[(b).c];\nclass B < A \x7b m() \x7b return this; \x7d \x7d".toList true =
          .ok program ∧
      ∃ tokens, Scan.tokenize 1
          "var a = (f)(1)[(b).c];\nclass B < A \x7b m() \x7b return this; \x7d \x7d".toList true =
            .ok tokens ∧
        ∀ s ∈ program.statements, ∀ a, (Node.statement s).Has a →
          a.span.Covers 1 59 ∧ a.span.Nests (a.children.map Node.span) := by
  obtain ⟨program, hprogram⟩ : ∃ program, Program.ofText 1
      "var a = (f)(1)[(b).c];\nclass B < A \x7b m() \x7b return this; \x7d \x7d".toList true =
        .ok program :=
    Program.exists_of_isOk (by decide +kernel)
  obtain ⟨-, -, tokens, htokens, hnodes⟩ := Program.spans_nested hprogram
  refine ⟨program, hprogram, tokens, htokens, fun s hs a ha => ?_⟩
  obtain ⟨hcovers, hnests, -⟩ := hnodes s hs a ha
  exact ⟨hcovers, hnests⟩

end Programs

end Lox
