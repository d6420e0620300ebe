import Lox.Proofs.Printing.Expression

/-!
# Printed lists are read back

Arguments, elements and entries are printed with commas between them and read back one by one, up
to the token that closes the list. All of them begin with a parenthesis, so none is taken for the
end of its list, and no name before a colon is taken for the key of an entry.
-/

namespace Lox

open Parse Relocation Surface
open Lox.Symbol (commas)

section Lists

variable {α : Type} [Relocatable α] {c : Context} {later w : List Token}
variable {test : Parse Bool} {turn : List α → Parse (List α × Bool)} {item : Parse α}
variable {print : α → List Symbol} {closing : Token}

theorem commas_cons_cons (first second : List Symbol) (items : List (List Symbol)) :
    commas (first :: second :: items) = first ++ [.plain .comma] ++ commas (second :: items) := by
  simp [commas, List.intercalate]

theorem alike_of_forall {as bs : List α} (h : List.Forall₂ Alike as bs) : Alike as bs := by
  induction h with
  | nil => rfl
  | cons hab _ ih => exact congrArg₂ List.cons hab ih

/-- An item begins with a parenthesis. -/
def Opens (print : α → List Symbol) : Prop :=
  ∀ a, ∃ rest, print a = .plain .leftParen :: rest

omit [Relocatable α] in
theorem Opens.spelled (h : Opens print) {a : α} (hw : Spelled w (print a)) :
    ∃ opening v, w = opening :: v ∧ opening.kind = .leftParen := by
  obtain ⟨rest, hprint⟩ := h a
  rw [hprint] at hw
  obtain ⟨opening, v, hopening, -, rfl⟩ := List.forall₂_cons_right_iff.mp hw
  exact ⟨opening, v, rfl, hopening⟩

/-- The item is read back before a comma as well as before the token that closes the list. -/
def ReadsBack
    (c : Context)
    (close : TokenKind)
    (print : α → List Symbol)
    (item : Parse α)
    (a : α) :
    Prop :=
  ∀ (w later : List Token) (next : Token),
    Spelled w (print a) → next.kind = .comma ∨ next.kind = close →
      Gives c w (next :: later) item (Alike a)

/-- Items one by one, with as many turns as there are items. -/
theorem gives_items
    (limit : Nat)
    (hopens : Opens print)
    (htest : ∀ (token : Token) (rest : List Token), token.kind = .leftParen →
      Gives c [] (token :: rest) test (· = true))
    (hturn : ∀ done : List α, done.length < limit → turn done = commaTurn item done)
    (hclosing : closing.kind ≠ .comma)
    (x : α)
    (xs : List α)
    (hitem : ∀ a ∈ x :: xs, ReadsBack c closing.kind print item a)
    (left : List Token)
    (done : List α)
    (hleft : xs.length < left.length)
    (hlimit : done.length + xs.length < limit)
    (hw : Spelled w (commas ((x :: xs).map print))) :
    Gives c w (closing :: later) (repeatWhile test turn List.reverse left done) fun as =>
      ∃ new, as = done.reverse ++ new ∧ List.Forall₂ Alike (x :: xs) new := by
  induction xs generalizing x left done w with
  | nil =>
      obtain ⟨_, left, rfl⟩ := List.exists_cons_of_length_pos hleft
      have hw : Spelled w (print x) := by simpa [commas, List.intercalate] using hw
      obtain ⟨opening, v, rfl, hopening⟩ := hopens.spelled hw
      refine .bind_first (htest opening _ hopening) ?_
      rintro _ rfl
      rw [if_pos rfl, hturn done (by simpa using hlimit), commaTurn, bind_assoc]
      refine .bind_last (hitem x (by simp) _ _ _ hw (.inr rfl)) fun a ha => ?_
      rw [bind_assoc]
      refine .bind_last (.accept_other hclosing) ?_
      rintro _ rfl
      exact .pure ⟨[a], by simp, .cons ha .nil⟩
  | cons y ys ih =>
      obtain ⟨_, left, rfl⟩ := List.exists_cons_of_length_pos (Nat.lt_of_le_of_lt (Nat.zero_le _) hleft)
      simp only [List.map_cons, commas_cons_cons, spelled_append, spelled_singleton] at hw
      obtain ⟨_, v, rfl, ⟨u, _, rfl, hu, comma, rfl, hcomma⟩, hv⟩ := hw
      have hcomma : comma.kind = .comma := hcomma
      obtain ⟨opening, u, rfl, hopening⟩ := hopens.spelled hu
      rw [List.append_assoc]
      refine .bind_first (htest opening _ hopening) ?_
      rintro _ rfl
      simp only [List.length_cons] at hleft hlimit
      rw [if_pos rfl, hturn done (by omega), commaTurn, bind_assoc]
      refine .bind (hitem x (by simp) _ _ _ hu (.inl hcomma)) fun a ha => ?_
      rw [bind_assoc]
      refine .bind (.accept hcomma) ?_
      rintro _ rfl
      refine (ih y (fun b hb => hitem b (List.mem_cons_of_mem _ hb)) left (a :: done) (by omega)
        (by simp only [List.length_cons]; omega) hv).mono ?_
      rintro _ ⟨new, rfl, hnew⟩
      exact ⟨a :: new, by simp, .cons ha hnew⟩

omit [Relocatable α] in
/-- There are at least as many tokens as items. -/
theorem length_le_of_commas (hopens : Opens print) {xs : List α}
    (hw : Spelled w (commas (xs.map print))) :
    xs.length ≤ w.length := by
  induction xs generalizing w with
  | nil => exact Nat.zero_le _
  | cons x xs ih =>
      cases xs with
      | nil =>
          have hw : Spelled w (print x) := by simpa [commas, List.intercalate] using hw
          obtain ⟨opening, v, rfl, -⟩ := hopens.spelled hw
          simp
      | cons y ys =>
          simp only [List.map_cons, commas_cons_cons, spelled_append, spelled_singleton] at hw
          obtain ⟨_, v, rfl, ⟨u, _, rfl, -, comma, rfl, -⟩, hv⟩ := hw
          have := ih hv
          simp only [List.length_cons, List.length_append] at this ⊢
          omega

omit [Relocatable α] in
/-- The items of a nonempty list begin with a parenthesis. -/
theorem opening_of_commas (hopens : Opens print) {x : α} {xs : List α}
    (hw : Spelled w (commas ((x :: xs).map print))) :
    ∃ opening v, w = opening :: v ∧ opening.kind = .leftParen := by
  cases xs with
  | nil => exact hopens.spelled (by simpa [commas, List.intercalate] using hw)
  | cons y ys =>
      simp only [List.map_cons, commas_cons_cons, List.append_assoc] at hw
      obtain ⟨u, v, rfl, hu, -⟩ := spelled_append.mp hw
      obtain ⟨opening, u, rfl, hopening⟩ := hopens.spelled hu
      exact ⟨opening, u ++ v, rfl, hopening⟩

theorem gives_parenthesised
    (hopens : Opens print)
    (what : Counted)
    {xs : List α}
    (hitem : ∀ a ∈ xs, ReadsBack c .rightParen print item a)
    (hlength : xs.length ≤ maxArguments)
    (hw : Spelled w (commas (xs.map print)))
    (hclosing : closing.kind = .rightParen) :
    Gives c w (closing :: later) (parenthesised what item) (Alike xs) := by
  cases xs with
  | nil =>
      obtain rfl := List.forall₂_nil_right_iff.mp hw
      refine .check rfl ?_
      rw [hclosing]
      exact .pure rfl
  | cons x xs =>
      obtain ⟨opening, v, hopen, hopening⟩ := opening_of_commas hopens hw
      refine .check (by rw [hopen]; rfl) ?_
      rw [hopening]
      refine .budget fun tokens htokens => ?_
      have hle := length_le_of_commas hopens hw
      rw [countedList_eq]
      refine (gives_items maxArguments hopens (fun _ _ _ => .pure rfl)
        (fun done hdone => ?_) (by rw [hclosing]; decide) x xs (hclosing ▸ hitem) tokens [] ?_
        (by simpa [Nat.succ_le_iff] using hlength) hw).mono ?_
      · rw [countedTurn, if_neg (Nat.not_le_of_lt hdone)]
      · simp only [List.length_append, List.length_cons] at htokens hle
        omega
      · rintro _ ⟨new, rfl, hnew⟩
        exact alike_of_forall hnew

theorem gives_listBefore
    (hopens : Opens print)
    {close : TokenKind}
    (hclose : close ≠ .comma ∧ close ≠ .leftParen)
    {xs : List α}
    (hitem : ∀ a ∈ xs, ReadsBack c close print item a)
    (hw : Spelled w (commas (xs.map print)))
    (hclosing : closing.kind = close)
    {tokens : List Token}
    (htokens : w.length < tokens.length) :
    Gives c w (closing :: later) (listBefore close item tokens []) (Alike xs) := by
  subst hclosing
  cases xs with
  | nil =>
      obtain rfl := List.forall₂_nil_right_iff.mp hw
      obtain ⟨_, tokens, rfl⟩ := List.exists_cons_of_length_pos htokens
      refine .check rfl ?_
      rw [beq_self_eq_true]
      exact .pure rfl
  | cons x xs =>
      have hle := length_le_of_commas hopens hw
      rw [listBefore_eq]
      refine (gives_items (x :: xs).length hopens (fun token rest htoken => ?_) (fun _ _ => rfl)
        hclose.1 x xs hitem tokens [] ?_ (by simp) hw).mono ?_
      · refine .check rfl ?_
        rw [htoken, beq_false_of_ne hclose.2.symm]
        exact .pure rfl
      · simp only [List.length_cons] at hle
        omega
      · rintro _ ⟨new, rfl, hnew⟩
        exact alike_of_forall hnew

end Lists

section Entries

variable {c : Context} {depth : Nat}

theorem opens_expr : Opens Expr.printed :=
  fun _ => ⟨_, rfl⟩

theorem opens_entry : Opens MapEntry.printed := by
  rintro ⟨key, value⟩
  exact ⟨_, rfl⟩

/-- As an item of a list or as an argument an expression is read one level further in. -/
theorem Expr.Readable.item
    {e : Expr}
    (h : e.Readable)
    {close : TokenKind}
    (hroom : Room c depth (2 * e.height + 2))
    (hclose : close = .rightParen ∨ close = .rightBracket ∨ close = .rightBrace) :
    ReadsBack c close Expr.printed (Grammar.ofDepth depth).expression e := by
  intro w later next hw hnext
  have hends : next.kind ≠ .arrow ∧ Level.assignment.endsBefore next.kind = true := by
    rcases hnext with hnext | hnext
    · rw [hnext]
      decide
    · rw [hnext]
      rcases hclose with rfl | rfl | rfl <;> decide
  exact h.nested hroom .assignment Grammar.assignment (fun _ => rfl) hw hends.1 hends.2

/-- A key and its value can be read back. -/
def MapEntry.Readable : MapEntry → Prop
  | .mk key value => key.Readable ∧ value.Readable

theorem MapEntry.Readable.printable {entry : MapEntry} (h : entry.Readable) :
    entry.isPrintable = true := by
  obtain ⟨key, value⟩ := entry
  simp [MapEntry.isPrintable, h.1.printable, h.2.printable]

theorem gives_mapEntry
    {entry : MapEntry}
    (h : entry.Readable)
    (hroom : Room c depth (2 * entry.height + 2)) :
    ReadsBack c .rightBrace MapEntry.printed (mapEntry (.ofDepth depth)) entry := by
  intro w later next hw hnext
  obtain ⟨key, value⟩ := entry
  obtain ⟨hkey, hvalue⟩ := h
  simp only [MapEntry.printed, spelled_append, spelled_singleton] at hw
  obtain ⟨_, vs, rfl, ⟨us, _, rfl, hus, colon, rfl, hcolon⟩, hvs⟩ := hw
  have hcolon : colon.kind = .colon := hcolon
  have hread {later : List Token} : Gives c us (colon :: later) (mapKey (.ofDepth depth))
      (Alike key) := by
    obtain ⟨opening, u, _, rfl, hopening, -⟩ := spelled_enclose.mp hus
    refine .check rfl (.checkNext fun b => ?_)
    rw [hopening]
    exact hkey.nested (hroom.mono (by simp only [MapEntry.height]; omega)) .assignment
      Grammar.assignment (fun _ => rfl) hus (by rw [hcolon]; decide) (by rw [hcolon]; decide)
  rw [List.append_assoc]
  refine .bind hread fun key' hkey' => .bind (.require hcolon) fun _ _ => ?_
  refine .bind_last (hvalue.item (hroom.mono (by simp only [MapEntry.height]; omega))
    (.inr (.inr rfl)) _ _ _ hvs hnext) fun value' hvalue' => .pure ?_
  exact congrArg₂ MapEntry.mk hkey' hvalue'

end Entries

end Lox
