import Lox.Proofs.Token.Events
import Mathlib.Algebra.Group.Nat.Even
import Mathlib.Data.List.DropRight

/-!
# What stands between quotes

The body of a string literal ends at the first quote that an even number of backslashes stands
before, since a backslash always belongs to the character behind it. A body in which every backslash
and every quote has a backslash of its own (`escape`) is therefore read to its end, and it stands for
the text that it was made of. The literal that begins a source is read up to the first such quote;
there is none if and only if the literal is reported as not ended (`quotation_exact`).
-/

namespace Lox

namespace Piece

section Bodies

/-- The text with a backslash before every backslash and before every quote. -/
def escape (quote : Char) (text : List Char) : List Char :=
  text.flatMap fun c => if c = '\\' ∨ c = quote then ['\\', c] else [c]

/-- The characters that a body stands for. -/
def decode : List Char → List Char
  | '\\' :: c :: rest => unescape c ++ decode rest
  | c :: rest => c :: decode rest
  | [] => []

theorem decode_cons {c : Char} (hc : c ≠ '\\') (rest : List Char) :
    decode (c :: rest) = c :: decode rest := by
  rw [decode]
  intro d later hbackslash
  exact absurd hbackslash hc

/-- The number of backslashes at the end of a text. -/
def trailingBackslashes (text : List Char) : Nat :=
  (text.rtakeWhile (· = '\\')).length

/-- At this index there is a quote, and an even number of backslashes before it. -/
def Closes (quote : Char) (rest : List Char) (i : Nat) : Prop :=
  rest[i]? = some quote ∧ Even (trailingBackslashes (rest.take i))

instance (quote : Char) (rest : List Char) (i : Nat) : Decidable (Closes quote rest i) :=
  inferInstanceAs (Decidable (_ ∧ _))

/-- The quote at this index is the first one to close the literal. -/
def ClosesFirst (quote : Char) (rest : List Char) (i : Nat) : Prop :=
  Closes quote rest i ∧ ∀ j < i, ¬Closes quote rest j

instance (quote : Char) (rest : List Char) (i : Nat) : Decidable (ClosesFirst quote rest i) :=
  inferInstanceAs (Decidable (_ ∧ _))

theorem ClosesFirst.unique
    {quote : Char}
    {rest : List Char}
    {i j : Nat}
    (hi : ClosesFirst quote rest i)
    (hj : ClosesFirst quote rest j) :
    i = j := by
  rcases Nat.lt_trichotomy i j with hlt | heq | hlt
  · exact absurd hi.1 (hj.2 i hlt)
  · exact heq
  · exact absurd hj.1 (hi.2 j hlt)

end Bodies

section Closing

variable {quote c : Char} {rest : List Char} {i : Nat}

theorem trailingBackslashes_append (before text : List Char) :
    trailingBackslashes (before ++ text) =
      if trailingBackslashes text = text.length then
        trailingBackslashes before + text.length
      else
        trailingBackslashes text := by
  simp only [trailingBackslashes, List.rtakeWhile, List.reverse_append, List.takeWhile_append,
    List.length_reverse]
  split
  · simp [Nat.add_comm]
  · rfl

theorem trailingBackslashes_cons (hc : c ≠ '\\') (text : List Char) :
    trailingBackslashes (c :: text) = trailingBackslashes text := by
  have hone : trailingBackslashes [c] = 0 := by simp [trailingBackslashes, List.rtakeWhile, hc]
  have happend := trailingBackslashes_append [c] text
  rw [hone] at happend
  rw [← List.singleton_append, happend]
  split <;> omega

/-- A backslash and the character that it belongs to do not change whether the number is even. -/
theorem even_trailingBackslashes_escaped (d : Char) (text : List Char) :
    Even (trailingBackslashes ('\\' :: d :: text)) ↔ Even (trailingBackslashes text) := by
  have htwo : Even (trailingBackslashes ['\\', d]) := by
    by_cases hd : d = '\\'
    · subst hd
      decide
    · simp [trailingBackslashes, List.rtakeWhile, hd]
  have happend := trailingBackslashes_append ['\\', d] text
  have hcons : '\\' :: d :: text = ['\\', d] ++ text := rfl
  rw [hcons, happend]
  split
  · next hall => simp [hall, Nat.even_add, htwo]
  · rfl

theorem closes_zero : Closes quote (quote :: rest) 0 :=
  ⟨rfl, by simp [trailingBackslashes, List.rtakeWhile]⟩

theorem closes_plain (hc : c ≠ '\\') : Closes quote (c :: rest) (i + 1) ↔ Closes quote rest i := by
  unfold Closes
  rw [List.getElem?_cons_succ, List.take_succ_cons, trailingBackslashes_cons hc]

theorem closes_escaped {d : Char} :
    Closes quote ('\\' :: d :: rest) (i + 2) ↔ Closes quote rest i := by
  unfold Closes
  rw [List.getElem?_cons_succ, List.getElem?_cons_succ, List.take_succ_cons, List.take_succ_cons,
    even_trailingBackslashes_escaped]

theorem not_closes_zero (hc : c ≠ quote) : ¬Closes quote (c :: rest) 0 := by
  rintro ⟨hquote, -⟩
  exact hc (Option.some.inj hquote)

theorem not_closes_one {d : Char} : ¬Closes quote ('\\' :: d :: rest) 1 := by
  rintro ⟨-, heven⟩
  have hodd : trailingBackslashes (('\\' :: d :: rest).take 1) = 1 := rfl
  rw [hodd] at heven
  exact absurd heven (by decide)

theorem ClosesFirst.zero : ClosesFirst quote (quote :: rest) 0 :=
  ⟨closes_zero, nofun⟩

theorem ClosesFirst.plain
    (hquote : c ≠ quote)
    (hc : c ≠ '\\')
    (h : ClosesFirst quote rest i) :
    ClosesFirst quote (c :: rest) (i + 1) := by
  constructor
  · exact (closes_plain hc).mpr h.1
  · intro j hj
    cases j with
    | zero => exact not_closes_zero hquote
    | succ j => exact fun hcloses => h.2 j (by omega) ((closes_plain hc).mp hcloses)

theorem ClosesFirst.escaped
    {d : Char}
    (hquote : '\\' ≠ quote)
    (h : ClosesFirst quote rest i) :
    ClosesFirst quote ('\\' :: d :: rest) (i + 2) := by
  constructor
  · exact closes_escaped.mpr h.1
  · intro j hj
    match j with
    | 0 => exact not_closes_zero hquote
    | 1 => exact not_closes_one
    | j + 2 => exact fun hcloses => h.2 j (by omega) (closes_escaped.mp hcloses)

theorem not_closes_plain
    (hquote : c ≠ quote)
    (hc : c ≠ '\\')
    (h : ∀ i, ¬Closes quote rest i)
    (i : Nat) :
    ¬Closes quote (c :: rest) i := by
  cases i with
  | zero => exact not_closes_zero hquote
  | succ i => exact fun hcloses => h i ((closes_plain hc).mp hcloses)

theorem not_closes_escaped
    {d : Char}
    (hquote : '\\' ≠ quote)
    (h : ∀ i, ¬Closes quote rest i)
    (i : Nat) :
    ¬Closes quote ('\\' :: d :: rest) i := by
  match i with
  | 0 => exact not_closes_zero hquote
  | 1 => exact not_closes_one
  | i + 2 => exact fun hcloses => h i (closes_escaped.mp hcloses)

theorem not_closes_last (hquote : c ≠ quote) (i : Nat) : ¬Closes quote [c] i := by
  cases i with
  | zero => exact not_closes_zero hquote
  | succ i => exact fun hcloses => by simpa using hcloses.1

end Closing

section Reading

variable {quote : Char}

/-- What is read of a body: it ends at the first quote that closes it, or nothing closes it. -/
theorem readStringBody_cases
    (rest decoded : List Char)
    (taken : Nat) :
    (∃ i, ClosesFirst quote rest i ∧
      readStringBody quote rest decoded taken =
        (.token .string (some (.string
          (String.ofList (decoded.reverse ++ decode (rest.take i))))), taken + i + 1)) ∨
    ((∀ i, ¬Closes quote rest i) ∧
      readStringBody quote rest decoded taken =
        (.fault .unterminatedString, taken + rest.length)) := by
  fun_induction readStringBody quote rest decoded taken with
  | case1 decoded taken => exact .inr ⟨fun i h => by simpa using h.1, rfl⟩
  | case2 decoded taken => exact .inl ⟨0, .zero, by simp [decode]⟩
  | case3 decoded taken c hne => exact .inr ⟨not_closes_last hne, rfl⟩
  | case4 decoded taken d rest => exact .inl ⟨0, .zero, by simp [decode]⟩
  | case5 d rest decoded taken hne ih =>
      rcases ih with ⟨i, hfirst, hread⟩ | ⟨hnone, hread⟩
      · have htext : ((unescape d).reverse ++ decoded).reverse ++ decode (rest.take i) =
            decoded.reverse ++ decode (('\\' :: d :: rest).take (i + 2)) := by
          simp [decode]
        have hlength : taken + 2 + i + 1 = taken + (i + 2) + 1 := by omega
        exact .inl ⟨i + 2, hfirst.escaped hne, by rw [hread, htext, hlength]⟩
      · have hlength : taken + 2 + rest.length = taken + ('\\' :: d :: rest).length := by
          simp only [List.length_cons]
          omega
        exact .inr ⟨not_closes_escaped hne hnone, by rw [hread, hlength]⟩
  | case6 c d rest decoded taken hne hc ih =>
      rcases ih with ⟨i, hfirst, hread⟩ | ⟨hnone, hread⟩
      · have htext : (c :: decoded).reverse ++ decode ((d :: rest).take i) =
            decoded.reverse ++ decode ((c :: d :: rest).take (i + 1)) := by
          simp [decode_cons hc]
        have hlength : taken + 1 + i + 1 = taken + (i + 1) + 1 := by omega
        exact .inl ⟨i + 1, hfirst.plain hne hc, by rw [hread, htext, hlength]⟩
      · have hlength : taken + 1 + (d :: rest).length = taken + (c :: d :: rest).length := by
          simp only [List.length_cons]
          omega
        exact .inr ⟨not_closes_plain hne hc hnone, by rw [hread, hlength]⟩

theorem unescape_self {c : Char} (h : c = '\\' ∨ c = '"' ∨ c = '\'') : unescape c = [c] := by
  rcases h with rfl | rfl | rfl <;> rfl

/-- An escaped text is a body that ends at the quote behind it and stands for the text. -/
theorem escape_read
    (hquote : quote = '"' ∨ quote = '\'')
    (text : List Char) :
    ClosesFirst quote (escape quote text ++ [quote]) (escape quote text).length ∧
      decode (escape quote text) = text := by
  have hne : '\\' ≠ quote := by
    rcases hquote with rfl | rfl <;> decide
  induction text with
  | nil => exact ⟨.zero, rfl⟩
  | cons c text ih =>
      obtain ⟨hfirst, hdecode⟩ := ih
      by_cases hescape : c = '\\' ∨ c = quote
      · have hcons : escape quote (c :: text) = '\\' :: c :: escape quote text := by
          simp [escape, hescape]
        have hself : unescape c = [c] := unescape_self <| by
          rcases hescape with rfl | rfl
          · exact .inl rfl
          · exact .inr hquote
        rw [hcons]
        constructor
        · exact hfirst.escaped hne
        · rw [decode, hself, hdecode, List.singleton_append]
      · have hcons : escape quote (c :: text) = c :: escape quote text := by
          simp [escape, hescape]
        obtain ⟨hbackslash, hc⟩ := not_or.mp hescape
        rw [hcons]
        constructor
        · exact hfirst.plain hc hbackslash
        · rw [decode_cons hbackslash, hdecode]

end Reading

end Piece

section Literals

open Piece

/-- The token of the literal that begins a source, with the given body and the text that it stands
for. -/
def leadingString (file : Nat) (quote : Char) (body text : List Char) : Token where
  kind := .string
  lexeme := String.ofList (quote :: (body ++ [quote]))
  literal := some (.string (String.ofList text))
  position := Position.first
  span := .ofLength file 0 (body.length + 2)

/-- The first segment of a text comes before the segments of the rest. -/
theorem segments_cons
    {c : Char}
    {taken rest : List Char}
    {piece : Piece}
    (hread : Piece.read c (taken ++ rest) = (piece, taken.length)) :
    segments (c :: (taken ++ rest)) =
      ⟨0, Position.first, c :: taken, piece⟩ ::
        cutSegments rest 0 (0 + 1 + taken.length) (Position.first.after (c :: taken)) [] :=
  (Cut.of_text _ 0 Position.first).unique (.cons hread (.of_text rest _ _))

variable {file : Nat} {quote : Char} {rest : List Char}

theorem read_quote (hquote : quote = '"' ∨ quote = '\'') :
    Piece.read quote rest = readStringBody quote rest [] 0 := by
  rcases hquote with rfl | rfl <;> rfl

/-- A literal that is closed is a segment. -/
theorem segments_of_closesFirst
    (hquote : quote = '"' ∨ quote = '\'')
    {body after : List Char}
    (h : ClosesFirst quote (body ++ quote :: after) body.length) :
    segments (quote :: (body ++ quote :: after)) =
      ⟨0, Position.first, quote :: (body ++ [quote]),
        .token .string (some (.string (String.ofList (decode body))))⟩ ::
        cutSegments after 0 (0 + 1 + (body ++ [quote]).length)
          (Position.first.after (quote :: (body ++ [quote]))) [] := by
  have hsplit : body ++ quote :: after = (body ++ [quote]) ++ after := by simp
  have hread : Piece.read quote ((body ++ [quote]) ++ after) =
      (.token .string (some (.string (String.ofList (decode body)))),
        (body ++ [quote]).length) := by
    rw [read_quote hquote, ← hsplit]
    rcases readStringBody_cases (body ++ quote :: after) [] 0 with
      ⟨i, hfirst, hbody⟩ | ⟨hnone, -⟩
    · obtain rfl : i = body.length := hfirst.unique h
      simpa using hbody
    · exact absurd h.1 (hnone _)
  rw [hsplit]
  exact segments_cons hread

theorem event?_leading (body text : List Char) :
    Segment.event? ⟨0, Position.first, quote :: (body ++ [quote]),
      .token .string (some (.string (String.ofList text)))⟩ file =
      some (.ok (leadingString file quote body text)) := by
  simp [Segment.event?, leadingString]

/-- The tokens and faults of a text that begins with a literal that is closed. -/
theorem scanEvents_of_closesFirst
    (hquote : quote = '"' ∨ quote = '\'')
    {i : Nat}
    (h : ClosesFirst quote rest i) :
    ∃ later, scanEvents file (quote :: rest) =
      .ok (leadingString file quote (rest.take i) (decode (rest.take i))) :: later := by
  obtain ⟨hlt, hclosing⟩ := List.getElem?_eq_some_iff.mp h.1.1
  have hsplit : rest = rest.take i ++ quote :: rest.drop (i + 1) := by
    rw [← hclosing, List.getElem_cons_drop, List.take_append_drop]
  have hlength : (rest.take i).length = i := List.length_take_of_le (by omega)
  generalize rest.take i = body at hsplit hlength ⊢
  generalize rest.drop (i + 1) = after at hsplit
  subst hsplit hlength
  rw [scanEvents, segments_of_closesFirst hquote h, List.filterMap_cons, event?_leading]
  exact ⟨_, rfl⟩

/-- The tokens of a literal that makes up the text. -/
theorem scanEvents_literal
    (hquote : quote = '"' ∨ quote = '\'')
    {body : List Char}
    (h : ClosesFirst quote (body ++ [quote]) body.length) :
    scanEvents file (quote :: (body ++ [quote])) =
      [.ok (leadingString file quote body (decode body)),
        .ok (endToken file (quote :: (body ++ [quote])))] := by
  rw [scanEvents, segments_of_closesFirst hquote h, List.filterMap_cons, event?_leading]
  rfl

/-- The tokens and faults of a text that begins with a literal that nothing closes. -/
theorem scanEvents_of_not_closes
    (hquote : quote = '"' ∨ quote = '\'')
    (h : ∀ i, ¬Closes quote rest i) :
    scanEvents file (quote :: rest) =
      [.error ⟨.unterminatedString, .ofLength file 0 (rest.length + 1)⟩,
        .ok (endToken file (quote :: rest))] := by
  have hread : Piece.read quote (rest ++ []) = (.fault .unterminatedString, rest.length) := by
    rw [read_quote hquote, List.append_nil]
    rcases readStringBody_cases rest [] 0 with ⟨i, hfirst, -⟩ | ⟨-, hbody⟩
    · exact absurd hfirst.1 (h i)
    · simpa using hbody
  have hsegments := segments_cons hread
  rw [List.append_nil] at hsegments
  rw [scanEvents, hsegments]
  rfl

/-- A literal whose body is an escaped text, in either kind of quotes, is one token, which stands for
the text. A source that begins with a quote begins with the literal up to the first quote that closes
it, that is, the first one with an even number of backslashes before it in the literal. If there is
none, and only then, the first thing that comes of the source is that the literal is not ended; it
then reaches to the end of the source. -/
theorem quotation_exact
    (file : Nat)
    {quote : Char}
    (hquote : quote = '"' ∨ quote = '\'') :
    (∀ (text : String) (collectAll : Bool),
      Scan.tokenize file (quote :: (escape quote text.toList ++ [quote])) collectAll =
        .ok [leadingString file quote (escape quote text.toList) text.toList,
          endToken file (quote :: (escape quote text.toList ++ [quote]))]) ∧
    ∀ rest : List Char,
      (∀ i, ClosesFirst quote rest i →
        ∃ later, scanEvents file (quote :: rest) =
          .ok (leadingString file quote (rest.take i) (decode (rest.take i))) :: later) ∧
      ((∃ span later, scanEvents file (quote :: rest) =
          .error ⟨.unterminatedString, span⟩ :: later) ↔ ∀ i, ¬Closes quote rest i) ∧
      ((∀ i, ¬Closes quote rest i) → ∀ collectAll,
        Scan.tokenize file (quote :: rest) collectAll =
          .error [⟨.unterminatedString, .ofLength file 0 (rest.length + 1)⟩]) := by
  constructor
  · intro text collectAll
    obtain ⟨hfirst, hdecode⟩ := escape_read hquote text.toList
    rw [Scan.tokenize_eq_ok, scanEvents_literal hquote hfirst, hdecode]
    rfl
  · intro rest
    refine ⟨fun i h => scanEvents_of_closesFirst hquote h, ⟨?_, ?_⟩, ?_⟩
    · rintro ⟨span, later, hevents⟩
      rcases readStringBody_cases rest [] 0 with ⟨i, hfirst, -⟩ | ⟨hnone, -⟩
      · obtain ⟨others, hother⟩ := scanEvents_of_closesFirst hquote hfirst
        rw [hother] at hevents
        cases hevents
      · exact hnone
    · exact fun hnone => ⟨_, _, scanEvents_of_not_closes hquote hnone⟩
    · intro hnone collectAll
      rw [Scan.tokenize, Scan.ofText, scanEvents_of_not_closes hquote hnone]
      cases collectAll <;> rfl

theorem quotation_exact_backslashes :
    ('"' = '"' ∨ '"' = '\'') ∧ ('\'' = '"' ∨ '\'' = '\'') ∧
    (∃ later, scanEvents 0 "\"\\\\\\\"\\\\\" + \"".toList =
      .ok (leadingString 0 '"' "\\\\\\\"\\\\".toList "\\\"\\".toList) :: later) ∧
    ∀ i, ¬Closes '\'' "a\\'".toList i := by
  have hdouble : '"' = '"' ∨ '"' = '\'' := .inl rfl
  have hsingle : '\'' = '"' ∨ '\'' = '\'' := .inr rfl
  refine ⟨hdouble, hsingle, ?_, ?_⟩
  · exact ((quotation_exact 0 hdouble).2 "\\\\\\\"\\\\\" + \"".toList).1 6 (by decide)
  · exact ((quotation_exact 0 hsingle).2 "a\\'".toList).2.1.mp ⟨_, _, by rfl⟩

end Literals

end Lox
