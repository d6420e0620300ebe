/-!
# UTF-8

Decoding of bytes as UTF-8. Only the shortest form of a code point is accepted and surrogates are
refused, so `decode` succeeds exactly on well-formed input; otherwise it tells where the first
malformed sequence begins, how many bytes of it were examined and what is wrong with it.
-/

namespace Lox.Text.Utf8

/-- What is wrong with a byte sequence. -/
inductive Defect
  | invalidStart
  | invalidContinuation
  | unexpectedEnd
deriving DecidableEq

/-- The first malformed sequence: its offset, its bytes and its defect. -/
structure Malformed where
  offset : Nat
  bytes : List UInt8
  defect : Defect
deriving DecidableEq

/-- The wording of a defect. -/
def Defect.message : Defect → String
  | .invalidStart => "invalid start byte"
  | .invalidContinuation => "invalid continuation byte"
  | .unexpectedEnd => "unexpected end of data"

/-- A byte as two hexadecimal digits. -/
def hexByte (b : UInt8) : String :=
  String.ofList [Nat.digitChar (b.toNat / 16), Nat.digitChar (b.toNat % 16)]

/-- The report of a malformed sequence; a single byte is named by its value. -/
def Malformed.message (m : Malformed) : String :=
  match m.bytes with
  | [b] =>
      s!"'utf-8' codec can't decode byte 0x{hexByte b} in position {m.offset}: {m.defect.message}"
  | bytes =>
      let last := m.offset + bytes.length - 1
      s!"'utf-8' codec can't decode bytes in position {m.offset}-{last}: {m.defect.message}"

/-- Is the byte a continuation byte? -/
def isContinuation (b : UInt8) : Bool :=
  0x80 ≤ b.toNat && b.toNat < 0xC0

/-- May `b` follow `lead`? It continues a sequence that is neither overlong, nor a surrogate, nor
beyond the last code point. -/
def isSecond (lead b : UInt8) : Bool :=
  isContinuation b && !(lead == 0xE0 && b < 0xA0) && !(lead == 0xED && b ≥ 0xA0) &&
    !(lead == 0xF0 && b < 0x90) && !(lead == 0xF4 && b ≥ 0x90)

/-- How many continuation bytes a lead byte announces. -/
def continuations? (lead : UInt8) : Option Nat :=
  if lead < 0x80 then some 0
  else if lead < 0xC2 then none
  else if lead < 0xE0 then some 1
  else if lead < 0xF0 then some 2
  else if lead < 0xF5 then some 3
  else none

/-- The outcome of reading one sequence: a character and the number of continuation bytes, or the
examined bytes and the defect. -/
abbrev Step := Except (List UInt8 × Defect) (Char × Nat)

/-- The continuation bytes after the second byte of a sequence. -/
def readTail : Nat → Nat → List UInt8 → List UInt8 → Nat → Step
  | 0, code, _, _, total => .ok (Char.ofNat code, total)
  | _ + 1, _, seen, [], _ => .error (seen, .unexpectedEnd)
  | n + 1, code, seen, b :: rest, total =>
      if isContinuation b then
        readTail n (code * 64 + b.toNat % 64) (seen ++ [b]) rest total
      else
        .error (seen, .invalidContinuation)

/-- Read the sequence that begins with `lead`. -/
def readSequence (lead : UInt8) (rest : List UInt8) : Step :=
  match continuations? lead with
  | none => .error ([lead], .invalidStart)
  | some 0 => .ok (Char.ofNat lead.toNat, 0)
  | some (n + 1) =>
      match rest with
      | [] => .error ([lead], .unexpectedEnd)
      | b :: rest' =>
          if isSecond lead b then
            let high := lead.toNat % Nat.pow 2 (5 - n)
            readTail n (high * 64 + b.toNat % 64) [lead, b] rest' (n + 1)
          else
            .error ([lead], .invalidContinuation)

/-- Decode from `offset` on, passing over the first `skip` bytes, which belong to a sequence that
has been read. -/
def decodeFrom : List UInt8 → Nat → Nat → List Char → Except Malformed (List Char)
  | [], _, _, done => .ok done.reverse
  | _ :: rest, offset, skip + 1, done => decodeFrom rest (offset + 1) skip done
  | b :: rest, offset, 0, done =>
      match readSequence b rest with
      | .ok (c, n) => decodeFrom rest (offset + 1) n (c :: done)
      | .error (bytes, defect) => .error ⟨offset, bytes, defect⟩

/-- The characters that the bytes encode. -/
def decode (bytes : List UInt8) : Except Malformed (List Char) :=
  decodeFrom bytes 0 0 []

end Lox.Text.Utf8
