/-!
# Text as bytes

Text is stored and written in UTF-8. `Utf8.decode?` reads bytes that are
UTF-8 throughout. `Utf8.decodeLossy` reads any bytes: a sequence that begins
like the encoding of a character and then breaks off is replaced, as far as it
goes, by one replacement character, and so is a byte that begins none.
-/

namespace Zaban.Utf8

/-- The text that the bytes encode, if they encode one. -/
def decode? (bytes : Array UInt8) : Option String :=
  String.fromUTF8? ⟨bytes⟩

/-- The character that stands for bytes that encode none. -/
def replacement : Char := '\ufffd'

/-- What a first byte promises: the bits it contributes, how many bytes follow, and the range of the
first of them. Encodings that are too long, of surrogates or beyond the last code point are ruled
out by that range. -/
structure Lead where
  bits : Nat
  more : Nat
  low : Nat
  high : Nat

/-- What the byte `b` promises as the first of a character. -/
def lead? (b : Nat) : Option Lead :=
  if b < 0x80 then some ⟨b, 0, 0x80, 0xbf⟩
  else if 0xc2 ≤ b ∧ b ≤ 0xdf then some ⟨b - 0xc0, 1, 0x80, 0xbf⟩
  else if b = 0xe0 then some ⟨0, 2, 0xa0, 0xbf⟩
  else if b = 0xed then some ⟨0xd, 2, 0x80, 0x9f⟩
  else if 0xe1 ≤ b ∧ b ≤ 0xef then some ⟨b - 0xe0, 2, 0x80, 0xbf⟩
  else if b = 0xf0 then some ⟨0, 3, 0x90, 0xbf⟩
  else if b = 0xf4 then some ⟨4, 3, 0x80, 0x8f⟩
  else if 0xf1 ≤ b ∧ b ≤ 0xf3 then some ⟨b - 0xf0, 3, 0x80, 0xbf⟩
  else none

/-- A character that is read in part: the bits so far, how many bytes follow, and the range of the
next one. Nothing is pending between characters. -/
abbrev Pending := Option Lead

/-- Starts a character at the byte `b`, behind the characters `out`, which stand in reverse. -/
def startChar (out : List Char) (b : Nat) : List Char × Pending :=
  match lead? b with
  | none => (replacement :: out, none)
  | some l => if l.more = 0 then (Char.ofNat l.bits :: out, none) else (out, some l)

/-- Reads one more byte. -/
def step : List Char × Pending → UInt8 → List Char × Pending
  | (out, none), b => startChar out b.toNat
  | (out, some l), b =>
    if l.low ≤ b.toNat ∧ b.toNat ≤ l.high then
      let bits := l.bits * 0x40 + (b.toNat - 0x80)
      if l.more = 1 then (Char.ofNat bits :: out, none)
      else (out, some ⟨bits, l.more - 1, 0x80, 0xbf⟩)
    else startChar (replacement :: out) b.toNat

/-- The text that the bytes encode, with replacements where they encode none. -/
def decodeLossy (bytes : Array UInt8) : String :=
  let (out, pending) := bytes.foldl step ([], none)
  String.ofList (if pending.isSome then replacement :: out else out).reverse

end Zaban.Utf8
