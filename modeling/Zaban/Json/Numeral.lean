import Zaban.Json.Basic
import Zaban.Number.Binary

/-!
# Reading JSON numbers

A number is read in one pass. Its digits are collected into a **significand**
of one machine word. Digits of the whole part that no longer fit are dropped
and raise the exponent instead, and so does every later digit of that part;
digits behind the point lower the exponent until one does not fit, and that
one and the rest are ignored. A whole number that fits a word is exact. Any
other number is the significand times or divided by a power of ten, each
rounded to the nearest binary number, so the result can differ from the
correctly rounded value in its last place.

Numbers beyond the largest finite one are refused.
-/

namespace Zaban.Json

/-- Why a text is not the value that is asked for. -/
inductive Defect where
  /-- The text ends too early. -/
  | truncated
  /-- The text is not JSON. -/
  | malformed
  /-- The text is JSON of another shape. -/
  | misshapen
deriving DecidableEq

/-- The outcome of reading at the front of a text. -/
abbrev Reading := Except Defect

/-- The largest machine word. -/
def maxWord : Nat := 0xffffffffffffffff

/-- The largest exponent that is read as a number. -/
def maxExponent : Nat := 0x7fffffff

/-- The value of a decimal digit. -/
def digitValue (c : Char) : Nat :=
  c.toNat - '0'.toNat

/-- Adds digits to a significand for as long as it fits a word. Gives the significand, the number of
digits added and the digits that did not fit. -/
def collect : (significand : Nat) → List Char → Nat × Nat × List Char
  | significand, [] => (significand, 0, [])
  | significand, c :: cs =>
    let next := significand * 10 + digitValue c
    if maxWord < next then (significand, 0, c :: cs)
    else
      let (s, n, rest) := collect next cs
      (s, n + 1, rest)

/-- The power of ten of exponent `e`, as a binary number. -/
def powerOfTen (e : Nat) : Float :=
  Float.ofScientific 1 false e

/-- The magnitude `x * 10 ^ exponent`; there is none beyond the largest finite number. Powers beyond
the largest finite one are applied in portions of `10 ^ 308`. -/
def scale : (fuel : Nat) → (x : Float) → (exponent : Int) → Option Float
  | 0, x, _ => some x
  | fuel + 1, x, exponent =>
    if exponent.natAbs ≤ 308 then
      if 0 ≤ exponent then
        let scaled := x * powerOfTen exponent.natAbs
        if scaled.isInf then none else some scaled
      else some (x / powerOfTen exponent.natAbs)
    else if x == 0 then some x
    else if 0 ≤ exponent then none
    else scale fuel (x / powerOfTen 308) (exponent + 308)

/-- The number with a sign, a significand and a decimal exponent. Five portions of `10 ^ 308` bring
every word down to zero. -/
def fromParts (negative : Bool) (significand : Nat) (exponent : Int) : Reading Json :=
  match scale 6 (Float.ofNat significand) exponent with
  | some x => .ok (.real (if negative then -x else x))
  | none => .error .malformed

/-- The whole number with a sign and a magnitude of one word. -/
def fromWord (negative : Bool) (magnitude : Nat) : Json :=
  if !negative then .integer magnitude
  else if magnitude = 0 ∨ Binary.signBit < magnitude then .real (-Float.ofNat magnitude)
  else .integer (-magnitude)

/-- Reads the exponent behind its letter and scales the significand by it and by `start`. -/
def readExponent (negative : Bool) (significand : Nat) (start : Int) (cs : List Char) :
    Reading (Json × List Char) :=
  let (down, cs) := match cs with
    | '+' :: cs => (false, cs)
    | '-' :: cs => (true, cs)
    | cs => (false, cs)
  let digits := cs.takeWhile Char.isDigit
  let rest := cs.dropWhile Char.isDigit
  if digits.isEmpty then .error (if cs.isEmpty then .truncated else .malformed)
  else
    let e := digits.foldl (fun n c => n * 10 + digitValue c) 0
    if maxExponent < e then
      -- too large to be a number itself: the value is zero, or beyond every finite number
      if significand ≠ 0 ∧ !down then .error .malformed
      else .ok (.real (if negative then -0.0 else 0.0), rest)
    else do
      let x ← fromParts negative significand (if down then start - e else start + e)
      return (x, rest)

/-- What follows the digits of a number: an exponent, or nothing. -/
def readScaled (negative : Bool) (significand : Nat) (exponent : Int) (cs : List Char) :
    Reading (Json × List Char) :=
  match cs with
  | 'e' :: rest | 'E' :: rest => readExponent negative significand exponent rest
  | _ => do
    let x ← fromParts negative significand exponent
    return (x, cs)

/-- Reads the digits behind the point of a number, of which there is at least one. -/
def readFraction (negative : Bool) (significand : Nat) (exponent : Int) (cs : List Char) :
    Reading (Json × List Char) :=
  let digits := cs.takeWhile Char.isDigit
  let rest := cs.dropWhile Char.isDigit
  if digits.isEmpty then .error (if cs.isEmpty then .truncated else .malformed)
  else
    let (s, n, _) := collect significand digits
    readScaled negative s (exponent - n) rest

/-- Reads a number behind its sign. A zero is not followed by another digit of the whole part. -/
def readNumber (negative : Bool) (cs : List Char) : Reading (Json × List Char) :=
  let digits := cs.takeWhile Char.isDigit
  let rest := cs.dropWhile Char.isDigit
  if digits.isEmpty then .error (if cs.isEmpty then .truncated else .malformed)
  else if digits.head? = some '0' ∧ digits.length ≠ 1 then .error .malformed
  else
    let (s, _, dropped) := collect 0 digits
    match rest with
    | '.' :: rest => readFraction negative s dropped.length rest
    | _ =>
      if rest.head? = some 'e' ∨ rest.head? = some 'E' ∨ dropped ≠ [] then
        readScaled negative s dropped.length rest
      else .ok (fromWord negative s, rest)

end Zaban.Json
