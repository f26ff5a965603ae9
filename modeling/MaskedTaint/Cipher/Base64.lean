import MaskedTaint.Cipher.Bytes

/-! Bytes as text in base 64. Reading passes over characters that are no digits, and
ends at a sufficient padding whatever stands behind it. -/

namespace MaskedTaint

namespace Base64

inductive Fault
  | notAscii
  | padding
  /-- One digit too many; all of them are counted. -/
  | count (n : Nat)
deriving DecidableEq, Repr

def Fault.message : Fault → String
  | notAscii => "string argument should contain only ASCII characters"
  | padding => "Incorrect padding"
  | count n =>
    "Invalid base64-encoded string: number of data characters (" ++ toString n ++
      ") cannot be 1 more than a multiple of 4"

def digit (n : Nat) : Char :=
  if n < 26 then Char.ofNat (65 + n)
  else if n < 52 then Char.ofNat (71 + n)
  else if n < 62 then Char.ofNat (n - 4)
  else if n = 62 then '+'
  else '/'

def value? (c : Char) : Option Nat :=
  if 'A' ≤ c ∧ c ≤ 'Z' then some (c.toNat - 65)
  else if 'a' ≤ c ∧ c ≤ 'z' then some (c.toNat - 71)
  else if '0' ≤ c ∧ c ≤ '9' then some (c.toNat + 4)
  else if c = '+' then some 62
  else if c = '/' then some 63
  else none

def encodeChars : Bytes → List Char
  | [] => []
  | [a] => [digit (a.toNat / 4), digit (a.toNat % 4 * 16), '=', '=']
  | [a, b] =>
    [digit (a.toNat / 4), digit (a.toNat % 4 * 16 + b.toNat / 16), digit (b.toNat % 16 * 4), '=']
  | a :: b :: c :: bs =>
    digit (a.toNat / 4) :: digit (a.toNat % 4 * 16 + b.toNat / 16) ::
      digit (b.toNat % 16 * 4 + c.toNat / 64) :: digit (c.toNat % 64) :: encodeChars bs

def encode (bs : Bytes) : String := String.ofList (encodeChars bs)

/-- The digits read since the last full group of four. -/
inductive Group
  | none
  | one (a : Nat)
  | two (a : Nat)
  | three (a : Nat)

def Group.digits : Group → Nat
  | none => 0
  | one _ => 1
  | two _ => 2
  | three _ => 3

/-- What one more digit gives: a byte, once enough bits are there, and the new group. -/
def Group.push (n : Nat) : Group → Option UInt8 × Group
  | none => (.none, one n)
  | one a => (some (UInt8.ofNat (a * 4 + n / 16)), two (n % 16))
  | two a => (some (UInt8.ofNat (a * 16 + n / 4)), three (n % 4))
  | three a => (some (UInt8.ofNat (a * 64 + n)), none)

/-- Bytes are collected in reverse; `pads` counts the padding since the last digit. -/
def decodeFrom : Group → Nat → Bytes → List Char → Except Fault Bytes
  | g, _, done, [] =>
    match g with
    | .none => .ok done.reverse
    | .one _ => .error (.count (done.length / 3 * 4 + 1))
    | _ => .error .padding
  | g, pads, done, c :: cs =>
    if c = '=' then
      if 2 ≤ g.digits then
        if 4 ≤ g.digits + (pads + 1) then .ok done.reverse else decodeFrom g (pads + 1) done cs
      else decodeFrom g pads done cs
    else
      match value? c with
      | none => decodeFrom g pads done cs
      | some n =>
        match g.push n with
        | (some b, g) => decodeFrom g 0 (b :: done) cs
        | (none, g) => decodeFrom g 0 done cs

def decode (s : String) : Except Fault Bytes :=
  if s.toList.all fun c => c.toNat < 128 then decodeFrom .none 0 [] s.toList else .error .notAscii

theorem length_encodeChars (bs : Bytes) : (encodeChars bs).length = 4 * ((bs.length + 2) / 3) := by
  fun_induction encodeChars bs with
  | case1 => rfl
  | case2 => simp
  | case3 => simp
  | case4 a b c bs ih =>
    simp only [List.length_cons, ih]
    omega

theorem length_encode (bs : Bytes) : (encode bs).length = 4 * ((bs.length + 2) / 3) := by
  rw [encode, String.length_ofList, length_encodeChars]

end Base64

end MaskedTaint
