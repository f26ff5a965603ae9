/-! Byte strings, their text forms and how texts are coded in them. -/

namespace MaskedTaint

abbrev Bytes := List UInt8

namespace Bytes

def ofNat (width n : Nat) : Bytes :=
  (List.range width).map fun i => UInt8.ofNat (n >>> (8 * (width - 1 - i)) % 256)

def toNat (bs : Bytes) : Nat := bs.foldl (fun n b => n * 256 + b.toNat) 0

def hexDigit (n : UInt8) : Char := Char.ofNat (if n < 10 then 48 + n.toNat else 87 + n.toNat)

def hex : Bytes → List Char
  | [] => []
  | b :: bs => hexDigit (b / 16) :: hexDigit (b % 16) :: hex bs

def ofAscii (cs : List Char) : Bytes := cs.map fun c => UInt8.ofNat c.toNat

def ofText (s : String) : Bytes := s.toUTF8.toList

def dropLast (n : Nat) (bs : Bytes) : Bytes := bs.take (bs.length - n)

def takeLast (n : Nat) (bs : Bytes) : Bytes := bs.drop (bs.length - n)

theorem length_ofNat (width n : Nat) : (ofNat width n).length = width := by simp [ofNat]

theorem length_hex (bs : Bytes) : (hex bs).length = 2 * bs.length := by
  induction bs with
  | nil => rfl
  | cons b bs ih =>
    simp only [hex, List.length_cons, ih]
    omega

theorem dropLast_append {n : Nat} (a b : Bytes) (h : b.length = n) : dropLast n (a ++ b) = a := by
  subst h
  simp [dropLast]

theorem takeLast_append {n : Nat} (a b : Bytes) (h : b.length = n) : takeLast n (a ++ b) = b := by
  subst h
  simp [takeLast]

end Bytes

end MaskedTaint
