import MaskedTaint.Text.Word

/-! Whole numbers as they may be written by hand: with blanks around, a sign, decimal
digits of any script, and single underscores between digits. -/

namespace MaskedTaint

namespace Numeral

def isWideBlank (n : Nat) : Bool :=
  n == 0x85 || n == 0xa0 || n == 0x1680 || (0x2000 ≤ n && n ≤ 0x200a) || n == 0x2028 ||
    n == 0x2029 || n == 0x202f || n == 0x205f || n == 0x3000

def isPlainBlank (c : Char) : Bool := c = ' ' || (9 ≤ c.toNat && c.toNat ≤ 13)

def wideDigit? (c : Char) : Option Nat :=
  if isDecimal c then
    (digitBounds.filter (· ≤ c.toNat)).getLast?.map fun first => (c.toNat - first) % 10
  else none

def plainChar? (c : Char) : Option Char :=
  if c.toNat < 128 then some c
  else if isWideBlank c.toNat then some ' '
  else (wideDigit? c).map fun n => Char.ofNat (48 + n)

def digits? : Nat → List Char → Option Nat
  | n, [c] => if isAsciiDigit c then some (n * 10 + (c.toNat - 48)) else none
  | n, c :: '_' :: cs => if isAsciiDigit c then digits? (n * 10 + (c.toNat - 48)) cs else none
  | n, c :: cs => if isAsciiDigit c then digits? (n * 10 + (c.toNat - 48)) cs else none
  | _, [] => none

def trim (cs : List Char) : List Char :=
  ((cs.dropWhile isPlainBlank).reverse.dropWhile isPlainBlank).reverse

def signed? : List Char → Option Int
  | '-' :: cs => (digits? 0 cs).map fun n => -(n : Int)
  | '+' :: cs => (digits? 0 cs).map fun n => (n : Int)
  | cs => (digits? 0 cs).map fun n => (n : Int)

def parse? (s : String) : Option Int := (s.toList.mapM plainChar?).bind fun cs => signed? (trim cs)

end Numeral

end MaskedTaint
