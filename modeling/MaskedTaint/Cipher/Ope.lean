import MaskedTaint.Cipher.Hypergeometric

/-! Encryption of numbers that keeps their order. The range of the plain numbers and
the larger range of the sealed ones are halved together, over and over: the middle of
the sealed range is fixed, and a random draw that the key determines says how many plain
numbers lie below it. -/

namespace MaskedTaint

namespace Ope

/-- The numbers from `lo` to `hi`. -/
structure Range where
  lo : Int
  hi : Int
deriving DecidableEq, Repr

namespace Range

def size (r : Range) : Int := r.hi - r.lo + 1

def has (r : Range) (n : Int) : Bool := r.lo ≤ n && n ≤ r.hi

def isEmpty (r : Range) : Bool := r.hi < r.lo

end Range

inductive Fault
  | plainRange
  | sealedRange
  | invalidSealed
  | emptyRange
  | notWhole
deriving DecidableEq, Repr

def Fault.message : Fault → String
  | plainRange => "Plaintext is not within the input range"
  | sealedRange => "Ciphertext is not within the output range"
  | invalidSealed => "Invalid ciphertext"
  | emptyRange => "Invalid range: the start of the range is greater than the end"
  | notWhole => "Ciphertext must be an integer value"

def plainNumbers : Range := ⟨-1, 0x7fffe⟩

def sealedNumbers : Range := ⟨0, 0x7ffffffff⟩

def middle (r : Range) : Int := r.lo - 1 + (r.size + 1) / 2

def divide (key : Bytes) (plain coded : Range) : Int :=
  let sample := middle coded - coded.lo + 1
  if plain.size = coded.size then plain.lo + sample - 1
  else
    let below := Hypergeometric.draw (Tape.ofNumber key (middle coded)) sample plain.size
      (coded.size - plain.size)
    if below = 0 then plain.lo else plain.lo + below - 1

def half (plain coded : Range) (divide : Int) (lower : Bool) : Range × Range :=
  if lower then (⟨plain.lo, divide⟩, ⟨coded.lo, middle coded⟩)
  else (⟨divide + 1, plain.hi⟩, ⟨middle coded + 1, coded.hi⟩)

def place (key : Bytes) (n : Int) (coded : Range) : Int :=
  (Tape.ofNumber key n).uniform 0 coded.lo coded.hi

/-- Walks down to the range of one plain number; `fuel` bounds the halvings. -/
def encryptIn (key : Bytes) (n : Int) : Nat → Range → Range → Except Fault Int
  | 0, _, _ => .error .emptyRange
  | fuel + 1, plain, coded =>
    if plain.size = 1 then .ok (place key n coded)
    else
      let d := divide key plain coded
      let (plain, coded) := half plain coded d (n ≤ d)
      if plain.isEmpty || coded.isEmpty then .error .emptyRange
      else encryptIn key n fuel plain coded

def decryptIn (key : Bytes) (n : Int) : Nat → Range → Range → Except Fault Int
  | 0, _, _ => .error .emptyRange
  | fuel + 1, plain, coded =>
    if plain.size = 1 then
      if place key plain.lo coded = n then .ok plain.lo else .error .invalidSealed
    else
      let (plain, coded) := half plain coded (divide key plain coded) (n ≤ middle coded)
      if plain.isEmpty || coded.isEmpty then .error .emptyRange
      else decryptIn key n fuel plain coded

def halvings : Nat := 64

def encrypt (key : Bytes) (n : Int) : Except Fault Int :=
  if plainNumbers.has n then encryptIn key n halvings plainNumbers sealedNumbers
  else .error .plainRange

def decrypt (key : Bytes) (n : Int) : Except Fault Int :=
  if sealedNumbers.has n then decryptIn key n halvings plainNumbers sealedNumbers
  else .error .sealedRange

end Ope

end MaskedTaint
