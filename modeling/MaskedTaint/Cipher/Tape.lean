import MaskedTaint.Cipher.Aes
import MaskedTaint.Cipher.Sha256

/-! Tapes of random bits: an endless key stream that a key and a number determine. -/

namespace MaskedTaint

structure Tape where
  keys : Aes.Schedule

namespace Tape

def ofNumber (key : Bytes) (n : Int) : Tape :=
  ⟨Aes.schedule (Sha256.hmac key (Bytes.ofText (toString n)))⟩

def word (t : Tape) (i : Nat) : UInt32 :=
  let b := Aes.encrypt t.keys (Block16.zero.add (i / 4))
  match i % 4 with
  | 0 => (b.hi >>> 32).toUInt32
  | 1 => b.hi.toUInt32
  | 2 => (b.lo >>> 32).toUInt32
  | _ => b.lo.toUInt32

def bit (t : Tape) (i : Nat) : Bool := (t.word (i / 32) >>> (31 - i % 32).toUInt32) &&& 1 == 1

def fraction (t : Tape) (i : Nat) : Float := (t.word i).toFloat / 4294967295.0

/-- A number from `a` to `b`, found by halving the range with the bits from `i` on. -/
def uniform (t : Tape) (i : Nat) (a b : Int) : Int :=
  if _h : a < b then
    let middle := (a + b) / 2
    if t.bit i then uniform t (i + 1) (middle + 1) b else uniform t (i + 1) a middle
  else a
termination_by (b - a).toNat

theorem le_uniform (t : Tape) (i : Nat) (a b : Int) (h : a ≤ b) :
    a ≤ t.uniform i a b ∧ t.uniform i a b ≤ b := by
  fun_induction uniform t i a b with
  | case1 i a b hab middle hbit ih =>
    have := ih (by omega)
    omega
  | case2 i a b hab middle hbit ih =>
    have := ih (by omega)
    omega
  | case3 i a b hab => omega

end Tape

end MaskedTaint
