import MaskedTaint.Cipher.Bytes

/-! Blocks of sixteen bytes, as two words. -/

namespace MaskedTaint

structure Block16 where
  hi : UInt64
  lo : UInt64
deriving DecidableEq, Repr, Inhabited

namespace Block16

def zero : Block16 := ⟨0, 0⟩

def xor (a b : Block16) : Block16 := ⟨a.hi ^^^ b.hi, a.lo ^^^ b.lo⟩

def wordBytes (w : UInt64) : Bytes :=
  [(w >>> 56).toUInt8, (w >>> 48).toUInt8, (w >>> 40).toUInt8, (w >>> 32).toUInt8,
    (w >>> 24).toUInt8, (w >>> 16).toUInt8, (w >>> 8).toUInt8, w.toUInt8]

def toBytes (b : Block16) : Bytes := wordBytes b.hi ++ wordBytes b.lo

def wordOf : Nat → UInt64 → Bytes → UInt64
  | 0, w, _ => w
  | n + 1, w, [] => wordOf n (w <<< 8) []
  | n + 1, w, b :: bs => wordOf n (w <<< 8 ||| b.toUInt64) bs

def ofBytes (bs : Bytes) : Block16 := ⟨wordOf 8 0 bs, wordOf 8 0 (bs.drop 8)⟩

def add (b : Block16) (n : Nat) : Block16 :=
  let lo := b.lo + n.toUInt64
  ⟨if lo < b.lo then b.hi + 1 else b.hi, lo⟩

def addLow (b : Block16) (n : Nat) : Block16 :=
  ⟨b.hi, (b.lo &&& 0xffffffff00000000) ||| ((b.lo + n.toUInt64) &&& 0xffffffff)⟩

def blocks (bs : Bytes) : List Block16 :=
  go ((bs.length + 15) / 16) bs
where
  go : Nat → Bytes → List Block16
    | 0, _ => []
    | n + 1, bs => ofBytes bs :: go n (bs.drop 16)

theorem length_toBytes (b : Block16) : b.toBytes.length = 16 := rfl

end Block16

/-! ### Key streams -/

namespace Stream

def bytes (stream : Nat → Block16) (n : Nat) : Bytes :=
  (List.range ((n + 15) / 16)).flatMap fun i => (stream i).toBytes

def crypt (stream : Nat → Block16) (data : Bytes) : Bytes :=
  List.zipWith (· ^^^ ·) data (bytes stream data.length)

theorem length_flatMap_toBytes (stream : Nat → Block16) (is : List Nat) :
    (is.flatMap fun i => (stream i).toBytes).length = 16 * is.length := by
  induction is with
  | nil => rfl
  | cons i is ih =>
    rw [List.flatMap_cons, List.length_append, ih, Block16.length_toBytes, List.length_cons]
    omega

theorem length_bytes_ge (stream : Nat → Block16) (n : Nat) : n ≤ (bytes stream n).length := by
  rw [bytes, length_flatMap_toBytes, List.length_range]
  omega

theorem length_crypt (stream : Nat → Block16) (data : Bytes) :
    (crypt stream data).length = data.length := by
  have h := length_bytes_ge stream data.length
  rw [crypt, List.length_zipWith]
  omega

theorem zipWith_xor_cancel (data key : Bytes) (h : data.length ≤ key.length) :
    List.zipWith (· ^^^ ·) (List.zipWith (· ^^^ ·) data key) key = data := by
  induction data generalizing key with
  | nil => rfl
  | cons d data ih =>
    cases key with
    | nil => simp at h
    | cons k key =>
      have h' : data.length ≤ key.length := by simpa using h
      rw [List.zipWith_cons_cons, List.zipWith_cons_cons, ih key h', UInt8.xor_assoc, UInt8.xor_self,
        UInt8.xor_zero]

theorem crypt_crypt (stream : Nat → Block16) (data : Bytes) :
    crypt stream (crypt stream data) = data := by
  have h := length_bytes_ge stream data.length
  have hl := length_crypt stream data
  unfold crypt at hl ⊢
  rw [hl]
  exact zipWith_xor_cancel data _ h

end Stream

end MaskedTaint
