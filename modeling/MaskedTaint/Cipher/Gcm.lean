import MaskedTaint.Cipher.Aes

/-! Sealing with a nonce: a key stream that the nonce starts, and a tag that is a
polynomial in the sealed blocks. -/

namespace MaskedTaint

namespace Gcm

@[inline] def halve (b : Block16) : Block16 :=
  let hi := if b.lo &&& 1 == 1 then (b.hi >>> 1) ^^^ 0xe100000000000000 else b.hi >>> 1
  ⟨hi, b.lo >>> 1 ||| b.hi <<< 63⟩

def addBits (w : UInt64) : Nat → Block16 → Block16 → Block16 × Block16
  | 0, v, sum => (v, sum)
  | n + 1, v, sum =>
    addBits w n (halve v) (if (w >>> n.toUInt64) &&& 1 == 1 then sum.xor v else sum)

def times (a b : Block16) : Block16 :=
  let (v, sum) := addBits a.hi 64 b Block16.zero
  (addBits a.lo 64 v sum).2

def hash (h : Block16) (bs : List Block16) : Block16 :=
  bs.foldl (fun state b => times (state.xor b) h) Block16.zero

/-- The block of the two lengths in bits: of what is only tagged, and of what is sealed. -/
def lengths (tagged sealed : Nat) : Block16 := ⟨(8 * tagged).toUInt64, (8 * sealed).toUInt64⟩

def origin (h : Block16) (nonce : Bytes) : Block16 :=
  if nonce.length = 12 then Block16.ofBytes (nonce ++ [0, 0, 0, 1])
  else hash h (Block16.blocks nonce ++ [lengths 0 nonce.length])

def stream (keys : Aes.Schedule) (origin : Block16) (i : Nat) : Block16 :=
  Aes.encrypt keys (origin.addLow (i + 1))

def tag (keys : Aes.Schedule) (h origin : Block16) (sealed : Bytes) : Bytes :=
  ((hash h (Block16.blocks sealed ++ [lengths 0 sealed.length])).xor
    (Aes.encrypt keys origin)).toBytes

def wrap (keys : Aes.Schedule) (nonce message : Bytes) : Bytes × Bytes :=
  let h := Aes.encrypt keys Block16.zero
  let o := origin h nonce
  let sealed := Stream.crypt (stream keys o) message
  (sealed, tag keys h o sealed)

def unwrap? (keys : Aes.Schedule) (nonce sealed tagBytes : Bytes) : Option Bytes :=
  let h := Aes.encrypt keys Block16.zero
  let o := origin h nonce
  if tag keys h o sealed = tagBytes then some (Stream.crypt (stream keys o) sealed) else none

theorem unwrap?_wrap (keys : Aes.Schedule) (nonce message : Bytes) :
    unwrap? keys nonce (wrap keys nonce message).1 (wrap keys nonce message).2 = some message := by
  simp [unwrap?, wrap, Stream.crypt_crypt]

theorem length_wrap (keys : Aes.Schedule) (nonce message : Bytes) :
    (wrap keys nonce message).1.length = message.length ∧ (wrap keys nonce message).2.length = 16 :=
  ⟨Stream.length_crypt _ _, rfl⟩

end Gcm

end MaskedTaint
