import MaskedTaint.Cipher.Aes

/-! Sealing without a nonce: the tag of a message is also where its key stream starts,
so equal messages are sealed alike. -/

namespace MaskedTaint

namespace Siv

def double (b : Block16) : Block16 :=
  let lo := b.lo <<< 1
  ⟨b.hi <<< 1 ||| b.lo >>> 63, if b.hi >>> 63 == 1 then lo ^^^ 0x87 else lo⟩

def chain (keys : Aes.Schedule) (mask : Bytes → Block16) : Nat → Block16 → Bytes → Block16
  | 0, state, bs => Aes.encrypt keys (state.xor (mask bs))
  | n + 1, state, bs =>
    chain keys mask n (Aes.encrypt keys (state.xor (Block16.ofBytes bs))) (bs.drop 16)

def mac (keys : Aes.Schedule) (message : Bytes) : Block16 :=
  let whole := double (Aes.encrypt keys Block16.zero)
  let mask := fun (last : Bytes) =>
    if last.length = 16 then (Block16.ofBytes last).xor whole
    else (Block16.ofBytes (last ++ [0x80])).xor (double whole)
  chain keys mask ((message.length - 1) / 16) Block16.zero message

def xorEnd (message : Bytes) (b : Block16) : Bytes :=
  Bytes.dropLast 16 message ++
    ((Block16.ofBytes (Bytes.takeLast 16 message)).xor b).toBytes

def tag (keys : Aes.Schedule) (message : Bytes) : Block16 :=
  let d := mac keys Block16.zero.toBytes
  if 16 ≤ message.length then mac keys (xorEnd message d)
  else mac keys ((double d).xor (Block16.ofBytes (message ++ [0x80]))).toBytes

/-- The key stream that starts at a tag; two of its bits are cleared first. -/
def stream (keys : Aes.Schedule) (tag : Block16) (i : Nat) : Block16 :=
  Aes.encrypt keys ((Block16.mk tag.hi (tag.lo &&& 0x7fffffff7fffffff)).add i)

/-- The two halves of a key: for tags and for the stream. -/
structure Keys where
  tagging : Aes.Schedule
  streaming : Aes.Schedule

def isKeyLength (n : Nat) : Bool := n == 32 || n == 48 || n == 64

def keysOf (key : Bytes) : Keys :=
  ⟨Aes.schedule (key.take (key.length / 2)), Aes.schedule (key.drop (key.length / 2))⟩

def wrap (k : Keys) (message : Bytes) : Bytes × Bytes :=
  let t := tag k.tagging message
  (Stream.crypt (stream k.streaming t) message, t.toBytes)

/-- The block that a tag stands for; one that is too short counts from its end. -/
def tagBlock (bs : Bytes) : Block16 := Block16.ofBytes (List.replicate (16 - bs.length) 0 ++ bs)

def unwrap? (k : Keys) (sealed tagBytes : Bytes) : Option Bytes :=
  let message := Stream.crypt (stream k.streaming (tagBlock tagBytes)) sealed
  if (tag k.tagging message).toBytes = tagBytes then some message else none

end Siv

end MaskedTaint
