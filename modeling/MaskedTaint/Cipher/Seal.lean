import MaskedTaint.Cipher.Base64
import MaskedTaint.Cipher.Gcm
import MaskedTaint.Cipher.Ope
import MaskedTaint.Cipher.Siv
import MaskedTaint.Text.Quoted
import MaskedTaint.Text.Utf8

/-! Sealed texts. Names are sealed without a nonce, so that equal names stay equal, and
are padded so that their lengths tell little; whole texts are sealed with a nonce. Keys
come from passwords. -/

namespace MaskedTaint

inductive CipherError
  | nameKey (length : Nat)
  | textKey (length : Nat)
  | emptyNonce
  | tooLong
  | tag
  | emptyInput
  | notPadded
  | padding
  | paddingBytes
  | utf8 (fault : Utf8.Fault)
  | base64 (fault : Base64.Fault)
  | number (fault : Ope.Fault)
  | numeral (text : String)
deriving DecidableEq, Repr

def CipherError.message : CipherError → String
  | nameKey n => "Incorrect key length (" ++ toString n ++ " bytes)"
  | textKey n => "Incorrect AES key length (" ++ toString n ++ " bytes)"
  | emptyNonce => "Nonce cannot be empty"
  | tooLong => "int too big to convert"
  | tag => "MAC check failed"
  | emptyInput => "Zero-length input cannot be unpadded"
  | notPadded => "Input data is not padded"
  | padding => "Padding is incorrect."
  | paddingBytes => "PKCS#7 padding is incorrect."
  | utf8 f => f.message
  | base64 f => f.message
  | number f => f.message
  | numeral s => "invalid literal for int() with base 10: " ++ Quoted.render s

namespace Cipher

def keyOf (password : String) : Bytes := Sha256.digest (Bytes.ofText password)

def hashText (s : String) : String := String.ofList (Bytes.hex (Sha256.digest (Bytes.ofText s)))

def labelBytes (key : Bytes) (s : String) : Bytes :=
  Bytes.ofAscii (Bytes.hex (Sha256.hmac key (Bytes.ofText s)))

theorem length_labelBytes (key : Bytes) (s : String) : (labelBytes key s).length = 64 := by
  rw [labelBytes, Bytes.ofAscii, List.length_map, Bytes.length_hex, Sha256.length_hmac]

def label (key : Bytes) (s : String) : String := Base64.encode (labelBytes key s)

/-! ### Padding -/

/-- Fills up with bytes that tell their own number; at least one is added. -/
def pad (size : Nat) (bs : Bytes) : Bytes :=
  let n := size - bs.length % size
  bs ++ List.replicate n (UInt8.ofNat n)

def unpad (size : Nat) (bs : Bytes) : Except CipherError Bytes :=
  match bs.getLast? with
  | none => .error .emptyInput
  | some last =>
    let n := last.toNat
    if bs.length % size ≠ 0 then .error .notPadded
    else if n < 1 || n > size then .error .padding
    else if Bytes.takeLast n bs ≠ List.replicate n last then .error .paddingBytes
    else .ok (Bytes.dropLast n bs)

theorem length_pad (size : Nat) (bs : Bytes) (h : 0 < size) :
    (pad size bs).length = size * (bs.length / size + 1) := by
  have hmod := Nat.mod_lt bs.length h
  have hdiv := Nat.div_add_mod bs.length size
  simp only [pad, List.length_append, List.length_replicate, Nat.mul_add, Nat.mul_one]
  omega

theorem unpad_pad (size : Nat) (bs : Bytes) (h : 0 < size) (h' : size < 256) :
    unpad size (pad size bs) = .ok bs := by
  have hmod := Nat.mod_lt bs.length h
  have hn : 0 < size - bs.length % size := by omega
  have hlast : (pad size bs).getLast? = some (UInt8.ofNat (size - bs.length % size)) := by
    unfold pad
    simp only [List.getLast?_append, List.getLast?_replicate]
    rw [if_neg (by omega)]
    rfl
  have hval : (UInt8.ofNat (size - bs.length % size)).toNat = size - bs.length % size := by
    rw [UInt8.toNat_ofNat']
    omega
  have hlen : (pad size bs).length % size = 0 := by rw [length_pad size bs h, Nat.mul_mod_right]
  unfold unpad
  rw [hlast]
  simp only [hval, hlen]
  rw [if_neg (by simp), if_neg (by simp; omega)]
  rw [show Bytes.takeLast (size - bs.length % size) (pad size bs) =
      List.replicate (size - bs.length % size) (UInt8.ofNat (size - bs.length % size)) from
    Bytes.takeLast_append _ _ (by simp)]
  rw [if_neg (by simp)]
  exact congrArg Except.ok (Bytes.dropLast_append _ _ (by simp))

def decodeText (bs : Bytes) : Except CipherError String :=
  match Utf8.decode bs with
  | .ok s => .ok s
  | .error f => .error (.utf8 f)

def decodeBase64 (s : String) : Except CipherError Bytes :=
  match Base64.decode s with
  | .ok bs => .ok bs
  | .error f => .error (.base64 f)

/-! ### Names -/

def namePadding : Nat := 50

def nameKeys (key : Bytes) : Except CipherError Siv.Keys :=
  if Siv.isKeyLength key.length then .ok (Siv.keysOf key) else .error (.nameKey key.length)

def nameBytes (key : Bytes) (s : String) : Except CipherError Bytes := do
  let keys ← nameKeys key
  let (coded, tag) := Siv.wrap keys (pad namePadding (Bytes.ofText s))
  return coded ++ tag

def sealName (key : Bytes) (s : String) : Except CipherError String :=
  (nameBytes key s).map Base64.encode

def openNameBytes (key : Bytes) (bs : Bytes) : Except CipherError String := do
  let keys ← nameKeys key
  match Siv.unwrap? keys (Bytes.dropLast 16 bs) (Bytes.takeLast 16 bs) with
  | none => .error .tag
  | some padded => do
    let plain ← unpad namePadding padded
    decodeText plain

def openName (key : Bytes) (s : String) : Except CipherError String := do
  let bs ← decodeBase64 s
  openNameBytes key bs

/-! ### Texts -/

def textBytes (s : String) : Bytes := Bytes.ofNat 4 s.length ++ Bytes.ofText s

def textKeys (key : Bytes) : Except CipherError Aes.Schedule :=
  if Aes.isKeyLength key.length then .ok (Aes.schedule key) else .error (.textKey key.length)

def sealWhole (key nonce : Bytes) (s : String) : Except CipherError String := do
  let keys ← textKeys key
  if s.length < UInt32.size then
    let (coded, tag) := Gcm.wrap keys nonce (pad 16 (textBytes s))
    return Base64.encode (nonce ++ coded ++ tag)
  else .error .tooLong

def cutText (bs : Bytes) : Bytes := (bs.drop 4).take (Bytes.toNat (bs.take 4))

def openText (key : Bytes) (s : String) : Except CipherError String := do
  let bs ← decodeBase64 s
  let nonce := bs.take 16
  if nonce.isEmpty then .error .emptyNonce
  let keys ← textKeys key
  match Gcm.unwrap? keys nonce ((Bytes.dropLast 16 bs).drop 16) (Bytes.takeLast 16 bs) with
  | none => .error .tag
  | some padded => decodeText (cutText padded)

/-! ### Numbers -/

def sealNumber (key : Bytes) (n : Int) : Except CipherError Int :=
  match Ope.encrypt key n with
  | .ok n => .ok n
  | .error f => .error (.number f)

def openNumber (key : Bytes) (n : Int) : Except CipherError Int :=
  match Ope.decrypt key n with
  | .ok n => .ok n
  | .error f => .error (.number f)

end Cipher

end MaskedTaint
