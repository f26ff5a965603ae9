import Mathlib.Algebra.Group.Nat.Defs
import MaskedTaint.Proofs.Cipher.Texts

/-! What is sealed can be opened. Names, numbers and texts come back as they were, for every
key of a good length; a text only if all its characters take one byte, since it is cut by their
number. -/

namespace MaskedTaint

namespace Utf8

theorem ofText_eq_flatMap (s : String) : Bytes.ofText s = s.toList.flatMap String.utf8EncodeChar := by
  have hbytes : s.toByteArray = s.toList.utf8Encode := by
    rw [← String.toByteArray_ofList, String.ofList_toList]
  unfold Bytes.ofText ByteArray.toList
  rw [Cipher.toList_loop, String.toUTF8_eq_toByteArray, hbytes]
  simp [List.utf8Encode]

theorem decodeFrom_cons {b : UInt8} {due : Nat} {bs : Bytes} (hdue : following? b = some due)
    (hgood : goodBytes b due 0 bs = due) (fuel pos : Nat) (done : List Char) :
    decodeFrom (fuel + 1) pos done (b :: bs) = decodeFrom fuel (pos + due + 1)
      (Char.ofNat ((bs.take due).foldl (fun n c => n * 64 + c.toNat % 64) (leadBits b due)) :: done)
      (bs.drop due) := by
  simp only [decodeFrom, hdue, hgood, if_true]

theorem isContinuation_ofNat : ∀ n < 64, isContinuation (UInt8.ofNat (n + 128)) = true := by decide

theorem following?_one : ∀ n < 128, following? (UInt8.ofNat n) = some 0 := by decide +kernel

theorem following?_two : ∀ n < 32, 2 ≤ n → following? (UInt8.ofNat (n + 192)) = some 1 := by decide

theorem following?_three : ∀ n < 16, following? (UInt8.ofNat (n + 224)) = some 2 := by decide

theorem following?_four : ∀ n < 5, following? (UInt8.ofNat (n + 240)) = some 3 := by decide

theorem isSecond_two : ∀ m < 32, ∀ n < 64,
    isSecond (UInt8.ofNat (m + 192)) (UInt8.ofNat (n + 128)) = true := by decide +kernel

theorem isSecond_three : ∀ m < 16, ∀ n < 64, (m = 0 → 32 ≤ n) → (m = 13 → n < 32) →
    isSecond (UInt8.ofNat (m + 224)) (UInt8.ofNat (n + 128)) = true := by decide +kernel

theorem isSecond_four : ∀ m < 5, ∀ n < 64, (m = 0 → 16 ≤ n) → (m = 4 → n < 16) →
    isSecond (UInt8.ofNat (m + 240)) (UInt8.ofNat (n + 128)) = true := by decide +kernel

theorem toNat_ofNat {n : Nat} (h : n < 256) : (UInt8.ofNat n).toNat = n := by
  rw [UInt8.toNat_ofNat']
  omega

theorem goodBytes_one {a b : UInt8} (hb : isSecond a b = true) (rest : Bytes) :
    goodBytes a 1 0 (b :: rest) = 1 := by
  simp [goodBytes, hb]

theorem goodBytes_two {a b c : UInt8} (hb : isSecond a b = true) (hc : isContinuation c = true)
    (rest : Bytes) : goodBytes a 2 0 (b :: c :: rest) = 2 := by
  simp [goodBytes, hb, hc]

theorem goodBytes_three {a b c d : UInt8} (hb : isSecond a b = true) (hc : isContinuation c = true)
    (hd : isContinuation d = true) (rest : Bytes) : goodBytes a 3 0 (b :: c :: d :: rest) = 3 := by
  simp [goodBytes, hb, hc, hd]

/-- Reading a character gives it back. The cases are those of its width; the bounds on the
second byte hold because a character is no surrogate and not beyond the last one. -/
theorem decodeFrom_char (c : Char) (fuel pos : Nat) (done : List Char) (rest : Bytes) :
    decodeFrom (fuel + 1) pos done (String.utf8EncodeChar c ++ rest) =
      decodeFrom fuel (pos + (String.utf8EncodeChar c).length) (c :: done) rest := by
  have hvalid : c.val.toNat < 0xd800 ∨ 0xdfff < c.val.toNat ∧ c.val.toNat < 0x110000 := c.valid
  have hchar : Char.ofNat c.val.toNat = c := Char.ofNat_toNat c
  generalize hv : c.val.toNat = v at hvalid hchar
  unfold String.utf8EncodeChar
  simp only [hv]
  split
  · rename_i h
    rw [List.singleton_append, decodeFrom_cons (following?_one v (by omega)) rfl]
    simp only [leadBits, toNat_ofNat (n := v) (by omega), List.take_zero, List.foldl_nil, hchar]
    rfl
  split
  · rename_i h₁ h
    have hgood := goodBytes_one (isSecond_two (v / 64 % 32) (by omega) (v % 64) (by omega)) rest
    have hvalue : (v / 64 % 32 + 192) % 32 * 64 + (v % 64 + 128) % 64 = v := by omega
    rw [List.cons_append, List.singleton_append,
      decodeFrom_cons (following?_two _ (by omega) (by omega)) hgood]
    simp only [leadBits, toNat_ofNat (n := v / 64 % 32 + 192) (by omega),
      toNat_ofNat (n := v % 64 + 128) (by omega), List.take_succ_cons, List.take_zero,
      List.foldl_cons, List.foldl_nil, hvalue, hchar]
    rfl
  split
  · rename_i h₁ h₂ h
    have hgood := goodBytes_two
      (isSecond_three (v / 4096 % 16) (by omega) (v / 64 % 64) (by omega) (by omega) (by omega))
      (isContinuation_ofNat (v % 64) (by omega)) rest
    have hvalue : ((v / 4096 % 16 + 224) % 16 * 64 + (v / 64 % 64 + 128) % 64) * 64 +
        (v % 64 + 128) % 64 = v := by omega
    rw [List.cons_append, List.cons_append, List.singleton_append,
      decodeFrom_cons (following?_three _ (by omega)) hgood]
    simp only [leadBits, toNat_ofNat (n := v / 4096 % 16 + 224) (by omega),
      toNat_ofNat (n := v / 64 % 64 + 128) (by omega), toNat_ofNat (n := v % 64 + 128) (by omega),
      List.take_succ_cons, List.take_zero, List.foldl_cons, List.foldl_nil, hvalue, hchar]
    rfl
  · rename_i h₁ h₂ h
    have hgood := goodBytes_three
      (isSecond_four (v / 262144 % 8) (by omega) (v / 4096 % 64) (by omega) (by omega) (by omega))
      (isContinuation_ofNat (v / 64 % 64) (by omega)) (isContinuation_ofNat (v % 64) (by omega)) rest
    have hvalue : (((v / 262144 % 8 + 240) % 8 * 64 + (v / 4096 % 64 + 128) % 64) * 64 +
        (v / 64 % 64 + 128) % 64) * 64 + (v % 64 + 128) % 64 = v := by omega
    rw [List.cons_append, List.cons_append, List.cons_append, List.singleton_append,
      decodeFrom_cons (following?_four _ (by omega)) hgood]
    simp only [leadBits, toNat_ofNat (n := v / 262144 % 8 + 240) (by omega),
      toNat_ofNat (n := v / 4096 % 64 + 128) (by omega),
      toNat_ofNat (n := v / 64 % 64 + 128) (by omega), toNat_ofNat (n := v % 64 + 128) (by omega),
      List.take_succ_cons, List.take_zero, List.foldl_cons, List.foldl_nil, hvalue, hchar]
    rfl

theorem decodeFrom_flatMap (cs : List Char) {fuel : Nat} (h : cs.length ≤ fuel) (pos : Nat)
    (done : List Char) :
    decodeFrom fuel pos done (cs.flatMap String.utf8EncodeChar) = .ok (done.reverse ++ cs) := by
  induction cs generalizing fuel pos done with
  | nil => cases fuel <;> simp [decodeFrom]
  | cons c cs ih =>
    cases fuel with
    | zero => simp at h
    | succ fuel =>
      rw [List.flatMap_cons, decodeFrom_char, ih (by simpa using h)]
      simp

theorem length_le_flatMap (cs : List Char) :
    cs.length ≤ (cs.flatMap String.utf8EncodeChar).length := by
  induction cs with
  | nil => simp
  | cons c cs ih =>
    have hpos : 0 < (String.utf8EncodeChar c).length := by
      rw [String.length_utf8EncodeChar]
      exact c.utf8Size_pos
    simp only [List.flatMap_cons, List.length_append, List.length_cons]
    omega

theorem decode_ofText (s : String) : decode (Bytes.ofText s) = .ok s := by
  have hfuel := length_le_flatMap s.toList
  rw [decode, ofText_eq_flatMap, decodeFrom_flatMap _ (by omega)]
  simp [Except.map]

end Utf8

/-! ### Blocks and names -/

namespace Block16

theorem toNat_pushByte {w : UInt64} (b : UInt8) (h : w.toNat < 2 ^ 56) :
    (w <<< 8 ||| b.toUInt64).toNat = w.toNat * 256 + b.toNat := by
  have hb : b.toNat < 2 ^ 8 := b.toNat_lt
  have hshift : (w <<< 8).toNat = w.toNat <<< 8 := by
    rw [UInt64.toNat_shiftLeft]
    change w.toNat <<< 8 % 2 ^ 64 = w.toNat <<< 8
    rw [Nat.shiftLeft_eq]
    omega
  rw [UInt64.toNat_or, hshift, UInt8.toNat_toUInt64, ← Nat.shiftLeft_add_eq_or_of_lt hb,
    Nat.shiftLeft_eq]

theorem toNat_wordOf (bs rest : Bytes) {w : UInt64} (h : (w.toNat + 1) * 256 ^ bs.length ≤ 2 ^ 64) :
    (wordOf bs.length w (bs ++ rest)).toNat = bs.foldl (fun n b => n * 256 + b.toNat) w.toNat := by
  induction bs generalizing w with
  | nil => simp [wordOf]
  | cons b bs ih =>
    have hb : b.toNat < 256 := b.toNat_lt
    have hone : 0 < 256 ^ bs.length := Nat.pow_pos (by decide)
    rw [List.length_cons, Nat.pow_succ'] at h
    have hw : w.toNat < 2 ^ 56 := by
      have hle := Nat.mul_le_mul_left ((w.toNat + 1) * 256) hone
      rw [← Nat.mul_assoc] at h
      omega
    have hpush := toNat_pushByte b hw
    have hnext : ((w <<< 8 ||| b.toUInt64).toNat + 1) * 256 ^ bs.length ≤ 2 ^ 64 := by
      rw [← Nat.mul_assoc] at h
      refine Nat.le_trans (Nat.mul_le_mul_right _ ?_) h
      omega
    rw [List.length_cons, List.cons_append, wordOf, ih hnext, hpush, List.foldl_cons]

theorem wordOf_wordBytes (w : UInt64) (rest : Bytes) : wordOf 8 0 (wordBytes w ++ rest) = w := by
  have hw : w.toNat < 2 ^ 64 := w.toNat_lt
  have hread := toNat_wordOf (wordBytes w) rest (w := 0) (by simp [wordBytes])
  refine UInt64.toNat_inj.mp (hread.trans ?_)
  simp only [wordBytes, List.foldl_cons, List.foldl_nil, UInt64.toNat_toUInt8, UInt64.toNat_shiftRight,
    Nat.shiftRight_eq_div_pow, UInt64.reduceToNat, Nat.reduceMod, Nat.reducePow]
  omega

theorem ofBytes_toBytes (b : Block16) (rest : Bytes) : ofBytes (b.toBytes ++ rest) = b := by
  have hhi := wordOf_wordBytes b.hi (wordBytes b.lo ++ rest)
  have hlo := wordOf_wordBytes b.lo rest
  have hdrop : (wordBytes b.hi ++ (wordBytes b.lo ++ rest)).drop 8 = wordBytes b.lo ++ rest := rfl
  rw [ofBytes, toBytes, List.append_assoc, hhi, hdrop, hlo]

end Block16

namespace Siv

theorem tagBlock_toBytes (b : Block16) : tagBlock b.toBytes = b := by
  have hread := b.ofBytes_toBytes []
  rwa [List.append_nil] at hread

theorem unwrap?_wrap (k : Keys) (message : Bytes) :
    unwrap? k (wrap k message).1 (wrap k message).2 = some message := by
  simp [unwrap?, wrap, tagBlock_toBytes, Stream.crypt_crypt]

theorem length_of_unwrap? {k : Keys} {sealed tagBytes message : Bytes}
    (h : unwrap? k sealed tagBytes = some message) : message.length = sealed.length := by
  simp only [unwrap?] at h
  split at h
  · rw [← Option.some.inj h, Stream.length_crypt]
  · cases h

theorem length_wrap (k : Keys) (message : Bytes) :
    (wrap k message).1.length = message.length ∧ (wrap k message).2.length = 16 :=
  ⟨Stream.length_crypt _ _, rfl⟩

end Siv

namespace Cipher

theorem decodeText_ofText (s : String) : decodeText (Bytes.ofText s) = .ok s := by
  rw [decodeText, Utf8.decode_ofText]

theorem decodeBase64_encode (bs : Bytes) : decodeBase64 (Base64.encode bs) = .ok bs := by
  rw [decodeBase64, Base64.decode_encode]

variable {key : Bytes}

theorem nameBytes_eq_ok_iff {s : String} {bs : Bytes} :
    nameBytes key s = .ok bs ↔ ∃ keys, nameKeys key = .ok keys ∧
      (Siv.wrap keys (pad namePadding (Bytes.ofText s))).1 ++
        (Siv.wrap keys (pad namePadding (Bytes.ofText s))).2 = bs := by
  unfold nameBytes
  rcases nameKeys key with e | keys
  · simp [bind, Except.bind]
  · simp [bind, Except.bind, pure, Except.pure]

theorem exists_nameBytes (h : Siv.isKeyLength key.length = true) (s : String) :
    ∃ bs, nameBytes key s = .ok bs := by
  have hkeys : nameKeys key = .ok (Siv.keysOf key) := if_pos h
  exact ⟨_, nameBytes_eq_ok_iff.mpr ⟨_, hkeys, rfl⟩⟩

theorem length_nameBytes {key bs : Bytes} {s : String} (h : nameBytes key s = .ok bs) :
    bs.length = 50 * ((Bytes.ofText s).length / 50 + 1) + 16 := by
  obtain ⟨keys, -, rfl⟩ := nameBytes_eq_ok_iff.mp h
  have hwrap := Siv.length_wrap keys (pad namePadding (Bytes.ofText s))
  rw [List.length_append, hwrap.1, hwrap.2, length_pad _ _ (by decide)]
  rfl

theorem openNameBytes_nameBytes {s : String} {bs : Bytes}
    (h : nameBytes key s = .ok bs) : openNameBytes key bs = .ok s := by
  obtain ⟨keys, hkeys, rfl⟩ := nameBytes_eq_ok_iff.mp h
  have htag := (Siv.length_wrap keys (pad namePadding (Bytes.ofText s))).2
  simp only [bind, Except.bind, openNameBytes, hkeys, Bytes.dropLast_append _ _ htag,
    Bytes.takeLast_append _ _ htag, Siv.unwrap?_wrap, unpad_pad namePadding _ (by decide) (by decide),
    decodeText_ofText]

theorem sealName_eq_ok_iff {s x : String} :
    sealName key s = .ok x ↔ ∃ bs, nameBytes key s = .ok bs ∧ Base64.encode bs = x := by
  rw [sealName]
  cases nameBytes key s <;> simp [Except.map]

theorem openName_sealName {s x : String} (h : sealName key s = .ok x) : openName key x = .ok s := by
  obtain ⟨bs, hb, rfl⟩ := sealName_eq_ok_iff.mp h
  simp only [openName, decodeBase64_encode, bind, Except.bind, openNameBytes_nameBytes hb]

end Cipher

/-! ### Numbers -/

namespace Ope

theorem has_iff {r : Range} {n : Int} : r.has n = true ↔ r.lo ≤ n ∧ n ≤ r.hi := by
  rw [Range.has, Bool.and_eq_true, decide_eq_true_eq, decide_eq_true_eq]

theorem middle_bounds {r : Range} (h : r.isEmpty = false) : r.lo ≤ middle r ∧ middle r ≤ r.hi := by
  simp only [Range.isEmpty, decide_eq_false_iff_not] at h
  simp only [middle, Range.size]
  omega

/-- A number is sealed within the range that its walk starts in, and walking back takes the same
halves: what is sealed in the lower half is not beyond the middle. -/
theorem decryptIn_encryptIn {key : Bytes} {n x : Int} {fuel : Nat} {plain coded : Range}
    (hplain : plain.has n = true) (hcoded : coded.isEmpty = false)
    (h : encryptIn key n fuel plain coded = .ok x) :
    coded.has x = true ∧ decryptIn key x fuel plain coded = .ok n := by
  induction fuel generalizing plain coded with
  | zero => cases h
  | succ fuel ih =>
    obtain ⟨hlo, hhi⟩ := has_iff.mp hplain
    obtain ⟨hmlo, hmhi⟩ := middle_bounds hcoded
    unfold encryptIn at h
    unfold decryptIn
    by_cases hone : plain.size = 1
    · rw [if_pos hone] at h ⊢
      have hn : plain.lo = n := by
        rw [Range.size] at hone
        omega
      cases h
      have hplace := Tape.le_uniform (Tape.ofNumber key n) 0 coded.lo coded.hi (by omega)
      exact ⟨has_iff.mpr hplace, by rw [hn, if_pos rfl]⟩
    · rw [if_neg hone] at h ⊢
      by_cases hn : n ≤ divide key plain coded
      · have hlower : (⟨plain.lo, divide key plain coded⟩ : Range).has n = true :=
          has_iff.mpr ⟨hlo, hn⟩
        simp only [half, hn, decide_true, if_true] at h ⊢
        split at h
        · cases h
        · rename_i hfull
          obtain ⟨hx, hback⟩ := ih hlower (by simp_all) h
          obtain ⟨hxlo, hxhi⟩ : coded.lo ≤ x ∧ x ≤ middle coded := has_iff.mp hx
          simp only [hxhi, decide_true, if_true]
          exact ⟨has_iff.mpr ⟨hxlo, by omega⟩, by rw [if_neg hfull, hback]⟩
      · have hbehind : divide key plain coded + 1 ≤ n := by omega
        have hupper : (⟨divide key plain coded + 1, plain.hi⟩ : Range).has n = true :=
          has_iff.mpr ⟨hbehind, hhi⟩
        simp only [half, hn, decide_false, Bool.false_eq_true, if_false] at h ⊢
        split at h
        · cases h
        · rename_i hfull
          obtain ⟨hx, hback⟩ := ih hupper (by simp_all) h
          obtain ⟨hxlo, hxhi⟩ : middle coded + 1 ≤ x ∧ x ≤ coded.hi := has_iff.mp hx
          have hbeyond : ¬ x ≤ middle coded := by omega
          simp only [hbeyond, decide_false, Bool.false_eq_true, if_false]
          exact ⟨has_iff.mpr ⟨by omega, hxhi⟩, by rw [if_neg hfull, hback]⟩

theorem decrypt_encrypt {key : Bytes} {n x : Int} (h : encrypt key n = .ok x) :
    decrypt key x = .ok n := by
  unfold encrypt at h
  split at h
  · rename_i hn
    obtain ⟨hx, hback⟩ := decryptIn_encryptIn hn rfl h
    rw [decrypt, if_pos hx, hback]
  · cases h

end Ope

namespace Cipher

theorem openNumber_sealNumber {key : Bytes} {n x : Int} (h : sealNumber key n = .ok x) :
    openNumber key x = .ok n := by
  unfold sealNumber at h
  split at h
  · rename_i hx
    cases h
    rw [openNumber, Ope.decrypt_encrypt hx]
  · cases h

end Cipher

/-! ### Texts -/

def AsciiText (s : String) : Prop := ∀ c ∈ s.toList, c.toNat < 128

instance (s : String) : Decidable (AsciiText s) :=
  List.decidableBAll (fun c : Char => c.toNat < 128) s.toList

theorem AsciiText.length_ofText {s : String} (h : AsciiText s) : (Bytes.ofText s).length = s.length := by
  have hlist : ∀ cs : List Char, (∀ c ∈ cs, c.toNat < 128) →
      (cs.flatMap String.utf8EncodeChar).length = cs.length := by
    intro cs hcs
    induction cs with
    | nil => rfl
    | cons c cs ih =>
      have hone : (String.utf8EncodeChar c).length = 1 := by
        have hc : c.val.toNat ≤ 127 := Nat.le_of_lt_succ (hcs c (by simp))
        simp only [String.utf8EncodeChar, hc, if_true, List.length_singleton]
      rw [List.flatMap_cons, List.length_append, hone, ih fun c hc => hcs c (by simp [hc])]
      simp [Nat.add_comm]
  rw [Utf8.ofText_eq_flatMap, hlist _ h, String.length_toList]

namespace Base64

theorem decodeFrom_quote (g : Group) (pads : Nat) (done : Bytes) (cs : List Char) :
    decodeFrom g pads done ('"' :: cs) = decodeFrom g pads done cs := rfl

theorem decodeFrom_append_quote (g : Group) (pads : Nat) (done : Bytes) (cs : List Char) :
    decodeFrom g pads done (cs ++ ['"']) = decodeFrom g pads done cs := by
  induction cs generalizing g pads done with
  | nil => exact decodeFrom_quote g pads done []
  | cons c cs ih => simp only [List.cons_append, decodeFrom, ih]

theorem decode_quoted (bs : Bytes) : decode ("\"" ++ encode bs ++ "\"") = .ok bs := by
  have hlist : ("\"" ++ encode bs ++ "\"").toList = '"' :: (encodeChars bs ++ ['"']) := by
    simp [encode]
  have hascii : ('"' :: (encodeChars bs ++ ['"'])).all (fun c => c.toNat < 128) = true := by
    simpa using ascii_encodeChars bs
  rw [decode, hlist, if_pos hascii, decodeFrom_quote, decodeFrom_append_quote, decodeFrom_encodeChars]
  rfl

end Base64

namespace Cipher

theorem toNat_ofNat_four {n : Nat} (h : n < 2 ^ 32) : Bytes.toNat (Bytes.ofNat 4 n) = n := by
  simp only [Bytes.ofNat, List.range, List.range.loop, List.map_cons, List.map_nil, Bytes.toNat,
    List.foldl_cons, List.foldl_nil, UInt8.toNat_ofNat', Nat.shiftRight_eq_div_pow]
  omega

theorem length_le_ofText (s : String) : s.length ≤ (Bytes.ofText s).length := by
  rw [Utf8.ofText_eq_flatMap, ← String.length_toList]
  exact Utf8.length_le_flatMap s.toList

theorem cutText_pad {s : String} (hlen : s.length < 2 ^ 32) :
    cutText (pad 16 (textBytes s)) = (Bytes.ofText s).take s.length := by
  have hwidth : (Bytes.ofNat 4 s.length).length = 4 := Bytes.length_ofNat 4 _
  unfold cutText pad textBytes
  rw [List.append_assoc, List.take_left' hwidth, List.drop_left' hwidth, toNat_ofNat_four hlen,
    List.take_append_of_le_length (length_le_ofText s)]

theorem nonce_of_sealWhole {key nonce nonce' : Bytes} {s t x : String} (hn : nonce.length = 16)
    (hn' : nonce'.length = 16) (hs : sealWhole key nonce s = .ok x)
    (ht : sealWhole key nonce' t = .ok x) : nonce = nonce' := by
  obtain ⟨-, _, -, hs⟩ := sealWhole_eq_ok_iff.mp hs
  obtain ⟨-, _, -, ht⟩ := sealWhole_eq_ok_iff.mp ht
  exact (List.append_inj (Base64.encode_injective (hs.trans ht.symm)) (hn.trans hn'.symm)).1

/-- What is opened is what its bytes say, up to as many bytes as there are characters. -/
theorem openText_eq_decodeText {key nonce : Bytes} {s x y : String} (hnonce : nonce.length = 16)
    (h : sealWhole key nonce s = .ok x) (hy : Base64.decode y = Base64.decode x) :
    openText key y = decodeText ((Bytes.ofText s).take s.length) := by
  obtain ⟨hlen, keys, hkeys, rfl⟩ := sealWhole_eq_ok_iff.mp h
  generalize hw : Gcm.wrap keys nonce (pad 16 (textBytes s)) = w at hy
  have hread := Gcm.unwrap?_wrap keys nonce (pad 16 (textBytes s))
  have htag := (Gcm.length_wrap keys nonce (pad 16 (textBytes s))).2
  rw [hw] at hread htag
  have hdecode : decodeBase64 y = .ok (nonce ++ w.1 ++ w.2) := by
    rw [decodeBase64, hy, Base64.decode_encode, List.append_assoc]
  have hfirst : (nonce ++ w.1 ++ w.2).take 16 = nonce := by
    rw [List.append_assoc, List.take_left' hnonce]
  have hfull : nonce.isEmpty = false := by
    cases nonce with
    | nil => cases hnonce
    | cons b bs => rfl
  simp only [openText, hdecode, bind, Except.bind, hfirst, hfull, Bool.false_eq_true, if_false, hkeys,
    Bytes.dropLast_append _ _ htag, Bytes.takeLast_append _ _ htag, List.drop_left' hnonce, hread,
    cutText_pad hlen]

theorem openText_of_decode {key nonce : Bytes} {s x y : String} (hs : AsciiText s)
    (hnonce : nonce.length = 16) (h : sealWhole key nonce s = .ok x)
    (hy : Base64.decode y = Base64.decode x) : openText key y = .ok s := by
  rw [openText_eq_decodeText hnonce h hy, List.take_of_length_le (Nat.le_of_eq hs.length_ofText),
    decodeText_ofText]

end Cipher

end MaskedTaint
