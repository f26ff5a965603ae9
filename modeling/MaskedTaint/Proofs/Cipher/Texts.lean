import Mathlib.Algebra.Group.Nat.Defs
import MaskedTaint.Cipher.Seal

/-! Sealed texts can be told apart. Reading base 64 gives back what was written, and a text
sealed with a nonce of sixteen bytes is fixed by its sealed form. -/

namespace MaskedTaint

namespace Base64

theorem digit_spec (n : Nat) (h : n < 64) :
    digit n ≠ '=' ∧ digit n ≠ ',' ∧ (digit n).toNat < 128 ∧ value? (digit n) = some n := by
  revert n
  decide

theorem byte_lt (a : UInt8) : a.toNat < 256 := a.toNat_lt

theorem mem_encodeChars {bs : Bytes} {c : Char} (h : c ∈ encodeChars bs) :
    c = '=' ∨ ∃ n < 64, c = digit n := by
  fun_induction encodeChars bs with
  | case1 => simp at h
  | case2 a =>
    have ha := byte_lt a
    simp only [List.mem_cons, List.not_mem_nil, or_false] at h
    rcases h with rfl | rfl | rfl | rfl
    iterate 2 exact .inr ⟨_, by omega, rfl⟩
    iterate 2 exact .inl rfl
  | case3 a b =>
    have ha := byte_lt a
    have hb := byte_lt b
    simp only [List.mem_cons, List.not_mem_nil, or_false] at h
    rcases h with rfl | rfl | rfl | rfl
    iterate 3 exact .inr ⟨_, by omega, rfl⟩
    · exact .inl rfl
  | case4 a b c bs ih =>
    have ha := byte_lt a
    have hb := byte_lt b
    have hc := byte_lt c
    simp only [List.mem_cons] at h
    rcases h with rfl | rfl | rfl | rfl | h
    iterate 4 exact .inr ⟨_, by omega, rfl⟩
    · exact ih h

theorem comma_not_mem_encode (bs : Bytes) : ',' ∉ (encode bs).toList := by
  rw [encode, String.toList_ofList]
  intro h
  rcases mem_encodeChars h with h | ⟨n, hn, h⟩
  · exact absurd h (by decide)
  · exact (digit_spec n hn).2.1 h.symm

theorem decodeFrom_digit {n : Nat} (h : n < 64) (g : Group) (pads : Nat) (done : Bytes)
    (cs : List Char) : decodeFrom g pads done (digit n :: cs) =
      decodeFrom (g.push n).2 0 ((g.push n).1.toList ++ done) cs := by
  obtain ⟨hpad, _, _, hvalue⟩ := digit_spec n h
  rw [decodeFrom, if_neg hpad, hvalue]
  cases g <;> rfl

theorem byte_eq {a : UInt8} {n : Nat} (h : n = a.toNat) : UInt8.ofNat n = a := by
  subst h
  exact UInt8.ofNat_toNat

theorem decodeFrom_encodeChars (bs done : Bytes) :
    decodeFrom .none 0 done (encodeChars bs) = .ok (done.reverse ++ bs) := by
  fun_induction encodeChars bs generalizing done with
  | case1 => simp [decodeFrom]
  | case2 a =>
    have ha := byte_lt a
    have hfirst : UInt8.ofNat (a.toNat / 4 * 4 + a.toNat % 4 * 16 / 16) = a := byte_eq (by omega)
    rw [decodeFrom_digit (by omega), decodeFrom_digit (by omega)]
    simp only [Group.push, hfirst, Option.toList, List.cons_append, List.nil_append]
    simp [decodeFrom, Group.digits]
  | case3 a b =>
    have ha := byte_lt a
    have hb := byte_lt b
    have hfirst : UInt8.ofNat (a.toNat / 4 * 4 + (a.toNat % 4 * 16 + b.toNat / 16) / 16) = a :=
      byte_eq (by omega)
    have hsecond : UInt8.ofNat ((a.toNat % 4 * 16 + b.toNat / 16) % 16 * 16 +
        b.toNat % 16 * 4 / 4) = b := byte_eq (by omega)
    rw [decodeFrom_digit (by omega), decodeFrom_digit (by omega), decodeFrom_digit (by omega)]
    simp only [Group.push, hfirst, hsecond, Option.toList, List.cons_append, List.nil_append]
    simp [decodeFrom, Group.digits]
  | case4 a b c bs ih =>
    have ha := byte_lt a
    have hb := byte_lt b
    have hc := byte_lt c
    have hfirst : UInt8.ofNat (a.toNat / 4 * 4 + (a.toNat % 4 * 16 + b.toNat / 16) / 16) = a :=
      byte_eq (by omega)
    have hsecond : UInt8.ofNat ((a.toNat % 4 * 16 + b.toNat / 16) % 16 * 16 +
        (b.toNat % 16 * 4 + c.toNat / 64) / 4) = b := byte_eq (by omega)
    have hthird : UInt8.ofNat ((b.toNat % 16 * 4 + c.toNat / 64) % 4 * 64 + c.toNat % 64) = c :=
      byte_eq (by omega)
    rw [decodeFrom_digit (by omega), decodeFrom_digit (by omega), decodeFrom_digit (by omega),
      decodeFrom_digit (by omega)]
    simp only [Group.push, hfirst, hsecond, hthird, Option.toList, List.cons_append,
      List.nil_append, ih]
    simp

theorem ascii_encodeChars (bs : Bytes) : (encodeChars bs).all (fun c => c.toNat < 128) = true := by
  refine List.all_eq_true.mpr fun c hc => decide_eq_true ?_
  rcases mem_encodeChars hc with rfl | ⟨n, hn, rfl⟩
  · decide
  · exact (digit_spec n hn).2.2.1

theorem decode_encode (bs : Bytes) : decode (encode bs) = .ok bs := by
  rw [decode, encode, String.toList_ofList, if_pos (ascii_encodeChars bs), decodeFrom_encodeChars]
  rfl

theorem encode_injective {a b : Bytes} (h : encode a = encode b) : a = b := by
  have hread := congrArg decode h
  rw [decode_encode, decode_encode] at hread
  exact Except.ok.inj hread

end Base64

namespace Cipher

theorem pad_injective {size : Nat} (h : 0 < size) (h' : size < 256) {a b : Bytes}
    (hab : pad size a = pad size b) : a = b := by
  have hread := congrArg (unpad size) hab
  rw [unpad_pad _ _ h h', unpad_pad _ _ h h'] at hread
  exact Except.ok.inj hread

theorem toList_loop (bs : ByteArray) (i : Nat) (r : Bytes) :
    ByteArray.toList.loop bs i r = r.reverse ++ bs.data.toList.drop i := by
  fun_induction ByteArray.toList.loop bs i r with
  | case1 i r h ih =>
    have hlt : i < bs.data.toList.length := by simpa using h
    have hget : bs.get! i = bs.data.toList[i] := getElem!_pos bs.data i h
    rw [ih, List.drop_eq_getElem_cons hlt, hget]
    simp
  | case2 i r h =>
    have hle : bs.data.toList.length ≤ i := by simpa using h
    rw [List.drop_eq_nil_of_le hle, List.append_nil]

variable {s t x : String} {key nonce : Bytes}

theorem ofText_injective (h : Bytes.ofText s = Bytes.ofText t) : s = t := by
  have hdata : s.toByteArray.data.toList = t.toByteArray.data.toList := by
    simpa only [Bytes.ofText, ByteArray.toList, toList_loop] using! h
  exact String.toByteArray_inj.mp (ByteArray.ext (Array.toList_inj.mp hdata))

theorem textBytes_injective (h : textBytes s = textBytes t) : s = t := by
  refine ofText_injective (List.append_inj_right h ?_)
  rw [Bytes.length_ofNat, Bytes.length_ofNat]

theorem sealWhole_eq_ok_iff : sealWhole key nonce s = .ok x ↔ s.length < 2 ^ 32 ∧
    ∃ keys, textKeys key = .ok keys ∧ Base64.encode (nonce ++
      ((Gcm.wrap keys nonce (pad 16 (textBytes s))).1 ++
        (Gcm.wrap keys nonce (pad 16 (textBytes s))).2)) = x := by
  unfold sealWhole
  rcases textKeys key with e | keys
  · simp [bind, Except.bind]
  · by_cases hs : s.length < 4294967296 <;> simp [bind, Except.bind, pure, Except.pure, hs]

theorem sealWhole_injective {nonce' : Bytes}
    (hn : nonce.length = 16) (hn' : nonce'.length = 16) (hs : sealWhole key nonce s = .ok x)
    (ht : sealWhole key nonce' t = .ok x) : s = t := by
  obtain ⟨-, keys, hkeys, hs⟩ := sealWhole_eq_ok_iff.mp hs
  obtain ⟨-, keys', hkeys', ht⟩ := sealWhole_eq_ok_iff.mp ht
  obtain rfl : keys = keys' := Except.ok.inj (hkeys.symm.trans hkeys')
  have hbytes := Base64.encode_injective (hs.trans ht.symm)
  obtain ⟨rfl, hsealed⟩ := List.append_inj hbytes (hn.trans hn'.symm)
  have htags : ∀ m m' : Bytes, (Gcm.wrap keys nonce m).2.length = (Gcm.wrap keys nonce m').2.length :=
    fun m m' => (Gcm.length_wrap keys nonce m).2.trans (Gcm.length_wrap keys nonce m').2.symm
  obtain ⟨hcoded, htag⟩ := List.append_inj' hsealed (htags _ _)
  have hread := Gcm.unwrap?_wrap keys nonce (pad 16 (textBytes s))
  rw [hcoded, htag, Gcm.unwrap?_wrap] at hread
  exact textBytes_injective (pad_injective (by decide) (by decide) (Option.some.inj hread).symm)

theorem exists_sealWhole (h : Aes.isKeyLength key.length) (nonce : Bytes) (hs : s.length < 2 ^ 32) :
    ∃ x, sealWhole key nonce s = .ok x := by
  have hkeys : textKeys key = .ok (Aes.schedule key) := if_pos h
  exact ⟨_, sealWhole_eq_ok_iff.mpr ⟨hs, _, hkeys, rfl⟩⟩

theorem comma_not_mem_sealWhole (h : sealWhole key nonce s = .ok x) : ',' ∉ x.toList := by
  obtain ⟨-, _, -, rfl⟩ := sealWhole_eq_ok_iff.mp h
  exact Base64.comma_not_mem_encode _

end Cipher

end MaskedTaint
