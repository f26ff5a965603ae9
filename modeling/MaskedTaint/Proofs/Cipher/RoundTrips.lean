import MaskedTaint.Proofs.Cipher.Opening

/-! Sealing and opening again. A name comes back whatever its characters are, so names that are
sealed alike are the same; the length of its sealed form tells only in which run of fifty lengths
its own one is. A whole text is cut by the number of its characters, but it is cut out of
its bytes; so it comes back if every character takes one byte, and in no other case. -/

namespace MaskedTaint

/-! ### Texts that are cut too early -/

namespace Utf8

theorem goodBytes_le (b : UInt8) (due seen : Nat) (bs : Bytes) : goodBytes b due seen bs ≤ bs.length := by
  fun_induction goodBytes b due seen bs with
  | case1 => exact Nat.zero_le _
  | case2 => exact Nat.zero_le _
  | case3 due seen b bs _ ih => exact Nat.succ_le_succ ih
  | case4 => exact Nat.zero_le _

/-- Every character takes at least one byte. -/
theorem length_le_of_decodeFrom {fuel pos : Nat} {done cs : List Char} {bs : Bytes}
    (h : decodeFrom fuel pos done bs = .ok cs) : cs.length ≤ done.length + bs.length := by
  fun_induction decodeFrom fuel pos done bs with
  | case1 =>
    cases h
    simp
  | case2 =>
    cases h
    simp
  | case3 => cases h
  | case4 fuel pos done b bs due hdue good hgood value ih =>
    have hle := ih h
    simp only [List.length_cons, List.length_drop] at hle ⊢
    omega
  | case5 => cases h
  | case6 => cases h

theorem following?_ne_zero : ∀ b : UInt8, ¬ b < 0x80 → following? b ≠ some 0 := by
  intro b hb
  unfold following?
  rw [if_neg hb]
  repeat' split
  all_goals simp

/-- A character that begins with such a byte takes more than one. -/
theorem length_lt_of_decodeFrom {fuel pos : Nat} {done cs : List Char} {b : UInt8} {bs : Bytes}
    (hb : ¬ b < 0x80) (h : decodeFrom fuel pos done (b :: bs) = .ok cs) :
    cs.length < done.length + (bs.length + 1) := by
  cases fuel with
  | zero =>
    cases h
    simp
  | succ fuel =>
    rw [decodeFrom] at h
    cases hdue : following? b with
    | none =>
      rw [hdue] at h
      cases h
    | some due =>
      rw [hdue] at h
      dsimp only at h
      split at h
      · rename_i hgood
        have hpos : due ≠ 0 := fun hzero => following?_ne_zero b hb (hzero ▸ hdue)
        have hroom := goodBytes_le b due 0 bs
        have hle := length_le_of_decodeFrom h
        simp only [List.length_cons, List.length_drop] at hle
        omega
      · split at h <;> cases h

theorem encodeChar_ascii {c : Char} (h : c.toNat < 128) :
    String.utf8EncodeChar c = [UInt8.ofNat c.toNat] := by
  have hc : c.val.toNat ≤ 127 := Nat.le_of_lt_succ h
  simp only [String.utf8EncodeChar, hc, if_true]
  rfl

theorem encodeChar_beyond {c : Char} (h : ¬ c.toNat < 128) :
    ∃ b bs, String.utf8EncodeChar c = b :: bs ∧ ¬ b < 0x80 := by
  have hc : ¬ c.val.toNat ≤ 127 := fun hle => h (Nat.lt_succ_of_le hle)
  have hhigh : ∀ n, 128 ≤ n → n < 256 → ¬ UInt8.ofNat n < 0x80 := by
    intro n hn hlt
    rw [UInt8.lt_iff_toNat_lt, toNat_ofNat hlt]
    exact Nat.not_lt.mpr hn
  unfold String.utf8EncodeChar
  simp only [hc, if_false]
  split
  · exact ⟨_, _, rfl, hhigh _ (by omega) (by omega)⟩
  · split
    iterate 2 exact ⟨_, _, rfl, hhigh _ (by omega) (by omega)⟩

/-- Cut to as many bytes as it has characters, a text with a wider character is not read back: up
to that character a byte is taken for each one, and from there on too few characters are left. -/
theorem decodeFrom_take_ne {cs : List Char} (h : ¬ ∀ c ∈ cs, c.toNat < 128) (fuel pos : Nat)
    (done : List Char) :
    decodeFrom fuel pos done ((cs.flatMap String.utf8EncodeChar).take cs.length) ≠
      .ok (done.reverse ++ cs) := by
  induction cs generalizing fuel pos done with
  | nil => exact absurd (List.forall_mem_nil _) h
  | cons c cs ih =>
    intro hread
    by_cases hc : c.toNat < 128
    · have hrest : ¬ ∀ c ∈ cs, c.toNat < 128 := fun hall => h (List.forall_mem_cons.mpr ⟨hc, hall⟩)
      have hone : ((c :: cs).flatMap String.utf8EncodeChar).take (cs.length + 1) =
          String.utf8EncodeChar c ++ (cs.flatMap String.utf8EncodeChar).take cs.length := by
        rw [List.flatMap_cons, encodeChar_ascii hc]
        rfl
      rw [List.length_cons, hone] at hread
      cases fuel with
      | zero =>
        have hlength := congrArg List.length (Except.ok.inj hread)
        simp at hlength
      | succ fuel =>
        rw [decodeFrom_char] at hread
        exact ih hrest fuel _ (c :: done) (by simpa using hread)
    · obtain ⟨b, bs, hbytes, hb⟩ := encodeChar_beyond hc
      rw [List.flatMap_cons, hbytes, List.cons_append, List.length_cons, List.take_succ_cons] at hread
      have hlt := length_lt_of_decodeFrom hb hread
      have hcut := List.length_take_le cs.length (bs ++ cs.flatMap String.utf8EncodeChar)
      simp only [List.length_append, List.length_reverse, List.length_cons] at hlt
      omega

end Utf8

namespace Cipher

theorem decodeText_take_iff (s : String) :
    decodeText ((Bytes.ofText s).take s.length) = .ok s ↔ AsciiText s := by
  refine ⟨fun h => ?_, fun hs => ?_⟩
  · by_cases hs : AsciiText s
    · exact hs
    have hread : Utf8.decode ((Bytes.ofText s).take s.length) = .ok s := by
      unfold decodeText at h
      split at h
      · cases h
        assumption
      · cases h
    rw [Utf8.decode, Utf8.ofText_eq_flatMap, ← String.length_toList] at hread
    refine absurd ?_ (Utf8.decodeFrom_take_ne hs (((s.toList.flatMap String.utf8EncodeChar).take
      s.toList.length).length + 1) 0 [])
    generalize Utf8.decodeFrom _ 0 [] _ = r at hread ⊢
    cases r with
    | error e => cases hread
    | ok cs =>
      rw [← Except.ok.inj hread, String.toList_ofList]
      rfl
  · rw [List.take_of_length_le (Nat.le_of_eq hs.length_ofText), decodeText_ofText]

/-- A whole text that is sealed can be opened, also in the quotes of a file; what comes out is read
from as many bytes as the text has characters, which is the text if they all take one byte and
something else, or a fault, if not. -/
theorem sealWhole_opens_iff (key nonce : Bytes) (s : String) (hkey : key.length = 32)
    (hnonce : nonce.length = 16) (hlen : s.length < 2 ^ 32) :
    ∃ x, sealWhole key nonce s = .ok x ∧
      openText key x = decodeText ((Bytes.ofText s).take s.length) ∧
      openText key ("\"" ++ x ++ "\"") = decodeText ((Bytes.ofText s).take s.length) ∧
      (openText key x = .ok s ↔ AsciiText s) := by
  obtain ⟨x, hx⟩ := exists_sealWhole (hkey ▸ rfl : Aes.isKeyLength key.length) nonce hlen
  have hopen := openText_eq_decodeText hnonce hx rfl
  have hquoted : Base64.decode ("\"" ++ x ++ "\"") = Base64.decode x := by
    obtain ⟨-, _, -, rfl⟩ := sealWhole_eq_ok_iff.mp hx
    rw [Base64.decode_quoted, Base64.decode_encode]
  refine ⟨x, hx, hopen, openText_eq_decodeText hnonce hx hquoted, ?_⟩
  rw [hopen, decodeText_take_iff]

theorem sealWhole_opens_iff_path : ∃ x,
    sealWhole (List.replicate 32 7) (List.replicate 16 1) "src/index.php" = .ok x ∧
    AsciiText "src/index.php" ∧ openText (List.replicate 32 7) x = .ok "src/index.php" := by
  obtain ⟨x, hx, -, -, hiff⟩ := sealWhole_opens_iff (List.replicate 32 7) (List.replicate 16 1)
    "src/index.php" rfl rfl (by decide)
  exact ⟨x, hx, by decide, hiff.mpr (by decide)⟩

/-- The only character of this text takes two bytes, of which the first alone is read. -/
theorem exists_text_unopened : ∃ x,
    sealWhole (List.replicate 32 7) (List.replicate 16 1) "é" = .ok x ∧
    openText (List.replicate 32 7) x = .error (.utf8 ⟨0, 1, 0xc3, .endOfData⟩) := by
  have hkey : Aes.isKeyLength (List.replicate 32 7 : Bytes).length := rfl
  obtain ⟨x, hx⟩ := exists_sealWhole hkey (List.replicate 16 1) (by decide : "é".length < 2 ^ 32)
  have hbytes : (Bytes.ofText "é").take "é".length = [0xc3] := by decide +kernel
  refine ⟨x, hx, ?_⟩
  rw [openText_eq_decodeText rfl hx rfl, hbytes]
  rfl

/-! ### Names -/

/-- A sealed name opens to the name, so names that are sealed alike are the same name. -/
theorem openNameBytes_sealName (key : Bytes) (s : String) (hkey : key.length = 32) :
    ∃ x bs, sealName key s = .ok x ∧ decodeBase64 x = .ok bs ∧ openNameBytes key bs = .ok s ∧
      ∀ t, sealName key t = sealName key s ↔ t = s := by
  have hkeys : nameKeys key = .ok (Siv.keysOf key) := by
    rw [nameKeys, hkey]
    rfl
  obtain ⟨bs, hbs⟩ : ∃ bs, nameBytes key s = .ok bs := ⟨_, nameBytes_eq_ok_iff.mpr ⟨_, hkeys, rfl⟩⟩
  have hseal : sealName key s = .ok (Base64.encode bs) := by
    rw [sealName, hbs]
    rfl
  refine ⟨_, bs, hseal, decodeBase64_encode bs, openNameBytes_nameBytes hbs, fun t => ⟨fun h => ?_, ?_⟩⟩
  · have ht := openName_sealName (h.trans hseal)
    rw [openName_sealName hseal] at ht
    exact (Except.ok.inj ht).symm
  · rintro rfl
    rfl

/-- A name of fifty bytes, so that a whole block of padding is added. -/
def fullBlock : String := String.ofList (List.replicate 25 'é')

theorem openNameBytes_sealName_fullBlock : (Bytes.ofText fullBlock).length = 50 ∧
    ∃ x bs, sealName (List.replicate 32 7) fullBlock = .ok x ∧ decodeBase64 x = .ok bs ∧
      openNameBytes (List.replicate 32 7) bs = .ok fullBlock := by
  refine ⟨by decide +kernel, ?_⟩
  obtain ⟨x, bs, hx, hbs, hopen, -⟩ := openNameBytes_sealName (List.replicate 32 7) fullBlock rfl
  exact ⟨x, bs, hx, hbs, hopen⟩

/-! ### Lengths -/

/-- A sealed name is as long as the number of whole blocks in the name makes it (four characters for
each three bytes begun), whatever the key and the characters are: names of one block more get longer
texts, names of the same number get texts of the same length. For a name below fifty bytes that is
the length of every label. -/
theorem length_sealName (key : Bytes) (s : String) (hkey : Siv.isKeyLength key.length) :
    ∃ x, sealName key s = .ok x ∧
      x.length = 4 * ((50 * ((Bytes.ofText s).length / 50 + 1) + 16 + 2) / 3) ∧
      ((Bytes.ofText s).length < 50 → x.length = 88 ∧ ∀ key' t, (label key' t).length = 88) ∧
      ∀ key' t y, sealName key' t = .ok y →
        (y.length = x.length ↔ (Bytes.ofText t).length / 50 = (Bytes.ofText s).length / 50) := by
  have hlength : ∀ key s x, sealName key s = .ok x →
      x.length = 4 * ((50 * ((Bytes.ofText s).length / 50 + 1) + 16 + 2) / 3) := by
    intro key s x hx
    obtain ⟨bs, hbs, rfl⟩ := sealName_eq_ok_iff.mp hx
    rw [Base64.length_encode, length_nameBytes hbs]
  obtain ⟨bs, hbs⟩ := exists_nameBytes hkey s
  have hx : sealName key s = .ok (Base64.encode bs) := sealName_eq_ok_iff.mpr ⟨bs, hbs, rfl⟩
  have hlen := hlength key s _ hx
  refine ⟨_, hx, hlen, fun hshort => ⟨?_, fun key' t => ?_⟩, fun key' t y hy => ?_⟩
  · rw [hlen, Nat.div_eq_of_lt hshort]
  · rw [label, Base64.length_encode, length_labelBytes]
  · rw [hlength key' t y hy, hlen]
    omega

/-- Fifty bytes are a block more than the forty-nine of the longest name that looks like a label. -/
theorem length_sealName_blocks : ∃ x y,
    sealName (List.replicate 32 7) (String.ofList (List.replicate 49 'a')) = .ok x ∧
    sealName (List.replicate 48 7) fullBlock = .ok y ∧ x.length = 88 ∧ y.length = 156 := by
  have hshort : (Bytes.ofText (String.ofList (List.replicate 49 'a'))).length = 49 := by decide +kernel
  have hfull : (Bytes.ofText fullBlock).length = 50 := by decide +kernel
  obtain ⟨x, hx, -, hlabels, -⟩ := length_sealName (List.replicate 32 7)
    (String.ofList (List.replicate 49 'a')) (by decide)
  obtain ⟨y, hy, hlen, -, -⟩ := length_sealName (List.replicate 48 7) fullBlock (by decide)
  refine ⟨x, y, hx, hy, (hlabels (by rw [hshort]; decide)).1, ?_⟩
  rw [hlen, hfull]

end Cipher

end MaskedTaint
