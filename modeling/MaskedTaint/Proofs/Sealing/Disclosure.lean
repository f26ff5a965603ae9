import MaskedTaint.Proofs.Sealing.Refusals

/-! Disclosure: a token that was sealed, reported and written comes back from the report as what
it says itself, with the arguments of its calls down to the last. -/

namespace MaskedTaint

namespace Token

mutual

def told : Token → Finding
  | site _ m => .mk m.kind (.text m.line.render) m.pos m.file none none
  | jump _ m target [] => .mk m.kind (.text m.line.render) m.pos m.file (some target) none
  | jump _ m target (a :: args) =>
    .mk m.kind (.text m.line.render) m.pos m.file (some target) (some (told a :: toldAll args))

def toldAll : List Token → List Finding
  | [] => []
  | t :: ts => told t :: toldAll ts

end

/-- Calls are of the kind of calls; other tokens are inputs, or their kind is no special one. -/
def Plain : Token → Prop
  | site _ m => m.kind = Special.input.name ∨ ¬ Special.isName m.kind = true
  | jump _ m _ _ => m.kind = Special.call.name

instance : (t : Token) → Decidable t.Plain
  | site _ _ => inferInstanceAs (Decidable (_ ∨ _))
  | jump _ _ _ _ => inferInstanceAs (Decidable (_ = _))

theorem Plain.regular {t : Token} (h : t.Plain) : t.Regular := by
  cases t with
  | jump i m g as => exact h
  | site i m =>
    rcases h with hinput | hname
    · exact ⟨by rw [hinput]; decide, by rw [hinput]; decide⟩
    · exact ⟨fun hcall => hname (by rw [hcall]; decide), fun hcall => hname (by rw [hcall]; decide)⟩

theorem Plain.opens {t : Token} (h : t.Plain) : t.Opens := by
  cases t with
  | jump i m g as => exact fun _ => .inr h
  | site i m =>
    rcases h with hinput | hname
    · exact fun _ => .inl hinput
    · exact fun hspecial => absurd hspecial hname

end Token

namespace Finding

mutual

theorem normal_ofToken : ∀ t : Token, (ofToken t).normal = t.told
  | .site i m => rfl
  | .jump i m target [] => rfl
  | .jump i m target (a :: args) => by
    rw [ofToken, normal, Token.told, normal_ofToken a, normalAll_ofTokens args]

theorem normalAll_ofTokens : ∀ ts : List Token, normalAll (ofTokens ts) = Token.toldAll ts
  | [] => rfl
  | t :: ts => by rw [ofTokens, normalAll, Token.toldAll, normal_ofToken t, normalAll_ofTokens ts]

end

theorem read_toJson (f : Finding) (width : Nat) : ∃ v,
    Value.read .findings ((toJson f).render (some width)) = .ok v ∧ ofValue? v = some f := by
  obtain ⟨v, n, hdecode, hv⟩ := decode_toJson f 0
  refine ⟨v, ?_, hv⟩
  rw [Value.read, Json.parse?_render (distinct_toJson f)]
  simp only [hdecode, Except.map]

end Finding

namespace Suite

variable (secret shared : String) {number openNumber : Int → Except CipherError Int}

theorem inverts_ofPasswords (h : ∀ n x, number n = .ok x → openNumber x = .ok n) :
    (ofPasswords secret shared number openNumber).Inverts where
  name := (inverts_ofKeys (Keys.ofPasswords secret shared)).name
  number := h
  text := (inverts_ofKeys (Keys.ofPasswords secret shared)).text

theorem tellsKinds_ofPasswords (h : Cipher.label (Cipher.keyOf shared) Special.input.name ≠
      Cipher.label (Cipher.keyOf shared) Special.call.name) (names : List String) :
    (ofPasswords secret shared number openNumber).TellsKinds names where
  labels := h
  apart s _ := by
    -- such a name could be opened, and a label cannot
    have hname : ∀ p : Special, (ofKeys (Keys.ofPasswords secret shared)).name s ≠
        .ok ((ofKeys (Keys.ofPasswords secret shared)).label p.name) := fun p hp =>
      rejects_ofKeys _ p s ((inverts_ofKeys _).name _ _ hp)
    exact ⟨hname .input, hname .call⟩

end Suite

namespace Sealing

/-- A token sealed with passwords is opened from its report to what it says itself. -/
theorem sealToken_told (secret shared : String) {number openNumber : Int → Except CipherError Int}
    (hnumber : ∀ n, -1 ≤ n → n ≤ 2 ^ 19 - 2 → ∃ x, number n = .ok x)
    (hopen : ∀ n x, number n = .ok x → openNumber x = .ok n)
    (hlabels : Cipher.label (Cipher.keyOf shared) Special.input.name ≠
      Cipher.label (Cipher.keyOf shared) Special.call.name)
    {nonces : Nat → Bytes} (hnonces : ∀ n, (nonces n).length = 16) {t : Token}
    (hrange : ∀ u ∈ t.occurrences,
      ∀ n ∈ [u.mark.pos, u.mark.depth, u.mark.order, u.mark.flow], -1 ≤ n ∧ n ≤ 2 ^ 19 - 2)
    (hfile : ∀ u ∈ t.occurrences, AsciiText u.mark.file ∧ u.mark.file.length < 2 ^ 32)
    (hplain : ∀ u ∈ t.occurrences, u.Plain) (first width : Nat) :
    let s := Suite.ofPasswords secret shared number openNumber
    ∃ t' next v f, sealToken nonces s.toCiphers t first = (.ok t', next) ∧
      Value.read .findings ((Finding.ofToken t').toJson.render (some width)) = .ok v ∧
      Finding.ofValue? v = some f ∧ f.opened s = .ok t.told := by
  intro s
  let names := t.occurrences.flatMap Token.names
  have htotal : s.Total names := Suite.total_ofPasswords secret shared openNumber
    (fun n hn => hnumber n (Ope.has_plainNumbers.mp hn).1 (Ope.has_plainNumbers.mp hn).2) names
  have hnames : ∀ u ∈ t.occurrences, u.names ⊆ names := fun u hu _ hx =>
    List.mem_flatMap.mpr ⟨u, hu, hx⟩
  have hsealed : ∃ t' next, sealToken nonces s.toCiphers t first = (.ok t', next) :=
    exists_sealToken htotal t first
      fun u hu => ⟨hnames u hu, Token.inRange_iff.mpr (hrange u hu), (hfile u hu).2⟩
  obtain ⟨t', next, hseal⟩ := hsealed
  obtain ⟨v, hread, hv⟩ := Finding.read_toJson (Finding.ofToken t') width
  refine ⟨t', next, v, Finding.ofToken t', hseal, hread, hv, ?_⟩
  rw [← Finding.normal_ofToken]
  exact Finding.opened_sealed (Suite.inverts_ofPasswords secret shared hopen)
    (Suite.tellsKinds_ofPasswords secret shared hlabels names) t t'
    (sealedAs_of_sealToken hnonces t hseal)
    (fun u hu => ⟨(hplain u hu).regular, hnames u hu, hfile u hu⟩) fun u hu => (hplain u hu).opens

def deepCall : Token :=
  let mark (kind : String) (line pos flow : Int) : Mark :=
    ⟨kind, .number line, pos, 0, 0, flow, .number 0, "m.php", "lib/m.php"⟩
  .jump 0 (mark "FUNC_CALL" 3 0x7fffe (-1)) "FUNC1"
    [.site 1 (mark "VAR1" 3 20 0), .jump 2 (mark "FUNC_CALL" 3 26 0) "FUNC2" [],
      .jump 3 (mark "FUNC_CALL" 4 28 0) "FUNC3" [.site 4 (mark "INPUT" 4 33 0)]]

theorem keyOf_shared : Cipher.keyOf "shared" = sharedKey := by decide +kernel

theorem hmac_of_digests {key message outer : Bytes} (inner : Bytes)
    (h : Sha256.digest ((Sha256.blockKey key).map (· ^^^ 0x36) ++ message) = inner)
    (h' : Sha256.digest ((Sha256.blockKey key).map (· ^^^ 0x5c) ++ inner) = outer) :
    Sha256.hmac key message = outer := by
  rw [Sha256.hmac, h, h']

-- one digest at a time: the kernel keeps what it computes for a step until the step is done
theorem hmac_input : Sha256.hmac sharedKey (Bytes.ofText Special.input.name) = Bytes.ofNat 32
    0xb1cb19456f5d235eea5a5c1dc06f11686a43ab5d186ec368c7b119682979530d :=
  hmac_of_digests (Bytes.ofNat 32 0xf121cfd962c2415bb4b44fcc2ceea30cec2f9f7fe7502c23a8f85d2b5d51e27a)
    (by decide +kernel) (by decide +kernel)

theorem hmac_call : Sha256.hmac sharedKey (Bytes.ofText Special.call.name) = Bytes.ofNat 32
    0xc08569c88d74e634650cd407beecccfcf082ed613787262b7f92607755992cf0 :=
  hmac_of_digests (Bytes.ofNat 32 0x0267f66dbf7e80f39d0c4d6f928ef7b8bb20772e70632fa04d6b9095d2b8ec4c)
    (by decide +kernel) (by decide +kernel)

theorem labels_shared : Cipher.label (Cipher.keyOf "shared") Special.input.name ≠
    Cipher.label (Cipher.keyOf "shared") Special.call.name := by
  intro heq
  have hbytes := Base64.encode_injective heq
  rw [keyOf_shared, Cipher.labelBytes, Cipher.labelBytes, hmac_input, hmac_call] at hbytes
  exact absurd hbytes (by decide +kernel)

theorem sealToken_told_deepCall :
    let s := Suite.ofPasswords "secret" "shared" sealInRange openInRange
    (∀ n x, sealInRange n = .ok x → openInRange x = .ok n) ∧
    (∀ u ∈ deepCall.occurrences, u.Plain) ∧
    ∃ t next v f, sealToken (Bytes.ofNat 16) s.toCiphers deepCall 0 = (.ok t, next) ∧
      Value.read .findings ((Finding.ofToken t).toJson.render (some 4)) = .ok v ∧
      Finding.ofValue? v = some f ∧ f.opened s =
        .ok (.mk "FUNC_CALL" (.text "3") 0x7fffe "lib/m.php" (some "FUNC1") (some
          [.mk "VAR1" (.text "3") 20 "lib/m.php" none none,
            .mk "FUNC_CALL" (.text "3") 26 "lib/m.php" (some "FUNC2") none,
            .mk "FUNC_CALL" (.text "4") 28 "lib/m.php" (some "FUNC3") (some
              [.mk "INPUT" (.text "4") 33 "lib/m.php" none none])])) := by
  have hplain : ∀ u ∈ deepCall.occurrences, u.Plain := by decide
  have hrange : ∀ u ∈ deepCall.occurrences,
      ∀ n ∈ [u.mark.pos, u.mark.depth, u.mark.order, u.mark.flow], -1 ≤ n ∧ n ≤ 2 ^ 19 - 2 := by
    decide
  have hfile : ∀ u ∈ deepCall.occurrences, AsciiText u.mark.file ∧ u.mark.file.length < 2 ^ 32 := by
    decide +kernel
  exact ⟨openInRange_sealInRange, hplain,
    sealToken_told "secret" "shared" (fun n hlo hhi => (sealInRange_iff n).mpr ⟨hlo, hhi⟩)
      openInRange_sealInRange labels_shared (Bytes.length_ofNat 16) hrange hfile hplain 0 4⟩

end Sealing

end MaskedTaint
