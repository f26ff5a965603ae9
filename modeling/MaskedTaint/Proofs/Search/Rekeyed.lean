import Mathlib.Data.List.Nodup
import Mathlib.Data.Set.Function
import MaskedTaint.Proofs.Cipher.Texts
import MaskedTaint.Proofs.Flow.Occurrences
import MaskedTaint.Proofs.Search.Agreement
import MaskedTaint.Sealing.Structure

/-! Searching a structure under other names. If no two names of a structure get the same
key, then the search of the structure with these keys reports the paths that the search of
the structure itself reports, or fails as it does. -/

namespace MaskedTaint

namespace Structure

theorem nodup_keys {α β : Type} {key : String → String} {t : Table α} {f : String × α → β}
    (ht : t.names.Nodup) (hkey : Set.InjOn key {n | n ∈ t.names}) :
    ((t.map fun e => (key e.1, f e)).map Prod.fst).Nodup := by
  have hnodup := List.Nodup.map_on (f := key) (fun _ ha _ hb h => hkey ha hb h) ht
  rw [Table.names, List.map_map] at hnodup
  rwa [List.map_map]

theorem rekeyed_eq_map {key : String → String} {d : Structure} (hd : d.Distinct)
    (hkey : Set.InjOn key {n | n ∈ d.vocabulary}) :
    d.rekeyed key = d.map fun e => (key e.1, e.2.map fun l => (key l.1, l.2)) := by
  have hscope : ∀ e ∈ d, Table.ofEntries (e.2.entries.map fun l => (key l.1, l.2)) =
      e.2.map fun l => (key l.1, l.2) := by
    intro e he
    refine Table.ofEntries_of_nodup (nodup_keys (hd.2 e he) (hkey.mono fun n hn => ?_))
    obtain ⟨l, hl, rfl⟩ := List.mem_map.mp hn
    exact key_mem_vocabulary he hl
  have hmap : d.entries.map (fun e =>
      (key e.1, Table.ofEntries (e.2.entries.map fun l => (key l.1, l.2)))) =
      d.map fun e => (key e.1, e.2.map fun l => (key l.1, l.2)) :=
    List.map_congr_left fun e he => congrArg (Prod.mk (key e.1)) (hscope e he)
  refine (congrArg Table.ofEntries hmap).trans ?_
  refine Table.ofEntries_of_nodup (nodup_keys hd.1 (hkey.mono fun n hn => ?_))
  obtain ⟨e, he, rfl⟩ := List.mem_map.mp hn
  exact scope_mem_vocabulary he

end Structure

namespace Correspondence

def rekeying (key : String → String) (known : List String) : Correspondence where
  token t t' := t' = t ∧ ∀ u ∈ t.occurrences, u.mentions ⊆ known
  imported t t' := t' = t ∧ ∀ u ∈ t.occurrences, u.mentions ⊆ known
  scope n n' := n ∈ known ∧ n' = key n
  key n n' := n ∈ known ∧ n' = key n

variable {key : String → String} {known : List String}

theorem kind_known {t : Token} (ht : ∀ u ∈ t.occurrences, u.mentions ⊆ known) : t.kind ∈ known := by
  refine ht t t.mem_occurrences_self ?_
  cases t <;> simp [Token.mentions, Token.kind, Token.mark]

theorem scope_known {t : Token} (ht : ∀ u ∈ t.occurrences, u.mentions ⊆ known) :
    t.scope ∈ known := by
  refine ht t t.mem_occurrences_self ?_
  cases t <;> simp [Token.mentions, Token.scope, Token.mark]

theorem rekeying_key_iff (hkey : Set.InjOn key {n | n ∈ known}) {a a' b b' : String}
    (ha : a ∈ known ∧ a' = key a) (hb : b ∈ known ∧ b' = key b) : a = b ↔ a' = b' := by
  obtain ⟨ha, rfl⟩ := ha
  obtain ⟨hb, rfl⟩ := hb
  exact ⟨congrArg key, fun h => hkey ha hb h⟩

theorem rekeying_faithful (hkey : Set.InjOn key {n | n ∈ known})
    (hspecial : ∀ p : Special, p.name ∈ known) :
    (rekeying key known).Faithful .plain (.keyedBy key) where
  scope_iff _ _ _ _ ha hb := rekeying_key_iff hkey ha hb
  key_iff _ _ _ _ ha hb := rekeying_key_iff hkey ha hb
  place p := ⟨hspecial p, rfl⟩
  imports_ne _ hp := Lexicon.plain_place_ne_imports hp
  imported_of_token _ _ ht := ht
  token_of_imported _ _ _ _ _ _ ht := ht
  target t t' ht := by
    obtain ⟨rfl, ht⟩ := ht
    cases t' with
    | site i m => trivial
    | jump i m g as =>
      exact ⟨ht _ (Token.mem_occurrences_self _) (by simp [Token.mentions, Lexicon.plain]), rfl⟩
  args i m g as i' m' g' as' ht := by
    obtain ⟨heq, ht⟩ := ht
    cases heq
    refine List.forall₂_same.mpr fun a ha => ⟨rfl, fun u hu => ht u ?_⟩
    rw [Token.occurrences]
    exact List.mem_cons_of_mem _ (Token.mem_occurrencesIn.mpr ⟨a, ha, hu⟩)
  pos_iff a a' b b' ha hb := by rw [ha.1, hb.1]
  kind t t' ht := by
    obtain ⟨rfl, ht⟩ := ht
    exact ⟨kind_known ht, rfl⟩
  home t t' ht := by
    obtain ⟨rfl, ht⟩ := ht
    exact ⟨scope_known ht, rfl⟩
  word_iff t t' p ht := by rw [ht.1]; rfl
  home_iff a a' b b' ha hb := by rw [ha.1, hb.1]
  depth_iff a a' b b' ha hb := by rw [ha.1, hb.1]
  order_iff a a' b b' ha hb := by rw [ha.1, hb.1]
  flow_iff a a' b b' ha hb := by rw [ha.1, hb.1]
  split_iff a a' b b' ha hb := by rw [ha.1, hb.1]
  same a a' b b' ha hb := by rw [ha.1, hb.1]
  bound_site p p' a a' hp ha _ := by
    obtain ⟨rfl, _⟩ := hp
    obtain ⟨rfl, ha⟩ := ha
    refine ⟨rfl, fun u hu => ?_⟩
    simp only [Token.occurrences, List.mem_singleton] at hu
    simp only [hu, Token.mentions, List.cons_subset, List.nil_subset, and_true]
    exact ⟨kind_known ha, scope_known ha⟩
  bound_jump p p' i m g as i' m' g' as' hp ha := by
    obtain ⟨rfl, _⟩ := hp
    obtain ⟨heq, ha⟩ := ha
    cases heq
    refine ⟨rfl, fun u hu => ?_⟩
    simp only [Token.occurrences, List.mem_cons] at hu ha
    rcases hu with rfl | hu
    · exact ha (.jump i m g as) (.inl rfl)
    · exact ha u (.inr hu)

theorem rekeying_flows {d : Structure} (hd : d.Distinct)
    (hkey : Set.InjOn key {n | n ∈ d.vocabulary}) :
    (rekeying key d.vocabulary).Flows .plain d (d.rekeyed key) := by
  rw [Structure.rekeyed_eq_map hd hkey, Flows, Table.Related, List.forall₂_map_right_iff,
    List.forall₂_same]
  refine fun e he => ⟨⟨Structure.scope_mem_vocabulary he, rfl⟩, ?_⟩
  rw [Scopes, Table.Related, List.forall₂_map_right_iff, List.forall₂_same]
  refine fun l hl => ⟨⟨Structure.key_mem_vocabulary he hl, rfl⟩, ?_⟩
  refine List.forall₂_same.mpr fun t ht => ?_
  have hknown : ∀ u ∈ t.occurrences, u.mentions ⊆ d.vocabulary := fun u hu =>
    Structure.mentions_subset_vocabulary (Structure.mem_occurrences.mpr ⟨e, he, l, hl, t, ht, hu⟩)
  unfold held
  split
  · exact ⟨rfl, hknown⟩
  · exact ⟨rfl, hknown⟩

end Correspondence

namespace Search

/-- Looking up scopes and lists by keys, such as the labels of a password, changes nothing in
the paths that are found, and a search that fails or does not end still does so. -/
theorem detect_rekeyed (key : String → String) (d : Structure) (hd : d.Distinct)
    (hkey : Set.InjOn key {n | n ∈ d.vocabulary}) (limit : Limit) (v : Vulnerability) :
    Act.SameOutcome SearchError.Alike (· = ·) (detect .plain limit v { flows := d }).1
      (detect (.keyedBy key) limit v { flows := d.rekeyed key }).1 := by
  have hfaithful := Correspondence.rekeying_faithful hkey fun p =>
    Structure.special_mem_vocabulary (d := d) p
  have hstart : (Correspondence.rekeying key d.vocabulary).Searches .plain { flows := d }
      { flows := d.rekeyed key } :=
    ⟨Correspondence.rekeying_flows hd hkey, .nil, .nil, .nil⟩
  have hsame := (hfaithful.detect limit v hstart).2
  have heq : ∀ ps ps', (Correspondence.rekeying key d.vocabulary).PathLists ps ps' → ps = ps' := by
    intro ps ps' h
    refine List.forall₂_eq_eq_eq ▸ h.imp fun p p' hp => ?_
    exact List.forall₂_eq_eq_eq ▸ hp.imp fun t t' ht => ht.1.symm
  exact hsame.imp heq

/-- A page that includes a library and prints what its function makes of an input. -/
def sharedSample : Structure :=
  let mark (kind scope : String) (pos : Int) : Mark :=
    ⟨kind, .number 1, pos, 0, 0, 0, .number 0, scope, "page"⟩
  [("page", [("ARGS", []), ("IMPORTS", [.jump 0 (mark "IMPORT" "page" 5) "library" []]),
      ("XSS_SENS", [.jump 1 (mark "FUNC_CALL" "page" 50) "f" [.site 2 (mark "INPUT" "page" 52)]])]),
    ("f", [("ARGS", [.site 3 (mark "VAR1" "f" 10)]), ("RETURN", [.site 4 (mark "VAR1" "f" 20)])])]

def recordedHashes : List (String × Nat) :=
  [("INPUT", 0xb1cb19456f5d235eea5a5c1dc06f11686a43ab5d186ec368c7b119682979530d),
    ("XSS_SENS", 0xea5ed5192d88bfe8e12401af44cf970a7d69785b4a4db03b6f0198352cefe167),
    ("XSS_SANF", 0x4f731d6c38350dc1194a38acf222119269000d5a267b2e0426319492e37314f2),
    ("SQLI_SENS", 0x90dd1db4fa52561d4a50249f7c7b822acec4fe83009e137a491d17c815258d14),
    ("SQLI_SANF", 0xd570e7ca3dda27e1ff3cd291ae68b6093cfd41cf9f9b6a0038d6bd1a15dd32ad),
    ("FUNC_CALL", 0xc08569c88d74e634650cd407beecccfcf082ed613787262b7f92607755992cf0),
    ("RETURN", 0x9d1d71c603a4ec96dcd3ef56dc231d94352437f99b66b9a3396b58ee32f81c91),
    ("ARGS", 0xfd66a93edc4a7e842eb47046806084568c82266997c9a19371feee582874d5a1),
    ("IMPORTS", 0x0d1f1edda553ad748510f2d355abff29ad327ad4748f9b4a24dff06433865872),
    ("IMPORT", 0x8f62c23d96246b77029380e329cc0178ffa88489a2d6284324b429c70ba84cd3),
    ("page", 0x91cf056de3a584dcba183da30200286b432af36f439323a6d86da22b9597eca6),
    ("f", 0x07c8887bf1c5a5388f40ce9e8d519cbded4510b21fafb9ab8e843c5d4579e58f),
    ("VAR1", 0x936b03ea01fd272c3e2123e0b9528d8f74392db49f2cd1b657971cae1ccc8470),
    ("library", 0x57a9281a25da7587bd021b965d94929551910e277d3b90356d40f6a90c4aca8c)]

def hashBytes (n : Nat) : Bytes := Bytes.ofAscii (Bytes.hex (Bytes.ofNat 32 n))

def recordedLabel (s : String) : String :=
  Base64.encode (hashBytes ((recordedHashes.lookup s).getD 0))

theorem recordedLabel_injOn : Set.InjOn recordedLabel {n | n ∈ sharedSample.vocabulary} := by
  have hknown : ∀ n ∈ sharedSample.vocabulary, n ∈ recordedHashes.map Prod.fst := by decide +kernel
  have hnodup : ((recordedHashes.map Prod.fst).map fun s =>
      (hashBytes ((recordedHashes.lookup s).getD 0)).take 2).Nodup := by decide +kernel
  intro a ha b hb h
  have hbytes := Base64.encode_injective h
  exact List.inj_on_of_nodup_map hnodup (hknown a ha) (hknown b hb) (by rw [hbytes])

theorem detect_rekeyed_shared : sharedSample.Distinct ∧
    Set.InjOn recordedLabel {n | n ∈ sharedSample.vocabulary} ∧
    (detect .plain ⟨20, 20⟩ .xss { flows := sharedSample }).1.toOption.map
      (fun ps => ps.map fun p => p.map Token.pos) = some [[50, 20, 52]] ∧
    Act.SameOutcome SearchError.Alike (· = ·)
      (detect .plain ⟨20, 20⟩ .xss { flows := sharedSample }).1
      (detect (.keyedBy recordedLabel) ⟨20, 20⟩ .xss
        { flows := sharedSample.rekeyed recordedLabel }).1 := by
  have hd : sharedSample.Distinct := by decide +kernel
  have hsame := detect_rekeyed recordedLabel sharedSample hd recordedLabel_injOn ⟨20, 20⟩ .xss
  refine ⟨hd, recordedLabel_injOn, ?_, hsame⟩
  decide +kernel

end Search

end MaskedTaint
