import MaskedTaint.Audit.Analysis
import MaskedTaint.Proofs.Sealing.Opening

/-! Handing over: the file with a sealed structure opens to the structure, sealed with its tokens
numbered as they are read, and the file of a report opens to the sealed findings. -/

namespace MaskedTaint

theorem ascii_toText (d : Structure) : AsciiText d.toText := Json.oneByte_render d.toJson 4

theorem ascii_pathsText (paths : List (List Finding)) : AsciiText (Finding.pathsText paths) :=
  Json.oneByte_render _ 4

namespace Sealing

variable {nonces : Nat → Bytes} {c : Ciphers} {d : Structure}

/-! ### Sealing does not look at numbers -/

mutual

theorem sealToken_numbered : ∀ (t : Token) {t' : Token} {n n' : Nat} (i : Nat),
    sealToken nonces c t n = (.ok t', n') →
      sealToken nonces c (t.numbered i).1 n = (.ok (t'.numbered i).1, n') ∧
        (t'.numbered i).2 = (t.numbered i).2
  | .site j m, t', n, n', i, h => by
    obtain ⟨m', rfl, hk, hm, hn⟩ := sealToken_site_iff.mp h
    exact ⟨sealToken_site_iff.mpr ⟨m', rfl, hk, hm, hn⟩, rfl⟩
  | .jump j m g as, t', n, n', i, h => by
    obtain ⟨m', g', as', rfl, hk, hm, hg, has⟩ := sealToken_jump_iff.mp h
    obtain ⟨hargs, hnext⟩ := sealTokens_numbered as i has
    refine ⟨sealToken_jump_iff.mpr ⟨m', g', _, ?_, hk, hm, hg, hargs⟩, ?_⟩
    · rw [Token.numbered, hnext]
    · rw [Token.numbered, Token.numbered, hnext]

theorem sealTokens_numbered : ∀ (ts : List Token) {ts' : List Token} {n n' : Nat} (i : Nat),
    sealTokens nonces c ts n = (.ok ts', n') →
      sealTokens nonces c (Token.numberedAll i ts).1 n = (.ok (Token.numberedAll i ts').1, n') ∧
        (Token.numberedAll i ts').2 = (Token.numberedAll i ts).2
  | [], ts', n, n', i, h => by
    obtain ⟨rfl, rfl⟩ := pure_eq_ok_iff.mp h
    exact ⟨pure_eq_ok_iff.mpr ⟨rfl, rfl⟩, rfl⟩
  | t :: ts, us, n, n', i, h => by
    obtain ⟨t', ts', k, rfl, ht, hts⟩ := sealTokens_cons_iff.mp h
    obtain ⟨hfirst, hnext⟩ := sealToken_numbered t i ht
    obtain ⟨hrest, hlast⟩ := sealTokens_numbered ts (t.numbered i).2 hts
    refine ⟨sealTokens_cons_iff.mpr ⟨_, _, k, ?_, hfirst, hrest⟩, ?_⟩
    · rw [Token.numberedAll, hnext]
    · rw [Token.numberedAll, Token.numberedAll, hnext, hlast]

end

variable {ls : List (String × List Token)} {n n' : Nat} {es : List (String × Scope)} {e : Structure}
  {s : Suite}

variable {ls' : List (String × List Token)}

theorem sealLists_numbered (i : Nat) (h : sealLists nonces c ls n = (.ok ls', n')) :
    sealLists nonces c (Structure.numberedLists i ls).1 n =
        (.ok (Structure.numberedLists i ls').1, n') ∧
      (Structure.numberedLists i ls').2 = (Structure.numberedLists i ls).2 := by
  induction ls generalizing ls' n i with
  | nil =>
    obtain ⟨rfl, rfl⟩ := pure_eq_ok_iff.mp h
    exact ⟨pure_eq_ok_iff.mpr ⟨rfl, rfl⟩, rfl⟩
  | cons l ls ih =>
    obtain ⟨k, ts, rest, n₁, rfl, hk, hts, hrest⟩ := sealLists_cons_iff.mp h
    obtain ⟨hfirst, hnext⟩ := sealTokens_numbered l.2 i hts
    obtain ⟨hlast, hend⟩ := ih (Token.numberedAll i l.2).2 hrest
    refine ⟨sealLists_cons_iff.mpr ⟨k, _, _, n₁, ?_, hk, hfirst, hlast⟩, ?_⟩
    · rw [Structure.numberedLists, hnext]
    · rw [Structure.numberedLists, Structure.numberedLists, hnext, hend]

/-! ### Sealed names stay different -/

/-- No two scopes, and no two lists of a scope, are sealed under one name. -/
structure SealedApart (c : Ciphers) (d : Structure) : Prop where
  scopes : ∀ a ∈ d.names, ∀ b ∈ d.names, ∀ x y, c.name a = .ok x → c.name b = .ok y →
    c.label x = c.label y → a = b
  lists : ∀ e ∈ d, ∀ a ∈ e.2.names, ∀ b ∈ e.2.names, ∀ x y, c.SealsKind a x → c.SealsKind b y →
    c.label x = c.label y → a = b

theorem sealedApart_of_distinguishes (hc : c.Distinguishes d.sealedNames) : SealedApart c d where
  scopes a ha b hb x y hx hy h := by
    have hnames : ∀ s ∈ d.names, s ∈ d.sealedNames := fun s hs =>
      List.mem_append_left _ (List.mem_append_left _ hs)
    exact (hc.scope_iff ⟨hnames a ha, x, hx, rfl⟩ ⟨hnames b hb, y, hy, rfl⟩).mpr h
  lists e he a ha b hb x y hx hy h := by
    obtain ⟨l, hl, rfl⟩ := List.mem_map.mp ha
    obtain ⟨m, hm, rfl⟩ := List.mem_map.mp hb
    exact (hc.key_iff ⟨Structure.key_subset_sealedNames he hl, x, hx, rfl⟩
      ⟨Structure.key_subset_sealedNames he hm, y, hy, rfl⟩).mpr h

theorem keys_sealLists {names : List String}
    (hsub : ∀ l ∈ ls, l.1 ∈ names) (h : sealLists nonces c ls n = (.ok ls', n')) :
    List.Forall₂ (fun k k' => k ∈ names ∧ ∃ x, c.SealsKind k x ∧ k' = c.label x)
      (ls.map Prod.fst) (ls'.map Prod.fst) := by
  rw [List.forall₂_map_left_iff, List.forall₂_map_right_iff]
  exact ((List.forall₂_and_left _ _).mpr ⟨hsub, sealLists_forall₂ h⟩).imp fun _ _ hl => ⟨hl.1, hl.2.1⟩

section

variable (hc : SealedApart c d) (hd : d.Distinct)

include hc hd

theorem nodup_sealLists {e : String × Scope} (he : e ∈ d)
    (h : sealLists nonces c e.2 n = (.ok ls, n')) : (ls.map Prod.fst).Nodup := by
  refine nodup_of_related (keys_sealLists (fun _ hl => List.mem_map_of_mem hl) h) ?_ (hd.2 e he)
  rintro a _ b _ ⟨ha, x, hx, rfl⟩ ⟨hb, y, hy, rfl⟩
  exact hc.lists e he a ha b hb x y hx hy

theorem sealScopes_related
    {es' : List (String × Scope)} (hsub : es ⊆ d) (h : sealScopes nonces c es n = (.ok es', n')) :
    List.Forall₂ (fun e e' => (e.1 ∈ d.names ∧ ∃ x, c.name e.1 = .ok x ∧ e'.1 = c.label x) ∧
      e'.2.names.Nodup ∧ (∀ k ∈ e'.2.names, ∃ x, k = c.label x) ∧
      e'.2.length = e.2.length) es es' := by
  refine ((List.forall₂_and_left _ _).mpr ⟨fun _ he => hsub he, sealScopes_forall₂ h⟩).imp ?_
  rintro e ⟨k', s'⟩ ⟨he, hname, ls, _, _, hs, hls⟩
  have hnodup := nodup_sealLists hc hd he hls
  have hkeys := keys_sealLists (fun _ hl => List.mem_map_of_mem hl) hls
  obtain rfl : s' = ls := hs.trans (Table.ofEntries_of_nodup hnodup)
  refine ⟨⟨List.mem_map_of_mem he, hname⟩, hnodup, fun k hk => ?_, by simpa using hkeys.length_eq.symm⟩
  obtain ⟨_, -, -, y, -, hy⟩ := hkeys.exists_of_mem_right hk
  exact ⟨y, hy⟩

theorem nodup_sealScopes (h : sealScopes nonces c d n = (.ok es, n')) : (es.map Prod.fst).Nodup := by
  have hrel := sealScopes_related hc hd (List.Subset.refl _) h
  refine nodup_entries (R := fun a a' => a ∈ d.names ∧ ∃ x, c.name a = .ok x ∧ a' = c.label x)
    (hrel.imp fun _ _ hee => hee.1) ?_ hd.1
  rintro a _ b _ ⟨ha, x, hx, rfl⟩ ⟨hb, y, hy, rfl⟩
  exact hc.scopes a ha b hb x y hx hy

theorem sealScopes_numbered {es' : List (String × Scope)} (i : Nat) (hsub : es ⊆ d)
    (h : sealScopes nonces c es n = (.ok es', n')) :
    sealScopes nonces c (Structure.numberedScopes i es).1 n =
      (.ok (Structure.numberedScopes i es').1, n') := by
  induction es generalizing es' n i with
  | nil =>
    obtain ⟨rfl, rfl⟩ := pure_eq_ok_iff.mp h
    exact pure_eq_ok_iff.mpr ⟨rfl, rfl⟩
  | cons e es ih =>
    obtain ⟨x, ls, rest, n₁, rfl, hx, hls, hrest⟩ := sealScopes_cons_iff.mp h
    have hnodup := nodup_sealLists hc hd (hsub List.mem_cons_self) hls
    obtain ⟨hfirst, hnext⟩ := sealLists_numbered i hls
    have htable : Table.ofEntries (Structure.numberedLists i ls).1 = (Structure.numberedLists i ls).1 :=
      Table.ofEntries_of_nodup ((Structure.names_numberedLists i ls).symm ▸ hnodup)
    refine sealScopes_cons_iff.mpr ⟨x, _, _, n₁, ?_, hx, hfirst,
      ih ((Structure.numberedLists i e.2).2 + 1) (fun e he => hsub (List.mem_cons_of_mem _ he)) hrest⟩
    rw [Structure.numberedScopes, Table.ofEntries_of_nodup hnodup, htable, hnext]

/-! ### Files -/

end

theorem label_notMem_recordWords (c : Ciphers) (x : String) : c.label x ∉ Structure.recordWords := by
  have hplain : '_' ∉ (c.label x).toList := by
    rw [Ciphers.label, Base64.encode, String.toList_ofList]
    have hdigit : ∀ n < 64, '_' ≠ Base64.digit n := by decide
    intro h
    rcases Base64.mem_encodeChars h with h | ⟨n, hn, h⟩
    · exact absurd h (by decide)
    · exact hdigit n hn h
  have hwords : ∀ w ∈ Structure.recordWords, '_' ∈ w.toList := by decide
  exact fun h => hplain (hwords _ h)

theorem sealStructure_spec (hc : SealedApart c d) (hd : d.Distinct)
    (h : sealStructure nonces c d 0 = (.ok e, n)) :
    sealStructure nonces c d.numbered 0 = (.ok e.numbered, n) ∧ e.Writable ∧
      e.length = d.length ∧ ((∀ s ∈ d, s.2 ≠ []) → ∀ s ∈ e, s.2 ≠ []) := by
  obtain ⟨es, _, hes, hpure⟩ := Act.bind_eq_ok_iff.mp h
  obtain ⟨rfl, rfl⟩ := pure_eq_ok_iff.mp hpure
  have hrel := sealScopes_related hc hd (List.Subset.refl _) hes
  have hlength := hrel.length_eq
  have hnodup := nodup_sealScopes hc hd hes
  have heach : ∀ e' ∈ es, ∃ e ∈ d, (∃ x, e'.1 = c.label x) ∧ e'.2.names.Nodup ∧
      (∀ k ∈ e'.2.names, ∃ x, k = c.label x) ∧ e'.2.length = e.2.length := by
    intro e' he'
    obtain ⟨i, hi, rfl⟩ := List.getElem_of_mem he'
    obtain ⟨⟨_, x, _, hx⟩, hrest⟩ := hrel.get (by omega) hi
    exact ⟨_, List.getElem_mem _, ⟨x, hx⟩, hrest⟩
  rw [Table.ofEntries_of_nodup hnodup]
  refine ⟨?_, ⟨⟨hnodup, fun e' he' => ?_⟩, fun w hw hmem => ?_, fun e' he' w hw hmem => ?_⟩,
    hlength.symm, fun hfull e' he' hnil => ?_⟩
  · have hnum := sealScopes_numbered hc hd 0 (List.Subset.refl _) hes
    have htable : Table.ofEntries (Structure.numberedScopes 0 es).1 = (Structure.numberedScopes 0 es).1 :=
      Table.ofEntries_of_nodup ((Structure.names_numberedScopes 0 es).symm ▸ hnodup)
    exact Act.bind_eq_ok_iff.mpr ⟨_, _, hnum, pure_eq_ok_iff.mpr ⟨htable, rfl⟩⟩
  · obtain ⟨_, _, _, hnames, _⟩ := heach e' he'
    exact hnames
  · obtain ⟨e', he', rfl⟩ := List.mem_map.mp hmem
    obtain ⟨_, _, ⟨x, hx⟩, _⟩ := heach e' he'
    exact label_notMem_recordWords c x (hx ▸ hw)
  · obtain ⟨_, _, _, _, hkeys, _⟩ := heach e' he'
    obtain ⟨x, rfl⟩ := hkeys w hmem
    exact label_notMem_recordWords c x hw
  · obtain ⟨e, he, _, _, _, hlen⟩ := heach e' he'
    rw [hnil] at hlen
    exact hfull e he (List.length_eq_zero_iff.mp hlen.symm)

theorem handedOver_eq_self (h : ∀ s ∈ e, s.2 ≠ []) : handedOver e = e := by
  have hkeep : e.reverse.dropWhile (fun s => s.2.entries.isEmpty) = e.reverse := by
    cases hrev : e.reverse with
    | nil => rfl
    | cons s rest =>
      have hs : s ∈ e := List.mem_reverse.mp (hrev ▸ List.mem_cons_self)
      rw [List.dropWhile_cons_of_neg]
      simpa [Table.entries] using h s hs
  have hover : handedOver e = (e.reverse.dropWhile fun s => s.2.entries.isEmpty).reverse := rfl
  rw [hover, hkeep, List.reverse_reverse]

theorem sealStructure_handedOver (hc : SealedApart c d) (hd : d.Distinct)
    (hfull : ∀ e ∈ d, e.2 ≠ []) (h : sealStructure nonces c d 0 = (.ok e, n)) :
    sealStructure nonces c d.numbered 0 = (.ok e.numbered, n) ∧ e.Writable ∧
      Table.ofEntries (handedOver e) = e := by
  obtain ⟨hnum, hwrite, _, hnonempty⟩ := sealStructure_spec hc hd h
  refine ⟨hnum, hwrite, ?_⟩
  rw [handedOver_eq_self (hnonempty hfull)]
  exact Table.ofEntries_of_nodup hwrite.1.1

theorem structureFile_eq_ok_iff (hfull : d ≠ [] ∧ ∀ e ∈ d, e.2 ≠ []) {file : String} :
    structureFile nonces s d 0 = (.ok file, n) ↔ ∃ e k y,
      sealStructure nonces s.toCiphers d 0 = (.ok e, k) ∧
      s.sealText (nonces k) (Structure.toText (Table.ofEntries (handedOver e))) = .ok y ∧
      file = asFile y ∧ n = k + 1 := by
  have hsome : (d.entries.all fun e => e.2.entries.isEmpty) = false := by
    obtain ⟨e, rest, rfl⟩ := List.exists_cons_of_ne_nil hfull.1
    have he := hfull.2 e List.mem_cons_self
    simp [Table.entries, he]
  simp only [structureFile, hsome, Bool.false_eq_true, if_false, Act.bind_eq_ok_iff, pure_eq_ok_iff,
    nextNonce_eq_ok_iff, ofExcept_eq_ok_iff]
  constructor
  · rintro ⟨e, k, hseal, _, _, ⟨rfl, rfl⟩, y, _, ⟨hy, rfl⟩, rfl, rfl⟩
    exact ⟨e, k, y, hseal, hy, rfl, rfl⟩
  · rintro ⟨e, k, y, hseal, hy, rfl, rfl⟩
    exact ⟨e, k, hseal, _, _, ⟨rfl, rfl⟩, y, _, ⟨hy, rfl⟩, rfl, rfl⟩

theorem open_structureFile (hs : s.OpensTexts) (hnonces : ∀ n, (nonces n).length = 16)
    (hd : d.Distinct) (hfull : d ≠ [] ∧ ∀ e ∈ d, e.2 ≠ []) (hc : SealedApart s.toCiphers d)
    {file : String} (h : structureFile nonces s d 0 = (.ok file, n)) : ∃ e k text,
      sealStructure nonces s.toCiphers d 0 = (.ok e, k) ∧
      sealStructure nonces s.toCiphers d.numbered 0 = (.ok e.numbered, k) ∧
      s.openText file = .ok text ∧ Structure.ofText text = .ok e.numbered := by
  obtain ⟨e, k, y, hseal, hy, rfl, _⟩ := (structureFile_eq_ok_iff hfull).mp h
  obtain ⟨hnum, hwrite, hover⟩ := sealStructure_handedOver hc hd hfull.2 hseal
  rw [hover] at hy
  exact ⟨e, k, e.toText, hseal, hnum, hs _ _ _ (hnonces k) (ascii_toText e) hy,
    Structure.ofText_toText hwrite⟩

theorem reportFile_eq_ok {sealText : Bytes → String → Except CipherError String} {paths : List Path} {y : String}
    (h : sealText (nonces n) (Finding.pathsText (paths.map Finding.ofTokens)) = .ok y) :
    reportFile nonces sealText paths n = (.ok (asFile y), n + 1) := by
  simp only [reportFile, Act.bind_eq_ok_iff, nextNonce_eq_ok_iff, ofExcept_eq_ok_iff, pure_eq_ok_iff]
  exact ⟨_, _, ⟨rfl, rfl⟩, y, _, ⟨h, rfl⟩, rfl, rfl⟩

theorem open_reportFile (hs : s.Inverts) (hnonces : ∀ n, (nonces n).length = 16)
    {paths : List Path} {report : String}
    (h : reportFile nonces s.sealText paths n = (.ok report, n')) :
    Audit.sealedFindings s.openText report = .ok (paths.map Finding.ofTokens) := by
  simp only [reportFile, Act.bind_eq_ok_iff, nextNonce_eq_ok_iff, ofExcept_eq_ok_iff,
    pure_eq_ok_iff] at h
  obtain ⟨_, _, ⟨rfl, rfl⟩, y, _, ⟨hy, rfl⟩, rfl, rfl⟩ := h
  have htext := hs.text _ _ _ (hnonces n) (ascii_pathsText _) hy
  simp only [Audit.sealedFindings, htext, Audit.ofCipher, bind, Except.bind,
    Finding.pathsOfText_pathsText, Audit.ofWire]

end Sealing

namespace Audit

open Sealing

theorem sealedPaths_structureFile {nonces : Nat → Bytes} {s : Suite} {d : Structure} (hs : s.Inverts)
    (hnonces : ∀ n, (nonces n).length = 16) (hd : d.Distinct)
    (hfull : d ≠ [] ∧ ∀ e ∈ d, e.2 ≠ []) (hc : s.Distinguishes d.sealedNames)
    {file : String} {n : Nat} (h : structureFile nonces s d 0 = (.ok file, n)) : ∃ e k,
      sealStructure nonces s.toCiphers d.numbered 0 = (.ok e, k) ∧
        ∀ v, sealedPaths s.label s.openText v file = search (.hiddenBy s.label) v e := by
  obtain ⟨e, k, text, _, hseal, htext, hread⟩ :=
    open_structureFile hs.text hnonces hd hfull (sealedApart_of_distinguishes hc) h
  refine ⟨e.numbered, k, hseal, fun v => ?_⟩
  simp only [sealedPaths, htext, ofCipher, bind, Except.bind, hread, ofWire]

end Audit

namespace Structure

theorem sealedNames_numbered (d : Structure) : d.numbered.sealedNames = d.sealedNames := by
  have hnames : ∀ t : Token, t.unnumbered.names = t.names := by
    intro t
    cases t <;> rfl
  have hkeys : ∀ (es : List (String × Scope)) (n : Nat),
      (numberedScopes n es).1.flatMap (fun e => e.2.names.flatMap Special.asName) =
        es.flatMap fun e => e.2.names.flatMap Special.asName := by
    intro es
    induction es with
    | nil => exact fun n => rfl
    | cons e es ih =>
      intro n
      rw [numberedScopes, List.flatMap_cons, List.flatMap_cons, ih, Table.names, Table.names,
        names_numberedLists]
  have hoccurrences : d.numbered.occurrences.flatMap Token.names = d.occurrences.flatMap Token.names := by
    have hflat := congrArg (List.flatMap Token.names) (occurrences_numbered d)
    simpa [List.flatMap_map, hnames] using hflat
  have hscopes : d.numbered.names = d.names := names_numberedScopes 0 d
  rw [sealedNames, sealedNames, hscopes, hoccurrences]
  exact congrArg (fun l => d.names ++ l ++ d.occurrences.flatMap Token.names) (hkeys d 0)

end Structure

end MaskedTaint
