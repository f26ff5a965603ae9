import MaskedTaint.Command.Commands
import MaskedTaint.Proofs.Search.Provenance
import MaskedTaint.Proofs.Sealing.Delivery
import MaskedTaint.Proofs.Sealing.Recorded
import MaskedTaint.Proofs.Sealing.ToldApart

/-! Reports on sealed projects. Whatever an auditor finds in a sealed project stands for tokens
of the project, and the owner can open the report exactly if all kinds in it can be opened. -/

namespace MaskedTaint

theorem Table.mem_ofEntries {α : Type} {es : List (String × α)} {e : String × α}
    (h : e ∈ Table.ofEntries es) : e ∈ es := by
  have hfold : ∀ (es : List (String × α)) (t : Table α),
      e ∈ es.foldl (fun t e => t.put e.1 e.2) t → e ∈ t ∨ e ∈ es := by
    intro es
    induction es with
    | nil => exact fun t h => .inl h
    | cons f es ih =>
      intro t h
      rcases ih _ h with h | h
      · rcases Table.mem_put h with rfl | h
        · exact .inr List.mem_cons_self
        · exact .inl h
      · exact .inr (List.mem_cons_of_mem _ h)
  rcases hfold es Table.empty h with h | h
  · cases h
  · exact h

/-! ### Where sealed tokens come from -/

def Structure.Origin (d : Structure) (c : Ciphers) (t : Token) : Prop :=
  ∃ o, d.Flows o ∧ o.SealedAs c t

theorem Structure.RecordedFrom.reportable_of_meets {names : List String} {d : Structure}
    (h : d.RecordedFrom names) (hd : d.Orderly) (hnames : ∀ n ∈ names, AsciiText n ∧ n.length < 2 ^ 32)
    {t : Token} (ht : d.Meets t) : ∀ u ∈ t.occurrences, u.Reportable d.sealedNames := by
  have hself : t.Reportable d.sealedNames := by
    refine ⟨ht.regular hd, ht.names_subset, ?_⟩
    obtain ⟨o, ho, q, _, rfl⟩ := ht
    have hfile : (o.rebound q.mark).mark.file = o.mark.file := by cases o <;> rfl
    exact hfile ▸ (h.reportable hnames ho).file
  intro u hu
  obtain ⟨o, ho, q, _, rfl⟩ := ht
  cases o with
  | site i m =>
    rw [Token.rebound, Token.occurrences, List.mem_singleton] at hu
    exact hu ▸ hself
  | jump i m g as =>
    rw [Token.rebound, Token.occurrences, List.mem_cons] at hu
    rcases hu with rfl | hu
    · exact hself
    · exact h.reportable hnames (ho.of_mem (List.mem_cons_of_mem _ hu))

namespace Sealing

variable {nonces : Nat → Bytes} {c : Ciphers} {d : Structure}

theorem sealLists_sealedAs (hnonces : ∀ n, (nonces n).length = 16)
    {ls ls' : List (String × List Token)} {n n' : Nat} (h : sealLists nonces c ls n = (.ok ls', n')) :
    ∀ l' ∈ ls', ∃ l ∈ ls, (∃ k, c.SealsKind l.1 k ∧ l'.1 = c.label k) ∧
      Token.SealedAllAs c l.2 l'.2 := by
  intro l' hl'
  obtain ⟨l, hl, hk, _, _, hts⟩ := (sealLists_forall₂ h).exists_of_mem_right hl'
  exact ⟨l, hl, hk, sealedAllAs_of_sealTokens hnonces l.2 hts⟩

theorem sealScopes_sealedAs (hnonces : ∀ n, (nonces n).length = 16)
    {es es' : List (String × Scope)} {n n' : Nat} (h : sealScopes nonces c es n = (.ok es', n')) :
    ∀ e' ∈ es', ∀ l' ∈ e'.2, ∃ e ∈ es, ∃ l ∈ e.2, (∃ k, c.SealsKind l.1 k ∧ l'.1 = c.label k) ∧
      Token.SealedAllAs c l.2 l'.2 := by
  intro e' he' l' hl'
  obtain ⟨e, he, -, ls, _, _, hs, hls⟩ := (sealScopes_forall₂ h).exists_of_mem_right he'
  obtain ⟨l, hl, hsealed⟩ := sealLists_sealedAs hnonces hls l' (Table.mem_ofEntries (hs ▸ hl'))
  exact ⟨e, he, l, hl, hsealed⟩

end Sealing

namespace Suite

variable {nonces : Nat → Bytes} {s : Suite} {d e : Structure}

theorem origin_of_sealStructure (hnonces : ∀ n, (nonces n).length = 16) {n : Nat}
    (h : Sealing.sealStructure nonces s.toCiphers d 0 = (.ok e, n)) :
    ∀ e' ∈ e, ∀ l' ∈ e'.2, l'.1 ≠ (Lexicon.hiddenBy s.label).place .imports →
      ∀ t ∈ l'.2, d.Origin s.toCiphers t := by
  obtain ⟨es, n, hes, hpure⟩ := Act.bind_eq_ok_iff.mp h
  obtain ⟨rfl, rfl⟩ := Sealing.pure_eq_ok_iff.mp hpure
  intro e' he' l' hl' hkey t ht
  obtain ⟨f, hf, l, hl, ⟨k, hk, hlabel⟩, hsealed⟩ :=
    Sealing.sealScopes_sealedAs hnonces hes e' (Table.mem_ofEntries he') l' hl'
  have hne : l.1 ≠ Special.imports.name := by
    intro himports
    refine hkey (hlabel.trans ?_)
    have hspecial := s.toCiphers.sealsKind_special .imports
    rw [himports] at hk
    unfold Ciphers.SealsKind at hk hspecial
    rw [if_pos (by decide)] at hk
    rw [hk]
    rfl
  obtain ⟨o, ho, hsealed⟩ := (Token.sealedAllAs_iff.mp hsealed).exists_of_mem_right ht
  exact ⟨o, ⟨f, hf, l, hl, hne, Token.mem_occurrencesIn.mpr ⟨o, ho, o.mem_occurrences_self⟩⟩, hsealed⟩

theorem place_ne_imports (hc : s.Distinguishes d.sealedNames) {p : Special} (hp : p ≠ .imports) :
    (Lexicon.hiddenBy s.label).place p ≠ (Lexicon.hiddenBy s.label).place .imports := by
  intro h
  have hlabel := hc.label_inj _ _ (.inr (.inl ⟨p, rfl⟩)) (.inr (.inl ⟨.imports, rfl⟩)) h
  exact Lexicon.plain_place_ne_imports hp (hc.special_inj hlabel)

theorem keeps_origin (hr : ∀ o, d.Flows o → o.Reportable d.sealedNames)
    (hc : s.Distinguishes d.sealedNames) :
    (Lexicon.hiddenBy s.label).Keeps (d.Origin s.toCiphers) where
  kind t ht hkey := by
    obtain ⟨o, ho, hsealed⟩ := ht
    obtain ⟨hkind, _⟩ := Finding.sealsKind_of_sealedAs (hr o ho).regular hsealed
    have hname := (hc.key_iff ⟨Finding.asName_subset (hr o ho), _, hkind, rfl⟩
      ⟨Sealing.asName_special .imports, _, s.sealsKind_special .imports, rfl⟩).mpr hkey
    have hreg := (hr o ho).regular
    cases o with
    | site i m => exact hreg.2 hname
    | jump i m g as =>
      have hcall : m.kind = Special.call.name := hreg
      exact absurd (hcall.symm.trans hname) (by decide)
  args i m g as ht a ha := by
    obtain ⟨o, ho, hsealed⟩ := ht
    cases o with
    | site j n => exact hsealed.elim
    | jump j n g₀ bs =>
      obtain ⟨b, hb, hsealed⟩ := (Token.sealedAllAs_iff.mp hsealed.2.2.2).exists_of_mem_right ha
      exact ⟨b, ho.of_mem (Token.mem_occurrences_arg hb), hsealed⟩
  site p a _ ha hcall := by
    obtain ⟨o, ho, hsealed⟩ := ha
    cases o with
    | site j n =>
      cases a with
      | site i m => exact ⟨.site j n, ho, hsealed.1, hsealed.2.line, hsealed.2.pos, hsealed.2.file⟩
      | jump i m g as => exact hsealed.elim
    | jump j n g₀ bs =>
      cases a with
      | site i m => exact hsealed.elim
      | jump i m g as =>
        have hkind : n.kind = Special.call.name := (hr _ ho).regular
        exact absurd (hsealed.1.trans (congrArg s.label hkind)) hcall
  jump p i m g as _ ha := by
    obtain ⟨o, ho, hsealed⟩ := ha
    cases o with
    | site j n => exact hsealed.elim
    | jump j n g₀ bs =>
      obtain ⟨hkind, hplace, htarget, hargs⟩ := hsealed
      exact ⟨.jump j n g₀ bs, ho, hkind, ⟨hplace.line, hplace.pos, hplace.file⟩, htarget, hargs⟩

end Suite

namespace Audit

open Sealing

variable {s : Suite} {names : List String}

theorem openPaths_eq_ok_iff {paths fs : List (List Finding)} :
    openPaths s paths = .ok fs ↔ paths.mapM (Finding.openedAll s) = .ok fs := by
  unfold openPaths
  generalize paths.mapM (Finding.openedAll s) = o
  cases o with
  | error e => simp [ofCipher]
  | ok a => simp [ofCipher]

variable {origins paths found : List Path} {n : Nat} {f : Nat → String → String} {d : Structure}

theorem openPaths_sealed (hs : s.Inverts) (hc : s.Distinguishes names)
    (h : List.Forall₂ (List.Forall₂ (Token.SealedAs s.toCiphers)) origins paths)
    (hr : ∀ path ∈ origins, ∀ o ∈ path, ∀ u ∈ o.occurrences, u.Reportable names)
    (ho : ∀ path ∈ origins, ∀ o ∈ path, o.Openable) : openPaths s (paths.map Finding.ofTokens) =
      .ok (origins.map fun path => Finding.normalAll (Finding.ofTokens path)) := by
  rw [openPaths_eq_ok_iff]
  induction h with
  | nil => rfl
  | @cons origin path origins paths hpath _ ih =>
    have hfirst := Finding.openedAll_sealed hs hc.tellsKinds origin path
      (Token.sealedAllAs_iff.mpr hpath)
      (fun u hu => by
        obtain ⟨o, hmem, hu⟩ := Token.mem_occurrencesIn.mp hu
        exact hr origin List.mem_cons_self o hmem u hu)
      (fun u hu => by
        obtain ⟨o, hmem, hu⟩ := Token.mem_occurrencesIn.mp hu
        exact ho origin List.mem_cons_self o hmem u hu)
    have hrest := ih (fun path hp => hr path (List.mem_cons_of_mem _ hp))
      fun path hp => ho path (List.mem_cons_of_mem _ hp)
    rw [List.map_cons, List.map_cons, List.mapM_cons, hfirst, hrest]
    rfl

theorem openable_of_openPaths (hr : s.Rejects) (hc : s.Distinguishes names)
    (h : List.Forall₂ (List.Forall₂ (Token.SealedAs s.toCiphers)) origins paths)
    (hreg : ∀ path ∈ origins, ∀ o ∈ path, ∀ u ∈ o.occurrences, u.Regular)
    {fs : List (List Finding)} (hf : openPaths s (paths.map Finding.ofTokens) = .ok fs) :
    ∀ path ∈ origins, ∀ o ∈ path, o.Openable := by
  rw [openPaths_eq_ok_iff] at hf
  induction h generalizing fs with
  | nil => simp
  | @cons origin path origins paths hpath _ ih =>
    rw [List.map_cons, List.mapM_cons] at hf
    obtain ⟨g, hg, hf⟩ := Except.bind_eq_ok_iff.mp hf
    obtain ⟨gs, hgs, _⟩ := Except.bind_eq_ok_iff.mp hf
    have hfirst := Finding.openable_of_openedAll hr hc origin path g (Token.sealedAllAs_iff.mpr hpath)
      (fun u hu => by
        obtain ⟨o, hmem, hu⟩ := Token.mem_occurrencesIn.mp hu
        exact hreg origin List.mem_cons_self o hmem u hu) hg
    have hrest := ih (fun path hp => hreg path (List.mem_cons_of_mem _ hp)) hgs
    intro q hq o ho
    rcases List.mem_cons.mp hq with rfl | hq
    · exact fun u hu => hfirst u (Token.mem_occurrencesIn.mpr ⟨o, ho, hu⟩)
    · exact hrest q hq o ho

theorem reportText_normal (paths : List Path) :
    Command.reportText (paths.map fun path => Finding.normalAll (Finding.ofTokens path)) =
      Command.reportText (paths.map Finding.ofTokens) := by
  have hlines : ∀ fs : List Finding, Command.pathLines (Finding.normalAll fs) = Command.pathLines fs := by
    intro fs
    rw [Command.pathLines, Command.pathLines, Finding.normalAll_eq_map, List.zipIdx_map, List.map_map]
    refine congrArg String.join (List.map_congr_left fun e _ => ?_)
    simp [Finding.text_normal]
  have hempty : ∀ f : Path → List Finding, (paths.map f).isEmpty = paths.isEmpty := fun f => by
    cases paths <;> rfl
  rw [Command.reportText, Command.reportText, hempty, hempty, List.zipIdx_map, List.map_map,
    List.zipIdx_map, List.map_map]
  split
  · rfl
  · refine congrArg (_ ++ String.join ·) (List.map_congr_left fun e _ => ?_)
    simp only [Function.comp_apply, Prod.map_fst, Prod.map_snd, hlines]

/-! ### Opening reports -/

variable {nonces nonces' : Nat → Bytes} {files : List (String × List Char)} {p : Project}

theorem exists_origins (hfiles : files ≠ [])
    (hnames : ∀ f ∈ files, AsciiText f.1 ∧ f.1.length < 2 ^ 32)
    (hp : Project.recordAll {} files = .ok p) (hs : s.Inverts)
    (hc : s.Distinguishes p.flows.sealedNames) (hnonces : ∀ n, (nonces n).length = 16)
    {file : String} (hfile : structureFile nonces s p.flows 0 = (.ok file, n)) {v : String}
    (hpaths : sealedPaths s.label s.openText v file = .ok paths) :
    ∃ origins : List Path, List.Forall₂ (List.Forall₂ fun o t =>
      p.flows.numbered.Flows o ∧ o.SealedAs s.toCiphers t) origins paths := by
  have hd := Project.recordedFrom hfiles hp
  have hc' : s.Distinguishes p.flows.numbered.sealedNames :=
    (Structure.sealedNames_numbered p.flows).symm ▸ hc
  have hr : ∀ o, p.flows.numbered.Flows o → o.Reportable p.flows.numbered.sealedNames :=
    fun o => hd.numbered.reportable (List.forall_mem_map.mpr hnames)
  obtain ⟨e, k, hseal, hsearch⟩ := sealedPaths_structureFile hs hnonces hd.distinct hd.full hc hfile
  rw [hsearch v] at hpaths
  have hwithin := search_within (fun _ => Suite.place_ne_imports hc') (Suite.keeps_origin hr hc')
    (Suite.origin_of_sealStructure hnonces hseal) hpaths
  exact List.Forall₂.exists_left fun path hpath =>
    List.Forall₂.exists_left fun t ht => hwithin path hpath t ht

theorem sealedAs_of_sealAt (hnonces : ∀ n, (nonces n).length = 16) {c : Ciphers} {all : List Token}
    {t t' : Token} (h : sealAt nonces c all t = .ok t') : t.SealedAs c t' := by
  obtain ⟨_, h⟩ := sealAt_eq_ok_iff.mp h
  exact sealedAs_of_sealToken hnonces t h

theorem sealedPaths_agree (hfiles : files ≠ []) (hp : Project.recordAll {} files = .ok p)
    (hrange : ∀ t ∈ p.flows.occurrences, t.InRange) (hs : s.Inverts)
    (hc : s.Sound p.flows.sealedNames) (hnonces : ∀ n, (nonces n).length = 16)
    (hdiff : Set.InjOn nonces {n | n < p.flows.numbered.occurrences.length}) {file : String}
    (hfile : structureFile nonces s p.flows 0 = (.ok file, n))
    (hf : p.flows.numbered.Tells f) (v : String) : Act.SameOutcome (fun _ _ => True)
      ((correspondence nonces s.toCiphers p.flows.numbered).refiled f).PathLists
      (search .plain v (p.flows.numbered.refiled f)) (sealedPaths s.label s.openText v file) := by
  have hd := Project.recordedFrom hfiles hp
  have horderly := hd.orderly hrange
  have hc' : s.Sound p.flows.numbered.sealedNames := (Structure.sealedNames_numbered p.flows).symm ▸ hc
  obtain ⟨e, m, hseal, hsearch⟩ :=
    sealedPaths_structureFile hs hnonces hd.distinct hd.full hc.distinguishes hfile
  rw [hsearch v]
  exact search_agree (refiled_faithful hnonces hdiff horderly hd.numbered.commaFree_split hc' hf)
    ((sealStructure_flows horderly hc' hseal).refiled f) v

theorem exists_origins_of_pathLists
    (h : ((correspondence nonces s.toCiphers d).refiled f).PathLists found paths) :
    ∃ origins : List Path, found = origins.map (fun path => path.map (Token.refiled f)) ∧
      List.Forall₂ (List.Forall₂ fun o t =>
        d.Meets o ∧ sealAt nonces s.toCiphers d.occurrences o = .ok t) origins paths :=
  List.Forall₂.exists_map (h.imp fun _ _ hpath => List.Forall₂.exists_map hpath)

theorem reportable_origins (hfiles : files ≠ [])
    (hnames : ∀ f ∈ files, AsciiText f.1 ∧ f.1.length < 2 ^ 32)
    (hp : Project.recordAll {} files = .ok p) (hrange : ∀ t ∈ p.flows.occurrences, t.InRange)
    (h : List.Forall₂ (List.Forall₂ fun o t => p.flows.numbered.Meets o ∧
      sealAt nonces s.toCiphers p.flows.numbered.occurrences o = .ok t) origins paths) :
    ∀ path ∈ origins, ∀ o ∈ path, ∀ u ∈ o.occurrences,
      u.Reportable p.flows.numbered.sealedNames := by
  have hd := Project.recordedFrom hfiles hp
  have horderly := hd.orderly hrange
  intro path hpath o ho
  obtain ⟨path', _, hpath⟩ := h.exists_of_mem hpath
  obtain ⟨t, _, ho⟩ := hpath.exists_of_mem ho
  exact hd.numbered.reportable_of_meets horderly (List.forall_mem_map.mpr hnames) ho.1

theorem openable_refiled {t : Token} : (t.refiled f).Openable ↔ t.Openable := by
  simp [Token.Openable, Token.Opens, Token.occurrences_refiled]

/-! ### Runs with the recorded suite -/

def Recorded (p : Project) : Prop :=
  (∀ t ∈ p.flows.occurrences, recordedSuite.Fits t) ∧
    (∀ n ∈ p.flows.sealedNames, n ∈ suiteNames.map Prod.fst) ∧
    1 + 2 * p.flows.length + 2 * (p.flows.map fun e => e.2.length).sum +
      30 * p.flows.occurrences.length ≤ 1000

instance (p : Project) : Decidable (Recorded p) := inferInstanceAs (Decidable (_ ∧ _))

theorem injOn_nonces (hn : n ≤ 256) : Set.InjOn (Bytes.ofNat 16) {k | k < n} := by
  intro i hi j hj h
  have hlast := congrArg (fun bs : Bytes => bs[15]?.map UInt8.toNat) h
  have hi' : i < n := hi
  have hj' : j < n := hj
  simp [Bytes.ofNat, UInt8.toNat_ofNat'] at hlast
  omega

theorem fits_of_meets (hd : d.Orderly)
    (hfits : ∀ t ∈ d.occurrences, recordedSuite.Fits t) {o : Token} (ho : d.Meets o) :
    ∀ u ∈ o.occurrences, recordedSuite.Fits u := by
  have hrange := ho.inRange hd
  obtain ⟨o, hflows, q, _, rfl⟩ := ho
  have hfile := (hfits o hflows.mem_occurrences).2
  intro u hu
  cases o with
  | site i m =>
    rw [Token.rebound, Token.occurrences, List.mem_singleton] at hu
    exact hu ▸ ⟨hrange, hfile⟩
  | jump i m g as =>
    rw [Token.rebound, Token.occurrences, List.mem_cons] at hu
    rcases hu with rfl | hu
    · exact ⟨hrange, hfile⟩
    · exact hfits u (hflows.of_mem (List.mem_cons_of_mem _ hu)).mem_occurrences

theorem length_paths_of_origins
    (hfound : found = origins.map (fun path => path.map (Token.refiled f)))
    (h : List.Forall₂ (List.Forall₂ fun o t =>
      d.Meets o ∧ sealAt nonces s.toCiphers d.occurrences o = .ok t) origins paths) :
    paths.length = found.length ∧ (paths.flatMap Token.occurrencesIn).length =
      (found.flatMap Token.occurrencesIn).length := by
  have hpath : ∀ {path path' : Path}, List.Forall₂ (fun o t =>
      d.Meets o ∧ sealAt nonces s.toCiphers d.occurrences o = .ok t) path path' →
      (Token.occurrencesIn path').length =
        (Token.occurrencesIn (path.map (Token.refiled f))).length := by
    intro path path' h
    induction h with
    | nil => rfl
    | @cons o t _ _ ho _ ih =>
      obtain ⟨_, ho⟩ := sealAt_eq_ok_iff.mp ho.2
      rw [List.map_cons, Token.occurrencesIn, Token.occurrencesIn, List.length_append,
        List.length_append, ih, length_occurrences_sealedTo o t (sealedTo_of_sealToken o ho),
        Token.occurrences_refiled, List.length_map]
  subst hfound
  induction h with
  | nil => exact ⟨rfl, rfl⟩
  | cons h _ ih =>
    rw [List.map_cons, List.flatMap_cons, List.flatMap_cons, List.length_append, List.length_append,
      List.length_cons, List.length_cons, ih.1, ih.2, hpath h]
    exact ⟨rfl, rfl⟩

theorem exists_run (hfiles : files ≠ []) (hp : Project.recordAll {} files = .ok p)
    (hsmall : Recorded p) {v : String}
    (hfound : search .plain v p.flows.numbered.toldApart = .ok found)
    (hsize : 1 + 2 * found.length + 30 * (found.flatMap Token.occurrencesIn).length ≤ 1000) :
    ∃ file n paths report k origins,
      structureFile (Bytes.ofNat 16) recordedSuite p.flows 0 = (.ok file, n) ∧
      sealedPaths recordedSuite.label recordedSuite.openText v file = .ok paths ∧
      reportFile (Bytes.ofNat 16) recordedSuite.sealText paths 0 = (.ok report, k) ∧
      found = origins.map (fun path => path.map (Token.refiled fun i _ => toString i)) ∧
      List.Forall₂ (List.Forall₂ fun o t => p.flows.numbered.Meets o ∧
        sealAt (Bytes.ofNat 16) recordedSuite.toCiphers p.flows.numbered.occurrences o = .ok t)
        origins paths := by
  obtain ⟨hfits, hnames, hcount⟩ := hsmall
  have hd := Project.recordedFrom hfiles hp
  have hc := recordedSuite.sound hnames
  have hnonces := Bytes.length_ofNat 16
  have hrange : ∀ t ∈ p.flows.occurrences, t.InRange := fun t ht => (hfits t ht).1
  have happart := sealedApart_of_distinguishes hc.distinguishes
  have horderly := hd.orderly hrange
  have hfits' : ∀ t ∈ p.flows.numbered.occurrences, recordedSuite.Fits t := by
    intro t ht
    obtain ⟨u, hu, hmark⟩ := Structure.mem_numbered ht
    exact ⟨horderly.inRange t ht, hmark ▸ (hfits u hu).2⟩
  obtain ⟨file, n, hfile⟩ := exists_structureFile recordedSuite.sealsWhole hrange
    (fun t ht => (hfits t ht).short) hc.total
    (length_handedOver_lt happart hd.distinct hd.full.2 fun e n h =>
      recordedSuite.length_sealed_lt hnonces (sealStructure_sealedTo happart hd.distinct h) hfits hcount)
  have hsame := Structure.length_occurrences_numbered p.flows
  have hagree := sealedPaths_agree hfiles hp hrange recordedSuite.inverts hc hnonces
    (injOn_nonces (by omega)) hfile
    (Structure.tells_toldApart (Structure.nodup_ids_numbered p.flows)) v
  rw [show p.flows.numbered.refiled (fun i _ => toString i) = p.flows.numbered.toldApart from rfl,
    hfound] at hagree
  generalize hpaths : sealedPaths recordedSuite.label recordedSuite.openText v file = o at hagree
  cases hagree with
  | @ok _ paths hlists =>
    obtain ⟨origins, horigins, hsealed⟩ := exists_origins_of_pathLists hlists
    have hlength := length_paths_of_origins horigins hsealed
    have hbrief : ∀ path ∈ paths, ∀ t ∈ path, t.Brief 88 := by
      intro path hpath t ht
      obtain ⟨origin, _, hpath⟩ := hsealed.exists_of_mem_right hpath
      obtain ⟨o, _, hmeets, ho⟩ := hpath.exists_of_mem_right ht
      obtain ⟨_, ho⟩ := sealAt_eq_ok_iff.mp ho
      exact recordedSuite.brief_sealedTo hnonces o t
        (fits_of_meets horderly hfits' hmeets) (sealedTo_of_sealToken o ho)
    have htext := Finding.length_pathsText_le (by decide : 10 ≤ 88) hbrief (k := 1000) (by omega)
    obtain ⟨z, hz⟩ := recordedSuite.sealsWhole (Bytes.ofNat 16 0)
      (Finding.pathsText (paths.map Finding.ofTokens)) (by omega)
    exact ⟨_, _, paths, _, _, origins, hfile, hpaths, reportFile_eq_ok hz, horigins, hsealed⟩

theorem exists_found (files : List (String × List Char)) (v : String) (P : List Path → Bool)
    (h : ((Project.recordAll {} files).toOption.bind fun p =>
      (search .plain v p.flows.numbered.toldApart).toOption.map fun found =>
        decide (Recorded p) && decide (1 + 2 * found.length +
          30 * (found.flatMap Token.occurrencesIn).length ≤ 1000) && P found) = some true) :
    ∃ p found, Project.recordAll {} files = .ok p ∧ Recorded p ∧
      search .plain v p.flows.numbered.toldApart = .ok found ∧
      1 + 2 * found.length + 30 * (found.flatMap Token.occurrencesIn).length ≤ 1000 ∧
      P found = true := by
  obtain ⟨p, hp, h⟩ := Option.bind_eq_some_iff.mp h
  obtain ⟨found, hfound, h⟩ := Option.map_eq_some_iff.mp h
  rw [Bool.and_eq_true, Bool.and_eq_true, decide_eq_true_eq, decide_eq_true_eq] at h
  exact ⟨p, found, eq_ok_of_toOption hp, h.1.1, eq_ok_of_toOption hfound, h.1.2, h.2⟩

/-- The report on a sealed project is opened exactly if all kinds on its paths, arguments
included, can be opened. What is printed then are the tokens of the project that were sealed. -/
theorem opens_report_iff (hfiles : files ≠ [])
    (hnames : ∀ f ∈ files, AsciiText f.1 ∧ f.1.length < 2 ^ 32)
    (hp : Project.recordAll {} files = .ok p) (hs : s.Inverts) (hr : s.Rejects)
    (hc : s.Distinguishes p.flows.sealedNames) (hnonces : ∀ n, (nonces n).length = 16)
    (hnonces' : ∀ n, (nonces' n).length = 16) {file : String} {n : Nat}
    (hfile : structureFile nonces s p.flows 0 = (.ok file, n)) {v : String} {paths : List Path}
    (hpaths : sealedPaths s.label s.openText v file = .ok paths) {report : String} {k k' : Nat}
    (hreport : reportFile nonces' s.sealText paths k = (.ok report, k')) :
    ∃ origins : List Path,
      List.Forall₂ (List.Forall₂ fun o t =>
        p.flows.numbered.Flows o ∧ o.SealedAs s.toCiphers t) origins paths ∧
      sealedFindings s.openText report = .ok (paths.map Finding.ofTokens) ∧
      ((∃ fs, openPaths s (paths.map Finding.ofTokens) = .ok fs) ↔
        ∀ path ∈ origins, ∀ o ∈ path, o.Openable) ∧
      ∀ fs, openPaths s (paths.map Finding.ofTokens) = .ok fs →
        fs = origins.map (fun path => Finding.normalAll (Finding.ofTokens path)) ∧
        Command.reportText fs = Command.reportText (origins.map Finding.ofTokens) := by
  have hd := Project.recordedFrom hfiles hp
  obtain ⟨origins, horigins⟩ := exists_origins hfiles hnames hp hs hc hnonces hfile hpaths
  have hsealed : List.Forall₂ (List.Forall₂ (Token.SealedAs s.toCiphers)) origins paths :=
    horigins.imp fun _ _ hpath => hpath.imp fun _ _ ho => ho.2
  have hreportable : ∀ path ∈ origins, ∀ o ∈ path, ∀ u ∈ o.occurrences,
      u.Reportable p.flows.numbered.sealedNames := by
    intro path hpath o ho u hu
    obtain ⟨path', _, hpath⟩ := horigins.exists_of_mem hpath
    obtain ⟨t, _, hflows, _⟩ := hpath.exists_of_mem ho
    exact hd.numbered.reportable (List.forall_mem_map.mpr hnames) (hflows.of_mem hu)
  have hc' : s.Distinguishes p.flows.numbered.sealedNames :=
    (Structure.sealedNames_numbered p.flows).symm ▸ hc
  have hopens := openPaths_sealed hs hc' hsealed hreportable
  have hopenable : ∀ fs, openPaths s (paths.map Finding.ofTokens) = .ok fs →
      ∀ path ∈ origins, ∀ o ∈ path, o.Openable := fun fs hf =>
    openable_of_openPaths hr hc' hsealed
      (fun path hpath o ho u hu => (hreportable path hpath o ho u hu).regular) hf
  refine ⟨origins, horigins, open_reportFile hs hnonces' hreport,
    ⟨fun ⟨fs, hf⟩ => hopenable fs hf, fun ho => ⟨_, hopens ho⟩⟩, fun fs hf => ?_⟩
  have heq := Except.ok.inj (hf.symm.trans (hopens (hopenable fs hf)))
  exact ⟨heq, heq ▸ reportText_normal origins⟩

theorem asciiText_single {code : List Char} :
    ∀ f ∈ [("m.php", code)], AsciiText f.1 ∧ f.1.length < 2 ^ 32 := by
  intro f hf
  have hascii : AsciiText "m.php" := by decide
  have hlength : "m.php".length < 2 ^ 32 := by decide
  rw [List.mem_singleton.mp hf]
  exact ⟨hascii, hlength⟩

def assignedCall : List (String × List Char) :=
  [("m.php", "<?php function f($p)\x7breturn $_GET['k'];\x7d $a = f($b); echo $a;".toList)]

theorem opens_report_iff_assignedCall : ∃ p file n paths report k,
    Project.recordAll {} assignedCall = .ok p ∧
    structureFile (Bytes.ofNat 16) recordedSuite p.flows 0 = (.ok file, n) ∧
    sealedPaths recordedSuite.label recordedSuite.openText "XSS" file = .ok paths ∧
    reportFile (Bytes.ofNat 16) recordedSuite.sealText paths 0 = (.ok report, k) ∧
    paths.length = 1 ∧
    ∃ origins : List Path,
      List.Forall₂ (List.Forall₂ fun o t =>
        p.flows.numbered.Flows o ∧ o.SealedAs recordedSuite.toCiphers t) origins paths ∧
      sealedFindings recordedSuite.openText report = .ok (paths.map Finding.ofTokens) ∧
      ((∃ fs, openPaths recordedSuite (paths.map Finding.ofTokens) = .ok fs) ↔
        ∀ path ∈ origins, ∀ o ∈ path, o.Openable) ∧
      ∀ fs, openPaths recordedSuite (paths.map Finding.ofTokens) = .ok fs →
        fs = origins.map (fun path => Finding.normalAll (Finding.ofTokens path)) ∧
        Command.reportText fs = Command.reportText (origins.map Finding.ofTokens) := by
  obtain ⟨p, found, hp, hsmall, hfound, hsize, hone⟩ := exists_found assignedCall "XSS"
    (fun found => found.length == 1) (by decide +kernel)
  obtain ⟨file, n, paths, report, k, origins, hfile, hpaths, hreport, horigins, hsealed⟩ :=
    exists_run (by decide) hp hsmall hfound hsize
  have hlength := (length_paths_of_origins horigins hsealed).1
  refine ⟨p, file, n, paths, report, k, hp, hfile, hpaths, hreport, ?_, ?_⟩
  · rw [hlength]
    exact beq_iff_eq.mp hone
  · exact opens_report_iff (by decide) asciiText_single hp recordedSuite.inverts recordedSuite.rejects
      (recordedSuite.sound hsmall.2.1).distinguishes (Bytes.length_ofNat 16) (Bytes.length_ofNat 16)
      hfile hpaths hreport

def sanitizedArgument : List (String × List Char) :=
  [("m.php",
    "<?php function f($p)\x7breturn $_GET['k'];\x7d $a = f(htmlentities($b)); echo $a;".toList)]

/-- A report that its owner cannot open: a call on the path has a sanitizer for an argument. -/
theorem exists_report_unopened : ∃ p file n paths report k,
    Project.recordAll {} sanitizedArgument = .ok p ∧
    structureFile (Bytes.ofNat 16) recordedSuite p.flows 0 = (.ok file, n) ∧
    sealedPaths recordedSuite.label recordedSuite.openText "XSS" file = .ok paths ∧
    reportFile (Bytes.ofNat 16) recordedSuite.sealText paths 0 = (.ok report, k) ∧
    sealedFindings recordedSuite.openText report = .ok (paths.map Finding.ofTokens) ∧
    ∀ fs, openPaths recordedSuite (paths.map Finding.ofTokens) ≠ .ok fs := by
  obtain ⟨p, found, hp, hsmall, hfound, hsize, hclosed⟩ := exists_found sanitizedArgument "XSS"
    (fun found => found.any fun path => path.any fun t => !decide t.Openable) (by decide +kernel)
  obtain ⟨file, n, paths, report, k, origins, hfile, hpaths, hreport, horigins, hsealed⟩ :=
    exists_run (by decide) hp hsmall hfound hsize
  refine ⟨p, file, n, paths, report, k, hp, hfile, hpaths, hreport,
    open_reportFile recordedSuite.inverts (Bytes.length_ofNat 16) hreport, fun fs hfs => ?_⟩
  have hreportable := reportable_origins (by decide) asciiText_single hp
    (fun t ht => (hsmall.1 t ht).1) hsealed
  have hopenable := openable_of_openPaths recordedSuite.rejects
    (recordedSuite.sound (Structure.sealedNames_numbered p.flows ▸ hsmall.2.1)).distinguishes
    (hsealed.imp fun _ _ hpath => hpath.imp fun _ _ ho =>
      sealedAs_of_sealAt (Bytes.length_ofNat 16) ho.2)
    (fun path hpath o ho u hu => (hreportable path hpath o ho u hu).regular) hfs
  obtain ⟨path, hpath, hclosed⟩ := List.any_eq_true.mp hclosed
  obtain ⟨t, ht, hclosed⟩ := List.any_eq_true.mp hclosed
  rw [horigins] at hpath
  obtain ⟨origin, horigin, rfl⟩ := List.mem_map.mp hpath
  obtain ⟨o, ho, rfl⟩ := List.mem_map.mp ht
  have hopen := (openable_refiled (f := fun i _ => toString i)).mpr (hopenable origin horigin o ho)
  rw [decide_eq_true hopen] at hclosed
  cases hclosed

end Audit

end MaskedTaint
