import MaskedTaint.Proofs.Sealing.Reports

/-! Sealed and plain runs. A sealed run finds what a plain one would find if it told all occurrences
apart, and it finds the same as a plain run if no two occurrences of the project are alike. -/

namespace MaskedTaint

namespace Audit

open Sealing

variable {s : Suite} {nonces nonces' : Nat → Bytes} {files : List (String × List Char)} {p : Project}

variable {v : String}

theorem hidden_eq_ok_iff {file : String} {n : Nat} {fs : List (List Finding)} :
    hidden nonces s file v n = .ok fs ↔ ∃ paths report k,
      sealedPaths s.label s.openText v file = .ok paths ∧
      reportFile nonces s.sealText paths n = (.ok report, k) ∧
      ∃ findings, sealedFindings s.openText report = .ok findings ∧ openPaths s findings = .ok fs := by
  have hsealing : ∀ {α : Type} {x : Sealing α} {a : α} {n k : Nat},
      sealing x n = .ok (a, k) ↔ x n = (.ok a, k) := by
    intro α x a n k
    unfold sealing
    rcases x n with ⟨e | b, m⟩
    · simp
    · simp
  unfold hidden
  simp only [Except.bind_eq_ok_iff, Prod.exists, hsealing]
  constructor
  · rintro ⟨paths, hpaths, report, k, hreport, findings, hfindings, hopen⟩
    exact ⟨paths, report, k, hpaths, hreport, findings, hfindings, hopen⟩
  · rintro ⟨paths, report, k, hpaths, hreport, findings, hfindings, hopen⟩
    exact ⟨paths, hpaths, report, k, hreport, findings, hfindings, hopen⟩

theorem hidden_refiled (hfiles : files ≠ [])
    (hnames : ∀ f ∈ files, AsciiText f.1 ∧ f.1.length < 2 ^ 32)
    (hp : Project.recordAll {} files = .ok p) (hrange : ∀ t ∈ p.flows.occurrences, t.InRange)
    (hs : s.Inverts) (hr : s.Rejects) (hc : s.Sound p.flows.sealedNames)
    (hnonces : ∀ n, (nonces n).length = 16)
    (hdiff : Set.InjOn nonces {n | n < p.flows.numbered.occurrences.length})
    (hnonces' : ∀ n, (nonces' n).length = 16) {file : String} {n : Nat}
    (hfile : structureFile nonces s p.flows 0 = (.ok file, n)) {k : Nat}
    {fs : List (List Finding)} (hfs : hidden nonces' s file v k = .ok fs)
    {f : Nat → String → String} (hf : p.flows.numbered.Tells f) : ∃ origins : List Path,
      search .plain v (p.flows.numbered.refiled f) =
        .ok (origins.map fun path => path.map (Token.refiled f)) ∧
      fs = origins.map fun path => Finding.normalAll (Finding.ofTokens path) := by
  have hc' : s.Sound p.flows.numbered.sealedNames := (Structure.sealedNames_numbered p.flows).symm ▸ hc
  obtain ⟨paths', report, k', hpaths, hreport, findings, hfindings, hopen⟩ := hidden_eq_ok_iff.mp hfs
  rw [open_reportFile hs hnonces' hreport] at hfindings
  cases hfindings
  have hagree := sealedPaths_agree hfiles hp hrange hs hc hnonces hdiff hfile hf v
  rw [hpaths] at hagree
  generalize search .plain v (p.flows.numbered.refiled f) = found at hagree
  cases hagree with
  | ok hpaths =>
    obtain ⟨origins, rfl, horigins⟩ := exists_origins_of_pathLists hpaths
    refine ⟨origins, rfl, ?_⟩
    have hsealed : List.Forall₂ (List.Forall₂ (Token.SealedAs s.toCiphers)) origins paths' :=
      horigins.imp fun _ _ hpath => hpath.imp fun _ _ ho => sealedAs_of_sealAt hnonces ho.2
    have hreportable := reportable_origins hfiles hnames hp hrange horigins
    have hopenable := openable_of_openPaths hr hc'.distinguishes hsealed
      (fun path hpath o ho u hu => (hreportable path hpath o ho u hu).regular) hopen
    exact Except.ok.inj
      (hopen.symm.trans (openPaths_sealed hs hc'.distinguishes hsealed hreportable hopenable))

theorem plain_eq_ok_iff {written : String} {paths : List Path} {findings : List (List Finding)} :
    plain written v = .ok (paths, findings) ↔ ∃ d, Structure.ofText written = .ok d ∧
      search .plain v d = .ok paths ∧ findings = paths.map Finding.ofWrittenAll := by
  have hwire : ∀ {α : Type} {x : Except WireError α} {a : α}, ofWire x = .ok a ↔ x = .ok a := by
    intro α x a
    cases x <;> simp [ofWire]
  simp only [plain, plainPaths, plainFindings, Except.bind_eq_ok_iff, hwire,
    Finding.pathsOfText_tokens, Except.ok.injEq]
  constructor
  · rintro ⟨_, ⟨d, hd, hsearch⟩, _, rfl, hpair⟩
    cases hpair
    exact ⟨d, hd, hsearch, rfl⟩
  · rintro ⟨d, hd, hsearch, rfl⟩
    exact ⟨paths, ⟨d, hd, hsearch⟩, _, rfl, rfl⟩

theorem keys_notMem (hp : Project.recordAll {} files = .ok p) {e : String × Scope} (he : e ∈ p.flows) :
    ∀ w ∈ Structure.recordWords, w ∉ e.2.names :=
  (Search.recordAll_sound Project.sound_empty files hp).flows.key_notMem he

theorem ofText_recorded (hfiles : files ≠ []) (hp : Project.recordAll {} files = .ok p)
    {d : Structure} (h : Structure.ofText p.flows.toText = .ok d) : d = p.flows.numbered := by
  have hd := Project.recordedFrom hfiles hp
  by_cases hnames : ∀ w ∈ Structure.recordWords, w ∉ p.flows.names
  · rw [Structure.ofText_toText ⟨hd.distinct, hnames, fun _ => keys_notMem hp⟩] at h
    exact (Except.ok.inj h).symm
  · push Not at hnames
    obtain ⟨w, hw, hname⟩ := hnames
    obtain ⟨e, he⟩ := Structure.ofText_toText_error hd.distinct (fun _ => keys_notMem hp) hw hname
    rw [he] at h
    cases h

theorem unrepeated_of_ids {d : Structure} (hids : (d.occurrences.map Token.id).Nodup)
    (h : ∀ o ∈ d.occurrences, ∀ u ∈ d.occurrences, ∀ p ∈ d.occurrences, ∀ q ∈ d.occurrences,
      (o.rebound p.mark).same (u.rebound q.mark) = true → o.id = u.id) : d.Unrepeated := by
  intro o u ho hu p hp q hq hsame
  exact List.inj_on_of_nodup_map hids ho.mem_occurrences hu.mem_occurrences
    (h o ho.mem_occurrences u hu.mem_occurrences p hp q hq hsame)

theorem exists_hidden_run {code : List Char} (hp : Project.recordAll {} [("m.php", code)] = .ok p)
    (hsmall : Recorded p) {found : List Path}
    (hfound : search .plain v p.flows.numbered.toldApart = .ok found)
    (hsize : 1 + 2 * found.length + 30 * (found.flatMap Token.occurrencesIn).length ≤ 1000)
    (hopens : ∀ path ∈ found, ∀ t ∈ path, t.Openable) :
    ∃ file n fs, structureFile (Bytes.ofNat 16) recordedSuite p.flows 0 = (.ok file, n) ∧
      hidden (Bytes.ofNat 16) recordedSuite file v 0 = .ok fs ∧ fs.length = found.length := by
  obtain ⟨file, n, paths, report, k, origins, hfile, hpaths, hreport, horigins, hsealed⟩ :=
    exists_run (by simp) hp hsmall hfound hsize
  have hreportable := reportable_origins (by simp) asciiText_single hp
    (fun t ht => (hsmall.1 t ht).1) hsealed
  have hopenable : ∀ path ∈ origins, ∀ o ∈ path, o.Openable := by
    intro path hpath o ho
    have hmem : path.map (Token.refiled fun i _ => toString i) ∈ found := by
      rw [horigins]
      exact List.mem_map_of_mem hpath
    exact openable_refiled.mp (hopens _ hmem _ (List.mem_map_of_mem ho))
  have hopen := openPaths_sealed recordedSuite.inverts
    (recordedSuite.sound (Structure.sealedNames_numbered p.flows ▸ hsmall.2.1)).distinguishes
    (hsealed.imp fun _ _ hpath => hpath.imp fun _ _ ho =>
      sealedAs_of_sealAt (Bytes.length_ofNat 16) ho.2) hreportable hopenable
  refine ⟨file, n, _, hfile, hidden_eq_ok_iff.mpr ⟨paths, report, k, hpaths, hreport, _,
    open_reportFile recordedSuite.inverts (Bytes.length_ofNat 16) hreport, hopen⟩, ?_⟩
  rw [horigins, List.length_map, List.length_map]

/-- A sealed run finds what a plain search finds where every occurrence stands in a file of its
own. If no two occurrences of the project are alike, it finds what a plain run finds. -/
theorem hidden_eq_plain (hfiles : files ≠ [])
    (hnames : ∀ f ∈ files, AsciiText f.1 ∧ f.1.length < 2 ^ 32)
    (hp : Project.recordAll {} files = .ok p) (hrange : ∀ t ∈ p.flows.occurrences, t.InRange)
    (hs : s.Inverts) (hr : s.Rejects) (hc : s.Sound p.flows.sealedNames)
    (hnonces : ∀ n, (nonces n).length = 16)
    (hdiff : Set.InjOn nonces {n | n < p.flows.numbered.occurrences.length})
    (hnonces' : ∀ n, (nonces' n).length = 16) {file : String} {n : Nat}
    (hfile : structureFile nonces s p.flows 0 = (.ok file, n)) {v : String} {k : Nat}
    {fs : List (List Finding)} (hfs : hidden nonces' s file v k = .ok fs) :
    (∃ paths : List Path, search .plain v p.flows.numbered.toldApart =
        .ok (paths.map fun path => path.map (Token.refiled fun i _ => toString i)) ∧
      fs = paths.map fun path => Finding.normalAll (Finding.ofTokens path)) ∧
    (p.flows.numbered.Unrepeated → ∀ paths findings,
      plain p.flows.toText v = .ok (paths, findings) → fs = findings.map Finding.normalAll) := by
  have hfound := fun {f} => hidden_refiled hfiles hnames hp hrange hs hr hc hnonces hdiff hnonces'
    hfile hfs (f := f)
  refine ⟨hfound (Structure.tells_toldApart (Structure.nodup_ids_numbered p.flows)), ?_⟩
  intro hunlike paths findings hplain
  obtain ⟨d, hd, hsearch, rfl⟩ := plain_eq_ok_iff.mp hplain
  obtain ⟨origins, horigins, rfl⟩ := hfound hunlike.tells
  rw [Structure.refiled_self] at horigins
  rw [ofText_recorded hfiles hp hd, horigins] at hsearch
  have heach : ∀ path : Path, path.map (Token.refiled fun _ file => file) = path := fun path =>
    (List.map_congr_left fun t _ => Token.refiled_self t).trans (List.map_id path)
  have hself : (origins.map fun path => path.map (Token.refiled fun _ file => file)) = origins :=
    (List.map_congr_left fun path _ => heach path).trans (List.map_id origins)
  rw [hself] at hsearch
  cases hsearch
  simp only [List.map_map, Function.comp_def, Finding.normalAll_ofWrittenAll]

def passedInput : List (String × List Char) :=
  [("m.php", "<?php function g($p)\x7becho $p;\x7d g($_GET['x']);".toList)]

theorem hidden_eq_plain_passedInput : ∃ p file n fs, Project.recordAll {} passedInput = .ok p ∧
    p.flows.numbered.Unrepeated ∧
    structureFile (Bytes.ofNat 16) recordedSuite p.flows 0 = (.ok file, n) ∧
    hidden (Bytes.ofNat 16) recordedSuite file "XSS" 0 = .ok fs ∧ fs.length = 1 ∧
    (∃ paths : List Path, search .plain "XSS" p.flows.numbered.toldApart =
        .ok (paths.map fun path => path.map (Token.refiled fun i _ => toString i)) ∧
      fs = paths.map fun path => Finding.normalAll (Finding.ofTokens path)) ∧
    (p.flows.numbered.Unrepeated → ∀ paths findings,
      plain p.flows.toText "XSS" = .ok (paths, findings) → fs = findings.map Finding.normalAll) := by
  obtain ⟨p, found, hp, hsmall, hfound, hsize, hone⟩ := exists_found passedInput "XSS"
    (fun found => found.length == 1 && decide (∀ path ∈ found, ∀ t ∈ path, t.Openable))
    (by decide +kernel)
  rw [Bool.and_eq_true, beq_iff_eq, decide_eq_true_eq] at hone
  obtain ⟨file, n, fs, hfile, hfs, hlength⟩ := exists_hidden_run hp hsmall hfound hsize hone.2
  have hids := Structure.nodup_ids_numbered p.flows
  have hunlike : p.flows.numbered.Unrepeated := by
    refine unrepeated_of_ids hids ?_
    have heach : ((Project.recordAll {} passedInput).toOption.map fun p =>
        decide (∀ o ∈ p.flows.numbered.occurrences, ∀ u ∈ p.flows.numbered.occurrences,
          ∀ p' ∈ p.flows.numbered.occurrences, ∀ q ∈ p.flows.numbered.occurrences,
            (o.rebound p'.mark).same (u.rebound q.mark) = true → o.id = u.id)) = some true := by
      decide +kernel
    rw [hp] at heach
    exact of_decide_eq_true (Option.some.inj heach)
  have hsame := Structure.length_occurrences_numbered p.flows
  exact ⟨p, file, n, fs, hp, hunlike, hfile, hfs, hlength.trans hone.1,
    hidden_eq_plain (by decide) asciiText_single hp (fun t ht => (hsmall.1 t ht).1)
      recordedSuite.inverts recordedSuite.rejects (recordedSuite.sound hsmall.2.1)
      (Bytes.length_ofNat 16) (injOn_nonces (by have hcount := hsmall.2.2; omega))
      (Bytes.length_ofNat 16) hfile hfs⟩

def nestedCall : List (String × List Char) :=
  [("m.php",
    "<?php function h()\x7breturn $_GET['x'];\x7d function g($p)\x7becho $p;\x7d g(h());".toList)]

/-- A sealed run finds a path where a plain one finds none: the inner call stands in the structure
twice, alike in clear and sealed with two nonces. -/
theorem exists_hidden_only : ∃ p file n fs, Project.recordAll {} nestedCall = .ok p ∧
    structureFile (Bytes.ofNat 16) recordedSuite p.flows 0 = (.ok file, n) ∧
    hidden (Bytes.ofNat 16) recordedSuite file "XSS" 0 = .ok fs ∧ fs.length = 1 ∧
    plain p.flows.toText "XSS" = .ok ([], []) := by
  obtain ⟨p, found, hp, hsmall, hfound, hsize, hone⟩ := exists_found nestedCall "XSS"
    (fun found => found.length == 1 && decide (∀ path ∈ found, ∀ t ∈ path, t.Openable))
    (by decide +kernel)
  rw [Bool.and_eq_true, beq_iff_eq, decide_eq_true_eq] at hone
  obtain ⟨file, n, fs, hfile, hfs, hlength⟩ := exists_hidden_run hp hsmall hfound hsize hone.2
  refine ⟨p, file, n, fs, hp, hfile, hfs, hlength.trans hone.1, plain_eq_ok_iff.mpr ?_⟩
  have hplain : ((Project.recordAll {} nestedCall).toOption.bind fun p =>
      (search .plain "XSS" p.flows.numbered).toOption.map fun found =>
        found.isEmpty && decide (∀ w ∈ Structure.recordWords, w ∉ p.flows.names)) = some true := by
    decide +kernel
  rw [hp] at hplain
  obtain ⟨none, hnone, hempty⟩ := Option.map_eq_some_iff.mp hplain
  rw [Bool.and_eq_true, decide_eq_true_eq, List.isEmpty_iff] at hempty
  obtain ⟨rfl, hwords⟩ := hempty
  exact ⟨p.flows.numbered, Structure.ofText_toText
    ⟨(Project.recordedFrom (by decide) hp).distinct, hwords, fun _ => keys_notMem hp⟩,
    eq_ok_of_toOption hnone, rfl⟩

end Audit

end MaskedTaint
