import MaskedTaint.Proofs.Flow.Recording

/-! The tokens of one file in the structure of a project. A file touches only the scopes that
its recorder knows: its own and those of its functions. What another file has left in other
scopes stays there, in the same order. -/

namespace MaskedTaint

namespace Recorder

variable {C : Contents}

theorem follow_filling (hC : C.Closed) {r₀ r : Recorder} {m : Masker}
    (hadmits : ∀ (r : Recorder) (b : Block) (t : Masked), r.file = r₀.file → t.symbol.IsListed →
      r.Admits C b t)
    (hm : m.IsListed) (h : r.Filling C r₀) : (r.follow m).recorder.Filling C r₀ := by
  let I : Recorder → Masker → Prop := fun r m => m.IsListed ∧ r.Filling C r₀
  have hread : ∀ r m, I r m → I r (Masker.token m).2 :=
    fun r m hI => ⟨(Masker.token_growing m).listed hI.1, hI.2⟩
  have hstep : ∀ r m r' m', Steps r m r' m' → I r m → I r' m' := by
    rintro r m r' m' ⟨-, t, ht, rfl⟩ hI
    have hnext := hread r m hI
    have hlisted := (Masker.token_known hI.1 ht).listed
    rw [ht] at hnext
    exact ⟨hnext.1, hI.2.take hC (fun b _ _ => hadmits r b t hI.2.stored.file hlisted) _⟩
  exact (follow_keeps (I := I) (fun r m _ => hread r m) hstep
    (fun r m _ hI _ => ⟨hI.1, hI.2.takeEnd hC⟩) ⟨hm, h⟩).2

theorem follow_grows (r : Recorder) (m : Masker) : m.Grows (r.follow m).masker := by
  refine follow_keeps (I := fun _ m' => m.Grows m') (fun r m' _ h => ?_) ?_ (fun _ _ _ h _ => h) (.refl m)
  · exact h.trans _ _ _ (Masker.token_growing m')
  · rintro r m' r' m'' ⟨-, t, ht, rfl⟩ h
    have hgrows := Masker.token_growing m'
    rw [ht] at hgrows
    exact h.trans _ _ _ hgrows

theorem token_grows_follow {r : Recorder} (m : Masker) (hblocks : r.blocks ≠ []) :
    (Masker.token m).2.Grows (r.follow m).masker := by
  rcases ht : Masker.token m with ⟨e | t, m'⟩
  · rw [follow_failed ht hblocks]
    exact .refl m'
  · cases t with
    | none =>
      rw [follow_end ht hblocks]
      refine close_keeps (I := fun _ n => m'.Grows n) (fun r n _ h => ?_) (fun _ _ _ h _ => h) _
        (Masker.atEnd_of_token ht) hblocks (.refl m')
      exact h.trans _ _ _ (Masker.token_growing n)
    | some t =>
      rw [follow_step ht hblocks]
      exact follow_grows _ m'

end Recorder

namespace Project

open Structure (Fills)

variable {C : Contents} {p : Project} {name file : String} {code : List Char}

/-- The scopes that a file touches: its own and those of its functions. -/
def scopesOf (p : Project) (name : String) (code : List Char) : List String :=
  (p.recordFile name code).recorder.functions.names

theorem recordFile_fills (hC : C.Closed) (hp : p.masker.IsListed)
    (hadmits : ∀ (r : Recorder) (b : Block) (t : Masked), r.file = name → t.symbol.IsListed →
      r.Admits C b t) :
    Fills C (p.scopesOf name code) p.flows (p.recordFile name code).recorder.flows ∧
      name ∈ p.scopesOf name code := by
  have hrun : (p.recordFile name code).recorder.Filling C (p.recorder name) := by
    rw [recordFile_eq]
    exact Recorder.follow_filling hC hadmits hp (filling_recorder C p name)
  exact ⟨((fills_recorder hC p name).mono hrun.stored.scopes).trans hrun.stored.flows,
    hrun.stored.scopes (Recorder.mem_names_put _ _ _)⟩

end Project

/-! ### The tokens of a file -/

namespace Structure

/-- The tokens of a file, each with the scope and the key under which it stands. -/
def entriesOf (d : Structure) (file : String) : List (String × String × Token) :=
  d.flatMap fun e => e.2.flatMap fun l =>
    (l.2.filter fun t => t.mark.file = file).map fun t => (e.1, l.1, t)

def Confines (d : Structure) (file : String) (scopes : List String) : Prop :=
  ∀ e ∈ d, ∀ l ∈ e.2, ∀ t ∈ l.2, t.mark.file = file → e.1 ∈ scopes

variable {d d' : Structure} {file : String} {scopes others : List String}

theorem entriesOf_append (d d' : Structure) (file : String) :
    entriesOf (d ++ d') file = d.entriesOf file ++ d'.entriesOf file := by
  simp [entriesOf]

theorem entriesOf_filter (h : d.Confines file scopes) (hd : List.Disjoint others scopes) :
    entriesOf (d.filter fun e => e.1 ∉ others) file = d.entriesOf file := by
  induction d with
  | nil => rfl
  | cons e d ih =>
    have ih := ih fun e he => h e (List.mem_cons_of_mem _ he)
    have hnone : e.1 ∈ others → entriesOf [e] file = [] := by
      intro he
      simp only [entriesOf, List.flatMap_cons, List.flatMap_nil, List.append_nil,
        List.flatMap_eq_nil_iff, List.map_eq_nil_iff, List.filter_eq_nil_iff, decide_eq_true_eq]
      exact fun l hl t ht hfile => hd he (h e List.mem_cons_self l hl t ht hfile)
    rw [← List.singleton_append, entriesOf_append, List.singleton_append, List.filter_cons]
    by_cases he : e.1 ∈ others
    · simpa [he, hnone he] using ih
    · rw [if_pos (by simpa using he), ← List.singleton_append, entriesOf_append, ih]

theorem entriesOf_eq_nil (h : d.Confines file []) : d.entriesOf file = [] := by
  have hfilter : entriesOf (d.filter fun e => e.1 ∉ d.names) file = d.entriesOf file :=
    entriesOf_filter h (List.disjoint_nil_right _)
  have hnil : (d.filter fun e => e.1 ∉ d.names) = [] := by
    rw [List.filter_eq_nil_iff]
    intro e he
    have hname : e.1 ∈ d.names := List.mem_map_of_mem he
    simpa using hname
  rw [← hfilter, hnil]
  rfl

end Structure

def Contents.confined (file : String) (scopes : List String) : Contents where
  listed scope _ t := t.mark.file = file → scope ∈ scopes
  argument _ _ := True
  parameter _ t := t.mark.file ≠ file

theorem Contents.confined_closed (file : String) (scopes : List String) :
    (confined file scopes).Closed :=
  ⟨fun _ _ t _ h => by cases t <;> exact h, fun _ _ h hfile => absurd hfile h⟩

theorem Recorder.admits_confined {r : Recorder} {file : String} (h : r.file ≠ file)
    (scopes : List String) (b : Block) (t : Masked) : r.Admits (.confined file scopes) b t :=
  ⟨fun _ _ hf => absurd hf h, trivial, fun _ _ => trivial,
    fun _ _ _ _ => ⟨trivial, fun _ _ hf => absurd hf h⟩, fun hf => absurd hf h, fun _ _ => h⟩

namespace Project

open Structure (Fills)

variable {p : Project} {name file : String} {code : List Char} {scopes : List String}
  {files : List (String × List Char)}

/-- All scopes that these files touch, one after the other. -/
def scopesOfEach : Project → List (String × List Char) → List String
  | _, [] => []
  | p, f :: files => p.scopesOf f.1 f.2 ++ scopesOfEach (after (p.recordFile f.1 f.2)) files

theorem fills_any (hp : p.masker.IsListed) (name : String) (code : List Char) :
    Fills .any (p.scopesOf name code) p.flows (p.recordFile name code).recorder.flows ∧
      name ∈ p.scopesOf name code :=
  recordFile_fills Contents.any_closed hp fun r b t _ _ => r.admits_any b t

theorem entriesOf_recordFile (hp : p.Sound) (hfile : file ∉ p.scopesOf name code)
    (hscopes : List.Disjoint (p.scopesOf name code) scopes) (h : p.flows.Confines file scopes) :
    (p.recordFile name code).recorder.flows.entriesOf file = p.flows.entriesOf file ∧
      (p.recordFile name code).recorder.flows.Confines file scopes := by
  have hC := Contents.confined_closed file scopes
  have hname := (fills_any hp.listed name code).2
  have hne : name ≠ file := fun he => hfile (he ▸ hname)
  have hfills : Fills (.confined file scopes) (p.scopesOf name code) p.flows
      (p.recordFile name code).recorder.flows :=
    (recordFile_fills hC hp.listed fun r b t hr _ =>
      Recorder.admits_confined (hr ▸ hne) scopes b t).1
  have hafter : (p.recordFile name code).recorder.flows.Confines file scopes := hfills.holds hC h
  refine ⟨?_, hafter⟩
  rw [← Structure.entriesOf_filter hafter hscopes, hfills.others, Structure.entriesOf_filter h hscopes]

theorem entriesOf_recordEach (hp : p.Sound) (hfile : file ∉ p.scopesOfEach files)
    (hscopes : List.Disjoint (p.scopesOfEach files) scopes) (h : p.flows.Confines file scopes) :
    (p.recordEach files).flows.entriesOf file = p.flows.entriesOf file ∧
      (p.recordEach files).flows.Confines file scopes := by
  induction files generalizing p with
  | nil => exact ⟨rfl, h⟩
  | cons f files ih =>
    obtain ⟨hf, hfiles⟩ := not_or.mp (List.mem_append.not.mp hfile)
    obtain ⟨hd, hds⟩ := List.disjoint_append_left.mp hscopes
    obtain ⟨hentries, hconfines⟩ := entriesOf_recordFile hp hf hd h
    obtain ⟨hrest, hlast⟩ := ih (hp.recordFile f.1 f.2) hfiles hds hconfines
    exact ⟨hrest.trans hentries, hlast⟩

theorem names_recordEach (hp : p.Sound) :
    (p.recordEach files).flows.names ⊆ p.flows.names ++ p.scopesOfEach files := by
  induction files generalizing p with
  | nil => simp [recordEach, scopesOfEach]
  | cons f files ih =>
    have hfills := (fills_any hp.listed f.1 f.2).1
    intro s hs
    have hs := ih (hp.recordFile f.1 f.2) hs
    rw [List.mem_append] at hs
    rcases hs with hs | hs
    · by_cases hscope : s ∈ p.scopesOf f.1 f.2
      · simp [scopesOfEach, hscope]
      · obtain ⟨e, he, rfl⟩ := List.mem_map.mp hs
        have hmem : e ∈ p.flows.filter fun e => e.1 ∉ p.scopesOf f.1 f.2 :=
          hfills.others ▸ List.mem_filter.mpr ⟨he, by simpa using hscope⟩
        exact List.mem_append_left _ (List.mem_map_of_mem (List.mem_filter.mp hmem).1)
    · simp [scopesOfEach, hs]

end Project

end MaskedTaint
