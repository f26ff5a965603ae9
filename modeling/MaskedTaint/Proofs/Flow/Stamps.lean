import MaskedTaint.Command.Source
import MaskedTaint.Proofs.Flow.Files
import MaskedTaint.Proofs.Flow.Renaming

/-! What is stamped on the tokens of a recorded project: the name of one of its files, a kind without
commas, and lines and split marks that are numbers. -/

namespace MaskedTaint

structure Mark.Stamped (files : List String) (m : Mark) : Prop where
  file : m.file ∈ files
  split : ∃ n, m.split = .number n
  kind : CommaFree m.kind
  line : ∃ n, m.line = .number n

def Token.Stamped (files : List String) (t : Token) : Prop := t.mark.Stamped files

def Contents.stamped (files : List String) : Contents := .marked (Mark.Stamped files)

theorem Contents.stamped_closed (files : List String) : (stamped files).Closed :=
  marked_closed fun _ n h => ⟨h.file, ⟨n, rfl⟩, h.kind, h.line⟩

theorem Recorder.admits_stamped {files : List String} {r : Recorder} (h : r.file ∈ files) (b : Block)
    {t : Masked} (ht : t.symbol.IsListed) : r.Admits (.stamped files) b t := by
  refine admits_marked fun _ kind hkind => ⟨h, ⟨0, rfl⟩, ?_, t.line, rfl⟩
  simp only [List.mem_cons, List.not_mem_nil, or_false] at hkind
  rcases hkind with rfl | rfl | rfl
  · exact Symbol.commaFree_name ht
  · exact (by decide : CommaFree Special.call.name)
  · exact (by decide : CommaFree Kind.importWord.name)

namespace Project

variable {files : List (String × List Char)} {names : List String}

variable {p : Project}

theorem recordAll_stamped {q : Project} (hp : p.Sound) (hstamped : p.flows.Holds (.stamped names))
    (hsub : files.map Prod.fst ⊆ names) (h : p.recordAll files = .ok q) :
    q.flows.Holds (.stamped names) ∧ (∀ scope, p.flows.has scope = true → q.flows.has scope = true) ∧
      ∀ f ∈ files, q.flows.has f.1 = true := by
  induction files generalizing p with
  | nil =>
    cases h
    exact ⟨hstamped, fun _ hs => hs, by simp⟩
  | cons f files ih =>
    unfold recordAll at h
    dsimp only at h
    split at h
    · cases h
    · have hC := Contents.stamped_closed names
      have hname : f.1 ∈ names := hsub (by simp)
      have hadmits : ∀ (r : Recorder) (b : Block) (t : Masked), r.file = f.1 → t.symbol.IsListed →
          r.Admits (.stamped names) b t := fun r b t hr => Recorder.admits_stamped (hr ▸ hname) b
      have hfills : Structure.Fills _ _ p.flows (p.recordFile f.1 f.2).recorder.flows :=
        (recordFile_fills hC hp.listed hadmits).1
      have hopen : (p.recorder f.1).flows.has f.1 = true := Table.has_put_self _ _ _
      have hrun : Structure.Fills (.stamped names) (p.scopesOf f.1 f.2) (p.recorder f.1).flows
          (p.recordFile f.1 f.2).recorder.flows := by
        have hfilling : (p.recordFile f.1 f.2).recorder.Filling (.stamped names) (p.recorder f.1) := by
          rw [recordFile_eq]
          exact Recorder.follow_filling hC hadmits hp.listed
            (filling_recorder _ p f.1)
        exact hfilling.stored.flows
      obtain ⟨hheld, hkept, heach⟩ := ih (hp.recordFile f.1 f.2) (hfills.holds hC hstamped)
        (fun n hn => hsub (List.mem_cons_of_mem _ hn)) h
      refine ⟨hheld, fun scope hs => hkept scope (hfills.has hs), fun g hg => ?_⟩
      rcases List.mem_cons.mp hg with rfl | hg
      · exact hkept _ (hrun.has hopen)
      · exact heach g hg

theorem occurrences_stamped (h : recordAll {} files = .ok p) :
    ∀ t ∈ p.flows.occurrences, t.Stamped (files.map Prod.fst) := by
  obtain ⟨hheld, _⟩ := recordAll_stamped sound_empty (Structure.holds_empty _) (List.Subset.refl _) h
  exact hheld.marks

theorem flows_ne_nil (hfiles : files ≠ []) (h : recordAll {} files = .ok p) : p.flows ≠ [] := by
  obtain ⟨_, _, heach⟩ := recordAll_stamped sound_empty (Structure.holds_empty _)
    (List.Subset.refl (files.map Prod.fst)) h
  obtain ⟨f, rest, rfl⟩ := List.exists_cons_of_ne_nil hfiles
  intro hnil
  have hhas := heach f List.mem_cons_self
  rw [hnil] at hhas
  cases hhas

end Project

end MaskedTaint
