import MaskedTaint.Command.Source
import MaskedTaint.Proofs.Flow.Files

/-! How large the counters become. Depth, order and flow of a token come from counters of the open
blocks; none of them is ever larger than the number of words with which a control structure is
entered that were read, and these are paid for by the text. -/

namespace MaskedTaint

/-! ### The tokens of short files -/

/-- There is room for the mark in a file of this length: the position lies in the file, and the
counters are not larger than the number of control structures that such a file can have. -/
structure Mark.RoomIn (length : Nat) (m : Mark) : Prop where
  pos : 0 ≤ m.pos ∧ m.pos < length
  depth : 0 ≤ m.depth ∧ m.depth ≤ length / 2 + 1
  order : 0 ≤ m.order ∧ m.order ≤ length / 2 + 1
  flow : -1 ≤ m.flow ∧ m.flow ≤ length / 2 + 1

theorem Contents.roomIn_closed (length : Nat) : (marked (Mark.RoomIn length)).Closed :=
  marked_closed fun _ _ h => ⟨h.pos, h.depth, h.order, h.flow⟩

theorem Recorder.admits_roomIn {length count : Nat} {r : Recorder} {b : Block} {t : Masked}
    (hcount : 2 * count ≤ length + 2) (hb : b.CountsTo count) (ht : 0 ≤ t.pos ∧ t.pos < length) :
    r.Admits (.marked (Mark.RoomIn length)) b t := by
  obtain ⟨hdepth, horder, hflow, -, -, -⟩ := hb
  refine admits_marked fun scope kind _ => ⟨ht, ?_, ?_, ?_⟩
  · show 0 ≤ b.depth ∧ b.depth ≤ length / 2 + 1
    omega
  · show 0 ≤ b.order ∧ b.order ≤ length / 2 + 1
    omega
  · show -1 ≤ b.flow ∧ b.flow ≤ length / 2 + 1
    omega

/-- So far `count` control structures were entered, and the text ahead pays for the rest. -/
structure Recorder.Counting (length : Nat) (r₀ r : Recorder) (m : Masker) (count budget : Nat) :
    Prop where
  paid : 2 * count + budget ≤ length + 2
  stands : m.Abides (.supply length budget)
  counts : r.CountsTo count
  filling : r.Filling (.marked (Mark.RoomIn length)) r₀

namespace Recorder

variable {length count budget : Nat} {r₀ r : Recorder} {m m' : Masker}

theorem Counting.read (h : Counting length r₀ r m count budget) :
    Counting length r₀ r (Masker.token m).2 count budget :=
  ⟨h.paid, (Watch.holds_supply length budget).token Masker.sifts_supply h.stands, h.counts, h.filling⟩

theorem Counting.step {t : Masked} (h : Counting length r₀ r m count budget)
    (ht : Masker.token m = (.ok (some t), m')) :
    ∃ count' budget', Counting length r₀ (r.take t m'.lexer.pos) m' count' budget' := by
  have hpaid := h.paid
  obtain ⟨hplace, left, hstands, htoll⟩ := Masker.token_pays h.stands ht
  have hcounts := h.counts.take (t := t) m'.lexer.pos
  have hfilling := h.filling.take (t := t) (Contents.roomIn_closed length)
    (fun b outer hb => admits_roomIn (by omega) (h.counts b (by simp [hb])) hplace) m'.lexer.pos
  by_cases hcontrol : t.symbol.toll = 2
  · rw [if_pos hcontrol] at hcounts
    exact ⟨count + 1, left, by omega, hstands, by exact_mod_cast hcounts, hfilling⟩
  · rw [if_neg hcontrol] at hcounts
    exact ⟨count, left, by omega, hstands, hcounts, hfilling⟩

theorem Counting.takeEnd (h : Counting length r₀ r m count budget) :
    Counting length r₀ (takeEnd r).2 m count budget :=
  ⟨h.paid, h.stands, h.counts.takeEnd,
    h.filling.takeEnd (Contents.roomIn_closed length)⟩

theorem Counting.follow (h : Counting length r₀ r m count budget) :
    ∃ count' budget', Counting length r₀ (r.follow m).recorder (r.follow m).masker count' budget' := by
  refine follow_keeps (I := fun r m => ∃ count budget, Counting length r₀ r m count budget)
    ?_ ?_ ?_ ⟨count, budget, h⟩
  · rintro r m - ⟨count, budget, h⟩
    exact ⟨count, budget, h.read⟩
  · rintro r m r' m' ⟨-, t, ht, rfl⟩ ⟨count, budget, h⟩
    exact h.step ht
  · rintro r m - ⟨count, budget, h⟩ -
    exact ⟨count, budget, h.takeEnd⟩

end Recorder

namespace Project

variable {length : Nat} {p q : Project}

/-- In the tokens so far, and in a lexeme read ahead, positions and counters have room. -/
structure RoomIn (length : Nat) (p : Project) : Prop where
  flows : p.flows.Holds (.marked (Mark.RoomIn length))
  peeked : ∀ t, p.masker.peeked = some t → 0 ≤ t.pos ∧ t.pos < length

theorem roomIn_empty (length : Nat) : ({} : Project).RoomIn length :=
  ⟨Structure.holds_empty _, fun t ht => by cases ht⟩

theorem RoomIn.recordFile (h : p.RoomIn length) (name : String) {code : List Char}
    (hcode : code.length ≤ length) : (after (p.recordFile name code)).RoomIn length := by
  have hC := Contents.roomIn_closed length
  have hblock : Block.CountsTo ((0 : Nat) : Int) { scope := name } :=
    ⟨by simp, by simp, by simp, by simp, by simp, by simp⟩
  have hstart : Recorder.Counting length (p.recorder name) (p.recorder name)
      (p.masker.loadFile code) 0 (length + 2) :=
    ⟨by omega, Masker.abides_loadFile hcode h.peeked, List.forall_mem_singleton.mpr hblock,
      filling_recorder _ p name⟩
  obtain ⟨count, budget, hend⟩ := hstart.follow
  rw [← recordFile_eq] at hend
  refine ⟨?_, fun t ht => (hend.stands.peeked t ht).1⟩
  exact hend.filling.stored.flows.holds hC ((fills_recorder hC p name).holds hC h.flows)

theorem RoomIn.recordAll (h : p.RoomIn length) {files : List (String × List Char)}
    (hfiles : ∀ f ∈ files, f.2.length ≤ length) (hq : p.recordAll files = .ok q) : q.RoomIn length := by
  induction files generalizing p with
  | nil =>
    cases hq
    exact h
  | cons f files ih =>
    obtain ⟨hf, hfiles⟩ := List.forall_mem_cons.mp hfiles
    unfold Project.recordAll at hq
    dsimp only at hq
    split at hq
    · cases hq
    · exact ih (h.recordFile f.1 hf) hfiles hq

end Project

end MaskedTaint
