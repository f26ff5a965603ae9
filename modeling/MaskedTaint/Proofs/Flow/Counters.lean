import MaskedTaint.Proofs.Flow.Effects

/-! The counters of the open blocks. They are not negative, and none of them grows but at a word with
which a control structure is entered, and then by one at most. -/

namespace MaskedTaint

/-- The counters of a block lie between these bounds; only the flow of an alternative is negative. -/
structure Block.CountsTo (most : Int) (b : Block) : Prop where
  depth : 0 ≤ b.depth ∧ b.depth ≤ most
  order : 0 ≤ b.order ∧ b.order ≤ most
  flow : -1 ≤ b.flow ∧ b.flow ≤ most
  counter : 0 ≤ b.counter ∧ b.counter ≤ most
  deeper : ∀ n ∈ b.deeper, 0 ≤ n ∧ n ≤ most
  branches : 0 ≤ b.branches ∧ b.branches ≤ most

theorem Block.CountsTo.mono {most most' : Int} {b : Block} (hle : most ≤ most')
    (h : b.CountsTo most) : b.CountsTo most' := by
  obtain ⟨hdepth, horder, hflow, hcounter, hdeeper, hbranches⟩ := h
  refine ⟨by omega, by omega, by omega, by omega, fun n hn => ?_, by omega⟩
  have := hdeeper n hn
  omega

namespace Recorder

def CountsTo (most : Int) (r : Recorder) : Prop := ∀ b ∈ r.blocks, b.CountsTo most

variable {r : Recorder} {b : Block} {outer : List Block} {t : Masked} {most : Int}

theorem CountsTo.cons (h : r.CountsTo most) (hblocks : r.blocks = b :: outer) :
    b.CountsTo most ∧ ∀ o ∈ outer, o.CountsTo most := by
  unfold CountsTo at h
  rw [hblocks] at h
  exact List.forall_mem_cons.mp h

section Blocks

variable (hb : b.CountsTo most) (houter : ∀ o ∈ outer, o.CountsTo most)

include hb houter

theorem countsTo_proceed (r : Recorder) (tasks : List Task) : (r.proceed b outer tasks).CountsTo most :=
  List.forall_mem_cons.mpr
    ⟨⟨hb.depth, hb.order, hb.flow, hb.counter, hb.deeper, hb.branches⟩, houter⟩

theorem countsTo_leave (r : Recorder) : (r.leave b outer).CountsTo most := by
  cases outer with
  | nil => simp [CountsTo, leave]
  | cons o outer =>
    obtain ⟨ho, houter⟩ := List.forall_mem_cons.mp houter
    refine List.forall_mem_cons.mpr ⟨?_, houter⟩
    split
    · exact ⟨ho.depth, ho.order, ho.flow, ho.counter,
        List.forall_mem_cons.mpr ⟨hb.counter, hb.deeper⟩, ho.branches⟩
    · exact ho

theorem countsTo_finish (r : Recorder) (last : Option Symbol) :
    (r.finish b outer last).CountsTo most := by
  have hb' : Block.CountsTo most { b with tasks := [], last := last } :=
    ⟨hb.depth, hb.order, hb.flow, hb.counter, hb.deeper, hb.branches⟩
  unfold finish
  dsimp only
  split
  · exact countsTo_leave hb' houter r
  · exact List.forall_mem_cons.mpr ⟨hb', houter⟩

theorem countsTo_enter (r : Recorder) {counter branches flow : Int}
    (hcounter : b.counter ≤ counter ∧ counter ≤ b.counter + 1)
    (hbranches : branches = b.branches ∨ branches = b.branches + 1 ∨ branches = 1)
    (hflow : flow = -1 ∨ flow = 1 ∨ flow = branches) :
    (r.enter { b with counter := counter, branches := branches } outer t flow).CountsTo (most + 1) := by
  obtain ⟨hdepth, horder, hflow', hcounter', hdeeper, hbranches'⟩ := hb
  refine List.forall_mem_cons.mpr ⟨?_, List.forall_mem_cons.mpr ⟨?_, fun o ho => (houter o ho).mono (by omega)⟩⟩
  · have hhead : 0 ≤ b.deeper.head?.getD 0 ∧ b.deeper.head?.getD 0 ≤ most := by
      cases hd : b.deeper with
      | nil => exact ⟨Int.le_refl 0, Int.le_trans hdepth.1 hdepth.2⟩
      | cons n ns => exact hdeeper n (by simp [hd])
    refine ⟨?_, ?_, ?_, ?_, fun n hn => ?_, ?_⟩
    · show 0 ≤ b.depth + 1 ∧ b.depth + 1 ≤ most + 1
      omega
    · show 0 ≤ counter ∧ counter ≤ most + 1
      omega
    · show -1 ≤ flow ∧ flow ≤ most + 1
      omega
    · exact ⟨hhead.1, by show b.deeper.head?.getD 0 ≤ most + 1; omega⟩
    · have := hdeeper n (List.mem_of_mem_tail hn)
      omega
    · exact ⟨Int.le_refl 0, by show 0 ≤ most + 1; omega⟩
  · refine ⟨?_, ?_, ?_, ?_, fun n hn => ?_, ?_⟩
    · exact ⟨hdepth.1, by show b.depth ≤ most + 1; omega⟩
    · exact ⟨horder.1, by show b.order ≤ most + 1; omega⟩
    · exact ⟨hflow'.1, by show b.flow ≤ most + 1; omega⟩
    · show 0 ≤ counter ∧ counter ≤ most + 1
      omega
    · have := hdeeper n hn
      omega
    · show 0 ≤ branches ∧ branches ≤ most + 1
      omega

end Blocks

theorem CountsTo.settles {s : Option Symbol} {r' : Recorder} (h : r.CountsTo most)
    (hblocks : r.blocks = b :: outer) (hr : Settles r b outer s r') : r'.CountsTo most := by
  obtain ⟨hb, houter⟩ := h.cons hblocks
  cases hr with
  | stay => exact h
  | leave => exact countsTo_leave hb houter r
  | finish => exact countsTo_finish hb houter _ _
  | go => exact countsTo_proceed hb houter _ _
  | openCall => exact List.forall_mem_cons.mpr ⟨hb, houter⟩
  | enterFunction =>
    have hmost := Int.le_trans hb.depth.1 hb.depth.2
    refine List.forall_mem_cons.mpr ⟨?_, List.forall_mem_cons.mpr ⟨?_, houter⟩⟩
    · exact ⟨hb.depth, by simp [hmost], by simp; omega, by simp [hmost], by simp, by simp [hmost]⟩
    · exact ⟨hb.depth, hb.order, hb.flow, hb.counter, hb.deeper, hb.branches⟩

theorem CountsTo.take (h : r.CountsTo most) (place : Int) :
    (r.take t place).CountsTo (if t.symbol.toll = 2 then most + 1 else most) := by
  cases hblocks : r.blocks with
  | nil => simp [CountsTo, Recorder.take, hblocks]
  | cons b outer =>
    obtain ⟨hb, houter⟩ := h.cons hblocks
    have hle : most ≤ if t.symbol.toll = 2 then most + 1 else most := by split <;> omega
    have hmore : ∀ {r' : Recorder}, r'.CountsTo most →
        r'.CountsTo (if t.symbol.toll = 2 then most + 1 else most) := fun h o ho => (h o ho).mono hle
    have hdoes := take_does hblocks t place
    revert hdoes
    generalize r.take t place = r'
    intro hdoes
    cases hdoes with
    | settles hr => exact hmore (h.settles hblocks hr)
    | enter _ htoll hcounter hbranches hflow =>
      rw [if_pos htoll]
      exact countsTo_enter hb houter r hcounter hbranches hflow
    | @endCall callee args tasks =>
      rcases endCall_ends r b outer t callee args tasks with ⟨r', tasks', heq⟩ | ⟨r', heq⟩ <;> rw [heq]
      · exact hmore (countsTo_proceed hb houter r' tasks')
      · exact hmore (countsTo_finish hb houter r' _)
    | _ => exact hmore (countsTo_proceed hb houter _ _)

theorem CountsTo.takeEnd (h : r.CountsTo most) : (takeEnd r).2.CountsTo most :=
  takeEnd_keeps h fun hblocks => h.settles hblocks

end Recorder

end MaskedTaint
