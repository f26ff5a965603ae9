import Mathlib.Logic.Relation
import MaskedTaint.Proofs.Flow.Alignment
import MaskedTaint.Proofs.Masking.Readable

/-! When recording fails. A text that can be divided into lexemes is recorded, unless a word is
taken for the name of a function where no function is declared, or the text ends where something
must still come: the other arguments of a call, the rest of a joined text, or the name of a
function. -/

namespace MaskedTaint

def Task.fault? : Task → Option RecordError
  | collect _ (.joined _) _ => some .openText
  | arguments _ _ => some .openCall
  | declaration => some .openDeclaration
  | _ => none

def Task.passes : Task → Bool
  | skip _ | query _ => true
  | _ => false

/-- What is wrong if the text ends inside the block: something in the innermost task that does not
just pass. -/
def Block.fault? (b : Block) : Option RecordError :=
  (b.tasks.dropWhile Task.passes).head?.bind Task.fault?

variable {b : Block}

theorem Block.fault?_idle (h : b.tasks = []) : b.fault? = none := by
  simp [fault?, h]

theorem Block.fault?_pass {task : Task} {tasks : List Task} (h : b.tasks = task :: tasks)
    (hpasses : task.passes = true) : Block.fault? { b with tasks := tasks } = b.fault? := by
  unfold fault?
  rw [h, List.dropWhile_cons_of_pos hpasses]

theorem Block.fault?_stop {task : Task} {tasks : List Task} (h : b.tasks = task :: tasks)
    (hpasses : task.passes = false) : b.fault? = task.fault? := by
  unfold fault?
  rw [h, List.dropWhile_cons_of_neg (by simp [hpasses])]
  rfl

namespace Recorder

variable {r : Recorder} {b : Block} {outer : List Block}

def OuterIdle (r : Recorder) : Prop := ∀ o ∈ r.blocks.tail, o.tasks = []

theorem OuterIdle.take (h : r.OuterIdle) (t : Masked) (place : Int) : (r.take t place).OuterIdle := by
  cases hblocks : r.blocks with
  | nil => simpa [Recorder.take, hblocks] using h
  | cons b outer =>
    unfold OuterIdle at h ⊢
    rw [hblocks] at h
    have hturns : Turns b outer t (r.take t place).blocks := take_turns hblocks place
    generalize (r.take t place).blocks = bs at hturns
    cases hturns with
    | stay hdeclared hopens => exact h
    | enter hb h₁ h₂ => exact List.forall_mem_cons.mpr ⟨h₂, h⟩
    | leave hends hdeclared hlength hidle => exact fun o ho => hidle h o (List.mem_of_mem_tail ho)

theorem patience_eq (hblocks : r.blocks = b :: outer) (h : r.OuterIdle) :
    r.patience = 1 + outer.length + 2 * b.tasks.length := by
  have hnone : outer.flatMap (·.tasks) = [] := by
    rw [List.flatMap_eq_nil_iff]
    unfold OuterIdle at h
    rw [hblocks] at h
    exact h
  simp only [patience, hblocks, List.length_cons, List.flatMap_cons, hnone, List.append_nil]
  omega

theorem failure_close (m : Masker) (n : Nat) (hblocks : r.blocks = b :: outer) (hidle : r.OuterIdle)
    (hn : r.patience ≤ n) : (r.close m n).failure = b.fault? := by
  induction n generalizing r b outer m with
  | zero =>
    have hpatience := patience_eq hblocks hidle
    omega
  | succ n ih =>
    have hpatience := patience_eq hblocks hidle
    have houter : ∀ o ∈ outer, o.tasks = [] := by
      unfold OuterIdle at hidle
      rwa [hblocks] at hidle
    have hstop : ∀ {r'}, takeEnd r = (.ok (), r') → r'.blocks = [] →
        (r.close m (n + 1)).failure = none := by
      intro r' hend hnil
      simp [close, hend, hnil]
    have hfail : ∀ {e r'}, takeEnd r = (.error e, r') → (r.close m (n + 1)).failure = some e := by
      intro e r' hend
      simp [close, hend]
    have hgo : ∀ {r' b' outer'}, takeEnd r = (.ok (), r') → r'.blocks = b' :: outer' →
        (∀ o ∈ outer', o.tasks = []) → 1 + outer'.length + 2 * b'.tasks.length ≤ n →
        (r.close m (n + 1)).failure = b'.fault? := by
      intro r' b' outer' hend hcons hidle' hle
      have hidle' : r'.OuterIdle := by
        unfold OuterIdle
        rwa [hcons]
      have hpatience' := patience_eq hcons hidle'
      simp only [close, hend, hcons, List.isEmpty_cons, Bool.false_eq_true, if_false]
      exact ih _ hcons hidle' (by omega)
    have hidle : ∀ (last : Option Symbol) {r₁ : Recorder}, (last.map Symbol.endsBlock).getD false = false →
        takeEnd r = (.ok (), r₁.finish b outer last) → b.tasks ≠ [] →
        (r.close m (n + 1)).failure = none := by
      intro last r₁ hlast hend hb
      have hpos := List.length_pos_iff.mpr hb
      have hcons : (r₁.finish b outer last).blocks = { b with tasks := [], last := last } :: outer := by
        simp [finish, hlast]
      exact (hgo hend hcons houter (by simp only [List.length_nil]; omega)).trans (Block.fault?_idle rfl)
    have hsame : ∀ {tasks}, b.tasks = tasks →
        takeEnd r = takeEnd { r with blocks := { b with tasks := tasks } :: outer } := by
      rintro _ rfl
      rw [← hblocks]
    cases hb : b.tasks with
    | nil =>
      have hrun := hsame hb
      have hend : takeEnd r = (.ok (), r.leave { b with tasks := [] } outer) := by
        cases outer <;> exact hrun
      rw [Block.fault?_idle hb]
      cases outer with
      | nil => exact hstop hend rfl
      | cons o rest =>
        obtain ⟨ho, hrest⟩ := List.forall_mem_cons.mp houter
        have hopen : (if b.nested then { o with deeper := b.counter :: b.deeper } else o).tasks = [] := by
          split <;> exact ho
        refine (hgo hend rfl hrest ?_).trans (Block.fault?_idle hopen)
        rw [hopen]
        simp only [List.length_cons, hb, List.length_nil] at hpatience ⊢
        omega
    | cons task tasks =>
      have hrun := hsame hb
      have hne : b.tasks ≠ [] := by simp [hb]
      have hlength : b.tasks.length = tasks.length + 1 := by simp [hb]
      cases task with
      | collect key manner waiting =>
        rw [Block.fault?_stop hb rfl]
        cases manner with
        | joined split =>
          exact hfail (e := .openText) hrun
        | value | printed => exact hidle none rfl hrun hne
      | arguments callee args =>
        have hend : ∃ r', takeEnd r = (.error .openCall, r') := by
          simp only [takeEnd, Act.state_bind, hblocks, hb]
          split <;> exact ⟨_, rfl⟩
        obtain ⟨r', hend⟩ := hend
        rw [Block.fault?_stop hb rfl]
        exact hfail hend
      | query waiting =>
        have hend : takeEnd r = (.ok (), r.endQuery b outer none waiting tasks) := by
          simp only [takeEnd, Act.state_bind, hblocks, hb]
          rfl
        rw [← Block.fault?_pass hb rfl]
        cases tasks with
        | nil => exact (hidle none rfl hend hne).trans (Block.fault?_idle rfl).symm
        | cons task tasks => exact hgo hend rfl houter (by dsimp only; omega)
      | skip stop =>
        have hend : takeEnd r = (.ok (), r.proceed b outer tasks) := hrun
        exact (hgo hend rfl houter (by dsimp only; omega)).trans (Block.fault?_pass hb rfl)
      | drain =>
        rw [Block.fault?_stop hb rfl]
        exact hidle none rfl hrun hne
      | declaration =>
        rw [Block.fault?_stop hb rfl]
        exact hfail (e := .openDeclaration) hrun
      | parameters scope =>
        have hend : takeEnd r = (.ok (), r.enterFunction b outer none scope) := hrun
        rw [Block.fault?_stop hb rfl]
        refine (hgo hend rfl (List.forall_mem_cons.mpr ⟨rfl, houter⟩) ?_).trans (Block.fault?_idle rfl)
        simp only [List.length_cons, List.length_nil]
        omega
      | imports =>
        rw [Block.fault?_stop hb rfl]
        exact hidle (some (.plain .importWord)) rfl hrun hne

/-! ### Runs -/

def StepsTo (s s' : Recorder × Masker) : Prop := Steps s.1 s.2 s'.1 s'.2

abbrev Reaches := Relation.ReflTransGen StepsTo

inductive StopsWith (r : Recorder) (m : Masker) : RecordError → Prop
  /-- The next word is taken for the name of a function, but the innermost block is no function. -/
  | word {t : Masked} {m' : Masker} {e : MaskError} (hopen : r.blocks ≠ [])
      (h : Masker.upcoming m = (.ok (some t), m')) (he : m'.misnamed t = some e) :
      StopsWith r m (.mask e)
  /-- The text ends inside something that must still go on. -/
  | ending {b : Block} {outer : List Block} {m' : Masker} {e : RecordError}
      (hblocks : r.blocks = b :: outer) (h : Masker.upcoming m = (.ok none, m'))
      (he : b.fault? = some e) : StopsWith r m e

variable {m m' : Masker} {e : RecordError}

theorem Reaches.follow_eq {s s' : Recorder × Masker} (h : Reaches s s') :
    s.1.follow s.2 = s'.1.follow s'.2 := by
  induction h with
  | refl => rfl
  | tail _ hstep ih =>
    obtain ⟨hblocks, t, ht, hr⟩ := hstep
    rw [ih, follow_step ht hblocks, hr]

theorem Reaches.keeps {I : Recorder → Prop} {s s' : Recorder × Masker} (h : Reaches s s')
    (hI : ∀ r t place, I r → I (r.take t place)) (hs : I s.1) : I s'.1 := by
  induction h with
  | refl => exact hs
  | tail _ hstep ih =>
    obtain ⟨-, t, -, hr⟩ := hstep
    rw [hr]
    exact hI _ t _ ih

theorem StopsWith.failure (h : r.StopsWith m e) (hr : r.OuterIdle) :
    (r.follow m).failure = some e := by
  cases h with
  | word hopen hup he =>
    obtain ⟨m'', htoken⟩ := Masker.token_misnamed hup he
    rw [follow_failed htoken hopen]
  | ending hblocks hup he =>
    rw [follow_end (Masker.token_end hup) (by simp [hblocks]),
      failure_close _ _ hblocks hr (Nat.le_refl _), he]

theorem exists_stopsWith {r : Recorder} {m : Masker} (hr : r.OuterIdle) (hm : m.Fit)
    (h : (r.follow m).failure = some e) : ∃ r' m', Reaches (r, m) (r', m') ∧ r'.StopsWith m' e := by
  have hopen : r.blocks ≠ [] := by
    intro hnil
    rw [follow_stopped m hnil] at h
    cases h
  obtain ⟨b, outer, hblocks⟩ := List.exists_cons_of_ne_nil hopen
  obtain ⟨o, m₁, hup, hm₁⟩ := Masker.upcoming_sure hm
  cases o with
  | none =>
    rw [follow_end (Masker.token_end hup) hopen, failure_close _ _ hblocks hr (Nat.le_refl _)] at h
    exact ⟨r, m, .refl, .ending hblocks hup h⟩
  | some t =>
    cases hnamed : m₁.misnamed t with
    | some e' =>
      obtain ⟨m₂, htoken⟩ := Masker.token_misnamed hup hnamed
      rw [follow_failed htoken hopen] at h
      cases h
      exact ⟨r, m, .refl, .word hopen hup hnamed⟩
    | none =>
      obtain ⟨u, m₂, htoken, hfit⟩ := Masker.token_named hup hm₁ hnamed
      rw [follow_step htoken hopen] at h
      obtain ⟨r', m', hreach, hstops⟩ := exists_stopsWith (hr.take u m₂.lexer.pos) hfit h
      exact ⟨r', m', hreach.head ⟨hopen, u, htoken, rfl⟩, hstops⟩
termination_by m.size
decreasing_by exact Masker.size_lt_of_token htoken

end Recorder

namespace Project

/-- A text that can be divided into lexemes is recorded without a failure, unless the recording
comes to a word that is taken for the name of a function where none is declared, or to the end of
the text inside the arguments of a call, inside a joined text or before the name of a function. -/
theorem recordFile_fails_iff (name : String) {code : List Char}
    (hcode : (({} : Lexer).load code).Readable) (e : RecordError) :
    (({} : Project).recordFile name code).failure = some e ↔
      ∃ r m, Recorder.Reaches (({} : Project).recorder name, ({} : Masker).loadFile code) (r, m) ∧
        r.StopsWith m e := by
  have hr : (({} : Project).recorder name).OuterIdle := by simp [Recorder.OuterIdle, recorder]
  have hm : (({} : Masker).loadFile code).Fit := ⟨hcode, fun h => by cases h⟩
  rw [recordFile_eq]
  constructor
  · exact Recorder.exists_stopsWith hr hm
  · rintro ⟨r, m, hreach, hstops⟩
    exact hreach.follow_eq ▸ hstops.failure (hreach.keeps (fun _ t place h => h.take t place) hr)

def unfinishedCall : List Char := "<?php echo 1; f($a, g($b)".toList

theorem recordFile_fails_iff_unfinishedCall :
    (({} : Lexer).load unfinishedCall).Readable ∧
      (({} : Project).recordFile "m.php" unfinishedCall).failure = some .openCall ∧
      ∃ r m, Recorder.Reaches (({} : Project).recorder "m.php", ({} : Masker).loadFile unfinishedCall) (r, m) ∧
        r.StopsWith m .openCall := by
  have hcode : (({} : Lexer).load unfinishedCall).Readable := by decide +kernel
  have hfails : (({} : Project).recordFile "m.php" unfinishedCall).failure = some .openCall := by
    decide +kernel
  exact ⟨hcode, hfails, (recordFile_fails_iff "m.php" hcode .openCall).mp hfails⟩

def closureInBranch : List Char :=
  "<?php if ($a) \x7b $f = function($x) \x7b return $x; \x7d; foo(); \x7d".toList

/-- A function without a name makes the next call be taken for its name. -/
theorem readable_fails_closureInBranch : (({} : Lexer).load closureInBranch).Readable ∧
    (({} : Project).recordFile "m.php" closureInBranch).failure = some (.mask .notFunction) := by
  decide +kernel

end Project

end MaskedTaint
