import MaskedTaint.Proofs.Flow.Recording

/-! How the blocks of the masker and those of the recorder keep together. The masker opens a block
at a word and closes it at a brace or at the end of a statement; the recorder does so between
statements only. While every block that is opened inside a statement is closed inside it, the
masker never has more open blocks than the recorder, so no end is taken for that of the file,
and the file is read to its end. -/

namespace MaskedTaint

theorem Symbol.opensBlock_branch {kind : Kind} (h : kind.opensBranch = true) :
    (Symbol.plain kind).opensBlock = true := by
  cases kind <;> first | rfl | cases h

namespace Masker

theorem Enters.length_blocks {b b' : Books} {t u : Masked} (h : Enters b t u b')
    (ht : t.symbol.IsLexeme) :
    b'.blocks.length ≤ b.blocks.length + (if u.symbol.opensBlock then 1 else 0) ∧
      (u.symbol.endsBlock = true → b'.blocks.length + 1 = b.blocks.length) := by
  have hplain : t.symbol.endsBlock = false := by
    obtain ⟨kind, hkind, -⟩ := ht
    rw [hkind]
    rfl
  cases h with
  | branch h hkind => simp [h, Symbol.opensBlock_branch hkind, Symbol.endsBlock]
  | alternative h | doBlock h | function h => simp [h, Symbol.opensBlock, Symbol.endsBlock]
  | leave h hc | leaveFunction h hc hkind => simp [hc, Symbol.opensBlock]
  | drop h hc => simp [h, hc, Symbol.opensBlock, Kind.opensBranch, Symbol.endsBlock]
  | declare h hdecl hc hkind => simp [hc, Symbol.opensBlock, Symbol.endsBlock]
  | name h | assign h | operator h | endCall h hcall | endParens h hcall | call h hdecl =>
    simp [Symbol.endsBlock]
  | _ => simp [hplain]

theorem token_length_blocks {m m' : Masker} {t : Masked} (hm : m.IsListed)
    (h : token m = (.ok (some t), m')) :
    m'.blocks.length ≤ m.blocks.length + (if t.symbol.opensBlock then 1 else 0) ∧
      (t.symbol.endsBlock = true → m'.blocks.length + 1 = m.blocks.length) := by
  obtain ⟨u, b, hu, hsettles, henters⟩ := token_enters hm h
  have hlength : b.blocks.length = m.blocks.length := by
    cases hsettles with
    | idle h => rfl
    | brace h => rfl
    | oneLiner h hc => simp [show m.blocks = _ from hc]
  rw [← hlength]
  exact henters.length_blocks hu

end Masker

namespace Recorder

def isIdle (r : Recorder) : Bool :=
  match r.blocks with
  | [] => true
  | b :: _ => b.tasks.isEmpty

/-- Whether every block that is opened inside a statement is closed inside it; so far `inner`
blocks are open in the current one. -/
def closesInner (r : Recorder) (inner : Nat) : List (Masked × Masker) → Bool
  | [] => true
  | (t, m) :: later =>
    let r' := r.take t m.lexer.pos
    let opened := if r.isIdle then 0 else if t.symbol.opensBlock then inner + 1 else inner
    if r'.isIdle then opened == 0 && r'.closesInner 0 later
    else r'.closesInner (if t.symbol.endsBlock then opened - 1 else opened) later

inductive Turns (b : Block) (outer : List Block) (t : Masked) : List Block → Prop
  /-- The block stays open. A word that opens a block between statements begins a declaration. -/
  | stay {b' : Block} (h : b.declared ≤ b'.declared)
      (hopens : b.tasks = [] → t.symbol.opensBlock = true → b'.declared = 1) :
      Turns b outer t (b' :: outer)
  /-- A control structure is entered, or the body of the function being declared. -/
  | enter {b₁ b₂ : Block} (h : b.tasks ≠ [] → b.declared = 1) (h₁ : b₁.tasks = [])
      (h₂ : b₂.tasks = []) : Turns b outer t (b₁ :: b₂ :: outer)
  | leave {bs : List Block} (h : t.symbol.endsBlock = true) (hdeclared : b.declared = 0)
      (hlength : bs.length = outer.length)
      (hidle : (∀ o ∈ outer, o.tasks = []) → ∀ o ∈ bs, o.tasks = []) : Turns b outer t bs

variable {r : Recorder} {b : Block} {outer : List Block} {t : Masked}

theorem blocks_leave (r : Recorder) (b : Block) (outer : List Block) :
    (r.leave b outer).blocks.length = outer.length ∧
      ((∀ o ∈ outer, o.tasks = []) → ∀ o ∈ (r.leave b outer).blocks, o.tasks = []) := by
  cases outer with
  | nil => simp [leave]
  | cons o outer =>
    refine ⟨by simp [leave], fun h => ?_⟩
    simp only [leave, List.forall_mem_cons] at h ⊢
    refine ⟨?_, h.2⟩
    split <;> exact h.1

theorem turns_proceed (r : Recorder) {tasks : List Task} (hb : b.declared = 0)
    (hopens : b.tasks = [] → t.symbol.opensBlock = false) :
    Turns b outer t (r.proceed b outer tasks).blocks :=
  .stay (by omega) fun hidle h => by simp [hopens hidle] at h

theorem turns_finish (r : Recorder) (hb : b.declared = 0)
    (hopens : b.tasks = [] → t.symbol.opensBlock = false) {last : Option Symbol}
    (hlast : (last.map Symbol.endsBlock).getD false = true → t.symbol.endsBlock = true) :
    Turns b outer t (r.finish b outer last).blocks := by
  unfold finish
  dsimp only
  split
  · rename_i hends
    have hleave := blocks_leave r { b with tasks := [], last := last } outer
    exact .leave (hlast hends) hb hleave.1 hleave.2
  · exact .stay (by omega) fun hidle h => by simp [hopens hidle] at h

theorem take_turns (hblocks : r.blocks = b :: outer) (place : Int) :
    Turns b outer t (r.take t place).blocks := by
  have hgo : ∀ {r' : Recorder} {tasks : List Task}, b.IsBusy →
      Turns b outer t (r'.proceed b outer tasks).blocks := fun hb =>
    turns_proceed _ hb.declared fun h => absurd h hb.ne_nil
  have hdeclare : ∀ {r' : Recorder} {scope : String}, b.tasks ≠ [] →
      Turns b outer t (r'.proceed b outer [.parameters scope]).blocks := fun hb =>
    .stay (by unfold Block.declared; split <;> simp) fun h => absurd h hb
  have hdoes := take_does hblocks t place
  revert hdoes
  generalize r.take t place = r'
  intro hdoes
  cases hdoes with
  | settles hr =>
    cases hr with
    | stay hb =>
      rw [hblocks]
      exact .stay le_rfl fun h => absurd h hb
    | leave hb hs => cases hs
    | @finish r' last _ hb hlast =>
      have hdeclared : b.declared = 0 := hb.elim (·.declared) fun hb => Block.declared_idle hb.1
      refine turns_finish r' hdeclared (fun h => (hb.resolve_left (·.ne_nil h)).2 _ rfl) fun hends => ?_
      cases last with
      | none => cases hends
      | some x =>
        rcases hlast x rfl with hx | rfl
        · exact Option.some.inj hx ▸ hends
        · cases hends
    | go _ hb => exact hgo hb
    | openCall hb => exact .stay (le_refl b.declared) fun h => by simp [hb] at h
    | enterFunction hb => exact .enter (fun _ => by simp [Block.declared, hb]) rfl rfl
  | starts hb _ hopens =>
    refine .stay (by simp [Block.declared_idle hb]) fun _ h => ?_
    obtain rfl := hopens h
    rfl
  | enter hb => exact .enter (fun h => absurd hb h) rfl hb
  | call _ hb => exact hgo hb
  | @endCall callee args tasks hb =>
    have hbusy := isBusy hb (by simp) (by simp)
    rcases endCall_ends r b outer t callee args tasks with ⟨r', tasks', heq⟩ | ⟨r', heq⟩ <;> rw [heq]
    · exact hgo hbusy
    · exact turns_finish r' hbusy.declared (fun h => absurd h hbusy.ne_nil) id
  | declare _ hb | pass hb | parameter hb => exact hdeclare (by simp [hb])
  | mark _ hb | operand _ hb | read hb | argument _ hb | imported hb =>
    exact hgo (isBusy hb (by simp) (by simp))

theorem closes_of_take {place : Int} (hblocks : r.blocks ≠ [])
    (h : (r.take t place).blocks = []) : t.symbol ≠ .plain .word ∧ t.symbol ≠ .plain .input := by
  obtain ⟨b, outer, hb⟩ := List.exists_cons_of_ne_nil hblocks
  have hturns := take_turns (t := t) hb place
  rw [h] at hturns
  cases hturns with
  | leave hends => exact ⟨fun hs => by simp [hs, Symbol.endsBlock] at hends,
      fun hs => by simp [hs, Symbol.endsBlock] at hends⟩

/-! ### Alignment -/

/-- The masker has no more open blocks than the recorder, apart from those opened inside the
current statement. -/
structure Aligned (r : Recorder) (m : Masker) (inner : Nat) (b : Block) (outer : List Block) : Prop where
  blocks : r.blocks = b :: outer
  idle : ∀ o ∈ outer, o.tasks = []
  closed : b.tasks = [] → inner = 0
  length : m.blocks.length ≤ outer.length + b.declared + inner

theorem isIdle_cons (h : r.blocks = b :: outer) : r.isIdle = b.tasks.isEmpty := by
  simp [isIdle, h]

theorem Aligned.step {m m' : Masker} {inner : Nat} (h : Aligned r m inner b outer) (hm : m.IsListed)
    (ht : Masker.token m = (.ok (some t), m')) {later : List (Masked × Masker)}
    (hcloses : r.closesInner inner ((t, m') :: later) = true) :
    ∃ inner' b' outer', Aligned (r.take t m'.lexer.pos) m' inner' b' outer' ∧
      (r.take t m'.lexer.pos).closesInner inner' later = true := by
  obtain ⟨hopen, hclose⟩ := Masker.token_length_blocks hm ht
  have hlength := h.length
  have hturns : Turns b outer t (r.take t m'.lexer.pos).blocks := take_turns h.blocks m'.lexer.pos
  simp only [closesInner, isIdle_cons h.blocks] at hcloses
  generalize r.take t m'.lexer.pos = r' at hcloses hturns
  generalize hopened : (if b.tasks.isEmpty = true then 0 else
    if t.symbol.opensBlock = true then inner + 1 else inner) = opened at hcloses
  -- the masker's blocks, counted against the current statement
  have hcount : m'.blocks.length ≤ outer.length + b.declared + opened +
      (if b.tasks = [] ∧ t.symbol.opensBlock = true then 1 else 0) := by
    by_cases hb : b.tasks = []
    · have hinner := h.closed hb
      simp only [hb, true_and] at hopened ⊢
      omega
    · simp only [List.isEmpty_iff, hb, if_false] at hopened
      simp only [hb, false_and, if_false]
      split at hopen <;> simp_all <;> omega
  have hends : t.symbol.endsBlock = true → m'.blocks.length + 1 ≤ outer.length + b.declared + opened := by
    intro hends
    have hone := hclose hends
    by_cases hb : b.tasks = []
    · have hinner := h.closed hb
      omega
    · simp only [List.isEmpty_iff, hb, if_false] at hopened
      split at hopened <;> omega
  generalize hblocks : r'.blocks = bs at hturns
  cases hturns with
  | @stay b' hle hopens =>
    rw [isIdle_cons hblocks] at hcloses
    have hword : (if b.tasks = [] ∧ t.symbol.opensBlock = true then 1 else 0) + b.declared ≤
        b'.declared := by
      split
      · rename_i hboth
        have := hopens hboth.1 hboth.2
        have := Block.declared_idle hboth.1
        omega
      · omega
    cases hb' : b'.tasks with
    | nil =>
      simp only [hb', List.isEmpty_nil, if_true, Bool.and_eq_true, beq_iff_eq] at hcloses
      exact ⟨0, b', outer, ⟨hblocks, h.idle, fun _ => rfl, by omega⟩, hcloses.2⟩
    | cons task tasks =>
      simp only [hb', List.isEmpty_cons] at hcloses
      refine ⟨_, b', outer, ⟨hblocks, h.idle, fun hnil => ?_, ?_⟩, hcloses⟩
      · rw [hb'] at hnil
        cases hnil
      · split
        · rename_i hsymbol
          have := hends hsymbol
          omega
        · omega
  | @enter b₁ b₂ hfrom h₁ h₂ =>
    simp only [isIdle_cons hblocks, h₁, List.isEmpty_nil, if_true, Bool.and_eq_true,
      beq_iff_eq] at hcloses
    refine ⟨0, b₁, b₂ :: outer, ⟨hblocks, ?_, fun _ => rfl, ?_⟩, hcloses.2⟩
    · exact List.forall_mem_cons.mpr ⟨h₂, h.idle⟩
    · rw [List.length_cons]
      by_cases hb : b.tasks = []
      · have := Block.declared_idle hb
        split at hcount <;> omega
      · have := hfrom hb
        simp only [hb, false_and, if_false] at hcount
        omega
  | leave hsymbol hnone hbs hidle =>
    have hone := hends hsymbol
    have hidle := hidle h.idle
    have hstopped : r'.isIdle = true := by
      cases bs with
      | nil => simp [isIdle, hblocks]
      | cons b' outer' => simp [isIdle_cons hblocks, hidle b' List.mem_cons_self]
    simp only [hstopped, if_true, Bool.and_eq_true, beq_iff_eq] at hcloses
    cases bs with
    | nil =>
      -- the file would be left, but the masker has no block that could have ended
      rw [List.length_nil] at hbs
      omega
    | cons b' outer' =>
      rw [List.length_cons] at hbs
      exact ⟨0, b', outer', ⟨hblocks, fun o ho => hidle o (List.mem_cons_of_mem _ ho), fun _ => rfl,
        by omega⟩, hcloses.2⟩

theorem Aligned.follow {r : Recorder} {m : Masker} {inner : Nat} {b : Block} {outer : List Block}
    (h : Aligned r m inner b outer) (hm : m.IsListed)
    (hcloses : r.closesInner inner m.readAll.symbols = true) (hok : (r.follow m).failure = none) :
    (r.follow m).masker.AtEnd := by
  have hblocks : r.blocks ≠ [] := by simp [h.blocks]
  rcases ht : Masker.token m with ⟨e | t, m'⟩
  · rw [follow_failed ht hblocks] at hok
    cases hok
  · cases t with
    | none =>
      rw [follow_end ht hblocks]
      exact close_keeps (I := fun _ m => m.AtEnd) (fun _ m hm _ => by
        obtain ⟨m', htoken, hm'⟩ := hm.token
        rwa [htoken]) (fun _ _ hm _ _ => hm) _ (Masker.atEnd_of_token ht) hblocks
        (Masker.atEnd_of_token ht)
    | some t =>
      rw [Masker.readAll_of_token ht] at hcloses
      obtain ⟨inner', b', outer', haligned, hlater⟩ := h.step hm ht hcloses
      have hlisted : m'.IsListed := by
        have hgrows := Masker.token_growing m
        rw [ht] at hgrows
        exact hgrows.listed hm
      rw [follow_step ht hblocks] at hok ⊢
      exact haligned.follow hlisted hlater hok
termination_by m.size
decreasing_by exact Masker.size_lt_of_token ht

end Recorder

namespace Project

/-- Whether every block of a file that is opened inside a statement is closed inside it. -/
def closesInner (p : Project) (name : String) (code : List Char) : Bool :=
  (p.recorder name).closesInner 0 (p.masker.loadFile code).readAll.symbols

/-- A file is read to its end if it is recorded without failure and every block that is opened
inside a statement is closed inside it. -/
theorem recordFile_reads_all (name : String) (code : List Char) (hcloses : closesInner {} name code = true)
    (hok : (recordFile {} name code).failure = none) :
    ∃ m, Masker.token (recordFile {} name code).masker = (.ok none, m) := by
  have haligned : ((recorder {} name).Aligned (Masker.loadFile {} code) 0 { scope := name } []) :=
    ⟨rfl, by simp, fun _ => rfl, by simp [Masker.loadFile]⟩
  have hlisted : (Masker.loadFile {} code).IsListed := fun t ht => by simp [Masker.loadFile] at ht
  obtain ⟨m, hm, -⟩ := (haligned.follow hlisted hcloses hok).token
  exact ⟨m, hm⟩

/-- A function, a call inside a condition, and a function without a name that is closed before the
statement ends. -/
def nested : String :=
  "<?php function f($p) \x7b if (g($p)) \x7b return $p; \x7d \x7d h(function($x) \x7b echo $x; \x7d, $a);"

theorem recordFile_reads_all_nested : closesInner {} "m.php" nested.toList = true ∧
    (recordFile {} "m.php" nested.toList).failure = none ∧
    ∃ m, Masker.token (recordFile {} "m.php" nested.toList).masker = (.ok none, m) := by
  have hcloses : closesInner {} "m.php" nested.toList = true := by decide +kernel
  have hok : (recordFile {} "m.php" nested.toList).failure = none := by decide +kernel
  exact ⟨hcloses, hok, recordFile_reads_all "m.php" nested.toList hcloses hok⟩

/-- A function without a name in an assignment. Its end is taken for that of the file, and what
stands behind it is not read. -/
def unnamed : String := "<?php $f = function($x) \x7b return $x; \x7d; echo $_GET['a'];"

theorem exists_reading_broken_off :
    (recordFile {} "m.php" unnamed.toList).failure = none ∧
      ((Masker.token (recordFile {} "m.php" unnamed.toList).masker).1.map (Option.map Masked.symbol)) =
        .ok (some (.plain .semicolon)) := by decide +kernel

end Project

end MaskedTaint
