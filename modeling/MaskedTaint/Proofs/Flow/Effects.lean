import MaskedTaint.Proofs.Flow.Runs
import MaskedTaint.Proofs.Flow.Sound
import MaskedTaint.Proofs.Masking.Supply

/-! What a recorder does at a symbol, and what it does at the end of the text. This module goes once
through the tasks and symbols; all that a recorder keeps is read off from the few things that it can
do. -/

namespace MaskedTaint

namespace Block

def declared (b : Block) : Nat :=
  match b.tasks with
  | .declaration :: _ | .parameters _ :: _ => 1
  | _ => 0

theorem declared_idle {b : Block} (h : b.tasks = []) : b.declared = 0 := by
  simp [declared, h]

/-- The block is in the middle of a statement that is no declaration. -/
structure IsBusy (b : Block) : Prop where
  ne_nil : b.tasks ≠ []
  declared : b.declared = 0

end Block

namespace Recorder

/-- The task was there before, or has only begun to wait for its end. -/
inductive Continues (tasks : List Task) : Task → Prop
  | kept {task : Task} (h : task ∈ tasks) : Continues tasks task
  | manner {key : String} {manner : Manner} {waiting : List Token} (manner' : Manner)
      (h : .collect key manner waiting ∈ tasks) : Continues tasks (.collect key manner' waiting)
  | skip (stop : Symbol) : Continues tasks (.skip stop)
  | drain : Continues tasks .drain
  | query : Continues tasks (.query [])

def Waits (tasks : List Task) (key : String) (waiting : List Token) : Prop :=
  (∃ manner, .collect key manner waiting ∈ tasks) ∨
    key = (Special.sink .sqli).name ∧ .query waiting ∈ tasks

/-- Nothing is stored, or what has been waiting. -/
def Stores (r : Recorder) (b : Block) (r' : Recorder) : Prop :=
  r' = r ∨ ∃ key waiting, Waits b.tasks key waiting ∧ r' = r.store b key waiting

/-- What can be done without a new token, at this symbol or, if there is none, at the end. -/
inductive Settles (r : Recorder) (b : Block) (outer : List Block) (s : Option Symbol) : Recorder → Prop
  | stay (hb : b.tasks ≠ []) : Settles r b outer s r
  | leave (hb : b.tasks = []) (hs : s = none) : Settles r b outer s (r.leave b outer)
  | finish {r' : Recorder} {last : Option Symbol} (hr : Stores r b r')
      (hb : b.IsBusy ∨ b.tasks = [] ∧ ∀ x ∈ s, x.opensBlock = false)
      (hlast : ∀ x ∈ last, x ∈ s ∨ x = .plain .importWord) :
      Settles r b outer s (r'.finish b outer last)
  | go {r' : Recorder} {tasks : List Task} (hr : Stores r b r') (hb : b.IsBusy)
      (htasks : ∀ task ∈ tasks, Continues b.tasks task) :
      Settles r b outer s (r'.proceed b outer tasks)
  | openCall {callee : Nat} {args : List Token} (hb : b.tasks = [.arguments callee args]) :
      Settles r b outer s
        { r with flows := r.flows.append b.scope Special.call.name [], blocks := b :: outer }
  | enterFunction {scope : String} {tasks : List Task} {last : Option Symbol}
      (hb : b.tasks = .parameters scope :: tasks) :
      Settles r b outer s (r.enterFunction b outer last scope)

inductive Begins (t : Masked) : Task → Prop
  | collect {key : String} (manner : Manner) (hkey : IsPlainKey key) : Begins t (.collect key manner [])
  | call {n : Nat} (h : t.symbol = .call n) : Begins t (.arguments n [])
  | query : Begins t (.query [])
  | imports : Begins t .imports
  | declaration : Begins t .declaration

inductive Does (r : Recorder) (b : Block) (outer : List Block) (t : Masked) (place : Int) :
    Recorder → Prop
  | settles {r' : Recorder} (h : Settles r b outer (some t.symbol) r') : Does r b outer t place r'
  | starts {task : Task} (hb : b.tasks = []) (htask : Begins t task)
      (hopens : t.symbol.opensBlock = true → task = .declaration) :
      Does r b outer t place (r.proceed b outer [task])
  /-- A control structure is entered, the next one or one more branch of the last one. -/
  | enter {counter branches flow : Int} (hb : b.tasks = []) (htoll : t.symbol.toll = 2)
      (hcounter : b.counter ≤ counter ∧ counter ≤ b.counter + 1)
      (hbranches : branches = b.branches ∨ branches = b.branches + 1 ∨ branches = 1)
      (hflow : flow = -1 ∨ flow = 1 ∨ flow = branches) :
      Does r b outer t place (r.enter { b with counter := counter, branches := branches } outer t flow)
  | call {n : Nat} {tasks : List Task} (hn : t.symbol = .call n) (hb : b.IsBusy)
      (htasks : tasks ⊆ b.tasks) :
      Does r b outer t place (r.proceed b outer (.arguments n [] :: tasks))
  | mark {key : String} {waiting : List Token} {tasks : List Task} (last : Token)
      (hb : b.tasks = .collect key .value waiting :: tasks) :
      Does r b outer t place
        ({ r with flows := r.flows.setSplit b.scope last.id (.number place) }.proceed b outer
          [.collect key (.joined place) (waiting.map fun u : Token =>
            if u.id = last.id then u.setSplit (.number place) else u)])
  | operand {key : String} {manner : Manner} {waiting : List Token} {tasks : List Task} (front : List Task)
      (hb : b.tasks = .collect key manner waiting :: tasks) (hfront : ∀ task ∈ front, Continues [] task) :
      Does r b outer t place ((r.takeOperand b t key manner waiting).2.proceed b outer
        (front ++ [.collect key manner (r.takeOperand b t key manner waiting).1]))
  | read {waiting : List Token} {tasks : List Task} (hb : b.tasks = .query waiting :: tasks) :
      Does r b outer t place
        (((r.site b t).2.gather b (Special.sink .sqli).name waiting (r.site b t).1).2.proceed b outer
          (.query ((r.site b t).2.gather b (Special.sink .sqli).name waiting (r.site b t).1).1 :: tasks))
  | argument {callee : Nat} {args : List Token} {tasks : List Task} (front : List Task)
      (hb : b.tasks = .arguments callee args :: tasks) (hfront : ∀ task ∈ front, Continues [] task) :
      Does r b outer t place ((r.site b t).2.proceed b outer
        (front ++ .arguments callee (args ++ [(r.site b t).1]) :: tasks))
  | endCall {callee : Nat} {args : List Token} {tasks : List Task}
      (hb : b.tasks = .arguments callee args :: tasks) :
      Does r b outer t place (r.endCall b outer t callee args tasks)
  | declare {tasks : List Task} (scope : String) (hb : b.tasks = .declaration :: tasks) :
      Does r b outer t place
        ({ r with functions := r.functions.put scope [] }.proceed b outer [.parameters scope])
  | pass {scope : String} {tasks : List Task} (hb : b.tasks = .parameters scope :: tasks) :
      Does r b outer t place (r.proceed b outer [.parameters scope])
  | parameter {scope : String} {tasks : List Task} (hb : b.tasks = .parameters scope :: tasks)
      (hvar : t.symbol.isVariable = true) :
      Does r b outer t place ({ (r.site { b with scope := scope } t).2 with
        functions := r.functions.put scope ((r.functions.get? scope).getD [] ++
          [(r.site { b with scope := scope } t).1]) }.proceed b outer [.parameters scope])
  | imported {tasks : List Task} (hb : b.tasks = .imports :: tasks) :
      Does r b outer t place (((r.jump b t Kind.importWord.name t.text []).2.record b
        Special.imports.name (r.jump b t Kind.importWord.name t.text []).1).proceed b outer [.imports])

variable {r : Recorder} {b : Block} {outer : List Block} {t : Masked} {place : Int} {key : String}
  {manner : Manner} {waiting args : List Token} {task : Task} {tasks : List Task} {s : Option Symbol}
  {callee : Nat}

theorem isBusy (hb : b.tasks = task :: tasks) (hdeclaration : task ≠ .declaration)
    (hparameters : ∀ scope, task ≠ .parameters scope) : b.IsBusy := by
  refine ⟨by simp [hb], ?_⟩
  cases task <;> simp_all [Block.declared]

theorem start_does (hb : b.tasks = []) : Does r b outer t place (r.start b outer t) := by
  have hfinish : t.symbol.opensBlock = false → Does r b outer t place (r.finish b outer t.symbol) :=
    fun h => .settles (.finish (.inl rfl) (.inr ⟨hb, fun x hx => Option.some.inj hx ▸ h⟩) fun _ => .inl)
  have hnext : t.symbol.toll = 2 →
      Does r b outer t place (r.enter { b with counter := b.counter + 1 } outer t 1) := fun h =>
    .enter hb h (by omega) (.inl rfl) (.inr (.inl rfl))
  have hbranch : t.symbol.toll = 2 → Does r b outer t place
      (r.enter { b with branches := b.branches + 1 } outer t (b.branches + 1)) := fun h =>
    .enter hb h (by omega) (.inr (.inl rfl)) (.inr (.inr rfl))
  have hstarts : ∀ {task}, t.symbol.opensBlock = false → Begins t task →
      Does r b outer t place (r.proceed b outer [task]) := fun h htask =>
    .starts hb htask fun hopens => by simp [h] at hopens
  unfold start
  split
  case h_1 h =>
    have hplain : t.symbol.opensBlock = false := by rw [h]; rfl
    split
    · split
      · exact hstarts hplain (.collect _ (Symbol.namesVariable ‹_›).isPlainKey)
      · exact hfinish hplain
    · exact hfinish hplain
  case h_2 h => exact .enter hb (by rw [h]; rfl) (by omega) (.inr (.inr rfl)) (.inr (.inl rfl))
  case h_3 h => exact .enter hb (by rw [h]; rfl) (by omega) (.inl rfl) (.inl rfl)
  case h_4 h => exact hbranch (by rw [h]; rfl)
  case h_5 h => exact hbranch (by rw [h]; rfl)
  case h_6 h => exact hnext (by rw [h]; rfl)
  case h_7 h => exact hnext (by rw [h]; rfl)
  case h_8 h => exact hnext (by rw [h]; rfl)
  case h_9 h => exact hnext (by rw [h]; rfl)
  case h_10 h => exact hnext (by rw [h]; rfl)
  case h_11 h => exact .starts hb .declaration fun _ => rfl
  case h_12 n h => exact hstarts (by rw [h]; rfl) (.call h)
  case h_13 h => exact hstarts (by rw [h]; rfl) (.collect _ isPlainKey_result)
  case h_14 h => exact hstarts (by rw [h]; rfl) .imports
  case h_15 h => exact hstarts (by rw [h]; rfl) (.collect _ (isPlainKey_sink .xss))
  case h_16 h => exact hstarts (by rw [h]; rfl) .query
  case h_17 =>
    refine hfinish ?_
    unfold Symbol.opensBlock Kind.opensBranch
    split <;> simp_all

theorem storeSome_stores (hb : b.tasks = .collect key manner waiting :: tasks) :
    Stores r b (r.storeSome b key waiting) := by
  unfold storeSome
  split
  · exact .inl rfl
  · exact .inr ⟨key, waiting, .inl ⟨manner, by simp [hb]⟩, rfl⟩

theorem collect_does (hb : b.tasks = .collect key manner waiting :: tasks) :
    Does r b outer t place (r.collect b outer t place key manner waiting) := by
  have hbusy := isBusy hb (by simp) (by simp)
  have hself : .collect key manner waiting ∈ b.tasks := by simp [hb]
  have hgo : ∀ {task}, Continues b.tasks task → Does r b outer t place (r.proceed b outer [task]) :=
    fun h => .settles (.go (.inl rfl) hbusy (List.forall_mem_singleton.mpr h))
  unfold collect
  split
  · exact .settles (.finish (storeSome_stores hb) (.inl hbusy) fun _ => .inl)
  · split
    · exact .operand [] hb (by simp)
    · split
      · exact .operand [_] hb (List.forall_mem_singleton.mpr (.skip _))
      · split
        · exact .call ‹_› hbusy (by simp [hb])
        · split
          · exact hgo .drain
          · exact .mark _ hb
        · exact hgo (.manner _ hself)
        · exact .operand [_] hb (List.forall_mem_singleton.mpr .query)
        · exact hgo (.kept hself)

theorem takeArgument_does (hb : b.tasks = .arguments callee args :: tasks) :
    Does r b outer t place (r.takeArgument b outer t callee args tasks) := by
  have hbusy := isBusy hb (by simp) (by simp)
  unfold takeArgument
  split
  · exact .argument [] hb (by simp)
  · split
    · exact .argument [_] hb (List.forall_mem_singleton.mpr (.skip _))
    · split
      · exact .call ‹_› hbusy (by rw [hb]; exact List.Subset.refl _)
      · exact .argument [_] hb (List.forall_mem_singleton.mpr .query)
      · exact .settles (.go (.inl rfl) hbusy fun _ h => .kept (hb ▸ h))

theorem endQuery_settles {last : Option Symbol} (hb : b.tasks = .query waiting :: tasks)
    (hlast : ∀ x ∈ last, x ∈ s) : Settles r b outer s (r.endQuery b outer last waiting tasks) := by
  have hbusy := isBusy hb (by simp) (by simp)
  have hstores : Stores r b (r.store b (Special.sink .sqli).name waiting) :=
    .inr ⟨_, waiting, .inr ⟨rfl, by simp [hb]⟩, rfl⟩
  unfold endQuery
  dsimp only
  split
  · exact .finish hstores (.inl hbusy) fun x hx => .inl (hlast x hx)
  · exact .go hstores hbusy fun _ h => .kept (hb ▸ List.mem_cons_of_mem _ h)

theorem query_does (hb : b.tasks = .query waiting :: tasks) :
    Does r b outer t place (r.query b outer t waiting tasks) := by
  have hskip : ∀ {stop}, Does r b outer t place
      (r.proceed b outer (.skip stop :: .query waiting :: tasks)) :=
    .settles (.go (.inl rfl) (isBusy hb (by simp) (by simp))
      (List.forall_mem_cons.mpr ⟨.skip _, fun _ h => .kept (hb ▸ h)⟩))
  unfold query
  split
  · exact .settles (endQuery_settles hb fun _ => id)
  · exact hskip
  · exact hskip
  · exact .read hb

theorem takeImport_does (hb : b.tasks = .imports :: tasks) :
    Does r b outer t place (r.takeImport b outer t) := by
  have hbusy := isBusy hb (by simp) (by simp)
  unfold takeImport
  split
  · exact .settles (.finish (.inl rfl) (.inl hbusy) fun x hx => .inr (Option.some.inj hx).symm)
  · exact .imported hb
  · exact .imported hb
  · exact .settles (.go (.inl rfl) hbusy (List.forall_mem_singleton.mpr (.kept (by simp [hb]))))

theorem endCall_ends (r : Recorder) (b : Block) (outer : List Block) (t : Masked) (callee : Nat)
    (args : List Token) (tasks : List Task) :
    (∃ r' tasks', r.endCall b outer t callee args tasks = proceed r' b outer tasks') ∨
      ∃ r', r.endCall b outer t callee args tasks = finish r' b outer t.symbol := by
  unfold endCall
  dsimp only
  split
  iterate 2 exact .inl ⟨_, _, rfl⟩
  · exact .inr ⟨_, rfl⟩

theorem take_does (hblocks : r.blocks = b :: outer) (t : Masked) (place : Int) :
    Does r b outer t place (r.take t place) := by
  simp only [take, hblocks]
  cases hb : b.tasks with
  | nil => exact start_does hb
  | cons task tasks =>
    have hne : b.tasks ≠ [] := by simp [hb]
    cases task with
    | collect key manner waiting => exact collect_does hb
    | arguments callee args =>
      dsimp only
      split
      · exact .endCall hb
      · exact takeArgument_does hb
    | query waiting => exact query_does hb
    | skip stop =>
      dsimp only
      split
      · exact .settles (.go (.inl rfl) (isBusy hb (by simp) (by simp))
          fun _ h => .kept (hb ▸ List.mem_cons_of_mem _ h))
      · exact .settles (.stay hne)
    | drain =>
      dsimp only
      split
      · exact .settles (.finish (.inl rfl) (.inl (isBusy hb (by simp) (by simp))) fun _ => .inl)
      · exact .settles (.stay hne)
    | declaration => exact .declare _ hb
    | parameters scope =>
      dsimp only [takeParameter]
      split
      · exact .settles (.enterFunction hb)
      · split
        · exact .parameter hb ‹_›
        · exact .pass hb
    | imports => exact takeImport_does hb

theorem takeEnd_settles (hblocks : r.blocks = b :: outer) : Settles r b outer none (takeEnd r).2 := by
  unfold takeEnd
  rw [Act.state_bind]
  simp only [hblocks]
  cases hb : b.tasks with
  | nil => exact .leave hb rfl
  | cons task tasks =>
    have hne : b.tasks ≠ [] := by simp [hb]
    have hfinish : ∀ {r'}, Stores r b r' → b.IsBusy → Settles r b outer none
        (r'.finish b outer none) := fun hr hbusy => .finish hr (.inl hbusy) fun x hx => by cases hx
    cases task with
    | collect key manner waiting =>
      cases manner with
      | joined split => exact .stay hne
      | value | printed => exact hfinish (storeSome_stores hb) (isBusy hb (by simp) (by simp))
    | arguments callee args =>
      cases tasks with
      | nil => exact .openCall hb
      | cons task tasks => exact .stay hne
    | query waiting => exact endQuery_settles hb fun _ => id
    | skip stop =>
      exact .go (.inl rfl) (isBusy hb (by simp) (by simp))
        fun _ h => .kept (hb ▸ List.mem_cons_of_mem _ h)
    | drain => exact hfinish (.inl rfl) (isBusy hb (by simp) (by simp))
    | declaration => exact .stay hne
    | parameters scope => exact .enterFunction hb
    | imports =>
      exact .finish (.inl rfl) (.inl (isBusy hb (by simp) (by simp)))
        fun x hx => .inr (Option.some.inj hx).symm

theorem takeEnd_keeps {P : Recorder → Prop} (h : P r)
    (hnext : ∀ {b outer}, r.blocks = b :: outer → Settles r b outer none (takeEnd r).2 → P (takeEnd r).2) :
    P (takeEnd r).2 := by
  cases hblocks : r.blocks with
  | nil =>
    rw [takeEnd, Act.state_bind, hblocks]
    exact h
  | cons b outer => exact hnext hblocks (takeEnd_settles hblocks)

/-- What a text leaves in a list of its outermost scope: kind, place and mark of each token. -/
def listing (code : String) (key : String) : List (String × Int × Label) :=
  (((Project.recordFile {} "m.php" code.toList).recorder.flows.tokens? "m.php" key).getD []).map
    fun t => (t.kind, t.pos, t.split)

/-- A dot behind a constant finds no operand of its own statement: it stops the collecting, or, if
the variable has been assigned before, marks an entry of the earlier statement. -/
theorem dot_behind_constant_is_not_exact :
    listing "<?php $v = FOO . $x;" "VAR1" = [] ∧
      listing "<?php $v = $w;" "VAR1" = [("VAR2", 11, .number 0)] ∧
      listing "<?php $v = $w; $v = FOO . $x;" "VAR1" =
        [("VAR2", 11, .number 25), ("VAR3", 26, .number 25)] := by
  decide +kernel

/-- The operands of a joined text have the mark of its first dot, but a call behind a dot waits as a
task of its own and ends without it. -/
theorem call_behind_dot_has_no_mark :
    listing "<?php $v = $a . f($b);" "VAR1" =
      [("VAR2", 11, .number 15), ("FUNC_CALL", 20, .number 0)] := by
  decide +kernel

/-- An import that is the only statement of a block goes on to the next semicolon, past an output. -/
theorem output_behind_import_is_lost :
    let recorded := Project.recordFile {} "m.php" "<?php if ($a) include 'x'; echo $b;".toList
    recorded.failure = none ∧ recorded.recorder.flows.names = ["m.php"] ∧
      listing "<?php if ($a) include 'x'; echo $b;" (Special.sink .xss).name = [] := by
  decide +kernel

end Recorder

end MaskedTaint
