import MaskedTaint.Proofs.Flow.Alignment
import MaskedTaint.Proofs.Flow.Files
import MaskedTaint.Proofs.Masking.Positions
import MaskedTaint.Proofs.Masking.Standing

/-! Lists in the order of the source. A token is put at the end of a list when the symbol is read
that it stands for, and symbols are read in the order of the text. The operands of a statement may
wait, but only while their list is not there yet; and parameters wait until the function is entered,
but in the meantime nothing else is done. -/

namespace MaskedTaint

/-- Tokens of one file come in the order of their positions. -/
def InOrder (ts : List Token) : Prop :=
  ts.Pairwise fun a b => a.mark.file = b.mark.file → a.pos < b.pos

/-- In order, and those of this file stand before this position. -/
structure Upto (file : String) (bound : Int) (ts : List Token) : Prop where
  inOrder : InOrder ts
  below : ∀ t ∈ ts, t.mark.file = file → t.pos < bound

variable {file : String} {bound bound' : Int} {ts : List Token} {u : Token}

theorem upto_nil : Upto file bound [] := ⟨.nil, by simp⟩

theorem Upto.mono (h : Upto file bound ts) (hle : bound ≤ bound') : Upto file bound' ts :=
  ⟨h.inOrder, fun t ht hfile => Int.lt_of_lt_of_le (h.below t ht hfile) hle⟩

theorem Upto.concat (h : Upto file bound ts) (hfile : u.mark.file = file) (hpos : bound ≤ u.pos) :
    Upto file (u.pos + 1) (ts ++ [u]) := by
  refine ⟨List.pairwise_append.mpr ⟨h.inOrder, List.pairwise_singleton _ _, ?_⟩, ?_⟩
  · intro a ha b hb hsame
    obtain rfl := List.mem_singleton.mp hb
    exact Int.lt_of_lt_of_le (h.below a ha (hsame.trans hfile)) hpos
  · intro t ht htfile
    rcases List.mem_append.mp ht with ht | ht
    · have hlt := h.below t ht htfile
      omega
    · obtain rfl := List.mem_singleton.mp ht
      omega

theorem Upto.sublist {us : List Token} (h : Upto file bound ts) (hsub : us.Sublist ts) :
    Upto file bound us :=
  ⟨h.inOrder.sublist hsub, fun t ht => h.below t (hsub.subset ht)⟩

theorem Upto.mark (h : Upto file bound ts) (id : Nat) (split : Label) :
    Upto file bound (ts.map fun t => if t.id = id then t.setSplit split else t) := by
  have hsame : ∀ t : Token, (if t.id = id then t.setSplit split else t).mark.file = t.mark.file ∧
      (if t.id = id then t.setSplit split else t).pos = t.pos := by
    intro t
    split
    · cases t <;> exact ⟨rfl, rfl⟩
    · exact ⟨rfl, rfl⟩
  refine ⟨List.pairwise_map.mpr (h.inOrder.imp fun {a b} hab => ?_), fun t ht => ?_⟩
  · rw [(hsame a).1, (hsame b).1, (hsame a).2, (hsame b).2]
    exact hab
  · obtain ⟨a, ha, rfl⟩ := List.mem_map.mp ht
    rw [(hsame a).1, (hsame a).2]
    exact h.below a ha

namespace Structure

/-- All lists are in order, those under a name up to the limit of that name. -/
def Upto (file : String) (limit : String → Int) (d : Structure) : Prop :=
  ∀ e ∈ d, ∀ l ∈ e.2, MaskedTaint.Upto file (limit l.1) l.2

variable {d : Structure} {limit limit' : String → Int} {scope key : String}

theorem Upto.mono (h : d.Upto file limit) (hle : ∀ key, limit key ≤ limit' key) :
    d.Upto file limit' := fun e he l hl => (h e he l hl).mono (hle l.1)

theorem Upto.tokens? (h : d.Upto file limit) :
    MaskedTaint.Upto file (limit key) ((d.tokens? scope key).getD []) := by
  cases hts : d.tokens? scope key with
  | none => exact upto_nil
  | some ts =>
    obtain ⟨s, hs, hl⟩ := Option.bind_eq_some_iff.mp hts
    exact h _ (Table.mem_of_get? hs) _ (Table.mem_of_get? hl)

theorem Upto.putTokens (h : d.Upto file limit) (scope key : String) (hle : limit key ≤ bound)
    (hts : MaskedTaint.Upto file bound ts) :
    (d.putTokens scope key ts).Upto file fun k => if k = key then bound else limit k := by
  have hold : d.Upto file fun k => if k = key then bound else limit k := by
    refine h.mono fun k => ?_
    by_cases hk : k = key
    · simpa [hk] using hle
    · simp [hk]
  intro e he l hl
  rcases Table.mem_put he with rfl | he
  · rcases Table.mem_put hl with rfl | hl
    · simpa using hts
    · cases hs : d.get? scope with
      | none => simp [hs, Table.empty] at hl
      | some s =>
        rw [hs, Option.getD_some] at hl
        exact hold _ (Table.mem_of_get? hs) l hl
  · exact hold e he l hl

theorem Upto.put (h : d.Upto file fun _ => bound) (scope key : String)
    (hts : MaskedTaint.Upto file bound ts) : (d.putTokens scope key ts).Upto file fun _ => bound := by
  refine (h.putTokens scope key (Int.le_refl _) hts).mono fun k => ?_
  split <;> exact Int.le_refl _

theorem Upto.setSplit (h : d.Upto file limit) (scope : String) (id : Nat) (split : Label) :
    (d.setSplit scope id split).Upto file limit := by
  unfold Structure.setSplit
  split
  · exact h
  · rename_i s hs
    intro e he l hl
    rcases Table.mem_put he with rfl | he
    · obtain ⟨known, hknown, rfl⟩ := List.mem_map.mp hl
      exact (h _ (Table.mem_of_get? hs) known hknown).mark id split
    · exact h e he l hl

end Structure

/-- What waits in a task is in order. While parameters are taken there is no other task. -/
def Task.Upto (file : String) (bound : Int) : Task → Prop
  | collect key _ waiting => key ≠ Special.call.name ∧ MaskedTaint.Upto file bound waiting
  | query waiting => MaskedTaint.Upto file bound waiting
  | parameters _ => False
  | _ => True

theorem Task.Upto.mono {task : Task} (h : task.Upto file bound) (hle : bound ≤ bound') :
    task.Upto file bound' := by
  cases task with
  | collect key manner waiting => exact ⟨h.1, h.2.mono hle⟩
  | query waiting => exact MaskedTaint.Upto.mono h hle
  | parameters scope => exact h
  | _ => trivial

namespace Recorder

/-- The parameters that are being taken come behind those that the scope has. -/
def TasksUpto (r : Recorder) (file : String) (bound : Int) : List Task → Prop
  | [.parameters scope] => Upto file bound
      ((r.flows.tokens? scope Special.params.name).getD [] ++ (r.functions.get? scope).getD [])
  | tasks => ∀ task ∈ tasks, task.Upto file bound

/-- All that the recorder has is in order and stands before this position. -/
structure Ordered (file : String) (bound : Int) (r : Recorder) : Prop where
  named : r.file = file
  flows : r.flows.Upto file fun _ => bound
  idle : ∀ o ∈ r.blocks.tail, o.tasks = []
  tasks : ∀ b ∈ r.blocks.head?, r.TasksUpto file bound b.tasks

/-- The innermost of the open blocks is about to get its tasks. -/
structure Orderly (file : String) (limit : String → Int) (outer : List Block) (r : Recorder) :
    Prop where
  named : r.file = file
  flows : r.flows.Upto file limit
  idle : ∀ o ∈ outer, o.tasks = []

variable {r : Recorder} {b : Block} {outer : List Block} {t : Masked} {limit : String → Int}
  {key : String} {waiting : List Token} {tasks : List Task}

theorem tasksUpto (h : ∀ task ∈ tasks, task.Upto file bound) : r.TasksUpto file bound tasks := by
  unfold TasksUpto
  split
  · exact (h _ List.mem_cons_self).elim
  · exact h

theorem Ordered.orderly (h : r.Ordered file bound) (hblocks : r.blocks = b :: outer) :
    r.Orderly file (fun _ => bound) outer := ⟨h.named, h.flows, by simpa [hblocks] using h.idle⟩

theorem Orderly.mono {limit' : String → Int} (h : r.Orderly file limit outer)
    (hle : ∀ key, limit key ≤ limit' key) : r.Orderly file limit' outer := ⟨h.named, h.flows.mono hle, h.idle⟩

/-! ### Storing -/

theorem Orderly.record (h : r.Orderly file limit outer) (b : Block) (key : String) (hfile : u.mark.file = file)
    (hpos : limit key ≤ u.pos) :
    (r.record b key u).Orderly file (fun k => if k = key then u.pos + 1 else limit k) outer :=
  ⟨h.named, h.flows.putTokens _ _ (by omega) (h.flows.tokens?.concat hfile hpos), h.idle⟩

theorem Orderly.gather (h : r.Orderly file limit outer) (b : Block) (key : String) (hfile : u.mark.file = file)
    (hpos : limit key ≤ u.pos) (hw : Upto file bound waiting) (hbound : bound ≤ u.pos) :
    Upto file (u.pos + 1) (r.gather b key waiting u).1 ∧
      (r.gather b key waiting u).2.Orderly file (fun k => if k = key then u.pos + 1 else limit k) outer := by
  unfold Recorder.gather
  split
  · exact ⟨hw.mono (by omega), h.record b key hfile hpos⟩
  · refine ⟨hw.concat hfile hbound, h.mono fun k => ?_⟩
    by_cases hk : k = key
    · simp only [hk, if_true]
      omega
    · simp [hk]

theorem Orderly.store (h : r.Orderly file (fun _ => bound) outer) (b : Block) (key : String)
    (hw : Upto file bound waiting) : (r.store b key waiting).Orderly file (fun _ => bound) outer := by
  unfold Recorder.store
  split
  · exact h
  · exact ⟨h.named, h.flows.put _ _ hw, h.idle⟩

/-! ### Going on -/

theorem Orderly.proceed (h : r.Orderly file (fun _ => bound) outer) (b : Block)
    (htasks : ∀ task ∈ tasks, task.Upto file bound) : (r.proceed b outer tasks).Ordered file bound :=
  ⟨h.named, h.flows, h.idle, fun b' hb' => by
    obtain rfl := Option.some.inj hb'
    exact tasksUpto htasks⟩

theorem ordered_idle (hnamed : r.file = file) (h : r.flows.Upto file fun _ => bound)
    (hidle : ∀ o ∈ r.blocks, o.tasks = []) : r.Ordered file bound := by
  refine ⟨hnamed, h, fun o ho => hidle o (List.mem_of_mem_tail ho), fun b hb => ?_⟩
  rw [hidle b (List.mem_of_mem_head? hb)]
  exact tasksUpto (by simp)

section

variable (h : r.Orderly file (fun _ => bound) outer)

include h

theorem Orderly.leave (b : Block) : (r.leave b outer).Ordered file bound := by
  have hfile : (r.leave b outer).file = r.file := by cases outer <;> rfl
  refine ordered_idle (hfile.trans h.named) ?_ ((blocks_leave r b outer).2 h.idle)
  rw [(leave_frame r b outer).1]
  exact h.flows

theorem Orderly.finish (b : Block) (last : Option Symbol) :
    (r.finish b outer last).Ordered file bound := by
  unfold Recorder.finish
  dsimp only
  split
  · exact h.leave _
  · exact ordered_idle h.named h.flows (List.forall_mem_cons.mpr ⟨rfl, h.idle⟩)

theorem Orderly.enter (hb : b.tasks = []) (t : Masked)
    (flow : Int) : (r.enter b outer t flow).Ordered file bound :=
  ordered_idle h.named h.flows (List.forall_mem_cons.mpr ⟨rfl, List.forall_mem_cons.mpr ⟨hb, h.idle⟩⟩)

end

variable {scope : String}

theorem Orderly.enterFunction (h : r.Orderly file (fun _ => bound) outer) (b : Block)
    (last : Option Symbol) (hparams : r.TasksUpto file bound [.parameters scope]) :
    (r.enterFunction b outer last scope).Ordered file bound := by
  obtain ⟨new, hnew, hflows⟩ := exists_flows_openScope r scope
  refine ordered_idle h.named ?_ (List.forall_mem_cons.mpr ⟨rfl, List.forall_mem_cons.mpr ⟨rfl, h.idle⟩⟩)
  show (r.openScope scope).flows.Upto file fun _ => bound
  exact hflows ▸ h.flows.put _ _ (hparams.sublist ((List.Sublist.refl _).append hnew))

/-! ### Steps -/

theorem Orderly.settle {next : Int} (hle : bound ≤ next)
    (h : r.Orderly file (fun k => if k = key then next else bound) outer) :
    r.Orderly file (fun _ => next) outer := by
  refine h.mono fun k => ?_
  split
  · exact Int.le_refl _
  · exact hle

section

variable (h : r.Orderly file (fun _ => bound) outer)

include h

theorem Orderly.takeOperand (hpos : bound ≤ t.pos) (b : Block)
    (key : String) (manner : Manner) (hw : Upto file bound waiting) :
    Upto file (t.pos + 1) (r.takeOperand b t key manner waiting).1 ∧
      (r.takeOperand b t key manner waiting).2.Orderly file (fun _ => t.pos + 1) outer := by
  have hgathered : ∀ {u : Token}, u.mark.file = file → u.pos = t.pos →
      Upto file (t.pos + 1) ((r.site b t).2.gather b key waiting u).1 ∧
        ((r.site b t).2.gather b key waiting u).2.Orderly file (fun _ => t.pos + 1) outer := by
    intro u hfile hu
    have hnumbered : (r.site b t).2.Orderly file (fun _ => bound) outer := ⟨h.named, h.flows, h.idle⟩
    obtain ⟨hwait, hflows⟩ := hnumbered.gather b key hfile (hu ▸ hpos) hw (hu ▸ hpos)
    rw [hu] at hwait hflows
    exact ⟨hwait, hflows.settle (by omega)⟩
  unfold Recorder.takeOperand
  cases manner with
  | joined split | value | printed => exact hgathered h.named rfl

-- A call is put into two lists, so the operands never go to the list of calls.
theorem Orderly.endCall (hpos : bound ≤ t.pos) (b : Block)
    (callee : Nat) (args : List Token) (htasks : ∀ task ∈ tasks, task.Upto file bound) :
    (r.endCall b outer t callee args tasks).Ordered file (t.pos + 1) := by
  have hle : bound ≤ t.pos + 1 := by omega
  have hlater : ∀ {tasks : List Task}, (∀ task ∈ tasks, task.Upto file bound) →
      ∀ task ∈ tasks, task.Upto file (t.pos + 1) := fun h task htask => (h task htask).mono hle
  have hnumbered : (r.jump b t Special.call.name (Symbol.funcName callee) args).2.Orderly file
      (fun _ => bound) outer := ⟨h.named, h.flows, h.idle⟩
  have hrecorded := (hnumbered.record b Special.call.name
    (u := (r.jump b t Special.call.name (Symbol.funcName callee) args).1) h.named hpos).settle hle
  unfold Recorder.endCall
  dsimp only
  split
  · rename_i key manner waiting tasks
    obtain ⟨⟨hkey, hw⟩, hrest⟩ := List.forall_mem_cons.mp htasks
    obtain ⟨hwait, hfiled⟩ := hnumbered.gather b key
      (u := (r.jump b t Special.call.name (Symbol.funcName callee) args).1) h.named hpos hw hpos
    have hboth := hfiled.record b Special.call.name
      (u := (r.jump b t Special.call.name (Symbol.funcName callee) args).1) h.named
      (by rw [if_neg hkey.symm]; exact hpos)
    have hall : Orderly file (fun _ => t.pos + 1) outer _ := hboth.mono fun k => by
      split
      · exact Int.le_refl _
      · split
        · exact Int.le_refl _
        · exact hle
    exact hall.proceed b (List.forall_mem_cons.mpr ⟨⟨hkey, hwait⟩, hlater hrest⟩)
  · exact hrecorded.proceed b
      (List.forall_mem_cons.mpr ⟨trivial, hlater (List.forall_mem_cons.mp htasks).2⟩)
  · exact hrecorded.finish b _

theorem ordered_parameters (b : Block) (hparams : r.TasksUpto file bound [.parameters scope]) :
    (r.proceed b outer [.parameters scope]).Ordered file bound :=
  ⟨h.named, h.flows, h.idle, fun b' hb' => by
    obtain rfl := Option.some.inj hb'
    exact hparams⟩

/-! ### Symbol after symbol -/

end

theorem Ordered.mono (h : r.Ordered file bound) (hle : bound ≤ bound') : r.Ordered file bound' := by
  refine ⟨h.named, h.flows.mono fun _ => hle, h.idle, fun b hb => ?_⟩
  have htasks := h.tasks b hb
  unfold TasksUpto at htasks
  split at htasks
  · rename_i hparams
    rw [hparams]
    exact Upto.mono htasks hle
  · exact tasksUpto fun task htask => (htasks task htask).mono hle

theorem Ordered.tasks_upto (h : r.Ordered file bound) (hblocks : r.blocks = b :: outer)
    (hdeclared : b.declared = 0) : ∀ task ∈ b.tasks, task.Upto file bound := by
  have htasks := h.tasks b (by simp [hblocks])
  unfold TasksUpto at htasks
  split at htasks
  · rename_i hb
    simp [Block.declared, hb] at hdeclared
  · exact htasks

theorem Ordered.tasks_cons {task : Task} (h : r.Ordered file bound) (hblocks : r.blocks = b :: outer)
    (hb : b.tasks = task :: tasks) (hdeclaration : task ≠ .declaration)
    (hparameters : ∀ scope, task ≠ .parameters scope) :
    task.Upto file bound ∧ ∀ task ∈ tasks, task.Upto file bound :=
  List.forall_mem_cons.mp (hb ▸ h.tasks_upto hblocks (isBusy hb hdeclaration hparameters).declared)

theorem Ordered.parameters (h : r.Ordered file bound) (hblocks : r.blocks = b :: outer)
    (hb : b.tasks = .parameters scope :: tasks) : r.TasksUpto file bound [.parameters scope] := by
  have htasks := h.tasks b (by simp [hblocks])
  rw [hb] at htasks
  cases tasks with
  | nil => exact htasks
  | cons task tasks => exact (htasks _ List.mem_cons_self).elim

theorem Continues.upto {task : Task} (h : Continues tasks task)
    (htasks : ∀ task ∈ tasks, task.Upto file bound) : task.Upto file bound := by
  cases h with
  | kept h => exact htasks _ h
  | manner _ h =>
    have hold := htasks _ h
    exact hold
  | query => exact upto_nil
  | _ => trivial

theorem Orderly.stores {r' : Recorder} (h : r.Orderly file (fun _ => bound) outer) (hr : Stores r b r')
    (htasks : ∀ task ∈ b.tasks, task.Upto file bound) : r'.Orderly file (fun _ => bound) outer := by
  rcases hr with rfl | ⟨key, waiting, ⟨manner, hmem⟩ | ⟨rfl, hmem⟩, rfl⟩
  · exact h
  · exact h.store b key (htasks _ hmem).2
  · exact h.store b _ (htasks _ hmem)

theorem Ordered.settles {s : Option Symbol} {r' : Recorder} (h : r.Ordered file bound)
    (hblocks : r.blocks = b :: outer) (hr : Settles r b outer s r') : r'.Ordered file bound := by
  have hh := h.orderly hblocks
  cases hr with
  | stay => exact h
  | leave => exact hh.leave b
  | finish hr hb =>
    have hdeclared := hb.elim (·.declared) fun hb => Block.declared_idle hb.1
    exact (hh.stores hr (h.tasks_upto hblocks hdeclared)).finish b _
  | go hr hb hgo =>
    have htasks := h.tasks_upto hblocks hb.declared
    exact (hh.stores hr htasks).proceed b fun task ht => (hgo task ht).upto htasks
  | openCall hb =>
    have hknown : MaskedTaint.Upto file bound
        ((r.flows.tokens? b.scope Special.call.name).getD [] ++ []) := by
      simpa using hh.flows.tokens?
    refine ⟨h.named, hh.flows.put b.scope Special.call.name hknown, hh.idle, fun b' hb' => ?_⟩
    obtain rfl := Option.some.inj hb'
    exact tasksUpto (h.tasks_upto hblocks (by simp [Block.declared, hb]))
  | enterFunction hb => exact hh.enterFunction b _ (h.parameters hblocks hb)

theorem Ordered.does {place : Int} {r' : Recorder} (h : r.Ordered file bound) (hpos : bound ≤ t.pos)
    (hblocks : r.blocks = b :: outer) (hr : Does r b outer t place r') :
    r'.Ordered file (t.pos + 1) := by
  have hle : bound ≤ t.pos + 1 := by omega
  have hnext := h.mono hle
  have hh := h.orderly hblocks
  have hlater := hnext.orderly hblocks
  have hfront : ∀ {front : List Task}, (∀ task ∈ front, Continues [] task) →
      ∀ task ∈ front, task.Upto file (t.pos + 1) := fun hfront task hmem =>
    (hfront task hmem).upto (by simp)
  cases hr with
  | settles hr => exact hnext.settles hblocks hr
  | starts hb htask =>
    refine hlater.proceed b (List.forall_mem_singleton.mpr ?_)
    cases htask with
    | collect _ hkey => exact ⟨hkey.ne_call, upto_nil⟩
    | query => exact upto_nil
    | _ => trivial
  | @enter counter branches _ hb =>
    exact hlater.enter (b := { b with counter := counter, branches := branches }) hb t _
  | call _ hb hsub =>
    exact hlater.proceed b (List.forall_mem_cons.mpr
      ⟨trivial, fun task hmem => hnext.tasks_upto hblocks hb.declared task (hsub hmem)⟩)
  | @mark key waiting _ last hb =>
    have htasks := hnext.tasks_cons hblocks hb (by simp) (by simp)
    have hmarked : ({ r with flows := r.flows.setSplit b.scope last.id (.number place) } :
        Recorder).Orderly file (fun _ => t.pos + 1) outer :=
      ⟨hlater.named, hlater.flows.setSplit _ _ _, hlater.idle⟩
    exact hmarked.proceed b (List.forall_mem_singleton.mpr ⟨htasks.1.1, htasks.1.2.mark _ _⟩)
  | operand _ hb hcontinues =>
    have htasks := h.tasks_cons hblocks hb (by simp) (by simp)
    obtain ⟨htaken, hfiled⟩ := hh.takeOperand hpos b _ _ htasks.1.2
    exact hfiled.proceed b (List.forall_mem_append.mpr
      ⟨hfront hcontinues, List.forall_mem_singleton.mpr ⟨htasks.1.1, htaken⟩⟩)
  | read hb =>
    have htasks := h.tasks_cons hblocks hb (by simp) (by simp)
    have hsite : (r.site b t).2.Orderly file (fun _ => bound) outer := ⟨hh.named, hh.flows, hh.idle⟩
    obtain ⟨hwait, hfiled⟩ := hsite.gather b (Special.sink .sqli).name
      (u := (r.site b t).1) h.named hpos htasks.1 hpos
    exact (hfiled.settle hle).proceed b (List.forall_mem_cons.mpr
      ⟨hwait, fun task hmem => (htasks.2 task hmem).mono hle⟩)
  | argument _ hb hcontinues =>
    have htasks := hnext.tasks_cons hblocks hb (by simp) (by simp)
    have hsite : (r.site b t).2.Orderly file (fun _ => t.pos + 1) outer :=
      ⟨hlater.named, hlater.flows, hlater.idle⟩
    exact hsite.proceed b (List.forall_mem_append.mpr
      ⟨hfront hcontinues, List.forall_mem_cons.mpr ⟨trivial, htasks.2⟩⟩)
  | endCall hb =>
    have htasks := h.tasks_cons hblocks hb (by simp) (by simp)
    exact hh.endCall hpos b _ _ htasks.2
  | declare scope =>
    refine ordered_parameters (r := { r with functions := r.functions.put scope [] })
      ⟨hlater.named, hlater.flows, hlater.idle⟩ b ?_
    rw [TasksUpto, Table.get?_put_self, Option.getD_some, List.append_nil]
    exact hlater.flows.tokens?
  | pass hb => exact ordered_parameters hlater b (hnext.parameters hblocks hb)
  | @parameter scope _ hb =>
    refine ordered_parameters (r := { (r.site { b with scope := scope } t).2 with
      functions := r.functions.put scope ((r.functions.get? scope).getD [] ++
        [(r.site { b with scope := scope } t).1]) }) ⟨hlater.named, hlater.flows, hlater.idle⟩ b ?_
    have hmore := Upto.concat (u := (r.site { b with scope := scope } t).1)
      (h.parameters hblocks hb) h.named hpos
    rw [List.append_assoc] at hmore
    rw [TasksUpto, Table.get?_put_self]
    exact hmore
  | imported =>
    have hnumbered : (r.jump b t Kind.importWord.name t.text []).2.Orderly file (fun _ => bound) outer :=
      ⟨hh.named, hh.flows, hh.idle⟩
    have hrecorded := (hnumbered.record b Special.imports.name
      (u := (r.jump b t Kind.importWord.name t.text []).1) h.named hpos).settle hle
    exact hrecorded.proceed b (List.forall_mem_singleton.mpr trivial)

theorem Ordered.take (h : r.Ordered file bound) (hpos : bound ≤ t.pos) (place : Int) :
    (r.take t place).Ordered file (t.pos + 1) := by
  cases hblocks : r.blocks with
  | nil => simpa [Recorder.take, hblocks] using h.mono (by omega)
  | cons b outer => exact h.does hpos hblocks (take_does hblocks t place)

theorem Ordered.takeEnd (h : r.Ordered file bound) : (takeEnd r).2.Ordered file bound :=
  takeEnd_keeps h fun hblocks => h.settles hblocks

/-! ### File after file -/

theorem clear_follow {r : Recorder} {m : Masker} (hm : m.Sits) (hopen : r.blocks ≠ []) :
    (r.follow m).masker.Clear := by
  have hrests := Masker.token_rests hm
  rcases ht : Masker.token m with ⟨e | t, m'⟩
  · rw [ht] at hrests
    rw [follow_failed ht hopen]
    exact hrests.clear fun u hu => by cases hu
  · rw [ht] at hrests
    cases t with
    | none =>
      rw [follow_end ht hopen]
      refine close_keeps (I := fun _ m => m.Clear) (fun r m hend h => ?_) (fun _ _ _ h _ => h) _
        (Masker.atEnd_of_token ht) hopen (hrests.clear fun u hu => by cases hu)
      obtain ⟨m', htoken, -⟩ := hend.token
      exact (Masker.token_rests h.sits).clear fun u hu => by rw [htoken] at hu; cases hu
    | some t =>
      rw [follow_step ht hopen]
      by_cases hstop : (r.take t m'.lexer.pos).blocks = []
      · rw [follow_stopped m' hstop]
        refine hrests.clear fun u hu => ?_
        cases hu
        exact closes_of_take hopen hstop
      · exact clear_follow hrests.sits hstop
termination_by m.size
decreasing_by exact Masker.size_lt_of_token ht

theorem Ordered.follow {m : Masker} (h : r.Ordered file bound) (hm : m.Abides (.beyond bound)) :
    ∃ bound, (r.follow m).recorder.Ordered file bound := by
  let I : Recorder → Masker → Prop := fun r m =>
    ∃ bound, r.Ordered file bound ∧ m.Abides (.beyond bound)
  have hread : ∀ r m, (∀ t, (Masker.token m).1 ≠ .ok (some t)) → I r m → I r (Masker.token m).2 := by
    rintro r m - ⟨bound, h, hm⟩
    exact ⟨bound, h, (Watch.holds_beyond bound).token Masker.sifts_beyond hm⟩
  have hstep : ∀ r m r' m', Steps r m r' m' → I r m → I r' m' := by
    rintro r m r' m' ⟨-, t, ht, rfl⟩ ⟨bound, h, hm⟩
    obtain ⟨hfirst, bound', hlast, hm'⟩ := Masker.token_between hm ht
    exact ⟨bound', (h.take hfirst _).mono hlast, hm'⟩
  obtain ⟨bound, hrun, -⟩ := follow_keeps (I := I) hread hstep
    (fun r m _ ⟨bound, h, hm⟩ _ => ⟨bound, h.takeEnd, hm⟩) ⟨bound, h, hm⟩
  exact ⟨bound, hrun⟩

end Recorder

namespace Project

/-- Between two files: all lists are in order and hold tokens of the files so far. -/
structure Ordered (p : Project) (names : List String) : Prop where
  sound : p.Sound
  clear : p.masker.Clear
  lists : ∀ e ∈ p.flows, ∀ l ∈ e.2, InOrder l.2
  known : p.flows.Holds (.marked fun m => m.file ∈ names)

variable {p : Project} {names : List String} {name : String}

theorem ordered_empty : Ordered {} [] :=
  ⟨sound_empty, ⟨(Lexer.Reached.start rfl rfl).disciplined, rfl⟩, by simp [Table.empty],
    Structure.holds_empty _⟩

-- A new file has no tokens yet, so its first symbol may stand anywhere.
theorem Ordered.recorder (h : p.Ordered names) (hname : name ∉ names) (bound : Int) :
    (p.recorder name).Ordered name bound := by
  have hflows : p.flows.Upto name fun _ => bound := by
    refine fun e he l hl => ⟨h.lists e he l hl, fun t ht hfile => ?_⟩
    exact (hname (hfile ▸ h.known e he l hl t ht t t.mem_occurrences_self)).elim
  exact Recorder.ordered_idle rfl (hflows.put _ _ hflows.tokens?) (List.forall_mem_singleton.mpr rfl)

theorem Ordered.recordFile (h : p.Ordered names) (hname : name ∉ names) (code : List Char) :
    (after (p.recordFile name code)).Ordered (name :: names) := by
  have hopen : (p.recorder name).blocks ≠ [] := by simp [Project.recorder]
  have hclear := h.clear.loadFile code
  have hahead : (p.masker.loadFile code).Abides (.beyond (p.masker.loadFile code).lexer.pos) :=
    Masker.abides_of_none (Int.le_refl _) hclear.peeked
  have hC : (Contents.marked fun m => m.file ∈ name :: names).Closed :=
    Contents.marked_closed fun _ _ h => h
  have hmarks : ∀ (r : Recorder) (b : Block) (t : Masked), r.file = name → t.symbol.IsListed →
      r.Admits (.marked fun m => m.file ∈ name :: names) b t := fun r b t hr _ =>
    Recorder.admits_marked fun _ _ _ => List.mem_cons.mpr (.inl hr)
  have hfills : Structure.Fills _ _ p.flows (p.recordFile name code).recorder.flows :=
    (recordFile_fills hC h.sound.listed hmarks).1
  obtain ⟨bound, hrun⟩ := (h.recorder hname _).follow hahead
  refine ⟨h.sound.recordFile name code, Recorder.clear_follow hclear.sits hopen,
    fun e he l hl => (hrun.flows e he l hl).inOrder, hfills.holds hC ?_⟩
  exact fun e he l hl t ht u hu => List.mem_cons_of_mem _ (h.known e he l hl t ht u hu)

theorem Ordered.recordEach {files : List (String × List Char)} (h : p.Ordered names)
    (hnew : ∀ f ∈ files, f.1 ∉ names) (hnodup : (files.map Prod.fst).Nodup) :
    ∃ names', (p.recordEach files).Ordered names' := by
  induction files generalizing p names with
  | nil => exact ⟨names, h⟩
  | cons f files ih =>
    obtain ⟨hf, hfiles⟩ := List.forall_mem_cons.mp hnew
    obtain ⟨hfresh, hnodup⟩ := List.nodup_cons.mp hnodup
    refine ih (h.recordFile hf f.2) (fun g hg => ?_) hnodup
    refine List.not_mem_cons_of_ne_of_not_mem (fun he => hfresh ?_) (hfiles g hg)
    exact he ▸ List.mem_map_of_mem hg

/-- When no two files have one name, every list of the project is in the order of the source,
whether or not some of the files fail. -/
theorem recordEach_inOrder (files : List (String × List Char)) (hnodup : (files.map Prod.fst).Nodup)
    (scope key : String) (ts : List Token)
    (hts : (recordEach {} files).flows.tokens? scope key = some ts) :
    ts.Pairwise fun a b => a.mark.file = b.mark.file → a.pos < b.pos := by
  obtain ⟨names, h⟩ := ordered_empty.recordEach (fun f _ => by simp) hnodup
  obtain ⟨s, hs, hl⟩ := Option.bind_eq_some_iff.mp hts
  exact h.lists _ (Table.mem_of_get? hs) _ (Table.mem_of_get? hl)

def declaredTwice : List (String × List Char) :=
  [("a.php", "<?php function f($p) \x7b return $p; \x7d $b = f($a, f($c".toList),
    ("b.php", "<?php function f($p, $q) \x7b return $q; \x7d $b = f($a) . f($c);".toList)]

theorem recordEach_inOrder_declaredTwice :
    ((recordEach {} declaredTwice).flows.tokens? "FUNC1" "ARGS").map
        (·.map fun t => (t.mark.file, t.pos)) = some [("a.php", 17), ("b.php", 17), ("b.php", 21)] ∧
    ∀ ts, (recordEach {} declaredTwice).flows.tokens? "FUNC1" "ARGS" = some ts →
      ts.Pairwise fun a b => a.mark.file = b.mark.file → a.pos < b.pos :=
  ⟨by decide +kernel, recordEach_inOrder declaredTwice (by decide) "FUNC1" "ARGS"⟩

end Project

end MaskedTaint
