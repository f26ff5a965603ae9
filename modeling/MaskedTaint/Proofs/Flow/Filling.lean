import MaskedTaint.Proofs.Flow.Effects

/-! Filling a structure. While a file is read, tokens are only ever added to lists of the scopes that
the recorder knows, and each of them was made of a symbol at the place where it was taken. What is
expected of the tokens is left open here: it is stated once for the symbols as they are taken,
and holds then of all that is stored and all that still waits. -/

namespace MaskedTaint

/-- What is expected of the tokens in a list of a scope, among the arguments of an open call,
and among the parameters of a function, and of the numbers of the functions that are called. -/
structure Contents where
  listed : String → String → Token → Prop
  argument : String → Token → Prop
  parameter : String → Token → Prop
  callee : Nat → Prop := fun _ => True

structure Contents.Closed (C : Contents) : Prop where
  split : ∀ scope key t n, C.listed scope key t → C.listed scope key (t.setSplit (.number n))
  params : ∀ scope t, C.parameter scope t → C.listed scope Special.params.name t

namespace Structure

/-- The second structure comes from the first by adding expected tokens to lists of these scopes.
A scope begins with the list of its parameters. -/
inductive Fills (C : Contents) (scopes : List String) (d : Structure) : Structure → Prop
  | refl : Fills C scopes d d
  | append {d' : Structure} {scope key : String} {ts : List Token} (h : Fills C scopes d d')
      (hscope : scope ∈ scopes) (hkey : IsKey key)
      (hopen : d'.has scope = true ∨ key = Special.params.name)
      (hts : ∀ t ∈ ts, C.listed scope key t) : Fills C scopes d (d'.append scope key ts)
  | split {d' : Structure} {scope : String} (h : Fills C scopes d d') (hscope : scope ∈ scopes)
      (id : Nat) (n : Int) : Fills C scopes d (d'.setSplit scope id (.number n))

def Holds (C : Contents) (d : Structure) : Prop :=
  ∀ e ∈ d, ∀ l ∈ e.2, ∀ t ∈ l.2, C.listed e.1 l.1 t

variable {C : Contents} {scopes scopes' : List String} {d d' d₁ : Structure} {scope key : String}
  {ts : List Token}

theorem Fills.mono (hsub : scopes ⊆ scopes') (h : Fills C scopes d d') : Fills C scopes' d d' := by
  induction h with
  | refl => exact .refl
  | append _ hscope hkey hopen hts ih => exact .append ih (hsub hscope) hkey hopen hts
  | split _ hscope id n ih => exact .split ih (hsub hscope) id n

theorem Fills.trans (h : Fills C scopes d d₁) (h' : Fills C scopes d₁ d') : Fills C scopes d d' := by
  induction h' with
  | refl => exact h
  | append _ hscope hkey hopen hts ih => exact .append ih hscope hkey hopen hts
  | split _ hscope id n ih => exact .split ih hscope id n

theorem Fills.has (h : Fills C scopes d d') (hd : d.has scope = true) : d'.has scope = true := by
  induction h with
  | refl => exact hd
  | append _ _ _ _ _ ih => exact has_putTokens ih
  | split _ _ id n ih => exact has_setSplit ih id _

theorem Holds.tokens? (h : d.Holds C) : ∀ t ∈ (d.tokens? scope key).getD [], C.listed scope key t := by
  cases hts : d.tokens? scope key with
  | none => simp
  | some ts =>
    obtain ⟨s, hs, hl⟩ := Option.bind_eq_some_iff.mp hts
    exact h _ (Table.mem_of_get? hs) _ (Table.mem_of_get? hl)

theorem Holds.append (h : d.Holds C) (hts : ∀ t ∈ ts, C.listed scope key t) :
    (d.append scope key ts).Holds C := by
  intro e he l hl
  rcases Table.mem_put he with rfl | he
  · rcases Table.mem_put hl with rfl | hl
    · exact List.forall_mem_append.mpr ⟨h.tokens?, hts⟩
    · cases hs : d.get? scope with
      | none => simp [hs, Table.empty] at hl
      | some s =>
        rw [hs, Option.getD_some] at hl
        exact h _ (Table.mem_of_get? hs) l hl
  · exact h e he l hl

theorem Holds.setSplit (hC : C.Closed) (h : d.Holds C) (scope : String) (id : Nat) (n : Int) :
    (d.setSplit scope id (.number n)).Holds C := by
  unfold Structure.setSplit
  split
  · exact h
  · rename_i s hs
    intro e he k hk t ht
    rcases Table.mem_put he with rfl | he
    · obtain ⟨k', hk', rfl⟩ := List.mem_map.mp hk
      obtain ⟨t', ht', rfl⟩ := List.mem_map.mp ht
      have hold := h _ (Table.mem_of_get? hs) k' hk' t' ht'
      split
      · exact hC.split _ _ _ _ hold
      · exact hold
    · exact h e he k hk t ht

theorem Fills.holds (hC : C.Closed) (h : Fills C scopes d d') (hd : d.Holds C) : d'.Holds C := by
  induction h with
  | refl => exact hd
  | append _ _ _ _ hts ih => exact ih.append hts
  | split _ _ id n ih => exact ih.setSplit hC _ id n

theorem Fills.others (h : Fills C scopes d d') :
    d'.filter (fun e => e.1 ∉ scopes) = d.filter (fun e => e.1 ∉ scopes) := by
  have hput : ∀ (d : Structure) (s : Scope) {scope : String}, scope ∈ scopes →
      (d.put scope s).filter (fun e => e.1 ∉ scopes) = d.filter (fun e => e.1 ∉ scopes) := by
    intro d s scope hscope
    induction d with
    | nil => simp [Table.put, hscope]
    | cons e d ih =>
      by_cases he : e.1 = scope
      · rw [Table.put_cons_pos d s he]
        simp [he, hscope]
      · rw [Table.put_cons_neg d s he, List.filter_cons, List.filter_cons, ih]
  induction h with
  | refl => rfl
  | append _ hscope _ _ _ ih => exact (hput _ _ hscope).trans ih
  | split _ hscope id n ih =>
    unfold Structure.setSplit
    split
    · exact ih
    · exact (hput _ _ hscope).trans ih

end Structure

open Structure (Fills)

def Task.Holds (C : Contents) (scope : String) : Task → Prop
  | collect key _ waiting => IsPlainKey key ∧ ∀ t ∈ waiting, C.listed scope key t
  | arguments callee args => C.callee callee ∧ ∀ t ∈ args, C.argument scope t
  | query waiting => ∀ t ∈ waiting, C.listed scope (Special.sink .sqli).name t
  | _ => True

/-- The scope of the block is one of these, and has been opened. -/
structure Block.OpenIn (scopes : List String) (d : Structure) (b : Block) : Prop where
  scope : b.scope ∈ scopes
  opened : d.has b.scope = true

structure Block.Holds (C : Contents) (scopes : List String) (d : Structure) (b : Block) : Prop
    extends b.OpenIn scopes d where
  tasks : ∀ task ∈ b.tasks, task.Holds C b.scope

namespace Recorder

structure Admits (C : Contents) (r : Recorder) (b : Block) (t : Masked) : Prop where
  operand : ∀ key, IsPlainKey key → C.listed b.scope key (.site r.fresh (r.markOf b t t.symbol.name))
  argument : C.argument b.scope (.site r.fresh (r.markOf b t t.symbol.name))
  callee : ∀ n, t.symbol = .call n → C.callee n
  call : ∀ callee args, C.callee callee → (∀ a ∈ args, C.argument b.scope a) →
    C.argument b.scope (.jump r.fresh (r.markOf b t Special.call.name) (Symbol.funcName callee) args) ∧
      ∀ key, key = Special.call.name ∨ IsPlainKey key → C.listed b.scope key
        (.jump r.fresh (r.markOf b t Special.call.name) (Symbol.funcName callee) args)
  imported : C.listed b.scope Special.imports.name
    (.jump r.fresh (r.markOf b t Kind.importWord.name) t.text [])
  parameter : ∀ scope, t.symbol.isVariable = true →
    C.parameter scope (.site r.fresh (r.markOf { b with scope := scope } t t.symbol.name))

structure Stored (C : Contents) (r r₀ : Recorder) : Prop where
  file : r.file = r₀.file
  fresh : r₀.fresh ≤ r.fresh
  scopes : r₀.functions.names ⊆ r.functions.names
  flows : Fills C r.functions.names r₀.flows r.flows
  functions : ∀ e ∈ r.functions, ∀ t ∈ e.2, C.parameter e.1 t

structure Filling (C : Contents) (r r₀ : Recorder) : Prop where
  stored : r.Stored C r₀
  blocks : ∀ b ∈ r.blocks, b.Holds C r.functions.names r.flows

structure Filler (C : Contents) (r r₀ : Recorder) (b : Block) (outer : List Block) :
    Prop where
  stored : r.Stored C r₀
  block : b.OpenIn r.functions.names r.flows
  outer : ∀ o ∈ outer, o.Holds C r.functions.names r.flows

variable {C : Contents} {r r₀ : Recorder} {b : Block} {outer : List Block}
  {t : Masked} {token : Token} {key scope : String} {waiting args : List Token} {tasks : List Task}
  {callee : Nat}

theorem Filling.filler (h : r.Filling C r₀) (hblocks : r.blocks = b :: outer) :
    r.Filler C r₀ b outer :=
  ⟨h.stored, (h.blocks b (by simp [hblocks])).toOpenIn, fun o ho => h.blocks o (by simp [hblocks, ho])⟩

/-- What is there may be looked at anew, and expected to be something else. -/
theorem Filling.renew {C' : Contents} (h : r.Filling C r₀)
    (hparams : ∀ scope t, C.parameter scope t → C'.parameter scope t)
    (htasks : ∀ scope (task : Task), task.Holds C scope → task.Holds C' scope) : r.Filling C' r :=
  ⟨⟨rfl, Nat.le_refl _, List.Subset.refl _, .refl,
    fun e he t ht => hparams _ _ (h.stored.functions e he t ht)⟩,
    fun b hb => ⟨(h.blocks b hb).toOpenIn, fun task ht => htasks _ _ ((h.blocks b hb).tasks task ht)⟩⟩

theorem Filling.self (h : r.Filling C r₀) : r.Filling C r := h.renew (fun _ _ => id) fun _ _ => id

variable {r' : Recorder}

theorem Stored.same (h : r.Stored C r₀) (hfile : r'.file = r.file)
    (hfresh : r'.fresh = r.fresh) (hflows : r'.flows = r.flows)
    (hfunctions : r'.functions = r.functions) : r'.Stored C r₀ :=
  ⟨hfile ▸ h.file, hfresh ▸ h.fresh, hfunctions ▸ h.scopes, hfunctions ▸ hflows ▸ h.flows,
    hfunctions ▸ h.functions⟩

/-! ### Storing -/

section

variable (h : r.Filler C r₀ b outer)

include h

theorem Filler.change {r' : Recorder} (hstored : r'.Stored C r₀)
    (hscopes : r.functions.names ⊆ r'.functions.names)
    (hopened : ∀ s, r.flows.has s = true → r'.flows.has s = true) : r'.Filler C r₀ b outer :=
  have hmono : ∀ {o : Block}, o.OpenIn r.functions.names r.flows →
      o.OpenIn r'.functions.names r'.flows := fun ho => ⟨hscopes ho.scope, hopened _ ho.opened⟩
  ⟨hstored, hmono h.block, fun o ho => ⟨hmono (h.outer o ho).toOpenIn, (h.outer o ho).tasks⟩⟩

theorem Filler.write {flows : Structure} {fresh : Nat}
    (hfresh : r.fresh ≤ fresh) (hf : Fills C r.functions.names r.flows flows) :
    Filler C { r with flows := flows, fresh := fresh } r₀ b outer :=
  h.change ⟨h.stored.file, h.stored.fresh.trans hfresh, h.stored.scopes, h.stored.flows.trans hf,
    h.stored.functions⟩ (List.Subset.refl _) fun _ => hf.has

theorem Filler.numbered :
    Filler C { r with fresh := r.fresh + 1 } r₀ b outer := h.write (Nat.le_succ _) .refl

theorem Filler.append (hkey : IsKey key) {ts : List Token}
    (hts : ∀ t ∈ ts, C.listed b.scope key t) :
    Filler C { r with flows := r.flows.append b.scope key ts } r₀ b outer :=
  h.write (Nat.le_refl _) (Fills.refl.append h.block.scope hkey (.inl h.block.opened) hts)

theorem Filler.record (hkey : IsKey key)
    (ht : C.listed b.scope key token) : (r.record b key token).Filler C r₀ b outer :=
  h.append hkey (List.forall_mem_singleton.mpr ht)

theorem Filler.gather (hkey : IsPlainKey key)
    (hw : ∀ w ∈ waiting, C.listed b.scope key w) (ht : C.listed b.scope key token) :
    (∀ w ∈ (r.gather b key waiting token).1, C.listed b.scope key w) ∧
      (r.gather b key waiting token).2.Filler C r₀ b outer := by
  unfold Recorder.gather
  split
  · exact ⟨hw, h.record hkey.isKey ht⟩
  · exact ⟨List.forall_mem_append.mpr ⟨hw, List.forall_mem_singleton.mpr ht⟩, h⟩

theorem Filler.store (hkey : IsPlainKey key) (hw : ∀ w ∈ waiting, C.listed b.scope key w) :
    (r.store b key waiting).Filler C r₀ b outer := by
  unfold Recorder.store
  split
  · exact h
  · rename_i hnone
    rw [Bool.not_eq_true, Option.isSome_eq_false_iff, Option.isNone_iff_eq_none] at hnone
    have hput : r.flows.putTokens b.scope key waiting = r.flows.append b.scope key waiting := by
      rw [Structure.append, hnone, Option.getD_none, List.nil_append]
    rw [hput]
    exact h.append hkey.isKey hw

end

theorem Stored.params (h : r.Stored C r₀) (scope : String) :
    ∀ t ∈ (r.functions.get? scope).getD [], C.parameter scope t := by
  cases hf : r.functions.get? scope with
  | none => simp
  | some ts => exact h.functions (scope, ts) (Table.mem_of_get? hf)

theorem names_subset_put {α : Type} (t : Table α) (name : String) (a : α) :
    t.names ⊆ (t.put name a).names := by
  rcases t.names_put name a with hsame | ⟨-, hadd⟩
  · rw [hsame]
    exact List.Subset.refl _
  · rw [hadd]
    exact List.subset_append_left _ _

theorem mem_names_put {α : Type} (t : Table α) (name : String) (a : α) :
    name ∈ (t.put name a).names :=
  List.mem_map.mpr ⟨(name, a), Table.mem_of_get? (Table.get?_put_self t name a), rfl⟩

theorem Filler.putFunction (h : r.Filler C r₀ b outer) {params : List Token}
    (hp : ∀ t ∈ params, C.parameter scope t) :
    Filler C { r with functions := r.functions.put scope params } r₀ b outer := by
  have hsub := names_subset_put r.functions scope params
  refine h.change ⟨h.stored.file, h.stored.fresh, List.Subset.trans h.stored.scopes hsub,
    h.stored.flows.mono hsub, fun e he => ?_⟩ hsub fun _ => id
  rcases Table.mem_put he with rfl | he
  · exact hp
  · exact h.stored.functions e he

/-- Opening a scope adds those of its parameters that it does not have yet. -/
theorem exists_flows_openScope (r : Recorder) (scope : String) :
    ∃ new, new.Sublist ((r.functions.get? scope).getD []) ∧
      (r.openScope scope).flows = r.flows.append scope Special.params.name new := by
  have hmerged : ∀ params known : List Token, ∃ new, new.Sublist params ∧
      params.foldl (fun ts t => if t.isIn ts then ts else ts ++ [t]) known = known ++ new := by
    intro params
    induction params with
    | nil => exact fun known => ⟨[], .slnil, (List.append_nil known).symm⟩
    | cons p params ih =>
      intro known
      rw [List.foldl_cons]
      split
      · obtain ⟨new, hsub, hnew⟩ := ih known
        exact ⟨new, hsub.cons p, hnew⟩
      · obtain ⟨new, hsub, hnew⟩ := ih (known ++ [p])
        exact ⟨p :: new, hsub.cons_cons p, by rw [hnew, List.append_assoc, List.singleton_append]⟩
  obtain ⟨new, hsub, hnew⟩ := hmerged ((r.functions.get? scope).getD [])
    ((r.flows.tokens? scope Special.params.name).getD [])
  exact ⟨new, hsub, congrArg (r.flows.putTokens scope Special.params.name) hnew⟩

theorem has_openScope (r : Recorder) (scope : String) : (r.openScope scope).flows.has scope = true :=
  Table.has_put_self _ _ _

theorem Stored.openScope (hC : C.Closed) (h : r.Stored C r₀) (scope : String) :
    (r.openScope scope).Stored C r₀ := by
  have hsub := names_subset_put r.functions scope ((r.functions.get? scope).getD [])
  obtain ⟨new, hnew, hflows⟩ := exists_flows_openScope r scope
  refine ⟨h.file, h.fresh, List.Subset.trans h.scopes hsub, hflows ▸ ?_, fun e he => ?_⟩
  · exact (h.flows.mono hsub).append (mem_names_put _ _ _) (.inl (by decide)) (.inr rfl)
      fun t ht => hC.params scope t (h.params scope t (hnew.subset ht))
  · rcases Table.mem_put he with rfl | he
    · exact h.params scope
    · exact h.functions e he

/-! ### Going on -/

section

variable (h : r.Filler C r₀ b outer)

include h

theorem Filler.proceed (htasks : ∀ task ∈ tasks, task.Holds C b.scope) :
    (r.proceed b outer tasks).Filling C r₀ :=
  ⟨h.stored.same rfl rfl rfl rfl, List.forall_mem_cons.mpr ⟨⟨⟨h.block.scope, h.block.opened⟩, htasks⟩, h.outer⟩⟩

theorem Filler.leave : (r.leave b outer).Filling C r₀ := by
  cases outer with
  | nil => exact ⟨h.stored.same rfl rfl rfl rfl, by simp [Recorder.leave]⟩
  | cons o rest =>
    obtain ⟨ho, hrest⟩ := List.forall_mem_cons.mp h.outer
    refine ⟨h.stored.same rfl rfl rfl rfl, List.forall_mem_cons.mpr ⟨?_, hrest⟩⟩
    split
    · exact ⟨⟨ho.scope, ho.opened⟩, ho.tasks⟩
    · exact ho

theorem Filler.finish (last : Option Symbol) : (r.finish b outer last).Filling C r₀ := by
  have hb : r.Filler C r₀ { b with tasks := [], last := last } outer :=
    ⟨h.stored, ⟨h.block.scope, h.block.opened⟩, h.outer⟩
  unfold Recorder.finish
  dsimp only
  split
  · exact hb.leave
  · exact ⟨h.stored.same rfl rfl rfl rfl, List.forall_mem_cons.mpr ⟨⟨hb.block, by simp⟩, h.outer⟩⟩

theorem Filler.enter (hb : b.tasks = []) (counter branches flow : Int) :
    (r.enter { b with counter := counter, branches := branches } outer t flow).Filling C r₀ := by
  refine ⟨h.stored.same rfl rfl rfl rfl, List.forall_mem_cons.mpr ⟨⟨⟨h.block.scope, h.block.opened⟩, by simp⟩,
    List.forall_mem_cons.mpr ⟨⟨⟨h.block.scope, h.block.opened⟩, ?_⟩, h.outer⟩⟩⟩
  simp [hb]

end

theorem Filler.enterFunction (hC : C.Closed) (h : r.Filler C r₀ b outer) (last : Option Symbol)
    (scope : String) : (r.enterFunction b outer last scope).Filling C r₀ := by
  have hopen := h.change (h.stored.openScope hC scope) (names_subset_put _ _ _)
    fun _ => Structure.has_putTokens
  refine ⟨hopen.stored.same rfl rfl rfl rfl, List.forall_mem_cons.mpr ⟨⟨⟨mem_names_put _ _ _, ?_⟩, by simp⟩,
    List.forall_mem_cons.mpr ⟨⟨⟨hopen.block.scope, hopen.block.opened⟩, by simp⟩, hopen.outer⟩⟩⟩
  exact has_openScope r scope

/-! ### Steps -/

theorem Continues.holds {task : Task} (h : Continues tasks task)
    (htasks : ∀ task ∈ tasks, task.Holds C scope) : task.Holds C scope := by
  cases h with
  | kept h => exact htasks _ h
  | manner _ h =>
    have hold := htasks _ h
    exact hold
  | query => exact List.forall_mem_nil _
  | _ => trivial

theorem Filler.stores (h : r.Filler C r₀ b outer) (hr : Stores r b r')
    (htasks : ∀ task ∈ b.tasks, task.Holds C b.scope) : r'.Filler C r₀ b outer := by
  rcases hr with rfl | ⟨key, waiting, ⟨manner, hmem⟩ | ⟨rfl, hmem⟩, rfl⟩
  · exact h
  · exact h.store (htasks _ hmem).1 (htasks _ hmem).2
  · exact h.store (isPlainKey_sink .sqli) (htasks _ hmem)

theorem fresh_gather (r : Recorder) (b : Block) (key : String) (waiting : List Token) (t : Token) :
    (r.gather b key waiting t).2.fresh = r.fresh := by
  unfold Recorder.gather
  split <;> rfl

theorem fresh_endCall (r : Recorder) (b : Block) (outer : List Block) (t : Masked) (callee : Nat)
    (args : List Token) (tasks : List Task) :
    (r.endCall b outer t callee args tasks).fresh = r.fresh + 1 := by
  unfold Recorder.endCall
  dsimp only
  split
  · exact fresh_gather _ _ _ _ _
  · rfl
  · exact (finish_frame _ _ _ _).2.1

theorem Filling.settles (hC : C.Closed) (h : r.Filling C r₀) (hblocks : r.blocks = b :: outer)
    {s : Option Symbol} (hr : Settles r b outer s r') : r'.Filling C r₀ := by
  have hh := h.filler hblocks
  have htasks := (h.blocks b (by simp [hblocks])).tasks
  cases hr with
  | stay => exact h
  | leave => exact hh.leave
  | finish hr => exact (hh.stores hr htasks).finish _
  | go hr _ hgo => exact (hh.stores hr htasks).proceed fun task ht => (hgo task ht).holds htasks
  | openCall =>
    have hopened := hh.append (.inl (by decide) : IsKey Special.call.name) (List.forall_mem_nil _)
    exact ⟨hopened.stored.same rfl rfl rfl rfl,
      List.forall_mem_cons.mpr ⟨⟨hopened.block, htasks⟩, hopened.outer⟩⟩
  | enterFunction => exact hh.enterFunction hC _ _

theorem Filler.takeOperand (hC : C.Closed) (h : r.Filler C r₀ b outer) (ht : r.Admits C b t)
    {manner : Manner} (htask : (Task.collect key manner waiting).Holds C b.scope) :
    (Task.collect key manner (r.takeOperand b t key manner waiting).1).Holds C b.scope ∧
      (r.takeOperand b t key manner waiting).2.Filler C r₀ b outer := by
  obtain ⟨hkey, hw⟩ := htask
  have hsite := ht.operand key hkey
  unfold Recorder.takeOperand
  refine (h.numbered.gather hkey hw ?_).imp_left fun hw => ⟨hkey, hw⟩
  cases manner with
  | joined split => exact hC.split _ _ _ _ hsite
  | value => exact hsite
  | printed => exact hsite

theorem Filler.endCall (h : r.Filler C r₀ b outer) (ht : r.Admits C b t)
    (htask : (Task.arguments callee args).Holds C b.scope)
    (htasks : ∀ task ∈ tasks, task.Holds C b.scope) :
    (r.endCall b outer t callee args tasks).Filling C r₀ := by
  obtain ⟨hargument, hlisted⟩ := ht.call callee args htask.1 htask.2
  have hcall : IsKey Special.call.name := .inl (by decide)
  have hrecorded := h.numbered.record hcall (hlisted _ (.inl rfl))
  unfold Recorder.endCall
  dsimp only
  split
  · rename_i key manner waiting tasks
    obtain ⟨⟨hkey, hw⟩, hrest⟩ := List.forall_mem_cons.mp htasks
    obtain ⟨hgathered, hfiller⟩ := h.numbered.gather hkey hw (hlisted key (.inr hkey))
    exact (hfiller.record hcall (hlisted _ (.inl rfl))).proceed
      (List.forall_mem_cons.mpr ⟨⟨hkey, hgathered⟩, hrest⟩)
  · obtain ⟨⟨hcallee, hargs⟩, hrest⟩ := List.forall_mem_cons.mp htasks
    exact hrecorded.proceed (List.forall_mem_cons.mpr ⟨⟨hcallee,
      List.forall_mem_append.mpr ⟨hargs, List.forall_mem_singleton.mpr hargument⟩⟩, hrest⟩)
  · exact hrecorded.finish _

section

variable (hC : C.Closed) (h : r.Filling C r₀)

include hC h

/-- Where no token is made, nothing is asked of tokens. -/
theorem Filling.does (hblocks : r.blocks = b :: outer)
    {place : Int} (hr : Does r b outer t place r')
    (ht : r'.fresh = r.fresh + 1 → r.Admits C b t) (hcallee : ∀ n, t.symbol = .call n → C.callee n) :
    r'.Filling C r₀ := by
  have hh := h.filler hblocks
  have htasks := (h.blocks b (by simp [hblocks])).tasks
  have hfront : ∀ {front : List Task}, (∀ task ∈ front, Continues [] task) →
      ∀ task ∈ front, task.Holds C b.scope := fun hfront task hmem => (hfront task hmem).holds (by simp)
  cases hr with
  | settles hr => exact h.settles hC hblocks hr
  | starts hb htask =>
    refine hh.proceed (List.forall_mem_singleton.mpr ?_)
    cases htask with
    | collect _ hkey => exact ⟨hkey, List.forall_mem_nil _⟩
    | call hn => exact ⟨hcallee _ hn, List.forall_mem_nil _⟩
    | query => exact List.forall_mem_nil _
    | _ => trivial
  | enter hb => exact hh.enter hb _ _ _
  | call hn _ hsub =>
    exact hh.proceed (List.forall_mem_cons.mpr
      ⟨⟨hcallee _ hn, List.forall_mem_nil _⟩, fun task hmem => htasks task (hsub hmem)⟩)
  | @mark key waiting _ last hb =>
    rw [hb, List.forall_mem_cons] at htasks
    obtain ⟨⟨hkey, hw⟩, -⟩ := htasks
    refine (hh.write (Nat.le_refl _) (Fills.refl.split hh.block.scope last.id place)).proceed ?_
    refine List.forall_mem_singleton.mpr ⟨hkey, fun w hmem => ?_⟩
    obtain ⟨x, hx, rfl⟩ := List.mem_map.mp hmem
    split
    · exact hC.split _ _ _ _ (hw x hx)
    · exact hw x hx
  | operand _ hb hcontinues =>
    rw [hb, List.forall_mem_cons] at htasks
    obtain ⟨htask, hfiller⟩ := hh.takeOperand hC (ht (fresh_gather _ _ _ _ _)) htasks.1
    exact hfiller.proceed
      (List.forall_mem_append.mpr ⟨hfront hcontinues, List.forall_mem_singleton.mpr htask⟩)
  | read hb =>
    rw [hb, List.forall_mem_cons] at htasks
    have hsink := isPlainKey_sink .sqli
    obtain ⟨hgathered, hfiller⟩ :=
      hh.numbered.gather hsink htasks.1 ((ht (fresh_gather _ _ _ _ _)).operand _ hsink)
    exact hfiller.proceed (List.forall_mem_cons.mpr ⟨hgathered, htasks.2⟩)
  | argument _ hb hcontinues =>
    rw [hb, List.forall_mem_cons] at htasks
    obtain ⟨⟨hcallee, hargs⟩, hrest⟩ := htasks
    exact hh.numbered.proceed (List.forall_mem_append.mpr ⟨hfront hcontinues, List.forall_mem_cons.mpr
      ⟨⟨hcallee, List.forall_mem_append.mpr
        ⟨hargs, List.forall_mem_singleton.mpr (ht rfl).argument⟩⟩, hrest⟩⟩)
  | endCall hb =>
    rw [hb, List.forall_mem_cons] at htasks
    exact hh.endCall (ht (fresh_endCall _ _ _ _ _ _ _)) htasks.1 htasks.2
  | declare scope =>
    exact (hh.putFunction (by simp)).proceed (List.forall_mem_singleton.mpr trivial)
  | pass => exact hh.proceed (List.forall_mem_singleton.mpr trivial)
  | @parameter scope _ hb hvar =>
    exact (hh.numbered.putFunction (List.forall_mem_append.mpr ⟨hh.stored.params scope,
      List.forall_mem_singleton.mpr ((ht rfl).parameter scope hvar)⟩)).proceed
        (List.forall_mem_singleton.mpr trivial)
  | imported =>
    exact (hh.numbered.record (.inl (by decide)) (ht rfl).imported).proceed
      (List.forall_mem_singleton.mpr trivial)

theorem Filling.take (ht : ∀ b outer, r.blocks = b :: outer → r.Admits C b t) (place : Int) :
    (r.take t place).Filling C r₀ := by
  cases hblocks : r.blocks with
  | nil => simpa [Recorder.take, hblocks] using h
  | cons b outer =>
    exact h.does hC hblocks (take_does hblocks t place) (fun _ => ht b outer hblocks) (ht b outer hblocks).callee

theorem Filling.takeEnd : (takeEnd r).2.Filling C r₀ :=
  takeEnd_keeps (P := (·.Filling C r₀)) h fun hblocks => h.settles hC hblocks

end

end Recorder

namespace Project

theorem filling_recorder (C : Contents) (p : Project) (name : String) :
    (p.recorder name).Filling C (p.recorder name) := by
  refine ⟨⟨rfl, Nat.le_refl _, List.Subset.refl _, .refl, ?_⟩, List.forall_mem_singleton.mpr ⟨⟨?_, ?_⟩, by simp⟩⟩
  · simp [recorder, Recorder.openScope, Table.get?, Table.put, Table.empty]
  · exact Recorder.mem_names_put _ _ _
  · exact Recorder.has_openScope _ name

theorem fills_recorder {C : Contents} (hC : C.Closed) (p : Project) (name : String) :
    Fills C (p.recorder name).functions.names p.flows (p.recorder name).flows := by
  let blank : Recorder := { file := name, flows := p.flows, fresh := p.fresh }
  have hblank : blank.Stored C blank :=
    ⟨rfl, Nat.le_refl _, List.Subset.refl _, .refl, by simp [blank, Table.empty]⟩
  exact (hblank.openScope hC name).flows

end Project

/-! ### Anything -/

def Contents.any : Contents := ⟨fun _ _ _ => True, fun _ _ => True, fun _ _ => True, fun _ => True⟩

theorem Contents.any_closed : any.Closed := ⟨fun _ _ _ _ _ => trivial, fun _ _ _ => trivial⟩

theorem Recorder.admits_any (r : Recorder) (b : Block) (t : Masked) : r.Admits .any b t :=
  ⟨fun _ _ => trivial, trivial, fun _ _ => trivial, fun _ _ _ _ => ⟨trivial, fun _ _ => trivial⟩,
    trivial, fun _ _ => trivial⟩

theorem Recorder.follow_any {r₀ r : Recorder} (m : Masker) (h : r.Filling .any r₀) :
    (r.follow m).recorder.Filling .any r₀ := by
  refine follow_keeps (I := fun r' _ => r'.Filling .any r₀) (fun _ _ _ h => h) ?_
    (fun _ _ _ h _ => h.takeEnd Contents.any_closed) h
  rintro r' _ _ _ ⟨-, t, -, rfl⟩ h
  exact h.take Contents.any_closed (fun b _ _ => r'.admits_any b t) _

/-! ### Marks -/

def Contents.marked (P : Mark → Prop) : Contents where
  listed _ _ t := ∀ u ∈ t.occurrences, P u.mark
  argument _ t := ∀ u ∈ t.occurrences, P u.mark
  parameter _ t := ∀ u ∈ t.occurrences, P u.mark

variable {P : Mark → Prop}

theorem Contents.marked_closed (hP : ∀ m (n : Int), P m → P { m with split := .number n }) :
    (marked P).Closed := by
  refine ⟨fun _ _ t n h u hu => ?_, fun _ _ h => h⟩
  have hself := hP t.mark n (h t t.mem_occurrences_self)
  cases t with
  | site i m =>
    rw [Token.setSplit, Token.occurrences, List.mem_singleton] at hu
    exact hu ▸ hself
  | jump i m target args =>
    rw [Token.setSplit, Token.occurrences, List.mem_cons] at hu
    rcases hu with rfl | hu
    · exact hself
    · exact h u (List.mem_cons_of_mem _ hu)

theorem Recorder.admits_marked {r : Recorder} {b : Block} {t : Masked}
    (hP : ∀ scope, ∀ kind ∈ [t.symbol.name, Special.call.name, Kind.importWord.name],
      P (r.markOf { b with scope := scope } t kind)) : r.Admits (.marked P) b t := by
  have hsite : ∀ (id : Nat) (scope : String),
      ∀ u ∈ (Token.site id (r.markOf { b with scope := scope } t t.symbol.name)).occurrences, P u.mark := by
    intro id scope u hu
    rw [Token.occurrences, List.mem_singleton] at hu
    exact hu ▸ hP scope _ (by simp)
  have hjump : ∀ (id : Nat) (target : String) (args : List Token),
      (∀ a ∈ args, ∀ u ∈ a.occurrences, P u.mark) →
      ∀ kind ∈ [t.symbol.name, Special.call.name, Kind.importWord.name],
        ∀ u ∈ (Token.jump id (r.markOf b t kind) target args).occurrences, P u.mark := by
    intro id target args hargs kind hkind u hu
    rw [Token.occurrences, List.mem_cons] at hu
    rcases hu with rfl | hu
    · exact hP b.scope kind hkind
    · obtain ⟨a, ha, hu⟩ := Token.mem_occurrencesIn.mp hu
      exact hargs a ha u hu
  exact ⟨fun _ _ => hsite _ b.scope, hsite _ b.scope, fun _ _ => trivial,
    fun callee args _ hargs => ⟨hjump _ _ args hargs _ (by simp),
      fun _ _ => hjump _ _ args hargs _ (by simp)⟩,
    hjump _ _ [] (by simp) _ (by simp), fun scope _ => hsite _ scope⟩

theorem Structure.Holds.marks {d : Structure} (h : d.Holds (.marked P)) :
    ∀ t ∈ d.occurrences, P t.mark := by
  intro t ht
  obtain ⟨e, he, l, hl, u, hu, ht⟩ := Structure.mem_occurrences.mp ht
  exact h e he l hl u hu t ht

theorem Structure.holds_empty (C : Contents) : ({} : Project).flows.Holds C := by
  simp [Structure.Holds, Table.empty]

end MaskedTaint
