import MaskedTaint.Proofs.Flow.Renaming

/-! Two recorders that take the same symbols up to a renaming. One has a structure before it that
it never touches. Step by step they store the same tokens up to the renaming, and are in the
middle of the same tasks. -/

namespace MaskedTaint

namespace Renaming

noncomputable def task (ρ : Renaming) (k : Nat) : Task → Task
  | .collect key manner waiting => .collect (ρ.text key) manner (waiting.map (ρ.token k))
  | .arguments callee args => .arguments (ρ.funcs callee) (args.map (ρ.token k))
  | .query waiting => .query (waiting.map (ρ.token k))
  | .skip stop => .skip (ρ.symbol stop)
  | .drain => .drain
  | .declaration => .declaration
  | .parameters scope => .parameters (ρ.text scope)
  | .imports => .imports

variable {ρ : Renaming} {s : Symbol}

@[simp] theorem isVariable_symbol (ρ : Renaming) (s : Symbol) : (ρ.symbol s).isVariable = s.isVariable := by
  cases s <;> rfl

@[simp] theorem isOperand_symbol (ρ : Renaming) (s : Symbol) : (ρ.symbol s).isOperand = s.isOperand := by
  cases s <;> rfl

@[simp] theorem isSanitizer_symbol (ρ : Renaming) (s : Symbol) : (ρ.symbol s).isSanitizer = s.isSanitizer := by
  cases s <;> rfl

@[simp] theorem endsStatement_symbol (ρ : Renaming) (s : Symbol) :
    (ρ.symbol s).endsStatement = s.endsStatement := by
  cases s <;> rfl

@[simp] theorem endsBlock_symbol (ρ : Renaming) (s : Symbol) : (ρ.symbol s).endsBlock = s.endsBlock := by
  cases s <;> rfl

theorem symbol_eq_iff {x : Symbol} (hx : x.isMasked = false) : ρ.symbol s = x ↔ s = x := by
  constructor
  · intro h
    rw [← h, isMasked_symbol] at hx
    rw [← h, symbol_of_not_masked hx]
  · rintro rfl
    exact symbol_of_not_masked hx

theorem text_variable {x : Symbol} (h : x.isVariable = true) : ρ.text x.name = (ρ.symbol x).name := by
  refine text_name fun kind hkind => ?_
  rw [hkind] at h
  cases kind <;> simp_all [Symbol.isVariable, Kind.IsListed]

end Renaming

namespace Block

/-- The blocks differ at most in names, and in what was met last unless that may be assigned to. -/
structure Mirrors (ρ : Renaming) (k : Nat) (b₁ b₂ : Block) : Prop where
  scope : b₁.scope = ρ.text b₂.scope
  nested : b₁.nested = b₂.nested
  depth : b₁.depth = b₂.depth
  order : b₁.order = b₂.order
  flow : b₁.flow = b₂.flow
  counter : b₁.counter = b₂.counter
  deeper : b₁.deeper = b₂.deeper
  branches : b₁.branches = b₂.branches
  last : b₁.last.filter Symbol.isVariable = (b₂.last.filter Symbol.isVariable).map ρ.symbol
  tasks : b₁.tasks = b₂.tasks.map (ρ.task k)

theorem filter_last {ρ : Renaming} {last₁ last₂ : Option Symbol} (h : last₁ = last₂.map ρ.symbol) :
    last₁.filter Symbol.isVariable = (last₂.filter Symbol.isVariable).map ρ.symbol := by
  subst h
  cases last₂ with
  | none => rfl
  | some s =>
    by_cases hs : s.isVariable = true <;> simp [Option.filter, hs]

end Block

namespace Recorder

/-- What is stored is the same up to the renaming, behind the structure `base`. -/
structure Reflects (ρ : Renaming) (base : Structure) (k : Nat) (r₁ r₂ : Recorder) : Prop where
  file : r₁.file = r₂.file
  flows : r₁.flows = base ++ ρ.flows k r₂.flows
  functions : r₁.functions = r₂.functions.rename ρ.text fun ts => ts.map (ρ.token k)
  fresh : r₁.fresh = r₂.fresh + k
  counter : r₁.counter = r₂.counter

structure Mirrors (ρ : Renaming) (base : Structure) (k : Nat) (r₁ r₂ : Recorder) : Prop where
  reflects : Reflects ρ base k r₁ r₂
  blocks : List.Forall₂ (Block.Mirrors ρ k) r₁.blocks r₂.blocks

variable {ρ : Renaming} {base : Structure} {k : Nat} {r₁ r₂ : Recorder} {b₁ b₂ : Block}
  {outer₁ outer₂ : List Block} {t : Masked}

/-! ### New tokens -/

section

variable (h : Reflects ρ base k r₁ r₂) (hb : b₁.Mirrors ρ k b₂)

include h hb

theorem Reflects.markOf (kind : String) :
    r₁.markOf b₁ (ρ.masked t) (ρ.text kind) = ρ.mark (r₂.markOf b₂ t kind) := by
  simp only [Recorder.markOf, Renaming.mark, Renaming.masked, hb.depth, hb.order, hb.flow, hb.scope, h.file]

theorem Reflects.site (ht : t.symbol.IsListed) :
    (r₁.site b₁ (ρ.masked t)).1 = ρ.token k (r₂.site b₂ t).1 ∧
      Reflects ρ base k (r₁.site b₁ (ρ.masked t)).2 (r₂.site b₂ t).2 := by
  constructor
  · simp only [Recorder.site, Renaming.token, h.fresh]
    have hname : (ρ.masked t).symbol.name = ρ.text t.symbol.name := (Renaming.text_name ht).symm
    rw [hname, h.markOf hb]
  · exact ⟨h.file, h.flows, h.functions, by simp only [Recorder.site, h.fresh]; omega, h.counter⟩

theorem Reflects.call (callee : Nat) (args : List Token) :
    (r₁.jump b₁ (ρ.masked t) Special.call.name (Symbol.funcName (ρ.funcs callee))
        (args.map (ρ.token k))).1 =
      ρ.token k (r₂.jump b₂ t Special.call.name (Symbol.funcName callee) args).1 ∧ Reflects ρ base k
      (r₁.jump b₁ (ρ.masked t) Special.call.name (Symbol.funcName (ρ.funcs callee))
        (args.map (ρ.token k))).2
      (r₂.jump b₂ t Special.call.name (Symbol.funcName callee) args).2 := by
  constructor
  · have hmark := h.markOf (t := t) hb Special.call.name
    rw [Renaming.text_special] at hmark
    simp only [Recorder.jump, Renaming.token, h.fresh, Renaming.tokens_eq_map, hmark]
    have hkind : (r₂.markOf b₂ t Special.call.name).kind = Special.call.name := rfl
    rw [if_pos hkind, Renaming.text_funcName]
  · exact ⟨h.file, h.flows, h.functions, by simp only [Recorder.jump, h.fresh]; omega, h.counter⟩

theorem Reflects.imported : (r₁.jump b₁ (ρ.masked t) Kind.importWord.name t.text []).1 =
      ρ.token k (r₂.jump b₂ t Kind.importWord.name t.text []).1 ∧
    Reflects ρ base k (r₁.jump b₁ (ρ.masked t) Kind.importWord.name t.text []).2
      (r₂.jump b₂ t Kind.importWord.name t.text []).2 := by
  constructor
  · have hmark := h.markOf (t := t) hb Kind.importWord.name
    rw [Renaming.text_of_not (Symbol.not_isMaskedName (by decide))] at hmark
    simp only [Recorder.jump, Renaming.token, h.fresh, Renaming.tokens_eq_map, hmark, List.map_nil]
    have hkind : (r₂.markOf b₂ t Kind.importWord.name).kind ≠ Special.call.name := by
      simp only [Recorder.markOf]
      decide
    rw [if_neg hkind]
  · exact ⟨h.file, h.flows, h.functions, by simp only [Recorder.jump, h.fresh]; omega, h.counter⟩

/-! ### Storing -/

end

section

variable (hρ : ρ.Faithful) (hscope : ρ.text b₂.scope ∉ base.names) (h : Reflects ρ base k r₁ r₂)

include hρ hscope h

theorem Reflects.record (hb : b₁.Mirrors ρ k b₂) (key : String) (token : Token) :
    Reflects ρ base k (r₁.record b₁ (ρ.text key) (ρ.token k token)) (r₂.record b₂ key token) := by
  refine { h with flows := ?_ }
  simp only [Recorder.record, h.flows, hb.scope]
  exact Renaming.append_flows hρ hscope key [token]

theorem Reflects.isSome (hb : b₁.Mirrors ρ k b₂) (key : String) :
    (r₁.flows.tokens? b₁.scope (ρ.text key)).isSome = (r₂.flows.tokens? b₂.scope key).isSome := by
  rw [h.flows, hb.scope, Renaming.tokens?_flows hρ hscope, Option.isSome_map]

def SameTaken (ρ : Renaming) (base : Structure) (k : Nat) (x₁ x₂ : List Token × Recorder) : Prop :=
  x₁.1 = x₂.1.map (ρ.token k) ∧ Reflects ρ base k x₁.2 x₂.2

section

variable (hb : b₁.Mirrors ρ k b₂) (key : String) (waiting : List Token)

include hb key waiting

theorem Reflects.gather (token : Token) :
    SameTaken ρ base k (r₁.gather b₁ (ρ.text key) (waiting.map (ρ.token k)) (ρ.token k token))
      (r₂.gather b₂ key waiting token) := by
  unfold Recorder.gather
  rw [h.isSome hρ hscope hb]
  split
  · exact ⟨rfl, h.record hρ hscope hb key token⟩
  · exact ⟨by simp, h⟩

theorem Reflects.store :
    Reflects ρ base k (r₁.store b₁ (ρ.text key) (waiting.map (ρ.token k))) (r₂.store b₂ key waiting) := by
  unfold Recorder.store
  rw [h.isSome hρ hscope hb]
  split
  · exact h
  · refine { h with flows := ?_ }
    simp only [h.flows, hb.scope]
    exact Renaming.putTokens_flows hρ hscope key waiting

theorem Reflects.storeSome :
    Reflects ρ base k (r₁.storeSome b₁ (ρ.text key) (waiting.map (ρ.token k)))
      (r₂.storeSome b₂ key waiting) := by
  unfold Recorder.storeSome
  rw [List.isEmpty_map]
  split
  · exact h
  · exact h.store hρ hscope hb key waiting

theorem Reflects.lastOperand : r₁.lastOperand b₁ (ρ.text key) (waiting.map (ρ.token k)) =
      (r₂.lastOperand b₂ key waiting).map (ρ.token k) := by
  unfold Recorder.lastOperand
  rw [h.flows, hb.scope, Renaming.tokens?_flows hρ hscope]
  cases r₂.flows.tokens? b₂.scope key <;> simp

end

theorem Reflects.takeOperand (hb : b₁.Mirrors ρ k b₂)
    (ht : t.symbol.IsListed) (key : String) (manner : Manner) (waiting : List Token) :
    SameTaken ρ base k (r₁.takeOperand b₁ (ρ.masked t) (ρ.text key) manner (waiting.map (ρ.token k)))
      (r₂.takeOperand b₂ t key manner waiting) := by
  obtain ⟨htoken, hr⟩ := h.site hb ht
  unfold Recorder.takeOperand
  dsimp only
  rw [htoken]
  cases manner with
  | joined split =>
    dsimp only
    rw [Renaming.token_setSplit]
    exact hr.gather hρ hscope hb key waiting _
  | value | printed => exact hr.gather hρ hscope hb key waiting _

end

/-! ### Going on -/

section

variable (h : Reflects ρ base k r₁ r₂) (hb : b₁.Mirrors ρ k b₂)
  (ho : List.Forall₂ (Block.Mirrors ρ k) outer₁ outer₂)

include h hb ho

theorem Reflects.proceed (tasks : List Task) :
    Mirrors ρ base k (r₁.proceed b₁ outer₁ (tasks.map (ρ.task k))) (r₂.proceed b₂ outer₂ tasks) :=
  ⟨{ h with }, .cons { hb with tasks := rfl } ho⟩

theorem Reflects.leave : Mirrors ρ base k (r₁.leave b₁ outer₁) (r₂.leave b₂ outer₂) := by
  cases ho with
  | nil => exact ⟨{ h with counter := hb.counter }, .nil⟩
  | @cons o₁ o₂ rest₁ rest₂ hfirst hrest =>
    refine ⟨{ h with }, .cons ?_ hrest⟩
    rw [hb.nested]
    split
    · exact { hfirst with deeper := by simp only [hb.counter, hb.deeper] }
    · exact hfirst

theorem Reflects.finish {last₁ last₂ : Option Symbol} (hlast : last₁ = last₂.map ρ.symbol) :
    Mirrors ρ base k (r₁.finish b₁ outer₁ last₁) (r₂.finish b₂ outer₂ last₂) := by
  have hb' : Block.Mirrors ρ k { b₁ with tasks := [], last := last₁ } { b₂ with tasks := [], last := last₂ } :=
    { hb with last := Block.filter_last hlast, tasks := rfl }
  have hends : (last₁.map Symbol.endsBlock).getD false = (last₂.map Symbol.endsBlock).getD false := by
    subst hlast
    cases last₂ <;> simp
  unfold Recorder.finish
  dsimp only
  rw [hends]
  split
  · exact h.leave hb' ho
  · exact ⟨{ h with }, .cons hb' ho⟩

theorem Reflects.finishAt (t : Masked) :
    Mirrors ρ base k (r₁.finish b₁ outer₁ (some (ρ.masked t).symbol)) (r₂.finish b₂ outer₂ (some t.symbol)) :=
  h.finish hb ho rfl

theorem Reflects.enter (t : Masked) (flow : Int) :
    Mirrors ρ base k (r₁.enter b₁ outer₁ (ρ.masked t) flow) (r₂.enter b₂ outer₂ t flow) := by
  refine ⟨{ h with }, .cons ?_ (.cons ?_ ho)⟩
  · exact ⟨hb.scope, rfl, by rw [hb.depth], hb.counter, rfl, by rw [hb.deeper], by rw [hb.deeper], rfl,
      hb.last, rfl⟩
  · exact { hb with last := Block.filter_last rfl }

end

/-- Parameters that were met or are listed in the scope are sites of variables in it. -/
structure KnowsSites (r : Recorder) (scope : String) : Prop where
  params : ∀ t ∈ (r.functions.get? scope).getD [], t.IsSiteIn r.file scope
  listed : ∀ t ∈ (r.flows.tokens? scope Special.params.name).getD [], t.IsSiteIn r.file scope

section

variable (hρ : ρ.Faithful) (h : Reflects ρ base k r₁ r₂)

include hρ h

theorem Reflects.params (scope : String) :
    (r₁.functions.get? (ρ.text scope)).getD [] = ((r₂.functions.get? scope).getD []).map (ρ.token k) := by
  rw [h.functions, Table.get?_rename (Renaming.text_injective hρ)]
  cases r₂.functions.get? scope <;> rfl

theorem Reflects.putFunction (scope : String) (params : List Token) :
    Reflects ρ base k { r₁ with functions := r₁.functions.put (ρ.text scope) (params.map (ρ.token k)) }
      { r₂ with functions := r₂.functions.put scope params } := by
  refine { h with functions := ?_ }
  rw [h.functions]
  exact Table.put_rename (Renaming.text_injective hρ) _ r₂.functions scope params

theorem Reflects.openScope {scope : String} (hknows : r₂.KnowsSites scope)
    (hscope : ρ.text scope ∉ base.names) :
    Reflects ρ base k (r₁.openScope (ρ.text scope)) (r₂.openScope scope) := by
  have hlists := Token.merged_rename hρ k hknows.params hknows.listed
  have hknown : (r₁.flows.tokens? (ρ.text scope) Special.params.name).getD [] =
      ((r₂.flows.tokens? scope Special.params.name).getD []).map (ρ.token k) := by
    rw [h.flows, ← Renaming.text_special ρ, Renaming.getD_tokens?_flows hρ hscope]
    rw [Renaming.text_special]
  have hput := h.putFunction hρ scope ((r₂.functions.get? scope).getD [])
  unfold Recorder.openScope
  dsimp only
  rw [h.params hρ, hknown, hlists]
  refine { hput with flows := ?_ }
  rw [h.flows]
  have hflows := Renaming.putTokens_flows (d := r₂.flows) (k := k) hρ hscope Special.params.name
    (((r₂.functions.get? scope).getD []).foldl (fun ts t => if t.isIn ts then ts else ts ++ [t])
      ((r₂.flows.tokens? scope Special.params.name).getD []))
  rwa [Renaming.text_special] at hflows

theorem Reflects.enterFunction (hb : b₁.Mirrors ρ k b₂)
    (ho : List.Forall₂ (Block.Mirrors ρ k) outer₁ outer₂) {last₁ last₂ : Option Symbol}
    (hlast : last₁ = last₂.map ρ.symbol) {scope : String} (hknows : r₂.KnowsSites scope)
    (hscope : ρ.text scope ∉ base.names) :
    Mirrors ρ base k (r₁.enterFunction b₁ outer₁ last₁ (ρ.text scope))
      (r₂.enterFunction b₂ outer₂ last₂ scope) := by
  have hopen := h.openScope hρ hknows hscope
  refine ⟨{ hopen with }, .cons ?_ (.cons ?_ ho)⟩
  · exact ⟨rfl, rfl, hb.depth, rfl, rfl, rfl, rfl, rfl, rfl, rfl⟩
  · exact { hb with last := Block.filter_last hlast, tasks := rfl }

end

/-! ### Steps -/

theorem startsTask_symbol (hρ : ρ.Faithful) (s : Symbol) : startsTask (ρ.symbol s) = startsTask s := by
  cases s with
  | op n =>
    have hzero : ρ.ops n = 0 ↔ n = 0 := by
      rw [← hρ.assign]
      exact hρ.ops.eq_iff.trans (by rw [hρ.assign])
    by_cases hn : n = 0
    · simp [Renaming.symbol, startsTask, hn, hρ.assign]
    · simp [Renaming.symbol, startsTask, hn, hzero]
  | _ => rfl

theorem plain_of_symbol {s : Symbol} {kind : Kind} (h : ρ.symbol s = .plain kind) : s = .plain kind :=
  (Renaming.symbol_eq_iff rfl).mp h

theorem symbol_eq_call {s : Symbol} {n : Nat} (h : ρ.symbol s = .call n) :
    ∃ m, s = .call m ∧ n = ρ.funcs m := by
  cases s with
  | call m =>
    cases h
    exact ⟨m, rfl, rfl⟩
  | _ => cases h

theorem symbol_masked (ρ : Renaming) (t : Masked) : (ρ.masked t).symbol = ρ.symbol t.symbol := rfl

section

variable (h : Reflects ρ base k r₁ r₂) (hb : b₁.Mirrors ρ k b₂)
  (ho : List.Forall₂ (Block.Mirrors ρ k) outer₁ outer₂) (hρ : ρ.Faithful)

include h hb ho hρ

theorem Reflects.start : Mirrors ρ base k (r₁.start b₁ outer₁ (ρ.masked t)) (r₂.start b₂ outer₂ t) := by
  have hgo : ∀ {s : Symbol}, t.symbol = s → ρ.symbol s = s → (ρ.masked t).symbol = s := by
    intro s hs hsame
    rw [Renaming.masked, hs, hsame]
  have hcollect : ∀ (key : String) (manner : Manner), ρ.text key = key →
      Mirrors ρ base k (r₁.proceed b₁ outer₁ [.collect key manner []])
        (r₂.proceed b₂ outer₂ [.collect key manner []]) := by
    intro key manner hkey
    have hnext := h.proceed hb ho [.collect key manner []]
    simpa only [List.map_cons, List.map_nil, Renaming.task, hkey] using hnext
  have hmoved : ∀ counter branches : Int, Block.Mirrors ρ k
      { b₁ with counter := counter, branches := branches } { b₂ with counter := counter, branches := branches } :=
    fun counter branches => { hb with counter := rfl, branches := rfl }
  have hcounter : ∀ counter : Int, Block.Mirrors ρ k { b₁ with counter := counter }
      { b₂ with counter := counter } := fun counter => { hb with counter := rfl }
  have hbranches : ∀ branches : Int, Block.Mirrors ρ k { b₁ with branches := branches }
      { b₂ with branches := branches } := fun branches => { hb with branches := rfl }
  by_cases hstarts : startsTask t.symbol = true
  swap
  · have hnot := Bool.eq_false_iff.mpr hstarts
    rw [start_of_not hnot, start_of_not (by rwa [Renaming.masked, startsTask_symbol hρ])]
    exact h.finishAt hb ho t
  unfold startsTask at hstarts
  split at hstarts
  · rename_i hs
    rw [start_assign hs, start_assign (hgo hs (congrArg Symbol.op hρ.assign)), hb.last]
    cases htarget : b₂.last.filter Symbol.isVariable with
    | none => exact h.finishAt hb ho t
    | some target =>
      have hvar : target.isVariable = true := (Option.filter_eq_some_iff.mp htarget).2
      have hnext := h.proceed hb ho [.collect target.name .value []]
      simp only [List.map_cons, List.map_nil, Renaming.task, Renaming.text_variable hvar] at hnext
      exact hnext
  · rename_i hs
    simp only [Recorder.start, hs, hgo hs rfl, hb.counter]
    exact h.enter (hmoved _ _) ho t 1
  · rename_i hs
    simp only [Recorder.start, hs, hgo hs rfl]
    exact h.enter hb ho t (-1)
  iterate 2
    · rename_i hs
      simp only [Recorder.start, hs, hgo hs rfl, hb.branches]
      exact h.enter (hbranches _) ho t _
  iterate 5
    · rename_i hs
      simp only [Recorder.start, hs, hgo hs rfl, hb.counter]
      exact h.enter (hcounter _) ho t 1
  · rename_i hs
    simp only [Recorder.start, hs, hgo hs rfl]
    exact h.proceed hb ho [.declaration]
  · rename_i n hs
    have h₁ : (ρ.masked t).symbol = .call (ρ.funcs n) := by rw [Renaming.masked, hs]; rfl
    simp only [Recorder.start, hs, h₁]
    exact h.proceed hb ho [.arguments n []]
  · rename_i hs
    simp only [Recorder.start, hs, hgo hs rfl]
    exact hcollect _ _ (Renaming.text_special ρ _)
  · rename_i hs
    simp only [Recorder.start, hs, hgo hs rfl]
    exact h.proceed hb ho [.imports]
  · rename_i v hs
    cases v with
    | xss =>
      simp only [Recorder.start, hs, hgo hs rfl]
      exact hcollect _ _ (Renaming.text_special ρ _)
    | sqli =>
      simp only [Recorder.start, hs, hgo hs rfl]
      exact h.proceed hb ho [.query []]
  · cases hstarts

variable (hscope : ρ.text b₂.scope ∉ base.names)

include hscope

theorem Reflects.collect (ht : t.symbol.IsListed) (place : Int) (key : String) (manner : Manner)
    (waiting : List Token) : Mirrors ρ base k
      (r₁.collect b₁ outer₁ (ρ.masked t) place (ρ.text key) manner (waiting.map (ρ.token k)))
      (r₂.collect b₂ outer₂ t place key manner waiting) := by
  have hnone : Mirrors ρ base k
      (r₁.proceed b₁ outer₁ [.collect (ρ.text key) manner (waiting.map (ρ.token k))])
      (r₂.proceed b₂ outer₂ [.collect key manner waiting]) :=
    h.proceed hb ho [.collect key manner waiting]
  obtain ⟨htaken, hr⟩ := h.takeOperand hρ hscope hb ht key manner waiting
  unfold Recorder.collect
  simp only [symbol_masked, Renaming.endsStatement_symbol, Renaming.isOperand_symbol, Renaming.isSanitizer_symbol]
  split
  · exact (h.storeSome hρ hscope hb key waiting).finishAt hb ho t
  · split
    · rw [htaken]
      exact hr.proceed hb ho [.collect key manner _]
    · split
      · rw [htaken]
        exact hr.proceed hb ho [.skip (.plain .rightParen), .collect key manner _]
      · split
        · rename_i n hs
          obtain ⟨n, hcall, rfl⟩ := symbol_eq_call hs
          rw [hcall]
          exact h.proceed hb ho [.arguments n [], .collect key _ waiting]
        · rename_i hs
          rw [plain_of_symbol hs]
          dsimp only
          rw [h.lastOperand hρ hscope hb]
          cases r₂.lastOperand b₂ key waiting with
          | none => exact h.proceed hb ho [.drain]
          | some token =>
            have hwaiting := Renaming.map_setSplit ρ k token.id (.number place) waiting
            simp only [Option.map_some, Renaming.token_id, hwaiting]
            have hsplit : Reflects ρ base k
                { r₁ with flows := r₁.flows.setSplit b₁.scope (token.id + k) (.number place) }
                { r₂ with flows := r₂.flows.setSplit b₂.scope token.id (.number place) } := by
              refine { h with flows := ?_ }
              simp only [h.flows, hb.scope]
              exact Renaming.setSplit_flows hρ hscope token.id (.number place)
            exact hsplit.proceed hb ho [.collect key (.joined place) _]
        · rename_i hs
          rw [plain_of_symbol hs]
          exact h.proceed hb ho [.collect key (.joined place) waiting]
        · rename_i hs
          rw [plain_of_symbol hs]
          dsimp only
          rw [htaken]
          exact hr.proceed hb ho [.query [], .collect key .value _]
        · rename_i hcall hconcat hquote hsink
          split
          · rename_i n hs
            exact absurd (by rw [hs]; rfl) (hcall (ρ.funcs n))
          · rename_i hs
            exact absurd rfl (hconcat (by rw [hs]; rfl))
          · rename_i hs
            exact absurd rfl (hquote (by rw [hs]; rfl))
          · rename_i hs
            exact absurd rfl (hsink (by rw [hs]; rfl))
          · exact hnone

omit hρ hscope in
theorem Reflects.takeArgument (ht : t.symbol.IsListed) (callee : Nat) (args : List Token)
    (tasks : List Task) : Mirrors ρ base k
      (r₁.takeArgument b₁ outer₁ (ρ.masked t) (ρ.funcs callee) (args.map (ρ.token k)) (tasks.map (ρ.task k)))
      (r₂.takeArgument b₂ outer₂ t callee args tasks) := by
  have hword : (ρ.symbol t.symbol == .plain .word) = (t.symbol == .plain .word) := by
    rw [Bool.eq_iff_iff, beq_iff_eq, beq_iff_eq, Renaming.symbol_eq_iff rfl]
  obtain ⟨hsite, hr⟩ := h.site hb ht
  have hargs : (args ++ [(r₂.site b₂ t).1]).map (ρ.token k) =
      args.map (ρ.token k) ++ [(r₁.site b₁ (ρ.masked t)).1] := by
    rw [List.map_append, hsite, List.map_singleton]
  unfold Recorder.takeArgument
  simp only [symbol_masked, Renaming.isOperand_symbol, Renaming.isSanitizer_symbol, hword, ← hargs]
  split
  · exact hr.proceed hb ho (.arguments callee (args ++ [(r₂.site b₂ t).1]) :: tasks)
  · split
    · exact hr.proceed hb ho
        (.skip (.plain .rightParen) :: .arguments callee (args ++ [(r₂.site b₂ t).1]) :: tasks)
    · split
      · rename_i n hs
        obtain ⟨n, hcall, rfl⟩ := symbol_eq_call hs
        rw [hcall]
        exact h.proceed hb ho (.arguments n [] :: .arguments callee args :: tasks)
      · rename_i hs
        rw [plain_of_symbol hs]
        exact hr.proceed hb ho (.query [] :: .arguments callee (args ++ [(r₂.site b₂ t).1]) :: tasks)
      · rename_i hcall hsink
        split
        · rename_i n hs
          exact absurd (by rw [hs]; rfl) (hcall (ρ.funcs n))
        · rename_i hs
          exact absurd (by rw [hs]; rfl) hsink
        · exact h.proceed hb ho (.arguments callee args :: tasks)

theorem Reflects.endCall (callee : Nat) (args : List Token) (tasks : List Task) : Mirrors ρ base k
      (r₁.endCall b₁ outer₁ (ρ.masked t) (ρ.funcs callee) (args.map (ρ.token k)) (tasks.map (ρ.task k)))
      (r₂.endCall b₂ outer₂ t callee args tasks) := by
  obtain ⟨hjump, hr⟩ := h.call (t := t) hb callee args
  have hrecord : ∀ {r₁ r₂ : Recorder} (token : Token), Reflects ρ base k r₁ r₂ →
      Reflects ρ base k (r₁.record b₁ Special.call.name (ρ.token k token))
        (r₂.record b₂ Special.call.name token) := by
    intro r₁ r₂ token h
    have hrec := h.record hρ hscope hb Special.call.name token
    rwa [Renaming.text_special] at hrec
  unfold Recorder.endCall
  dsimp only
  rw [hjump]
  cases tasks with
  | nil => exact (hrecord _ hr).finishAt hb ho t
  | cons task tasks =>
    cases task with
    | collect key manner waiting =>
      obtain ⟨hgathered, hg⟩ := hr.gather hρ hscope hb key waiting
        (r₂.jump b₂ t Special.call.name (Symbol.funcName callee) args).1
      simp only [List.map_cons, Renaming.task, hgathered]
      exact (hrecord _ hg).proceed hb ho (.collect key manner _ :: tasks)
    | arguments callee' args' =>
      have hargs := (hrecord (r₂.jump b₂ t Special.call.name (Symbol.funcName callee) args).1 hr).proceed
        hb ho (.arguments callee' (args' ++
          [(r₂.jump b₂ t Special.call.name (Symbol.funcName callee) args).1]) :: tasks)
      simpa only [List.map_cons, Renaming.task, List.map_append, List.map_nil] using hargs
    | _ => exact (hrecord _ hr).finishAt hb ho t

theorem Reflects.endQuery {last₁ last₂ : Option Symbol} (hlast : last₁ = last₂.map ρ.symbol)
    (waiting : List Token) (tasks : List Task) :
    Mirrors ρ base k (r₁.endQuery b₁ outer₁ last₁ (waiting.map (ρ.token k)) (tasks.map (ρ.task k)))
      (r₂.endQuery b₂ outer₂ last₂ waiting tasks) := by
  have hstore := h.store hρ hscope hb (Special.sink .sqli).name waiting
  rw [Renaming.text_special] at hstore
  unfold Recorder.endQuery
  cases tasks with
  | nil => exact hstore.finish hb ho hlast
  | cons task tasks => exact hstore.proceed hb ho (task :: tasks)

theorem Reflects.query (ht : t.symbol.IsListed) (waiting : List Token) (tasks : List Task) :
    Mirrors ρ base k
      (r₁.query b₁ outer₁ (ρ.masked t) (waiting.map (ρ.token k)) (tasks.map (ρ.task k)))
      (r₂.query b₂ outer₂ t waiting tasks) := by
  obtain ⟨hsite, hr⟩ := h.site hb ht
  have hgather := hr.gather hρ hscope hb (Special.sink .sqli).name waiting (r₂.site b₂ t).1
  rw [Renaming.text_special, ← hsite] at hgather
  unfold Recorder.query
  simp only [symbol_masked]
  split
  · rename_i hs
    rw [plain_of_symbol hs]
    dsimp only
    exact h.endQuery hb ho hρ hscope (by rfl) waiting tasks
  · rename_i hs
    rw [plain_of_symbol hs]
    exact h.proceed hb ho (.skip (.plain .rightParen) :: .query waiting :: tasks)
  · rename_i n hs
    obtain ⟨n, hcall, rfl⟩ := symbol_eq_call hs
    rw [hcall]
    exact h.proceed hb ho (.skip .endParens :: .query waiting :: tasks)
  · rename_i hparen hsan hcall
    split
    · rename_i hs
      exact absurd (by rw [hs]; rfl) hparen
    · rename_i hs
      exact absurd (by rw [hs]; rfl) hsan
    · rename_i n hs
      exact absurd (by rw [hs]; rfl) (hcall (ρ.funcs n))
    · obtain ⟨hwaiting, hg⟩ := hgather
      rw [hwaiting]
      exact hg.proceed hb ho (.query _ :: tasks)

theorem Reflects.takeImport : Mirrors ρ base k (r₁.takeImport b₁ outer₁ (ρ.masked t))
    (r₂.takeImport b₂ outer₂ t) := by
  have htext : (ρ.masked t).text = t.text := rfl
  obtain ⟨hjump, hr⟩ := h.imported (t := t) hb
  have hrecord := hr.record hρ hscope hb Special.imports.name
    (r₂.jump b₂ t Kind.importWord.name t.text []).1
  rw [Renaming.text_special, ← hjump] at hrecord
  unfold Recorder.takeImport
  simp only [symbol_masked, htext]
  split
  · rename_i hs
    rw [plain_of_symbol hs]
    exact h.finish hb ho rfl
  iterate 2
    · rename_i hs
      rw [plain_of_symbol hs]
      exact hrecord.proceed hb ho [.imports]
  · rename_i hsemicolon hconstant htext
    split
    · rename_i hs
      exact absurd (by rw [hs]; rfl) hsemicolon
    · rename_i hs
      exact absurd (by rw [hs]; rfl) hconstant
    · rename_i hs
      exact absurd (by rw [hs]; rfl) htext
    · exact h.proceed hb ho [.imports]

omit hscope in
theorem Reflects.takeParameter (ht : t.symbol.IsListed) {scope : String} (hknows : r₂.KnowsSites scope)
    (hnew : t.symbol = .endParens → ρ.text scope ∉ base.names) :
    Mirrors ρ base k (r₁.takeParameter b₁ outer₁ (ρ.masked t) (ρ.text scope))
      (r₂.takeParameter b₂ outer₂ t scope) := by
  have hend : (ρ.symbol t.symbol == .endParens) = (t.symbol == .endParens) := by
    rw [Bool.eq_iff_iff, beq_iff_eq, beq_iff_eq, Renaming.symbol_eq_iff rfl]
  have hinner : Block.Mirrors ρ k { b₁ with scope := ρ.text scope } { b₂ with scope := scope } :=
    { hb with scope := rfl }
  obtain ⟨hsite, hr⟩ := h.site hinner ht
  unfold Recorder.takeParameter
  simp only [symbol_masked, hend, Renaming.isVariable_symbol]
  split
  · rename_i hparens
    exact h.enterFunction hρ hb ho (by rfl) hknows (hnew (beq_iff_eq.mp hparens))
  · split
    · have hput := hr.putFunction hρ scope
        (((r₂.functions.get? scope).getD []) ++ [(r₂.site { b₂ with scope := scope } t).1])
      rw [List.map_append, List.map_singleton, ← hsite, ← h.params hρ] at hput
      exact hput.proceed hb ho [.parameters scope]
    · exact h.proceed hb ho [.parameters scope]

end

/-- What is asked of a recorder so that another one can mirror it behind this structure: the
scopes it knows are new, and parameters are sites. -/
structure Ready (ρ : Renaming) (base : Structure) (r : Recorder) : Prop where
  scopes : ∀ s ∈ r.functions.names, ρ.text s ∉ base.names
  blocks : ∀ b ∈ r.blocks, b.scope ∈ r.functions.names
  sites : ∀ scope, r.KnowsSites scope

theorem Mirrors.cons (h : Mirrors ρ base k r₁ r₂) (hready : r₂.Ready ρ base)
    (hb₂ : r₂.blocks = b₂ :: outer₂) : ρ.text b₂.scope ∉ base.names ∧ ∃ b₁ outer₁,
      b₁.Mirrors ρ k b₂ ∧ List.Forall₂ (Block.Mirrors ρ k) outer₁ outer₂ ∧ r₁.blocks = b₁ :: outer₁ := by
  have hblocks := h.blocks
  rw [hb₂, List.forall₂_cons_right_iff] at hblocks
  exact ⟨hready.scopes _ (hready.blocks b₂ (by simp [hb₂])), hblocks⟩

theorem Mirrors.take (hρ : ρ.Faithful) (h : Mirrors ρ base k r₁ r₂) (hready : r₂.Ready ρ base)
    (ht : t.symbol.IsListed) (place : Int)
    (hnew : ∀ s ∈ (r₁.take (ρ.masked t) place).functions.names, s ∉ base.names) :
    Mirrors ρ base k (r₁.take (ρ.masked t) place) (r₂.take t place) := by
  have hbeq : ∀ x : Symbol, ((ρ.masked t).symbol == ρ.symbol x) = (t.symbol == x) := by
    intro x
    rw [symbol_masked, Bool.eq_iff_iff, beq_iff_eq, beq_iff_eq, (Renaming.symbol_injective hρ).eq_iff]
  have hr := h.reflects
  unfold Recorder.take at hnew ⊢
  cases hb₂ : r₂.blocks with
  | nil =>
    have hb₁ : r₁.blocks = [] := by simpa [hb₂] using h.blocks
    simpa only [hb₁] using h
  | cons b₂ outer₂ =>
    obtain ⟨hscope, b₁, outer₁, hb, ho, hb₁⟩ := h.cons hready hb₂
    simp only [hb₁, hb.tasks] at hnew ⊢
    cases htasks : b₂.tasks with
    | nil => exact hr.start hb ho hρ
    | cons task tasks =>
      simp only [htasks] at hnew
      cases task with
      | collect key manner waiting => exact hr.collect hb ho hρ hscope ht place key manner waiting
      | arguments callee args =>
        have hend := hbeq .endParens
        simp only [List.map_cons, Renaming.task, show ρ.symbol .endParens = .endParens from rfl] at hend ⊢
        rw [hend]
        split
        · exact hr.endCall hb ho hρ hscope callee args tasks
        · exact hr.takeArgument hb ho ht callee args tasks
      | query waiting => exact hr.query hb ho hρ hscope ht waiting tasks
      | skip stop =>
        simp only [List.map_cons, Renaming.task, hbeq]
        split
        · exact hr.proceed hb ho tasks
        · exact h
      | drain =>
        simp only [List.map_cons, Renaming.task, symbol_masked, Renaming.endsStatement_symbol]
        split
        · exact hr.finishAt hb ho t
        · exact h
      | declaration =>
        have hput := hr.putFunction hρ t.symbol.name []
        have hnext := hput.proceed hb ho [.parameters t.symbol.name]
        simp only [List.map_cons, List.map_nil, Renaming.task, Renaming.text_name ht] at hnext
        exact hnext
      | parameters scope =>
        refine hr.takeParameter hb ho hρ ht (hready.sites scope) fun hparens => hnew (ρ.text scope) ?_
        have hopened : (r₁.takeParameter b₁ outer₁ (ρ.masked t) (ρ.text scope)).functions =
            r₁.functions.put (ρ.text scope) ((r₁.functions.get? (ρ.text scope)).getD []) := by
          rw [Recorder.takeParameter, if_pos (by rw [symbol_masked, hparens]; rfl)]
          rfl
        exact hopened ▸ mem_names_put _ _ _
      | imports => exact hr.takeImport hb ho hρ hscope

theorem Mirrors.takeEnd (hρ : ρ.Faithful) (h : Mirrors ρ base k r₁ r₂) (hready : r₂.Ready ρ base)
    (hnew : ∀ s ∈ (takeEnd r₁).2.functions.names, s ∉ base.names) :
    Act.Agree (Mirrors ρ base k) Eq (fun _ _ => True) takeEnd takeEnd r₁ r₂ := by
  have hr := h.reflects
  unfold Recorder.takeEnd at hnew ⊢
  rw [Act.state_bind] at hnew
  refine .look ?_
  cases hb₂ : r₂.blocks with
  | nil =>
    have hb₁ : r₁.blocks = [] := by simpa [hb₂] using h.blocks
    simp only [hb₁]
    exact .pure h trivial
  | cons b₂ outer₂ =>
    obtain ⟨hscope, b₁, outer₁, hb, ho, hb₁⟩ := h.cons hready hb₂
    simp only [hb₁, hb.tasks] at hnew ⊢
    cases htasks : b₂.tasks with
    | nil => exact .update (hr.leave hb ho)
    | cons task tasks =>
      simp only [htasks] at hnew
      cases task with
      | collect key manner waiting =>
        cases manner with
        | joined split => exact .fail h rfl
        | value | printed =>
          exact .update ((hr.storeSome hρ hscope hb key waiting).finish hb ho rfl)
      | arguments callee args =>
        simp only [List.map_cons, Renaming.task, List.isEmpty_map]
        split
        · refine (Act.Agree.update (S := Mirrors ρ base k) ?_).bind fun _ _ s t _ hs => .fail hs rfl
          have hopened := Renaming.append_flows (d := r₂.flows) (k := k) hρ hscope Special.call.name []
          rw [Renaming.text_special, ← hb.scope, ← hr.flows] at hopened
          exact ⟨{ hr with flows := hopened }, .cons hb ho⟩
        · exact .fail h rfl
      | query waiting => exact .update (hr.endQuery hb ho hρ hscope (by rfl) waiting tasks)
      | skip stop => exact .update (hr.proceed hb ho tasks)
      | drain => exact .update (hr.finish hb ho rfl)
      | declaration => exact .fail h rfl
      | parameters scope =>
        refine .update (hr.enterFunction hρ hb ho (by rfl) (hready.sites scope) (hnew (ρ.text scope) ?_))
        exact mem_names_put _ _ _
      | imports => exact .update (hr.finish hb ho rfl)

end Recorder

end MaskedTaint
