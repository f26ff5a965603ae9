import Mathlib.Data.List.Chain
import MaskedTaint.Proofs.Flow.Sound
import MaskedTaint.Proofs.Search.Invariants

/-! Where recorded paths come from. A search changes the structure it works on: it adds the
arguments of calls to the lists of parameters, and sorts imports. Still every path that it
records is a chain of the structure as it was before: each token comes from the list that
its predecessor points to, or it is an argument bound to a parameter. -/

namespace MaskedTaint

/-- What an argument becomes under a parameter: the parameter says where it counts. A call
stays a call, anything else becomes a site. -/
inductive Token.BoundTo (param : Token) : Token → Token → Prop
  | call {i : Nat} {m : Mark} {target : String} {args : List Token}
      (h : m.kind = Special.call.name) :
      BoundTo param (.jump i m target args)
        (.jump i (Search.boundMark param.mark m) target args)
  | site {arg : Token} (h : arg.kind ≠ Special.call.name) :
      BoundTo param arg (.site arg.id (Search.boundMark param.mark arg.mark))

theorem Search.sortImports_sortImports (ts : List Token) :
    sortImports (sortImports ts) = sortImports ts := by
  refine List.mergeSort_of_pairwise (List.pairwise_mergeSort (fun x y z hxy hyz => ?_) (fun x y => ?_) ts)
  · simp only [decide_eq_true_eq] at hxy hyz ⊢
    omega
  · simp only [Bool.or_eq_true, decide_eq_true_eq]
    omega

namespace Structure

def Entry (d : Structure) (scope key : String) (t : Token) : Prop :=
  ∃ ts, d.tokens? scope key = some ts ∧ t ∈ ts

def Call (d : Structure) (target : String) (args : List Token) : Prop :=
  ∃ i m, .jump i m target args ∈ d.occurrences ∧
    (m.kind = Special.call.name ∨
      ∃ scope, d.Entry scope Special.call.name (.jump i m target args))

def Binds (d : Structure) (target key : String) (t : Token) : Prop :=
  ∃ (args params : List Token) (i : Nat) (param arg : Token), d.Call target args ∧
    d.tokens? target Special.params.name = some params ∧ params[i]? = some param ∧
    param.kind = key ∧ args[i]? = some arg ∧ param.BoundTo arg t

/-- The same, where a bound argument has joined the parameters, as it does under a parameter
whose kind is that of the list of parameters. -/
inductive Bound (d : Structure) (target : String) : String → Token → Prop
  | binds {key : String} {t : Token} (h : d.Binds target key t) : Bound d target key t
  | again {args : List Token} {param arg t : Token} (hc : d.Call target args)
      (hp : Bound d target Special.params.name param) (ha : arg ∈ args)
      (ht : param.BoundTo arg t) : Bound d target param.kind t

def Under (d : Structure) (scope key : String) (t : Token) : Prop :=
  d.Entry scope key t ∨ d.Bound scope key t

def NoImports (d : Structure) : Prop :=
  (∀ scope, d.tokens? scope Special.imports.name = none) ∧
    ∀ scope param, d.Under scope Special.params.name param → param.kind ≠ Special.imports.name

structure Link (d : Structure) (t u : Token) : Prop where
  call : t.kind = Special.call.name →
    ∃ i m target args, t = .jump i m target args ∧ d.Under target Special.result.name u
  under : t.kind ≠ Special.call.name → ∃ scope, d.Under scope t.kind u
  earlier : d.NoImports → t.kind ≠ Special.call.name → u.scope = t.scope → u.pos < t.pos

structure Chain (d : Structure) (v : Vulnerability) (p : Path) : Prop where
  sink : ∃ t, p.head? = some t ∧ ∃ scope, d.Under scope (Special.sink v).name t
  links : p.IsChain d.Link

variable {d : Structure}

/-! ### Tokens under a key -/

variable {scope key target : String} {t : Token}

theorem mem_of_tokens? {ts : List Token} (h : d.tokens? scope key = some ts) :
    ∃ e ∈ d, (key, ts) ∈ e.2 := by
  obtain ⟨s, hs, hts⟩ := Option.bind_eq_some_iff.mp h
  exact ⟨_, Table.mem_of_get? hs, Table.mem_of_get? hts⟩

theorem Entry.mem_occurrences (h : d.Entry scope key t) : t ∈ d.occurrences := by
  obtain ⟨ts, hts, ht⟩ := h
  obtain ⟨e, he, hlist⟩ := mem_of_tokens? hts
  exact Structure.mem_occurrences.mpr ⟨e, he, _, hlist, t, ht, t.mem_occurrences_self⟩

theorem Call.arg_mem {args : List Token} (h : d.Call target args) {a : Token}
    (ha : a ∈ args) : a ∈ d.occurrences := by
  obtain ⟨i, m, hmem, _⟩ := h
  exact Structure.arg_mem_occurrences hmem ha

theorem Bound.exists_arg (h : d.Bound target key t) :
    ∃ param arg, arg ∈ d.occurrences ∧ Token.BoundTo param arg t := by
  cases h with
  | binds h =>
    obtain ⟨args, _, i, param, arg, hcall, _, _, _, harg, ht⟩ := h
    exact ⟨param, arg, hcall.arg_mem (List.mem_of_getElem? harg), ht⟩
  | again hc _ ha ht => exact ⟨_, _, hc.arg_mem ha, ht⟩

theorem Under.call {i : Nat} {m : Mark} {args : List Token}
    (h : d.Under scope key (.jump i m target args))
    (hk : m.kind = Special.call.name ∨ key = Special.call.name) : d.Call target args := by
  rcases h with h | h
  · rcases hk with hk | rfl
    · exact ⟨i, m, h.mem_occurrences, .inl hk⟩
    · exact ⟨i, m, h.mem_occurrences, .inr ⟨scope, h⟩⟩
  · obtain ⟨param, arg, harg, ht⟩ := h.exists_arg
    cases ht with
    | @call _ m _ _ hm => exact ⟨i, m, harg, .inl hm⟩

/-! ### Chains -/

theorem Link.exists_under {u : Token} (h : d.Link t u) : ∃ scope key, d.Under scope key u := by
  by_cases hcall : t.kind = Special.call.name
  · obtain ⟨_, _, target, _, _, hunder⟩ := h.call hcall
    exact ⟨target, _, hunder⟩
  · obtain ⟨scope, hunder⟩ := h.under hcall
    exact ⟨scope, _, hunder⟩

theorem Chain.under_last {v : Vulnerability} {p : Path} (h : d.Chain v (p ++ [t])) :
    ∃ scope key, d.Under scope key t := by
  obtain ⟨⟨u, hu, scope, hsink⟩, hlinks⟩ := h
  rcases List.eq_nil_or_concat p with rfl | ⟨q, w, rfl⟩
  · cases hu
    exact ⟨scope, _, hsink⟩
  · have hlink : d.Link w t := by
      rw [List.concat_eq_append, List.append_assoc, List.isChain_append] at hlinks
      exact (List.isChain_cons_cons.mp hlinks.2.1).1
    exact hlink.exists_under

theorem Chain.snoc {v : Vulnerability} {p : Path} {u : Token} (h : d.Chain v (p ++ [t]))
    (hlink : d.Link t u) : d.Chain v (p ++ [t] ++ [u]) := by
  obtain ⟨⟨s, hs, hsink⟩, hlinks⟩ := h
  refine ⟨⟨s, ?_, hsink⟩, ?_⟩
  · rw [List.head?_append, hs]
    rfl
  · refine hlinks.append (List.isChain_singleton u) fun x hx y hy => ?_
    rw [List.getLast?_concat] at hx
    cases hx
    cases hy
    exact hlink

/-! ### Structures that grow -/

theorem tokens?_putTokens (d : Structure) (scope key : String) (ts : List Token)
    (scope' key' : String) : (d.putTokens scope key ts).tokens? scope' key' =
      if scope' = scope ∧ key' = key then some ts else d.tokens? scope' key' := by
  split
  · rename_i h
    obtain ⟨rfl, rfl⟩ := h
    exact tokens?_putTokens_self d scope' key' ts
  · rename_i h
    exact tokens?_putTokens_of_ne d ts h

theorem has_of_tokens? (h : (d.tokens? scope key).isSome = true) : d.has scope = true := by
  obtain ⟨ts, hts⟩ := Option.isSome_iff_exists.mp h
  obtain ⟨s, hs, -⟩ := Option.bind_eq_some_iff.mp hts
  rw [Table.has, hs]
  rfl

def Grows (d : Structure) (scope key : String) (ts : List Token) : Prop :=
  ∃ first more, d.tokens? scope key = some first ∧ (∀ t ∈ more, d.Bound scope key t) ∧
    ts.Perm (first ++ more) ∧ (key ≠ Special.imports.name → ts = first ++ more) ∧
    (more = [] → ts = first ∨ ts = Search.sortImports first)

/-- What a search of the first structure makes of it: bound arguments have been added at the ends of
lists, and imports have been sorted. -/
structure Grown (d e : Structure) : Prop where
  names : e.names = d.names
  hasList : ∀ scope key, (e.tokens? scope key).isSome = (d.tokens? scope key).isSome
  lists : ∀ scope key ts, e.tokens? scope key = some ts → d.Grows scope key ts

variable {e : Structure} {scope key : String} {ts : List Token}

theorem grown_refl (d : Structure) : d.Grown d :=
  ⟨rfl, fun _ _ => rfl, fun _ _ ts hts => ⟨ts, [], hts, by simp, by simp, by simp, fun _ => .inl rfl⟩⟩

theorem Grown.tokens?_eq_none (h : d.Grown e) (hnone : e.tokens? scope key = none) :
    d.tokens? scope key = none := by
  have hlist := h.hasList scope key
  rw [hnone] at hlist
  exact Option.not_isSome_iff_eq_none.mp (by simp [← hlist])

theorem Grows.append (h : d.Grows scope key ts) (ht : d.Bound scope key t) :
    d.Grows scope key (ts ++ [t]) := by
  obtain ⟨first, more, hfirst, hmore, hperm, heq, -⟩ := h
  refine ⟨first, more ++ [t], hfirst, fun u hu => ?_, ?_, fun hkey => ?_, by simp⟩
  · rcases List.mem_append.mp hu with hu | hu
    · exact hmore u hu
    · exact List.mem_singleton.mp hu ▸ ht
  · rw [← List.append_assoc]
    exact hperm.append_right [t]
  · rw [heq hkey, List.append_assoc]

theorem Grows.sortImports (h : d.Grows scope Special.imports.name ts) :
    d.Grows scope Special.imports.name (Search.sortImports ts) := by
  obtain ⟨first, more, hfirst, hmore, hperm, -, heq⟩ := h
  refine ⟨first, more, hfirst, hmore, (List.mergeSort_perm _ _).trans hperm, fun hkey => absurd rfl hkey,
    fun hnone => .inr ?_⟩
  rcases heq hnone with rfl | rfl
  · rfl
  · exact Search.sortImports_sortImports first

theorem Grown.under (h : d.Grown e) (hts : e.tokens? scope key = some ts) :
    ∀ t ∈ ts, d.Under scope key t := by
  obtain ⟨first, more, hfirst, hmore, hperm, -⟩ := h.lists scope key ts hts
  intro t ht
  rcases List.mem_append.mp (hperm.mem_iff.mp ht) with ht | ht
  · exact .inl ⟨first, hfirst, ht⟩
  · exact .inr (hmore t ht)

theorem Grown.bound (h : d.Grown e) {args params : List Token} (hcall : d.Call target args)
    (hparams : e.tokens? target Special.params.name = some params) {i : Nat} {param arg : Token}
    (hparam : params[i]? = some param) (harg : args[i]? = some arg) (ht : param.BoundTo arg t) :
    d.Bound target param.kind t := by
  obtain ⟨first, more, hfirst, hmore, -, heq, -⟩ := h.lists _ _ params hparams
  rw [heq (by decide)] at hparam
  by_cases hi : i < first.length
  · rw [List.getElem?_append_left hi] at hparam
    exact .binds ⟨args, first, i, param, arg, hcall, hfirst, hparam, rfl, harg, ht⟩
  · rw [List.getElem?_append_right (by omega)] at hparam
    exact .again hcall (hmore param (List.mem_of_getElem? hparam)) (List.mem_of_getElem? harg) ht

theorem Grown.putTokens (h : d.Grown e) (hlist : (e.tokens? scope key).isSome = true)
    (hts : d.Grows scope key ts) : d.Grown (e.putTokens scope key ts) := by
  refine ⟨?_, fun scope' key' => ?_, fun scope' key' us hus => ?_⟩
  · exact (Table.names_put_of_mem _ ((Table.has_iff_mem_names _ _).mp (has_of_tokens? hlist))).trans h.names
  · rw [tokens?_putTokens]
    split
    · rename_i hsame
      rw [← h.hasList, hsame.1, hsame.2, hlist]
      rfl
    · exact h.hasList scope' key'
  · rw [tokens?_putTokens] at hus
    split at hus
    · rename_i hsame
      cases hus
      exact hsame.1 ▸ hsame.2 ▸ hts
    · exact h.lists scope' key' us hus

theorem Grown.has (h : d.Grown e) (scope : String) : e.has scope = d.has scope := by
  rw [Bool.eq_iff_iff, Table.has_iff_mem_names, Table.has_iff_mem_names, h.names]

/-- The structure can make a search fail only as `A` says. -/
structure Allows (d : Structure) (A : SearchError → Prop) : Prop where
  unending : A .unending
  absent : A .absent
  site : ∀ scope key i m, d.Under scope key (.site i m) →
    m.kind = Special.call.name ∨ key ∈ [Special.call.name, Special.imports.name] → A .notAJump
  arg : ∀ i m, .site i m ∈ d.occurrences → m.kind = Special.call.name → A .notAJump
  params : ∀ scope, d.has scope = true → d.tokens? scope Special.params.name = none →
    A (.missing Special.params.name Special.params.name)
  scope : ∀ scope key t, d.Under scope key t → d.has t.scope = false → A (.missing t.scope t.scope)

theorem allows_all (d : Structure) : d.Allows fun _ => True := by
  constructor <;> intros <;> trivial

end Structure

namespace Search

variable (d : Structure) (C : Path → Prop)

/-- What holds of a search of `d` at every moment, if the paths it has recorded are in `C`. -/
structure Keeping (s : Search) : Prop where
  flows : d.Grown s.flows
  paths : ∀ p ∈ s.paths, C p

def ViewOf (w : View) : Prop :=
  ∀ key ts, w.own.get? key = some ts → (∀ t ∈ ts, d.Bound w.name key t) ∧
    (d.NoImports → key ≠ Special.imports.name)

def SourceOf (P : Token → Prop) : Source → Prop
  | .stored scope key => ∀ t, d.Under scope key t → P t
  | .fixed ts => ∀ t ∈ ts, P t

/-- Imports of the structure; there is nothing in them if it has none. -/
structure ImportsOf (i : Source) : Prop where
  none : d.NoImports → i = .fixed []
  under : SourceOf d (fun t => ∃ scope, d.Under scope Special.imports.name t) i

variable {d C}

theorem viewOf_name (scope : String) : ViewOf d { name := scope } := by
  intro key ts h
  cases h

variable {src : Source} {s : Search} {w : View} {J : Search → Prop} {t c : Token} {p : Path}

theorem Keeping.read (hs : Keeping d C s) {P : Token → Prop}
    (h : SourceOf d P src) : ∀ t ∈ s.read src, P t := by
  intro t ht
  cases src with
  | stored scope key =>
    cases hts : s.flows.tokens? scope key with
    | none => simp [Search.read, hts] at ht
    | some ts =>
      simp only [Search.read, hts, Option.getD_some] at ht
      exact h t (hs.flows.under hts t ht)
  | fixed ts => exact h t ht

theorem Keeping.read_stored (hs : Keeping d C s) {scope key : String} :
    ∀ t ∈ s.read (.stored scope key), d.Under scope key t :=
  hs.read fun _ h => h

theorem sourceOf_source? (hw : ViewOf d w) {key : String}
    (h : s.source? w key = some src) : SourceOf d (d.Under w.name key) src := by
  unfold Search.source? at h
  split at h
  · cases h
    exact fun t ht => ht
  · obtain ⟨ts, hts, rfl⟩ := Option.map_eq_some_iff.mp h
    exact fun t ht => .inr ((hw key ts hts).1 t ht)

/-! ### Changes of the structure -/

theorem importsOf_of_some {lex : Lexicon} {ts : List Token}
    (h : s.flows.tokens? w.name (lex.place .imports) = some ts) :
    importsOf lex w s = (.ok (.stored w.name (lex.place .imports)),
      { s with flows := s.flows.putTokens w.name (lex.place .imports) (sortImports ts) }) := by
  have hsource : s.source? w (lex.place .imports) = some (.stored w.name (lex.place .imports)) := by
    simp [Search.source?, h]
  have hread : s.read (.stored w.name (lex.place .imports)) = ts := by simp [Search.read, h]
  simp only [importsOf, Act.state_bind, hsource, hread]
  rfl

theorem importsOf_of_none {lex : Lexicon} (h : s.flows.tokens? w.name (lex.place .imports) = none) :
    importsOf lex w s = (.ok (.fixed ((w.own.get? (lex.place .imports)).getD [])), s) := by
  have hsource : s.source? w (lex.place .imports) = (w.own.get? (lex.place .imports)).map .fixed := by
    simp [Search.source?, h]
  rw [importsOf, Act.state_bind, hsource]
  cases w.own.get? (lex.place .imports) <;> rfl

theorem exists_of_get?_sortOwn {lex : Lexicon} {key : String} {ts : List Token}
    (h : (sortOwn lex w).own.get? key = some ts) : ∃ us, w.own.get? key = some us ∧ ts.Perm us := by
  have hget := Table.get?_map (fun key ts => if key = lex.place .imports then sortImports ts else ts) w.own key
  obtain ⟨us, hus, rfl⟩ := Option.map_eq_some_iff.mp (hget.symm.trans h)
  refine ⟨us, hus, ?_⟩
  split
  · exact List.mergeSort_perm us _
  · exact .refl us

section Errors

variable {A : SearchError → Prop}

variable {w : View} {t : Token} {isCall : Token → Bool}

theorem importsOf_ensures (hw : ViewOf d w) :
    Act.Ensures (Keeping d C) (Keeping d C) A (ImportsOf d) (importsOf .plain w) := by
  intro s hs
  cases hts : s.flows.tokens? w.name (Lexicon.plain.place .imports) with
  | some ts =>
    rw [importsOf_of_some hts]
    have hsome : (s.flows.tokens? w.name Special.imports.name).isSome = true := hts ▸ rfl
    refine .ok ⟨hs.flows.putTokens hsome (hs.flows.lists _ _ ts hts).sortImports, hs.paths⟩ ⟨fun hd => ?_, ?_⟩
    · rw [hs.flows.hasList, hd.1] at hsome
      cases hsome
    · exact fun t ht => ⟨w.name, ht⟩
  | none =>
    rw [importsOf_of_none hts]
    refine .ok hs ⟨fun hd => ?_, fun t ht => ?_⟩
    · cases hown : w.own.get? (Lexicon.plain.place .imports) with
      | none => rfl
      | some us => exact absurd rfl ((hw _ us hown).2 hd)
    · cases hown : w.own.get? (Lexicon.plain.place .imports) with
      | none => simp [hown] at ht
      | some us =>
        rw [hown] at ht
        exact ⟨w.name, .inr ((hw _ us hown).1 t ht)⟩

theorem addTo_ensures (hw : ViewOf d w) {key : String}
    (ht : d.Bound w.name key t) (hk : d.NoImports → key ≠ Special.imports.name) :
    Act.Ensures (Keeping d C) (Keeping d C) A (fun w' => ViewOf d w' ∧ w'.name = w.name)
      (addTo w key t) := by
  refine .look fun s hs => ?_
  by_cases hlist : s.hasList w.name key = true
  · rw [if_pos hlist]
    refine .after (J := Keeping d C) ?_ (.pure ⟨hw, rfl⟩)
    rintro _ rfl
    obtain ⟨us, hus⟩ := Option.isSome_iff_exists.mp hlist
    refine ⟨hs.flows.putTokens hlist ?_, hs.paths⟩
    rw [hus, Option.getD_some]
    exact (hs.flows.lists _ _ us hus).append ht
  · rw [if_neg hlist]
    refine (Act.Ensures.pure ⟨fun key' us hus => ?_, rfl⟩).imp (fun _ h => h ▸ hs) fun _ h => h
    by_cases h : key' = key
    · subst h
      rw [Table.get?_put_self] at hus
      cases hus
      refine ⟨fun u hu => ?_, hk⟩
      rcases List.mem_append.mp hu with hu | hu
      · cases hown : w.own.get? key' with
        | none => simp [hown] at hu
        | some os =>
          rw [hown] at hu
          exact (hw key' os hown).1 u hu
      · exact List.mem_singleton.mp hu ▸ ht
    · rw [Table.get?_put_of_ne _ _ h] at hus
      exact hw key' us hus

/-! ### Calls -/

def TellsCalls (isCall : Token → Bool) : Prop :=
  ∀ t, isCall t = true ↔ t.kind = Special.call.name

theorem boundTo_of_bound (hcall : TellsCalls isCall) {param arg : Token}
    (h : bound isCall param arg = .ok t) : param.BoundTo arg t := by
  unfold bound at h
  by_cases hc : isCall arg = true
  · rw [if_pos hc] at h
    cases arg with
    | site i m => cases h
    | jump i m g as =>
      cases h
      exact .call ((hcall _).mp hc)
  · rw [if_neg hc] at h
    cases h
    exact .site (mt (hcall _).mpr hc)

theorem site_of_bound (hcall : TellsCalls isCall) {param arg : Token}
    {e : SearchError} (h : bound isCall param arg = .error e) :
    e = .notAJump ∧ ∃ i m, arg = .site i m ∧ m.kind = Special.call.name := by
  unfold bound at h
  by_cases hc : isCall arg = true
  · rw [if_pos hc] at h
    cases arg with
    | site i m =>
      cases h
      exact ⟨rfl, i, m, rfl, (hcall _).mp hc⟩
    | jump i m g as => cases h
  · rw [if_neg hc] at h
    cases h

theorem bindFrom_ensures (hA : d.Allows A) (hcall : TellsCalls isCall)
    {target : String} {args : List Token} (hargs : d.Call target args) (rest : List Token) (i : Nat)
    (hrest : rest = args.drop i) (hw : ViewOf d w) (hname : w.name = target) :
    Act.Ensures (Keeping d C) (Keeping d C) A (fun w' => ViewOf d w' ∧ w'.name = target)
      (bindFrom .plain isCall w i rest) := by
  induction rest generalizing i w with
  | nil => exact .pure ⟨hw, hname⟩
  | cons arg rest ih =>
    obtain ⟨harg, hrest⟩ : args[i]? = some arg ∧ rest = args.drop (i + 1) := by
      have hlt : i < args.length := by
        by_contra hge
        rw [List.drop_eq_nil_of_le (by omega)] at hrest
        cases hrest
      rw [List.drop_eq_getElem_cons hlt] at hrest
      obtain ⟨rfl, rfl⟩ := List.cons.inj hrest
      exact ⟨List.getElem?_eq_getElem hlt, rfl⟩
    refine .bind .state fun s hs => ?_
    cases hparam : (s.read (.stored w.name (Lexicon.plain.place .params)))[i]? with
    | none => exact .pure ⟨hw, hname⟩
    | some param =>
      dsimp only
      cases hb : bound isCall param arg with
      | error e =>
        obtain ⟨rfl, j, m, rfl, hkind⟩ := site_of_bound hcall hb
        exact .fail (hA.arg j m (hargs.arg_mem (List.mem_of_getElem? harg)) hkind)
      | ok t =>
        have hbound := boundTo_of_bound hcall hb
        subst hname
        have ht : d.Bound w.name param.kind t ∧ (d.NoImports → param.kind ≠ Special.imports.name) := by
          cases hts : s.flows.tokens? w.name Special.params.name with
          | none => simp [Search.read, Lexicon.place, Lexicon.plain, hts] at hparam
          | some ts =>
            have hget : ts[i]? = some param := by
              simpa [Search.read, Lexicon.place, Lexicon.plain, hts] using hparam
            have hunder := hs.flows.under hts param (List.mem_of_getElem? hget)
            exact ⟨hs.flows.bound hargs hts hget harg hbound, fun hd => hd.2 _ _ hunder⟩
        refine .bind (addTo_ensures hw ht.1 ht.2) fun w' hw' => ?_
        exact ih (i + 1) hrest hw'.1 hw'.2

theorem enterCall_ensures (hA : d.Allows A) (hcall : TellsCalls isCall) (ht : ∃ scope key, d.Under scope key t ∧
      (t.kind = Special.call.name ∨ key = Special.call.name)) :
    Act.Ensures (Keeping d C) (Keeping d C) A (fun o => ∀ w, o = some w → ViewOf d w ∧
      ∃ i m target args, t = .jump i m target args ∧ w.name = target)
      (enterCall .plain isCall t) := by
  obtain ⟨scope, key, hunder, hkind⟩ := ht
  refine .after (J := Keeping d C) (fun s hs => ⟨hs.flows, hs.paths⟩) ?_
  cases t with
  | site i m => exact .fail (hA.site scope key i m hunder (hkind.imp_right (by simp [·])))
  | jump i m target args =>
    refine .bind .state fun s hs => ?_
    split
    · rename_i hhas
      have hcallee : Act.Ensures (Keeping d C) (Keeping d C) A
          (fun w' => ViewOf d w' ∧ w'.name = target) (callee .plain isCall target args) := by
        refine .bind .state fun s' hs' => ?_
        split
        · refine .bind (bindFrom_ensures hA hcall (hunder.call hkind) args 0 rfl (viewOf_name target) rfl)
            fun w' hw' => .pure ⟨fun key ts hts => ?_, hw'.2⟩
          obtain ⟨us, hus, hperm⟩ := exists_of_get?_sortOwn hts
          exact ⟨fun t ht => (hw'.1 key us hus).1 t (hperm.mem_iff.mp ht), (hw'.1 key us hus).2⟩
        · rename_i hlist
          refine .fail (hA.params target (hs.flows.has target ▸ hhas) ?_)
          have hnone := mt (hs'.flows.hasList target _).trans hlist
          exact Option.not_isSome_iff_eq_none.mp hnone
      refine .bind hcallee fun w' hw' => .pure fun w hw => ?_
      cases hw
      exact ⟨hw'.1, i, m, target, args, rfl, hw'.2⟩
    · exact .pure fun w hw => by cases hw

theorem findImport_go_cases {lex : Lexicon} (wanted : Token → Bool) (key : String) (s : Search)
    (ts : List Token) :
    (∃ o, findImport.go lex wanted key s ts = (.ok o, s) ∧ (ts = [] → o = none)) ∨
    ∃ i m, .site i m ∈ ts ∧ findImport.go lex wanted key s ts = (.error .notAJump, s) := by
  induction ts with
  | nil => exact .inl ⟨none, rfl, fun _ => rfl⟩
  | cons t ts ih =>
    have ih : (∃ o, findImport.go lex wanted key s ts = (.ok o, s) ∧ (t :: ts = [] → o = none)) ∨
        ∃ i m, .site i m ∈ t :: ts ∧ findImport.go lex wanted key s ts = (.error .notAJump, s) :=
      ih.imp (fun ⟨o, ho, _⟩ => ⟨o, ho, by simp⟩) fun ⟨i, m, hm, h⟩ => ⟨i, m, List.mem_cons_of_mem t hm, h⟩
    unfold findImport.go
    split
    · cases t with
      | site i m => exact .inr ⟨i, m, List.mem_cons_self, rfl⟩
      | jump i m g as =>
        dsimp only
        split
        · exact .inl ⟨_, rfl, by simp⟩
        · exact ih
    · exact ih

theorem findImport_go_state {lex : Lexicon} (wanted : Token → Bool) (key : String) (s : Search)
    (ts : List Token) : (findImport.go lex wanted key s ts).2 = s := by
  rcases findImport_go_cases wanted key s ts with ⟨_, h, -⟩ | ⟨_, _, -, h⟩ <;> rw [h]

theorem findImport_ensures (hA : d.Allows A) (wanted : Token → Bool) (key : String) {imports : Source}
    (hi : ImportsOf d imports) :
    Act.Ensures (Keeping d C) (Keeping d C) A (fun o => ∀ scope, o = some scope → ¬ d.NoImports)
      (findImport .plain wanted key imports) := by
  intro s hs
  rw [findImport]
  rcases findImport_go_cases wanted key s (s.read imports) with ⟨o, hrun, ho⟩ | ⟨i, m, hm, hrun⟩
  · rw [hrun]
    refine .ok hs fun scope hscope hd => ?_
    rw [ho (by rw [hi.none hd]; rfl)] at hscope
    cases hscope
  · rw [hrun]
    obtain ⟨scope, hunder⟩ := hs.read hi.under _ hm
    exact .error (hA.site scope _ i m hunder (.inr (by simp)))

/-! ### Recording paths -/

theorem mem_of_remove? {ps qs : List Path} (h : p.remove? ps = some qs) : ∀ q ∈ qs, q ∈ ps := by
  induction ps generalizing qs with
  | nil => cases h
  | cons r ps ih =>
    unfold Path.remove? at h
    split at h
    · cases h
      exact fun q hq => List.mem_cons_of_mem _ hq
    · obtain ⟨rs, hrs, rfl⟩ := Option.map_eq_some_iff.mp h
      intro q hq
      rcases List.mem_cons.mp hq with rfl | hq
      · exact List.mem_cons_self
      · exact List.mem_cons_of_mem _ (ih hrs q hq)

theorem mem_of_removeAll {ds ps qs : List Path}
    (h : ds.foldlM (fun ps p => Path.remove? p ps) ps = some qs) : ∀ q ∈ qs, q ∈ ps := by
  induction ds generalizing ps with
  | nil =>
    cases h
    exact fun q hq => hq
  | cons p ds ih =>
    rw [List.foldlM_cons] at h
    obtain ⟨rs, hrs, hqs⟩ := Option.bind_eq_some_iff.mp h
    exact fun q hq => mem_of_remove? hrs q (ih hqs q hq)

theorem conclude_ensures (hA : A .absent) (hp : C p) :
    Act.Ensures (Keeping d C) (Keeping d C) A (fun _ => True) (conclude p) := by
  refine .bind .state fun s hs => ?_
  cases hps : p.conclude? s.paths with
  | none => exact .fail hA
  | some ps =>
    refine .update fun s' hs' => ⟨hs'.flows, fun q hq => ?_⟩
    rcases List.mem_append.mp (mem_of_removeAll hps q hq) with hq | hq
    · exact hs.paths q hq
    · exact List.mem_singleton.mp hq ▸ hp

end Errors

/-! ### Following -/

/-- The property outlasts visits, recorded paths and the sorting of imports: everything but the
entering of calls. -/
structure Steady (J : Search → Prop) : Prop where
  visited : ∀ s ts, J s → J { s with visited := ts }
  paths : ∀ s ps, J s → J { s with paths := ps }
  imports : ∀ s scope ts, J s → s.flows.tokens? scope Special.imports.name = some ts →
    J { s with flows := s.flows.putTokens scope Special.imports.name (sortImports ts) }

abbrev Holding (d : Structure) (C : Path → Prop) (J : Search → Prop) (s : Search) : Prop :=
  Keeping d C s ∧ J s

theorem steady_true : Steady fun _ => True := ⟨fun _ _ _ => trivial, fun _ _ _ => trivial,
  fun _ _ _ _ _ => trivial⟩

theorem importsOf_steady
    (hJ : ∀ s scope ts, J s → s.flows.tokens? scope Special.imports.name = some ts →
      J { s with flows := s.flows.putTokens scope Special.imports.name (sortImports ts) }) (w : View) :
    Act.Keeps J (fun _ => True) (importsOf .plain w) := by
  intro s i s' hs hrun
  cases hts : s.flows.tokens? w.name (Lexicon.plain.place .imports) with
  | some ts =>
    rw [importsOf_of_some hts] at hrun
    cases hrun
    exact ⟨hJ s w.name ts hs hts, trivial⟩
  | none =>
    rw [importsOf_of_none hts] at hrun
    cases hrun
    exact ⟨hs, trivial⟩

theorem findImport_steady (wanted : Token → Bool) (key : String) (i : Source) :
    Act.Keeps J (fun _ => True) (findImport .plain wanted key i) := by
  intro s o s' hs hrun
  have hstate : s' = s := (congrArg Prod.snd hrun).symm.trans (findImport_go_state wanted key s _)
  exact ⟨hstate ▸ hs, trivial⟩

theorem pos_lt_of_canFollow {current : Token} (h : s.canFollow current t = true)
    (hscope : t.scope = current.scope) : t.pos < current.pos := by
  simp only [canFollow, Bool.and_eq_true, Bool.or_eq_true, bne_iff_ne, ne_eq, decide_eq_true_eq] at h
  rcases h.2 with hne | hlt
  · exact absurd hscope.symm hne
  · exact hlt

theorem tellsCalls_says : TellsCalls Lexicon.plain.saysCall := fun _ => beq_iff_eq

theorem tellsCalls_files : TellsCalls Lexicon.plain.filesCall := fun _ => beq_iff_eq

/-- Paths of linked tokens that belong under some key, whatever else is said of them. -/
structure Linked (d : Structure) (C : Path → Prop) : Prop where
  last : ∀ {p : Path} {t : Token}, C (p ++ [t]) → ∃ scope key, d.Under scope key t
  snoc : ∀ {p : Path} {t u : Token}, C (p ++ [t]) → d.Link t u → C (p ++ [t] ++ [u])

/-- Chains that begin at the token. -/
def ChainFrom (d : Structure) (v : Vulnerability) (u : Token) (p : Path) : Prop :=
  d.Chain v p ∧ p.head? = some u

theorem linked_chainFrom (v : Vulnerability) (u : Token) : Linked d (ChainFrom d v u) where
  last h := h.1.under_last
  snoc {p c x} h hlink := by
    refine ⟨h.1.snoc hlink, ?_⟩
    rw [List.head?_append, h.2]
    rfl

theorem Linked.call (hC : Linked d C) (hc : C (p ++ [c]))
    (hkind : c.kind = Special.call.name) : ∃ scope key, d.Under scope key c ∧
      (c.kind = Special.call.name ∨ key = Special.call.name) := by
  obtain ⟨scope, key, hunder⟩ := hC.last hc
  exact ⟨scope, key, hunder, .inl hkind⟩

theorem Linked.result (hC : Linked d C) (hc : C (p ++ [c]))
    (hkind : c.kind = Special.call.name) {i : Nat} {m : Mark} {target : String} {args : List Token}
    (hjump : c = .jump i m target args) (ht : d.Under target Special.result.name t) :
    C (p ++ [c] ++ [t]) :=
  hC.snoc hc ⟨fun _ => ⟨i, m, target, args, hjump, ht⟩, fun h => absurd hkind h, fun _ h => absurd hkind h⟩

/-- What is followed from a list of the kind of `c` makes a link with it. -/
theorem Linked.follow (hC : Linked d C) (hc : C (p ++ [c]))
    (hkind : c.kind ≠ Special.call.name) (ht : ∃ scope, d.Under scope c.kind t)
    (hpos : d.NoImports → t.scope = c.scope → t.pos < c.pos) : C (p ++ [c] ++ [t]) :=
  hC.snoc hc ⟨fun h => absurd h hkind, fun _ => ht, fun hd _ => hpos hd⟩

theorem holding_invariant {A : SearchError → Prop} (hA : d.Allows A) (hJ : Steady J)
    (hC : Linked d C) (hcalls : ∀ p c, C (p ++ [c]) → c.kind = Special.call.name →
      Act.Keeps J (fun _ => True) (enterCall .plain Lexicon.plain.saysCall c)) :
    Invariant (Holding d C J) A C (fun c t => ∃ scope, d.Under scope c.kind t) (ViewOf d) (ImportsOf d)
      (fun _ => ¬ d.NoImports) where
  unending := hA.unending
  visited hs := ⟨⟨hs.1.flows, hs.1.paths⟩, hJ.visited _ _ hs.2⟩
  conclude {p} hp := by
    have hpaths : Act.Keeps J (fun _ => True) (conclude p) := by
      refine .bind .state fun s _ => ?_
      cases p.conclude? s.paths with
      | none => exact .fail
      | some ps => exact .update fun s' hs' => hJ.paths s' ps hs'
    exact ((conclude_ensures hA.absent hp).both hpaths).imp (fun _ h => h) fun _ _ => trivial
  importsOf hw := ((importsOf_ensures hw).both (importsOf_steady hJ.imports _)).imp (fun _ h => h) fun _ h => h.1
  enter hc hkind := by
    refine ((enterCall_ensures hA tellsCalls_says (hC.call hc hkind)).both (hcalls _ _ hc hkind)).imp
      (fun _ h => h) fun o ho w hw => ?_
    obtain ⟨hview, i, m, target, args, hjump, hname⟩ := ho.1 w hw
    refine ⟨hview, fun s src _ hsrc s' hs' t ht => hC.result hc hkind hjump ?_⟩
    exact hname ▸ hs'.1.read (sourceOf_source? hview hsrc) t ht
  lists hc hkind hw _ hsrc s' hs' t ht := ⟨_, hs'.1.read (sourceOf_source? hw hsrc) t ht⟩
  home {p c} hc hkind := by
    obtain ⟨scope, key, hunder⟩ := hC.last hc
    refine ⟨fun s hs hno => hA.scope scope key c hunder (hs.1.flows.has c.scope ▸ hno), viewOf_name _, ?_⟩
    exact fun s hs t ht => ⟨c.scope, hs.1.read_stored t ht⟩
  follow hc hkind ht hcan := hC.follow hc hkind ht fun _ => pos_lt_of_canFollow hcan
  find hc hkind hi wanted :=
    ((findImport_ensures hA wanted _ hi).both (findImport_steady wanted _ _)).imp (fun _ h => h)
      fun _ h => h.1
  found {p c scope} hc hkind himports := by
    have hread : ∀ s, Holding d C J s → ∀ t ∈ s.read (.stored scope c.kind), ∃ scope, d.Under scope c.kind t :=
      fun s hs t ht => ⟨scope, hs.1.read_stored t ht⟩
    exact ⟨viewOf_name scope, hread, fun s hs t ht =>
      hC.follow hc hkind (hread s hs t ht) fun hd => absurd hd himports⟩

/-! ### Detection -/

variable {v : Vulnerability}

theorem Catalog.forall_add {P : Token → Path → Prop} {c : Catalog} (hc : ∀ e ∈ c, ∀ p ∈ e.2, P e.1 p)
    (t : Token) {ps : List Path} (hps : ∀ p ∈ ps, ∀ key : Token, key.same t = true → P key p) :
    ∀ e ∈ c.add t ps, ∀ p ∈ e.2, P e.1 p := by
  cases ps with
  | nil => cases c <;> exact hc
  | cons p ps =>
    induction c with
    | nil =>
      intro e he q hq
      obtain rfl : e = (t, p :: ps) := by simpa [Catalog.add] using he
      exact hps q hq t t.same_refl
    | cons e c ih =>
      intro e' he' q hq
      unfold Catalog.add at he'
      split at he'
      · rename_i hsame
        rcases List.mem_cons.mp he' with rfl | he'
        · rcases List.mem_append.mp hq with hq | hq
          · exact hc e List.mem_cons_self q hq
          · exact hps q hq _ hsame
        · exact hc e' (List.mem_cons_of_mem _ he') q hq
      · rcases List.mem_cons.mp he' with rfl | he'
        · exact hc _ List.mem_cons_self q hq
        · exact ih (fun e he => hc e (List.mem_cons_of_mem _ he)) e' he' q hq

def CatalogOf (d : Structure) (v : Vulnerability) (c : Catalog) : Prop :=
  ∀ e ∈ c, ∀ p ∈ e.2, ∃ t, e.1.same t = true ∧ ChainFrom d v t p

theorem exploreScopes_ensures {A : SearchError → Prop} (hA : d.Allows A) (limit : Limit)
    (scopes : List String) {c : Catalog} (hc : CatalogOf d v c) :
    Act.Ensures (Keeping d fun _ => True) (Keeping d fun _ => True) A (CatalogOf d v)
      (exploreScopes .plain limit (Lexicon.plain.place (.sink v)) scopes c) := by
  have hcalls : ∀ t p c, ChainFrom d v t (p ++ [c]) → c.kind = Special.call.name →
      Act.Keeps (fun _ => True) (fun _ => True) (enterCall .plain Lexicon.plain.saysCall c) :=
    fun _ _ _ _ _ _ _ _ _ _ => ⟨trivial, trivial⟩
  refine Invariant.exploreScopes (S := fun t => ∃ scope, d.Under scope (Special.sink v).name t)
    (C := fun t => ∃ scope, d.Under scope Special.call.name t)
    (fun t _ => holding_invariant hA steady_true (linked_chainFrom v t) (hcalls t)) hA.unending ?_ ?_ ?_
    ?_ ?_ ?_ scopes hc
  · exact fun t ⟨scope, ht⟩ => ⟨⟨⟨t, rfl, scope, ht⟩, List.isChain_singleton t⟩, rfl⟩
  · exact fun t s _ hs => ⟨⟨hs.flows, fun p hp => by cases hp⟩, trivial⟩
  · intro t s c _ hs hc
    exact ⟨⟨hs.1.flows, fun _ _ => trivial⟩,
      Catalog.forall_add (P := fun key p => ∃ t, key.same t = true ∧ ChainFrom d v t p) hc t
        fun p hp key hkey => ⟨t, hkey, hs.1.paths p hp⟩⟩
  · exact fun w s src hw _ hsrc s' hs' t ht => ⟨w.name, hs'.read (sourceOf_source? hw hsrc) t ht⟩
  · refine fun scope => ⟨viewOf_name scope, fun s hs t ht => ⟨scope, ?_⟩⟩
    exact hs.read_stored t ht
  · rintro t ⟨scope, ht⟩
    exact (enterCall_ensures hA tellsCalls_files ⟨scope, _, ht, .inr rfl⟩).imp (fun _ h => h)
      fun o ho w hw => (ho w hw).1

end Search

end MaskedTaint
