import MaskedTaint.Proofs.Flow.Ordering
import MaskedTaint.Proofs.Flow.Stamps
import MaskedTaint.Proofs.Search.Expansion

/-! Paths that are reported more than once. A sink is searched for its own scope and again for every
call that leads there, and all that is found is put under one key. Of the longer paths one is chosen,
and what is added to it later is new each time; but paths of one token are all taken over. So the only
path that can be reported twice is an input that is put out where it comes in. -/

namespace MaskedTaint

theorem Path.length_of_same {p q : Path} (h : p.same q = true) : p.length = q.length := by
  induction p generalizing q with
  | nil => cases q with
    | nil => rfl
    | cons b q => cases h
  | cons a p ih => cases q with
    | nil => cases h
    | cons b q =>
      simp only [same, Bool.and_eq_true] at h
      rw [List.length_cons, List.length_cons, ih h.2]

namespace Catalog

open Search (BeginsAtSinks)

/-- How often the path has been recorded. -/
def copies (c : Catalog) (p : Path) : Nat := (c.flatMap Prod.snd).countP (·.same p)

def Keyed (c : Catalog) : Prop := (c.map Prod.fst).Pairwise fun t u => t.same u = false

variable {c : Catalog} {cs ds : List Path}

theorem copies_add (c : Catalog) (t : Token) (ps : List Path) (p : Path) :
    (c.add t ps).copies p = c.copies p + ps.countP (·.same p) := by
  by_cases hps : ps = []
  · rw [hps, add_nil, List.countP_nil, Nat.add_zero]
  · induction c with
    | nil =>
      obtain ⟨q, ps, rfl⟩ := List.exists_cons_of_ne_nil hps
      simp [add, copies]
    | cons e c ih =>
      rw [add_cons e c t hps]
      unfold copies at ih ⊢
      split
      · simp only [List.flatMap_cons, List.countP_append]
        omega
      · simp only [List.flatMap_cons, List.countP_append, ih]
        omega

theorem keys_add (c : Catalog) (t : Token) (ps : List Path) :
    (c.add t ps).map Prod.fst = c.map Prod.fst ∨
      (c.add t ps).map Prod.fst = c.map Prod.fst ++ [t] ∧ ∀ u ∈ c.map Prod.fst, u.same t = false := by
  by_cases hps : ps = []
  · rw [hps, add_nil]
    exact .inl rfl
  · induction c with
    | nil =>
      obtain ⟨q, ps, rfl⟩ := List.exists_cons_of_ne_nil hps
      exact .inr ⟨rfl, by simp⟩
    | cons e c ih =>
      rw [add_cons e c t hps]
      split
      · exact .inl rfl
      · rename_i hsame
        refine ih.imp (fun h => ?_) fun h => ⟨?_, ?_⟩
        · rw [List.map_cons, h, List.map_cons]
        · rw [List.map_cons, h.1, List.map_cons, List.cons_append]
        · exact List.forall_mem_cons.mpr ⟨by simpa using hsame, h.2⟩

theorem Keyed.add (h : c.Keyed) (t : Token) (ps : List Path) : (c.add t ps).Keyed := by
  unfold Keyed at h ⊢
  rcases c.keys_add t ps with hkeys | ⟨hkeys, hnew⟩
  · rwa [hkeys]
  · rw [hkeys, List.pairwise_append]
    refine ⟨h, List.pairwise_singleton _ t, fun u hu w hw => ?_⟩
    exact List.mem_singleton.mp hw ▸ hnew u hu

/-- Among the candidates only paths of one token that have been recorded twice are there twice. -/
theorem relevant_pairwise (hc : BeginsAtSinks c) (hkeys : c.Keyed) :
    c.relevant.Pairwise fun p q => p.same q = true → p.length = 1 ∧ 2 ≤ c.copies p := by
  rw [relevant, List.pairwise_flatMap]
  constructor
  · intro e he
    refine List.pairwise_append.mpr ⟨?_, ?_, ?_⟩
    · refine List.pairwise_iff_forall_sublist.mpr fun {p q} hsub hsame => ?_
      have hone := (List.mem_filter.mp (hsub.subset (List.mem_cons_self (a := p)))).2
      refine ⟨by simpa using hone, ?_⟩
      have hall : [p, q].Sublist (c.flatMap Prod.snd) :=
        (hsub.trans List.filter_sublist).trans (List.sublist_flatten_of_mem (List.mem_map_of_mem he))
      calc 2 = [p, q].countP (·.same p) := by simp [Path.same_refl, Path.same_symm hsame]
        _ ≤ c.copies p := hall.countP_le
    · cases nearest e.2 <;> simp
    · intro p hp q hq hsame
      have hone : p.length = 1 := by simpa using (List.mem_filter.mp hp).2
      have hlong : 1 < q.length := nearest_kept (fun _ _ h => h) (Option.mem_toList.mp hq)
      have hlength := Path.length_of_same hsame
      omega
  · refine (List.pairwise_map.mp hkeys).imp_of_mem fun {e e'} he he' hdiffer p hp q hq hsame => ?_
    have hmem : ∀ {e : Token × List Path} {p : Path}, p ∈ relevantOf e.2 → p ∈ e.2 := by
      intro e p hp
      rcases List.mem_append.mp hp with hp | hp
      · exact (List.mem_filter.mp hp).1
      · exact nearest_mem (Option.mem_toList.mp hp)
    have hstart := Path.startsAt_congr hsame e'.1
    rw [startsAt_of_mem hc he (hmem hp), startsAt_of_mem hc he' (hmem hq), hdiffer,
      Token.same_refl] at hstart
    cases hstart

theorem Extended.pairwise {P : Path → Prop} (h : c.Extended cs ds)
    (hcs : cs.Pairwise fun p q => p.same q = true → P p) :
    ds.Pairwise fun p q => p.same q = true → P p := by
  induction h with
  | start => exact hcs
  | add _ _ _ hnew ih =>
    refine List.pairwise_append.mpr ⟨ih, List.pairwise_singleton _ _, fun p hp q hq hsame => ?_⟩
    rw [List.mem_singleton.mp hq] at hsame
    exact absurd (Path.same_symm hsame) (List.any_eq_false.mp hnew p hp)

theorem extended_withBranches (c : Catalog) (ps : List Path) : c.Extended ps (c.withBranches ps) := by
  refine (List.foldlRecOn (motive := fun ds => c.Extended ps ds ∧ ps <+: ds) _ _
    ⟨.start, List.prefix_refl ps⟩ fun ds hds p hp => ?_).1
  exact ⟨hds.1.foldl_extend (hds.2.mem hp) bypasses (deeper p),
    hds.2.trans (prefix_foldl_extend bypasses (c.pathsOf p) (deeper p) ds)⟩

theorem candidates_pairwise (hc : BeginsAtSinks c) (hkeys : c.Keyed) :
    (c.withSplits (c.withBranches c.relevant)).Pairwise fun p q => p.same q = true →
      p.length = 1 ∧ 2 ≤ c.copies p :=
  (Extended.start.joinFrom _ 0).pairwise
    ((c.extended_withBranches c.relevant).pairwise (relevant_pairwise hc hkeys))

end Catalog

namespace Search

variable {d : Structure} {count : Nat} {v : Vulnerability} {t u : Token} {limit : Limit} {w : View}

theorem not_bound_sink (hd : d.Sound count) {scope : String} : ¬ d.Bound scope (Special.sink v).name u :=
  fun h => (hd.bound_key h).ne_special _ rfl

/-- The lists of sinks stay as they are. -/
theorem Keeping.sinks (hd : d.Sound count) {s : Search} {C : Path → Prop} (hs : Keeping d C s)
    (scope : String) :
    s.flows.tokens? scope (Special.sink v).name = d.tokens? scope (Special.sink v).name := by
  cases hts : s.flows.tokens? scope (Special.sink v).name with
  | none => exact (hs.flows.tokens?_eq_none hts).symm
  | some ts =>
    obtain ⟨first, more, hfirst, hmore, -, hsame, -⟩ := hs.flows.lists scope _ ts hts
    have hnone : more = [] := List.eq_nil_iff_forall_not_mem.mpr fun u hu =>
      not_bound_sink hd (hmore u hu)
    rw [hfirst, hsame (by cases v <;> decide), hnone, List.append_nil]

/-- A search from one sink. An input that is a sink is recorded once; else all paths begin at the
sink, so they are not like `t`. -/
theorem explore_sink_copies (hinput : ∀ scope, d.tokens? scope Special.input.name = none) (hw : ViewOf d w)
    {i : Source} (hi : ImportsOf d i) (hu : d.Under w.name (Special.sink v).name u)
    (hsame : u.same t = true → u.kind = Special.input.name ∧ w.own.get? Special.input.name = none) :
    Act.Ensures (fun s => Keeping d (ChainFrom d v u) s ∧ s.paths = [])
      (fun s => Keeping d (fun _ => True) s ∧ s.paths.countP (·.same [t]) ≤ if u.same t then 1 else 0)
      (fun _ => True) (fun _ => True) (explore .plain limit limit.depth [] w i u) := by
  by_cases hut : u.same t = true
  · obtain ⟨hkind, hown⟩ := hsame hut
    cases limit.depth with
    | zero => exact fun _ _ => .error trivial
    | succ depth =>
      refine .look fun s hs => ?_
      have hcall : ¬ u.kind = Lexicon.plain.word .call := by rw [hkind]; decide
      have hsource : s.source? w (Lexicon.plain.key u.kind) = none := by
        have hlist : (s.flows.tokens? w.name u.kind).isSome = false := by
          rw [hs.1.flows.hasList, hkind, hinput]
          rfl
        rw [Search.source?, show Lexicon.plain.key u.kind = u.kind from rfl, hlist, hkind, hown]
        rfl
      rw [if_neg hcall, hsource]
      dsimp only
      rw [if_pos (show u.kind = Lexicon.plain.word .input from hkind)]
      rintro s rfl
      have hrun : conclude ([] ++ [u]) s = (.ok (), { s with paths := [[u]] }) := by
        rw [conclude, Act.state_bind, hs.2]
        rfl
      rw [hrun]
      exact .ok ⟨⟨hs.1.flows, fun _ _ => trivial⟩, by simp [Path.same, hut]⟩ trivial
  · have hchains := (holding_invariant d.allows_all steady_true (linked_chainFrom v u)
      fun _ _ _ _ _ _ _ _ _ => ⟨trivial, trivial⟩).explore limit limit.depth hw hi
      (p := []) ⟨⟨⟨u, rfl, w.name, hu⟩, List.isChain_singleton u⟩, rfl⟩
    refine (hchains.weaken fun s hs => ⟨hs.1, trivial⟩).imp (fun s hs => ⟨⟨hs.1.flows, fun _ _ => trivial⟩, ?_⟩)
      fun _ h => h
    rw [List.countP_eq_zero.mpr fun p hp hpt => ?_]
    · exact Nat.zero_le _
    · have hstart := Path.startsAt_congr hpt t
      rw [Path.startsAt, (hs.1.paths p hp).2] at hstart
      exact hut (by simpa [Path.startsAt, Token.same_refl] using hstart)

/-- The sink `t` is an input, no call leads to its scope, and no other sink looks like it. -/
structure Alone (d : Structure) (v : Vulnerability) (t : Token) : Prop where
  input : ∀ scope, d.tokens? scope Special.input.name = none
  uncalled : ∀ args, ¬ d.Call t.scope args
  alike : ∀ scope u, d.Entry scope (Special.sink v).name u → u.same t = true →
    scope = t.scope ∧ u.kind = Special.input.name
  once : ∀ ts, d.tokens? t.scope (Special.sink v).name = some ts → ts.countP (·.same t) ≤ 1

variable {c : Catalog}

theorem exploreSinks_go_copies (limit : Limit) (src : Source) (sinks : List Token) (h : Alone d v t)
    (hw : ViewOf d w) (hread : ∀ s, Keeping d (fun _ => True) s → s.read src = sinks)
    (hsinks : ∀ u ∈ sinks, d.Under w.name (Special.sink v).name u ∧ (u.same t = true →
      u.kind = Special.input.name ∧ w.own.get? Special.input.name = none))
    (width i n : Nat) (hc : c.copies [t] ≤ n) :
    Act.Ensures (Keeping d fun _ => True) (Keeping d fun _ => True) (fun _ => True)
      (fun c' => c'.copies [t] ≤ n + (sinks.drop i).countP (·.same t))
      (exploreSinks.go .plain limit w src width i c) := by
  induction width generalizing i n c with
  | zero => exact .fail trivial
  | succ width ih =>
    refine .look fun s hs => ?_
    rw [hread s hs]
    cases hu : sinks[i]? with
    | none =>
      rintro _ rfl
      exact .ok hs (hc.trans (Nat.le_add_right n _))
    | some u =>
      obtain ⟨hi, rfl⟩ := List.getElem?_eq_some_iff.mp hu
      obtain ⟨hunder, hsame⟩ := hsinks _ (List.getElem_mem hi)
      have hdrop : (sinks.drop i).countP (·.same t) =
          (if sinks[i].same t then 1 else 0) + (sinks.drop (i + 1)).countP (·.same t) := by
        rw [List.drop_eq_getElem_cons hi, List.countP_cons, Nat.add_comm]
      rw [hdrop, ← Nat.add_assoc]
      refine .after (J := fun s => Keeping d (ChainFrom d v sinks[i]) s ∧ s.paths = []) ?_ ?_
      · rintro _ rfl
        exact ⟨⟨hs.flows, fun p hp => by cases hp⟩, rfl⟩
      · refine .bind ((importsOf_ensures hw).both (importsOf_steady (J := fun s => s.paths = [])
          (fun _ _ _ hs _ => hs) w)) fun j hj => ?_
        refine .bind (explore_sink_copies h.input hw hj.1 hunder hsame) fun _ _ => ?_
        refine .look fun s hs => ?_
        refine (ih (i + 1) _ ?_).weaken ?_
        · rw [Catalog.copies_add]
          exact Nat.add_le_add hc hs.2
        · rintro _ rfl
          exact hs.1

theorem exploreSinks_copies (limit : Limit) (hd : d.Sound count) (h : Alone d v t) (hw : ViewOf d w)
    (hown : w.name = t.scope → w.own.get? Special.input.name = none) (n : Nat)
    (hc : c.copies [t] ≤ n) :
    Act.Ensures (Keeping d fun _ => True) (Keeping d fun _ => True) (fun _ => True)
      (fun c' => c'.copies [t] ≤ n + if w.name = t.scope then 1 else 0)
      (exploreSinks .plain limit w (Special.sink v).name c) := by
  refine .look fun s hs => ?_
  rw [Search.source?, hs.sinks hd]
  cases hsinks : d.tokens? w.name (Special.sink v).name with
  | some sinks =>
    have hgo := exploreSinks_go_copies limit (.stored w.name (Special.sink v).name) sinks h hw
      (fun s hs => by rw [Search.read, hs.sinks hd, hsinks]; rfl)
      (fun u hu => ⟨.inl ⟨sinks, hsinks, hu⟩, fun hsame => ?_⟩) limit.width 0 n hc
    · refine (hgo.weaken (K := (· = s)) fun _ hs' => hs' ▸ hs).imp (fun _ h => h) fun _ hc' =>
        hc'.trans ?_
      rw [List.drop_zero]
      split
      · rename_i hscope
        exact Nat.add_le_add_left (h.once sinks (hscope ▸ hsinks)) n
      · rename_i hscope
        rw [List.countP_eq_zero.mpr fun u hu hsame => hscope (h.alike w.name u ⟨sinks, hsinks, hu⟩ hsame).1]
    · obtain ⟨hscope, hkind⟩ := h.alike w.name u ⟨sinks, hsinks, hu⟩ hsame
      exact ⟨hkind, hown hscope⟩
  | none =>
    have hmore : c.copies [t] ≤ n + if w.name = t.scope then 1 else 0 := hc.trans (Nat.le_add_right n _)
    cases hts : w.own.get? (Special.sink v).name with
    | none => exact fun s' hs' => .ok (hs' ▸ hs) hmore
    | some ts =>
      obtain rfl : ts = [] := List.eq_nil_iff_forall_not_mem.mpr fun u hu =>
        not_bound_sink hd ((hw _ ts hts).1 u hu)
      have hgo := exploreSinks_go_copies limit (.fixed []) [] h hw (fun _ _ => rfl)
        (fun u hu => by cases hu) limit.width 0 _ hmore
      exact hgo.weaken fun _ hs' => hs' ▸ hs

theorem exploreCalls_go_copies (hd : d.Sound count) (h : Alone d v t) (scope : String)
    (width i n : Nat) (hc : c.copies [t] ≤ n) :
    Act.Ensures (Keeping d fun _ => True) (Keeping d fun _ => True) (fun _ => True)
      (fun c' => c'.copies [t] ≤ n)
      (exploreCalls.go .plain limit scope (Special.sink v).name width i c) := by
  induction width generalizing i c with
  | zero => exact .fail trivial
  | succ width ih =>
    refine .bind .state fun s hs => ?_
    cases hu : (s.read (.stored scope (Lexicon.plain.place .call)))[i]? with
    | none => exact .pure hc
    | some u =>
      have hunder := hs.read_stored u (List.mem_of_getElem? hu)
      dsimp only
      split
      · exact ih (i + 1) hc
      · refine .bind (enterCall_ensures d.allows_all tellsCalls_files ⟨scope, _, hunder, .inr rfl⟩)
          fun o ho => ?_
        cases o with
        | none => exact ih (i + 1) hc
        | some w =>
          obtain ⟨hw, j, m, target, args, rfl, hname⟩ := ho w rfl
          have haway : w.name ≠ t.scope := fun hscope =>
            h.uncalled args (hscope ▸ hname ▸ hunder.call (.inr rfl))
          have hsinks := exploreSinks_copies limit hd h hw (fun hscope => absurd hscope haway) n hc
          rw [if_neg haway] at hsinks
          exact .bind hsinks fun c' hc' => ih (i + 1) hc'

theorem exploreScopes_copies (hd : d.Sound count) (h : Alone d v t) (scopes : List String) (n : Nat)
    (hc : c.copies [t] ≤ n) :
    Act.Ensures (Keeping d fun _ => True) (Keeping d fun _ => True) (fun _ => True)
      (fun c' => c'.copies [t] ≤ n + scopes.count t.scope)
      (exploreScopes .plain limit (Special.sink v).name scopes c) := by
  induction scopes generalizing n c with
  | nil => exact .pure hc
  | cons scope scopes ih =>
    refine .bind (exploreSinks_copies limit hd h (viewOf_name scope) (fun _ => rfl) n hc) fun c₁ hc₁ => ?_
    refine .bind (exploreCalls_go_copies hd h scope limit.width 0 _ hc₁) fun c₂ hc₂ => ?_
    refine (ih _ hc₂).imp (fun _ h => h) fun c₃ hc₃ => hc₃.trans ?_
    rw [List.count_cons]
    simp only [beq_iff_eq]
    omega

theorem keyed_exploreScopes (limit : Limit) (place : String) (scopes : List String) :
    Act.Ensures (fun _ => True) (fun _ => True) (fun _ => True) Catalog.Keyed
      (exploreScopes .plain limit place scopes []) :=
  Invariant.exploreScopes (S := fun _ => True) (C := fun _ => True)
    (fun _ _ => invariant_true) trivial (fun _ _ => trivial) (fun _ _ _ _ => trivial)
    (fun _ _ _ _ _ hc => ⟨trivial, hc.add _ _⟩) (fun _ _ _ _ _ _ _ _ _ _ => trivial)
    (fun _ => ⟨trivial, fun _ _ _ _ => trivial⟩)
    (fun _ _ => (ensures_all _).imp (fun _ h => h) fun _ _ _ _ => trivial) scopes List.Pairwise.nil

/-! ### Recorded files -/

theorem place_of_same {files : List String} {scope : String} (ht : t.RecordedIn scope count)
    (hu : u.RecordedIn scope count) (htstamp : t.Stamped files) (hustamp : u.Stamped files)
    (hkind : t.kind ≠ Special.call.name) (h : u.same t = true) :
    u.kind = t.kind ∧ u.pos = t.pos ∧ u.mark.file = t.mark.file := by
  have hfree : ∀ {x : Token}, x.Stamped files → ∀ f ∈ Token.front x.mark, CommaFree f :=
    fun hx => Token.commaFree_front hx.kind hx.line hx.split
  cases ht with
  | call _ hcall => exact absurd hcall hkind
  | @site i m hm =>
    cases hu with
    | @call j n n' args hn =>
      have hsig := congrArg String.toList (beq_iff_eq.mp h)
      rw [Token.toList_signature_site, Token.toList_signature_jump] at hsig
      exact absurd hsig (by simp)
    | @site j n hn =>
      obtain ⟨hfront, hrest⟩ := Token.front_of_same_site (hfree hustamp) (hfree htstamp) h
      rw [show (Token.site i m).mark.scope = scope from hm.scope,
        show (Token.site j n).mark.scope = scope from hn.scope] at hrest
      simp only [Token.front, List.cons.injEq] at hfront
      exact ⟨hfront.1, Int.repr_inj.mp hfront.2.2.1, String.toList_inj.mp (List.append_cancel_left hrest)⟩

variable {files : List (String × List Char)}

theorem recordEach_of_recordAll {p q : Project}
    (h : p.recordAll files = .ok q) : q = p.recordEach files := by
  induction files generalizing p with
  | nil =>
    cases h
    rfl
  | cons f files ih =>
    unfold Project.recordAll at h
    dsimp only at h
    split at h
    · cases h
    · exact ih h

theorem countP_same_le_one {ts : List Token}
    (h : ts.Pairwise fun a b => a.same t = true → b.same t = true → False) : ts.countP (·.same t) ≤ 1 := by
  rw [List.countP_eq_length_filter]
  have hnone : (ts.filter (·.same t)).Pairwise fun _ _ => False := by
    refine (h.filter _).imp_of_mem fun ha hb hab => ?_
    exact hab (List.mem_filter.mp ha).2 (List.mem_filter.mp hb).2
  cases hfilter : ts.filter (·.same t) with
  | nil => exact Nat.zero_le 1
  | cons a as =>
    rw [hfilter] at hnone
    cases as with
    | nil => exact Nat.le_refl 1
    | cons b bs => exact (List.rel_of_pairwise_cons hnone List.mem_cons_self).elim

theorem alone_recorded {p : Project}
    (h : Project.recordAll {} files = .ok p) (hnames : (files.map Prod.fst).Nodup)
    (ht : p.flows.Entry t.scope (Special.sink v).name t) (hkind : t.kind = Special.input.name)
    (huncalled : ∀ args, ¬ p.flows.Call t.scope args)
    (halike : ∀ scope u, p.flows.Entry scope (Special.sink v).name u → u.same t = true → scope = t.scope) :
    Alone p.flows v t := by
  have hd := (recordAll_sound Project.sound_empty files h).flows
  have hstamped := Project.occurrences_stamped h
  have hplace : ∀ u, p.flows.Entry t.scope (Special.sink v).name u → u.same t = true →
      u.kind = t.kind ∧ u.pos = t.pos ∧ u.mark.file = t.mark.file := by
    intro u hu hsame
    have hrecorded : ∀ {x}, p.flows.Entry t.scope (Special.sink v).name x → x.RecordedIn t.scope _ :=
      fun ⟨ts, hts, hx⟩ => (hd.tokens? hts _ hx).recorded (isPlainKey_sink v).ne_imports
    exact place_of_same (hrecorded ht) (hrecorded hu) (hstamped t ht.mem_occurrences)
      (hstamped u hu.mem_occurrences) (by rw [hkind]; decide) hsame
  refine ⟨fun scope => ?_, huncalled, fun scope u hu hsame => ?_, fun ts hts => ?_⟩
  · refine Option.eq_none_iff_forall_not_mem.mpr fun ts hts => ?_
    obtain ⟨s, hs, hl⟩ := Option.bind_eq_some_iff.mp hts
    rcases ((hd.lists _ (Table.mem_of_get? hs)).fits _ (Table.mem_of_get? hl)).1 with hkey | hkey
    · exact absurd hkey (by decide : Special.input.name ∉ Special.keys.map Special.name)
    · exact hkey.ne_special .input rfl
  · obtain rfl := halike scope u hu hsame
    exact ⟨rfl, (hplace u hu hsame).1.trans hkind⟩
  · obtain ⟨names, hordered⟩ := Project.ordered_empty.recordEach (fun f _ => by simp) hnames
    rw [← recordEach_of_recordAll h] at hordered
    obtain ⟨s, hs, hl⟩ := Option.bind_eq_some_iff.mp hts
    have hinorder := hordered.lists _ (Table.mem_of_get? hs) _ (Table.mem_of_get? hl)
    refine countP_same_le_one (hinorder.imp_of_mem fun {a b} ha hb hab hsa hsb => ?_)
    obtain ⟨-, hpa, hfa⟩ := hplace a ⟨ts, hts, ha⟩ hsa
    obtain ⟨-, hpb, hfb⟩ := hplace b ⟨ts, hts, hb⟩ hsb
    have hlt := hab (hfa.trans hfb.symm)
    omega

/-- The search of recorded files reports no path twice, unless it is an input put out where it comes in
and a call leads there, or another sink looks just like it. -/
theorem detect_repeats {files : List (String × List Char)} {p : Project}
    (h : Project.recordAll {} files = .ok p) (hnames : (files.map Prod.fst).Nodup) (limit : Limit)
    (v : Vulnerability) {paths : List Path}
    (hrun : (detect .plain limit v { flows := p.flows }).1 = .ok paths) :
    paths.Pairwise fun a b => Path.same a b = true →
      ∃ t, a = [t] ∧ t.kind = Special.input.name ∧ p.flows.Entry t.scope (Special.sink v).name t ∧
        ((∃ args, p.flows.Call t.scope args) ∨
          ∃ scope u, scope ≠ t.scope ∧ p.flows.Entry scope (Special.sink v).name u ∧ u.same t = true) := by
  have hd := (recordAll_sound Project.sound_empty files h).flows
  obtain ⟨s, hdetect⟩ : ∃ s, detect .plain limit v { flows := p.flows } = (.ok paths, s) :=
    ⟨_, Prod.ext hrun rfl⟩
  rw [detect, Act.state_bind] at hdetect
  obtain ⟨c, s₁, hscopes, hpaths⟩ := Act.bind_eq_ok_iff.mp hdetect
  cases hpaths
  have hstart := keeping_start { flows := p.flows }
  have hcatalog : CatalogOf p.flows v c :=
    ((exploreScopes_ensures p.flows.allows_all limit p.flows.names (fun e he => by cases he)).keeps _ _ _
      hstart hscopes).2
  have hkeyed := ((keyed_exploreScopes limit _ p.flows.names).keeps _ _ _ trivial hscopes).2
  have hpairs := (Catalog.candidates_pairwise hcatalog.beginsAtSinks hkeyed).filter (isVulnerable .plain v)
  refine hpairs.imp_of_mem fun {a b} ha _ hrepeated hsame => ?_
  obtain ⟨hone, htwice⟩ := hrepeated hsame
  obtain ⟨t, rfl⟩ := List.length_eq_one_iff.mp hone
  obtain ⟨⟨e, he, hmem⟩, hmeets⟩ := records_of_vulnerablePaths ha
  have hkind : t.kind = Special.input.name := by
    obtain ⟨before, x, after, hx, hkind, -⟩ := hmeets
    have hxt : x ∈ [t] := hx ▸ by simp
    exact List.mem_singleton.mp hxt ▸ hkind
  have hentry : p.flows.Entry t.scope (Special.sink v).name t := by
    obtain ⟨_, -, ⟨⟨x, hx, scope, hunder⟩, -⟩, -⟩ := hcatalog e he _ hmem
    cases hx
    obtain ⟨ts, hts, ht⟩ := hunder.resolve_right (not_bound_sink hd)
    have hscope : t.scope = scope :=
      ((hd.tokens? hts t ht).recorded (isPlainKey_sink v).ne_imports).within.scope
    exact ⟨ts, hscope ▸ hts, ht⟩
  refine ⟨t, rfl, hkind, hentry, ?_⟩
  by_contra hnot
  rw [not_or, not_exists] at hnot
  have halone := alone_recorded h hnames hentry hkind hnot.1 fun scope u hu hsame => by
    by_contra hne
    exact hnot.2 ⟨scope, u, hne, hu, hsame⟩
  have hcopies : c.copies [t] ≤ 0 + p.flows.names.count t.scope :=
    ((exploreScopes_copies (c := []) hd halone p.flows.names 0 (Nat.le_refl 0)).keeps _ _ _ hstart
      hscopes).2
  have hcount := List.nodup_iff_count_le_one.mp hd.nodup t.scope
  omega

def calledTwice : List (String × List Char) :=
  [("m.php", "<?php function f($p)\x7becho $_GET['x']; echo $p;\x7d f($_GET['y']); f('a');".toList)]

theorem detect_repeats_calledTwice : ∃ p paths, Project.recordAll {} calledTwice = .ok p ∧
    (calledTwice.map Prod.fst).Nodup ∧
    (detect .plain usualLimit .xss { flows := p.flows }).1 = .ok paths ∧
    paths.map (·.map Token.kind) = [["INPUT"], ["INPUT"], ["INPUT"], ["VAR1", "INPUT"]] ∧
    paths.Pairwise fun a b => Path.same a b = true →
      ∃ t, a = [t] ∧ t.kind = Special.input.name ∧ p.flows.Entry t.scope (Special.sink .xss).name t ∧
        ((∃ args, p.flows.Call t.scope args) ∨
          ∃ scope u, scope ≠ t.scope ∧ p.flows.Entry scope (Special.sink .xss).name u ∧
            u.same t = true) := by
  have hcheck : ∃ p ∈ (Project.recordAll {} calledTwice).toOption,
      ∃ paths ∈ (detect .plain usualLimit .xss { flows := p.flows }).1.toOption,
        paths.map (·.map Token.kind) = [["INPUT"], ["INPUT"], ["INPUT"], ["VAR1", "INPUT"]] := by
    decide +kernel
  obtain ⟨p, hp, paths, hpaths, hkinds⟩ := hcheck
  have hnames : (calledTwice.map Prod.fst).Nodup := by decide
  exact ⟨p, paths, eq_ok_of_toOption hp, hnames, eq_ok_of_toOption hpaths, hkinds,
    detect_repeats (eq_ok_of_toOption hp) hnames usualLimit .xss (eq_ok_of_toOption hpaths)⟩

def putOut : List (String × List Char) :=
  [("m.php", "<?php function f() \x7b echo $_GET['x']; \x7d f();".toList)]

/-- The input is reported for the function and once more for the call. -/
theorem exists_reported_twice : ∃ p a b, Project.recordAll {} putOut = .ok p ∧
    (detect .plain usualLimit .xss { flows := p.flows }).1 = .ok [a, b] ∧ Path.same a b = true := by
  have hcheck : ∃ p ∈ (Project.recordAll {} putOut).toOption,
      ∃ paths ∈ (detect .plain usualLimit .xss { flows := p.flows }).1.toOption,
        paths.length = 2 ∧ ∀ a ∈ paths, ∀ b ∈ paths, Path.same a b = true := by
    decide +kernel
  obtain ⟨p, hp, paths, hpaths, htwo, hsame⟩ := hcheck
  obtain ⟨a, b, rfl⟩ := List.length_eq_two.mp htwo
  exact ⟨p, a, b, eq_ok_of_toOption hp, eq_ok_of_toOption hpaths, hsame a (by simp) b (by simp)⟩

end Search

end MaskedTaint
