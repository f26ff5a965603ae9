import MaskedTaint.Proofs.Search.Isolation
import MaskedTaint.Proofs.Search.SinkCatalog

/-! Sinks that are judged independently of each other. What is reported for a sink does not depend
on the other sinks, if the ways back from them enter no function of the project; calls that lead
into it are looked into once for all sinks, so they may be used up by another one. -/

namespace MaskedTaint

/-- The sinks like `t` can be judged by themselves: no way back from another sink meets a call into
the structure, and no way back from one of them meets a token that stands for a sink. -/
structure Structure.StandsApart (d : Structure) (v : Vulnerability) (t : Token) : Prop where
  params : d.PlainParams
  others : ∀ p, d.Chain v p → p.startsAt t = false → ∀ c ∈ p, c.kind = Special.call.name → d.Idle c
  own : ∀ p, d.Chain v p → p.startsAt t = true → ∀ c ∈ p, c.kind ≠ (Special.sink v).name

namespace Structure

variable {d : Structure} {v : Vulnerability} {t : Token} {K : List String}

/-- What flows to the other sinks is of the kinds `K`, and calls and parameters are not; nothing
recorded stands for a sink. -/
def ApartBy (d : Structure) (v : Vulnerability) (t : Token) (K : List String) : Prop :=
  Special.call.name ∉ K ∧
  (∀ e ∈ d, ∀ l ∈ e.2, ∀ x ∈ l.2,
    (l.1 ∈ K → x.kind ∈ K) ∧
    (l.1 = Special.params.name → Special.isName x.kind = false ∧ x.kind ∉ K) ∧
    (l.1 = (Special.sink v).name → x.same t = true ∨ x.kind ∈ K)) ∧
  ∀ x ∈ d.occurrences, x.kind ≠ (Special.sink v).name

instance : Decidable (ApartBy d v t K) := inferInstanceAs (Decidable (_ ∧ _ ∧ _))

theorem PlainParams.param_of_bound (h : d.PlainParams) {scope key : String} {x : Token}
    (hx : d.Bound scope key x) : ∃ param, d.Entry scope Special.params.name param ∧ param.kind = key := by
  induction hx with
  | binds hx =>
    obtain ⟨_, params, i, param, _, _, hparams, hparam, hkind, _⟩ := hx
    exact ⟨param, ⟨params, hparams, List.mem_of_getElem? hparam⟩, hkind⟩
  | again _ _ _ _ ih =>
    obtain ⟨param, hentry, hkind⟩ := ih
    exact absurd hkind (Special.ne_name_of_not_isName (h scope param hentry) _)

theorem ApartBy.standsApart (h : d.ApartBy v t K) : d.StandsApart v t := by
  obtain ⟨hcall, hlists, hkinds⟩ := h
  have hentry : ∀ {scope key x}, d.Entry scope key x → (key ∈ K → x.kind ∈ K) ∧
      (key = Special.params.name → Special.isName x.kind = false ∧ x.kind ∉ K) ∧
      (key = (Special.sink v).name → x.same t = true ∨ x.kind ∈ K) := by
    rintro scope key x ⟨ts, hts, hx⟩
    obtain ⟨e, he, hl⟩ := mem_of_tokens? hts
    exact hlists e he _ hl x hx
  have hplain : d.PlainParams := fun scope param hparam => ((hentry hparam).2.1 rfl).1
  have hunder : ∀ {scope key x}, d.Under scope key x → key ∈ K → x.kind ∈ K := by
    rintro scope key x (hx | hx) hkey
    · exact (hentry hx).1 hkey
    · obtain ⟨param, hparam, rfl⟩ := hplain.param_of_bound hx
      exact absurd hkey ((hentry hparam).2.1 rfl).2
  refine ⟨hplain, fun p hp hstart => ?_, fun p hp _ => ?_⟩
  · -- along the chain all kinds are in `K`, so no call is on it
    obtain ⟨⟨u, hu, scope, hsink⟩, hlinks⟩ := hp
    have hfirst : u.kind ∈ K := by
      rcases hsink with hsink | hsink
      · have hdiffers : u.same t = false := by simpa [Path.startsAt, hu] using hstart
        refine ((hentry hsink).2.2 rfl).resolve_left ?_
        simp [hdiffers]
      · obtain ⟨param, hparam, hkind⟩ := hplain.param_of_bound hsink
        exact absurd hkind (Special.ne_name_of_not_isName (hplain scope param hparam) _)
    have hall := List.IsChain.induction (fun c => c.kind ∈ K) p hlinks
      (fun x y hlink hx => ?_) (fun hne => ?_)
    · exact fun c hc hkind => absurd (hkind ▸ hall c hc) hcall
    · obtain ⟨scope, hy⟩ := hlink.under fun hkind => hcall (hkind ▸ hx)
      exact hunder hy hx
    · rwa [Option.some.inj ((List.head?_eq_some_head hne).symm.trans hu)]
  · obtain ⟨⟨u, hu, scope, hsink⟩, hlinks⟩ := hp
    have hall := List.IsChain.induction (fun c => ∃ scope key, d.Under scope key c) p hlinks
      (fun x y hlink _ => hlink.exists_under) (fun hne => ?_)
    · intro c hc
      obtain ⟨scope, key, hc | hc⟩ := hall c hc
      · exact hkinds c hc.mem_occurrences
      · obtain ⟨param, arg, harg, hbound⟩ := hc.exists_arg
        have hkind : c.kind = arg.kind := by cases hbound <;> rfl
        exact hkind ▸ hkinds arg harg
    · rw [Option.some.inj ((List.head?_eq_some_head hne).symm.trans hu)]
      exact ⟨scope, _, hsink⟩

end Structure

namespace Search

variable {d : Structure} {v : Vulnerability} {t : Token} {limit : Limit} {w : View} {c : Catalog}

abbrev Level (d : Structure) (v : Vulnerability) (t : Token) (s s' : Search) : Prop :=
  Keeping d (fun _ => True) s ∧ Along (bareOf d v t) [] s s'

theorem ChainFrom.startsAt {u : Token} {p : Path} (h : ChainFrom d v u p) (t : Token) :
    p.startsAt t = u.same t := by
  rw [Path.startsAt, h.2, Option.any_some]

/-! ### Sinks -/

/-- The paths to sinks like `t` are those that the other search has found. -/
def OfSink (t : Token) (c c' : Catalog) : Prop := c' = c.ofSink t ∧ BeginsAtSinks c

/-- Runs side by side, of which the first one may fail. -/
abbrev Follows {α α' : Type} (S : List String → Search → Search → Prop) (E : List String)
    (Q : List String → α → α' → Prop) (x : Searching α) (y : Searching α') : Prop :=
  Couples S (fun _ => True) (fun _ _ _ _ => True) E Q x y

variable {α : Type} {E : List String}

variable {F : SearchError → Search → SearchError → Search → Prop}
  {S : List String → Search → Search → Prop}

theorem Couples.follows {α' : Type} {L : SearchError → Prop}
    {Q : List String → α → α' → Prop} {x : Searching α} {y : Searching α'}
    (h : Couples S L F E Q x y) : Follows S E Q x y := by
  intro s s' hs
  have hrun := h s s' hs
  revert hrun
  generalize x s = run
  generalize y s' = run'
  rintro (⟨hE, hs', ha⟩ | _ | _)
  · exact .ok hE hs' ha
  · exact .error trivial
  · exact .free trivial

theorem Coupled.anywhere {α' : Type} {S : Search → Search → Prop} {L : SearchError → Prop}
    {D : List String} {Q : α → α' → Prop} {run : Except SearchError α × Search}
    {run' : Except SearchError α' × Search}
    (h : Coupled (fun _ => S) L F D (fun _ => Q) run run') :
    Coupled (fun _ => S) L F E (fun _ => Q) run run' := by
  rcases h with ⟨-, hs, ha⟩ | h | h
  · exact .ok (List.Subset.refl E) hs ha
  · exact .error h
  · exact .free h

theorem Couples.skip {β β' : Type} {I J : Search → Prop} {A : SearchError → Prop} {Q : α → Prop}
    {R : List String → β → β' → Prop} {x : Searching α} (hx : Act.Ensures I J A Q x) {f : α → Searching β}
    {run : Except SearchError β' × Search}
    (hf : ∀ a s, J s → Q a → Coupled S (fun _ => True) (fun _ _ _ _ => True) E R (f a s) run)
    {s : Search} (hs : I s) :
    Coupled S (fun _ => True) (fun _ _ _ _ => True) E R ((x >>= f) s) run := by
  have hland := hx s hs
  rcases hrun : x s with ⟨e | a, s₁⟩ <;> rw [hrun] at hland <;> cases hland
  · rw [Act.bind_of_error hrun]
    exact .free trivial
  · rename_i ha hs₁
    rw [Act.bind_of_ok hrun]
    exact hf a s₁ hs₁ ha

theorem exploreSinks_go_follows (h : d.StandsApart v t) (hw : ViewOf d w) {sinks : List Token}
    (hsinks : d.tokens? w.name (Special.sink v).name = some sinks) (width width' i : Nat)
    (hwidth : width ≤ width') (hc : BeginsAtSinks c) :
    Follows (fun _ => Level d v t) E (fun _ => OfSink t)
      (exploreSinks.go .plain limit w (.stored w.name (Special.sink v).name) width i c)
      (exploreSinks.go .plain limit w (.stored w.name (Special.sink v).name) width'
        ((sinks.take i).filter (·.same t)).length (c.ofSink t)) := by
  induction width generalizing width' i c E with
  | zero => exact fun _ _ _ => .free trivial
  | succ width ih =>
    obtain ⟨k, rfl⟩ : ∃ k, width' = k + 1 := ⟨width' - 1, by omega⟩
    intro s s' hs
    have hread : s.read (.stored w.name (Special.sink v).name) = sinks ∧
        s'.read (.stored w.name (Special.sink v).name) = sinks.filter (·.same t) := by
      rw [Search.read, Search.read, (hs.2.sinks _).1, (hs.2.sinks _).2, hsinks]
      exact ⟨rfl, rfl⟩
    rw [exploreSinks.go, Act.state_bind, hread.1]
    by_cases hi : i < sinks.length
    · rw [List.getElem?_eq_getElem hi]
      have hstart : ChainFrom d v sinks[i] ([] ++ [sinks[i]]) :=
        ⟨⟨⟨_, rfl, w.name, .inl ⟨sinks, hsinks, List.getElem_mem hi⟩⟩, List.isChain_singleton _⟩, rfl⟩
      have hkeeping : Keeping d (ChainFrom d v sinks[i]) { s with visited := [sinks[i]], paths := [] } :=
        ⟨hs.1.flows, fun p hp => by cases hp⟩
      by_cases hu : sinks[i].same t = true
      · rw [exploreSinks.go, Act.state_bind, hread.2, getElem?_filter_take (p := (·.same t)) hi hu]
        have hkinds : ∀ p c, ChainFrom d v sinks[i] (p ++ [c]) → c.kind ≠ (Special.sink v).name :=
          fun p c hp => h.own _ hp.1 ((hp.startsAt t).trans hu) c (by simp)
        have hK := (holding_invariant d.allows_all steady_true (linked_chainFrom v sinks[i])
          fun _ _ _ _ _ _ _ _ _ => ⟨trivial, trivial⟩).abreast (proper_bareOf (v := v) (t := t) h.params)
          hkinds limit
        simp only [Act.update_bind]
        refine Coupled.anywhere (D := []) (Couples.andThen (hK.importsOf ⟨rfl, hw⟩).follows
          (fun E₁ j j' s s' _ hj hs => ?_) ⟨⟨hkeeping, trivial⟩, { hs.2 with }, rfl, rfl⟩)
        have hexplore := hK.explore hK.depth [] [] E₁ w w j j' _ _ hj.2 hj.1 ⟨rfl, rfl, hstart⟩
        refine Couples.andThen hexplore.follows (fun E₂ _ _ s s' _ _ hs => ?_) hs
        have hnext := ih k (i + 1) (by omega)
          (beginsAtSinks_add hc fun p hp => (hs.1.1.paths p hp).2) (E := E₂)
        rw [filter_take_succ_of_pos (p := (·.same t)) hi hu, List.length_append, List.length_singleton,
          Catalog.ofSink_add, if_pos hu] at hnext
        rw [Act.state_bind, Act.state_bind, hs.2.2.2]
        exact hnext s s' ⟨⟨hs.1.1.flows, fun _ _ => trivial⟩, hs.2.1.mono (by simp)⟩
      · have hidle : ∀ p c, ChainFrom d v sinks[i] (p ++ [c]) → c.kind = Special.call.name → d.Idle c :=
          fun p c hp hkind => h.others _ hp.1 ((hp.startsAt t).trans (by simpa using hu)) c (by simp) hkind
        have hI := aside_invariant (v := v) (t := t) h.params (linked_chainFrom v sinks[i]) hidle s'
        refine Couples.skip (hI.importsOf hw) (fun j s hs hj => ?_) ⟨hkeeping, { hs.2 with }⟩
        refine Couples.skip (hI.explore limit limit.depth hw hj hstart) (fun _ s hs _ => ?_) hs
        have hnext := ih (k + 1) (i + 1) (by omega)
          (beginsAtSinks_add hc fun p hp => (hs.1.paths p hp).2) (E := E)
        rw [filter_take_succ_of_neg (p := (·.same t)) hi hu, Catalog.ofSink_add, if_neg hu] at hnext
        exact hnext s s' ⟨⟨hs.1.flows, fun _ _ => trivial⟩, hs.2⟩
    · have hlen : sinks.length ≤ i := by omega
      rw [exploreSinks.go, Act.state_bind, hread.2, List.getElem?_eq_none hlen,
        List.take_of_length_le hlen, List.getElem?_eq_none le_rfl]
      exact Couples.pure ⟨rfl, hc⟩ s s' hs

theorem exploreSinks_follows (limit : Limit) (h : d.StandsApart v t) (hw : ViewOf d w)
    (hkinds : OwnKinds (bareOf d v t) w) {c' : Catalog} (hc : OfSink t c c') :
    Follows (fun _ => Level d v t) E (fun _ => OfSink t) (exploreSinks .plain limit w (Special.sink v).name c)
      (exploreSinks .plain limit w (Special.sink v).name c') := by
  obtain ⟨rfl, hc⟩ := hc
  intro s s' hs
  have hown : w.own.get? (Special.sink v).name = none := by
    by_contra hsome
    obtain ⟨ts, hts⟩ := Option.ne_none_iff_exists'.mp hsome
    exact Special.ne_name_of_not_isName (hkinds _ ts hts) _ rfl
  rw [exploreSinks, exploreSinks, Act.state_bind, Act.state_bind, hs.2.source?, Search.source?,
    (hs.2.sinks _).1, hown]
  cases hsinks : d.tokens? w.name (Special.sink v).name with
  | none => exact Couples.pure ⟨rfl, hc⟩ s s' hs
  | some sinks => exact exploreSinks_go_follows h hw hsinks limit.width limit.width 0 le_rfl hc s s' hs

/-! ### Calls and scopes -/

theorem rounds_follow (limit : Limit) (h : d.StandsApart v t) :
    Rounds (fun _ => True) (fun _ _ _ _ => True) (fun _ => Level d v t) (OfSink t)
      (Both fun w => OwnKinds (bareOf d v t) w ∧ ViewOf d w)
      (Both fun u => ∃ scope, d.Under scope Special.call.name u) Eq .plain .plain limit limit
      (Lexicon.plain.place (.sink v)) (Lexicon.plain.place (.sink v)) where
  width := .inl ⟨rfl, fun _ _ _ _ => trivial⟩
  listed := by
    rintro scope _ E rfl E' s s' - hs
    have hshared : Shared (bareOf d v t) [] (.stored scope (Lexicon.plain.place .call)) :=
      ⟨(proper_bareOf h.params).places .call (by simp), fun himports => absurd himports (by decide)⟩
    rw [hs.2.read hshared]
    exact List.forall₂_same.mpr fun u hu => ⟨rfl, scope, hs.1.read_stored u hu⟩
  enter := by
    rintro u _ E ⟨rfl, scope, hu⟩
    have hmeet := (meet_keep (E := []) (R := fun _ _ => True) (fun _ _ _ _ _ _ _ => trivial)
      (proper_bareOf (v := v) (t := t) h.params) Lexicon.plain.filesCall u).keeping
      (Invariant.ensures_meet (fun w hw => by cases hw)
        (enterCall_ensures (C := fun _ => True) d.allows_all tellsCalls_files ⟨scope, _, hu, .inr rfl⟩))
    intro s s' hs
    have hrun := hmeet s s' ⟨hs.1, hs.2, trivial⟩
    revert hrun
    generalize meet .plain Lexicon.plain.filesCall u s = run
    generalize meet .plain Lexicon.plain.filesCall u s' = run'
    rintro (⟨-, hs', ho⟩ | - | -)
    · refine .ok (List.Subset.refl E) ⟨hs'.1, hs'.2.1.mono (by simp)⟩ ?_
      cases ho.1 with
      | none => exact .none
      | some hw => exact .some ⟨hw.1, hw.2, (ho.2 _ rfl).1⟩
    · exact .error trivial
    · exact .free trivial
  named := by
    rintro scope _ rfl
    exact ⟨rfl, ⟨fun key ts hts => (by cases hts), viewOf_name scope⟩⟩
  sinks := by
    rintro w _ E c c' ⟨rfl, hkinds, hw⟩ hc
    exact exploreSinks_follows limit h hw hkinds hc

theorem names_onlySink (d : Structure) (v : Vulnerability) (t : Token) :
    (d.onlySink v t).names = d.names := by
  simp [Structure.onlySink, Table.mapValues, Table.names]

/-- Sinks that stand apart are judged independently: for the sinks like `t` the same paths are
reported, in the same order, as if there were no other sinks. -/
theorem detect_onlySink (d : Structure) (v : Vulnerability) (t : Token) (limit : Limit)
    (paths : List Path) (h : d.StandsApart v t)
    (hrun : (detect .plain limit v { flows := d }).1 = .ok paths) :
    (detect .plain limit v { flows := d.onlySink v t }).1 = .ok (paths.filter (Path.startsAt t)) := by
  obtain ⟨s, hdetect⟩ : ∃ s, detect .plain limit v { flows := d } = (.ok paths, s) :=
    ⟨_, Prod.ext hrun rfl⟩
  rw [detect, Act.state_bind] at hdetect ⊢
  obtain ⟨catalog, s₁, hscopes, hpaths⟩ := Act.bind_eq_ok_iff.mp hdetect
  cases hpaths
  have hstart : Level d v t { flows := d } { flows := d.onlySink v t } :=
    ⟨keeping_start { flows := d }, along_bareOf d v t⟩
  have hempty : OfSink t [] [] := ⟨rfl, fun e he => by cases he⟩
  have hfollow := (rounds_follow limit h).exploreScopes (E := []) (List.forall₂_refl d.names) hempty _ _
    hstart
  rw [hscopes] at hfollow
  dsimp only
  rw [names_onlySink]
  generalize hrun' : exploreScopes .plain limit _ d.names [] { flows := d.onlySink v t } = run at hfollow
  cases hfollow with
  | ok _ _ hc =>
    obtain ⟨rfl, hc⟩ := hc
    rw [Act.bind_of_ok hrun', Act.pure_apply, vulnerablePaths_ofSink hc]

def besideCall : List (String × List Char) :=
  [("m.php", "<?php function f()\x7breturn $_GET['x'];\x7d $a = f(); $b = $_GET['y']; echo $b; echo $a;".toList)]

theorem detect_onlySink_besideCall : ∃ p t paths, Project.recordAll {} besideCall = .ok p ∧
    p.flows.StandsApart .xss t ∧
    (detect .plain usualLimit .xss { flows := p.flows }).1 = .ok paths ∧
    paths.map (fun path => (path.startsAt t, path.length)) = [(false, 2), (true, 3)] ∧
    (detect .plain usualLimit .xss { flows := p.flows.onlySink .xss t }).1 =
      .ok (paths.filter (Path.startsAt t)) := by
  have hcheck : ∃ p ∈ (Project.recordAll {} besideCall).toOption,
      ∃ t ∈ (p.flows.tokens? "m.php" "XSS_SENS").getD [], p.flows.ApartBy .xss t ["VAR2", "INPUT"] ∧
      ∃ paths ∈ (detect .plain usualLimit .xss { flows := p.flows }).1.toOption,
        paths.map (fun path => (path.startsAt t, path.length)) = [(false, 2), (true, 3)] := by
    decide +kernel
  obtain ⟨p, hp, t, -, hapart, paths, hpaths, hshape⟩ := hcheck
  have hrun := eq_ok_of_toOption hpaths
  have hstands := hapart.standsApart
  exact ⟨p, t, paths, eq_ok_of_toOption hp, hstands, hrun, hshape,
    detect_onlySink p.flows .xss t usualLimit paths hstands hrun⟩

def sharedCall : List (String × List Char) :=
  [("m.php", "<?php function f()\x7breturn $_GET['x'];\x7d $a = f(); echo $a; echo $a;".toList)]

/-- The call is looked into for the first sink only, so nothing is reported for the second one;
without the first one it is reported. -/
theorem exists_starved_sink : ∃ p t paths alone, Project.recordAll {} sharedCall = .ok p ∧
    ((p.flows.flatMap fun e => (e.2.get? "XSS_SENS").getD []).filter (·.same t)).length = 1 ∧
    (detect .plain usualLimit .xss { flows := p.flows }).1 = .ok paths ∧
    (detect .plain usualLimit .xss { flows := p.flows.onlySink .xss t }).1 = .ok alone ∧
    paths.map (Path.startsAt t) = [false] ∧ alone.map (Path.startsAt t) = [true] := by
  have hcheck : ∃ p ∈ (Project.recordAll {} sharedCall).toOption,
      ∃ t ∈ (p.flows.tokens? "m.php" "XSS_SENS").getD [],
      ((p.flows.flatMap fun e => (e.2.get? "XSS_SENS").getD []).filter (·.same t)).length = 1 ∧
      ∃ paths ∈ (detect .plain usualLimit .xss { flows := p.flows }).1.toOption,
      ∃ alone ∈ (detect .plain usualLimit .xss { flows := p.flows.onlySink .xss t }).1.toOption,
        paths.map (Path.startsAt t) = [false] ∧ alone.map (Path.startsAt t) = [true] := by
    decide +kernel
  obtain ⟨p, hp, t, -, hunique, paths, hpaths, alone, halone, hreported⟩ := hcheck
  exact ⟨p, t, paths, alone, eq_ok_of_toOption hp, hunique, eq_ok_of_toOption hpaths,
    eq_ok_of_toOption halone, hreported⟩

end Search

end MaskedTaint
