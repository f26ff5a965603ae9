import MaskedTaint.Proofs.Search.Traces

/-! Searching a structure with one scope. The search changes nothing but the recorded paths: it
records the traces of each sink one after the other. -/

namespace MaskedTaint

namespace Path

theorem concludeAll?_flatMap {α : Type} (f : α → List Path) (xs : List α) (recorded : List Path) :
    concludeAll? (xs.flatMap f) recorded =
      xs.foldlM (fun recorded x => concludeAll? (f x) recorded) recorded := by
  induction xs generalizing recorded with
  | nil => rfl
  | cons x xs ih =>
    rw [List.flatMap_cons, concludeAll?_append, List.foldlM_cons]
    exact Option.bind_congr fun recorded _ => ih recorded

end Path

namespace Structure

def sinks (d : Structure) (v : Vulnerability) (scope : String) : List Token :=
  (d.tokens? scope (Special.sink v).name).getD []

/-- The path is recorded for the sink, and it is the nearest one or passes by a branch that the
nearest one takes. -/
def Candidate (d : Structure) (scope : String) (t : Token) (p : Path) : Prop :=
  p ∈ d.paths scope t ∧ ∃ q, Catalog.IsNearest (d.paths scope t) q ∧
    (p = q ∨ ∃ u ∈ q, t.mark.depth < u.mark.depth ∧ Catalog.bypasses u p = true)

theorem length_le_occurrences {d : Structure} {scope key : String} {ts : List Token}
    (h : d.tokens? scope key = some ts) : ts.length ≤ d.occurrences.length := by
  have hin : ts.length ≤ (Token.occurrencesIn ts).length := by
    clear h
    induction ts with
    | nil => simp
    | cons t ts ih =>
      have := List.length_pos_of_mem t.mem_occurrences_self
      simp only [Token.occurrencesIn, List.length_append, List.length_cons]
      omega
  obtain ⟨e, he, hlist⟩ := mem_of_tokens? h
  exact Nat.le_trans hin (list_within he hlist).length_le

end Structure

namespace Search

variable {d : Structure} {scope : String} {s : Search} {ps : List Path} {limit : Limit}

theorem conclude_eq {p : Path} (h : p.conclude? s.paths = some ps) :
    conclude p s = (.ok (), { s with paths := ps }) := by
  simp [conclude, Act.bind_apply, Act.state, h, Act.update]

theorem importsOf_eq (h : d.Single scope) (hs : s.flows = d) :
    importsOf .plain { name := scope } s = (.ok (.fixed []), s) := by
  have hnone : s.source? { name := scope } (Lexicon.plain.place .imports) = none := by
    have himports : d.tokens? scope (Lexicon.plain.place .imports) = none := h.imports
    simp [source?, hs, himports]
  simp [importsOf, Act.bind_apply, Act.state, hnone]

theorem findImport_nil (wanted : Token → Bool) (key : String) (s : Search) :
    findImport .plain wanted key (.fixed []) s = (.ok none, s) := rfl

variable {t : Token} {ts : List Token}

theorem unvisit_concat {us : List Token} (h : t.isIn us = false) : unvisit t (us ++ [t]) = us := by
  induction us with
  | nil => simp [unvisit, Token.same_refl]
  | cons u us ih =>
    simp only [Token.isIn, List.any_cons, Bool.or_eq_false_iff] at h
    have hu : u.same t = false := by
      by_contra hsame
      rw [Token.same_symm (by simpa using hsame)] at h
      cases h.1
    simp [unvisit, hu, ih h.2]

theorem walk_eq {key : String} {visited : List Token} {body : Source → Token → Searching Source}
    (record : Token → List Path → Option (List Path)) (hts : d.tokens? scope key = some ts)
    (hbody : ∀ t ∈ ts, ∀ s : Search, ∀ ps, s.flows = d → s.visited = visited →
      record t s.paths = some ps → body (.fixed []) t s = (.ok (.fixed []), { s with paths := ps }))
    {width i : Nat} (hwidth : ts.length < width + i) (hi : i ≤ ts.length) (hs : s.flows = d)
    (hvisited : s.visited = visited)
    (hps : (ts.drop i).foldlM (fun recorded t => record t recorded) s.paths = some ps) :
    walk (.stored scope key) body width i (.fixed []) s =
      (.ok (.fixed []), { s with paths := ps }) := by
  induction width generalizing i s with
  | zero => omega
  | succ width ih =>
    have hread : s.read (.stored scope key) = ts := by simp [read, hs, hts]
    cases hget : ts[i]? with
    | none =>
      have hend : ts.drop i = [] := List.drop_eq_nil_of_le (List.getElem?_eq_none_iff.mp hget)
      rw [hend] at hps
      cases hps
      simp [walk, Act.bind_apply, Act.state, hread, hget]
    | some t =>
      obtain ⟨hlt, ht⟩ := List.getElem?_eq_some_iff.mp hget
      rw [List.drop_eq_getElem_cons hlt, ht, List.foldlM_cons] at hps
      obtain ⟨qs, hqs, hrest⟩ := Option.bind_eq_some_iff.mp hps
      have hstep := hbody t (List.mem_of_getElem? hget) s qs hs hvisited hqs
      have hlater := @ih { s with paths := qs } (i + 1) (by omega) (by omega) hs hvisited hrest
      simp only [walk, Act.bind_apply, Act.state, hread, hget, hstep]
      exact hlater

theorem followList_eq (go : View → Source → Token → Searching Unit) {key : String}
    {current : Token} {f : Token → List Path} (h : d.Single scope)
    (hts : d.tokens? scope key = some ts) (hwidth : ts.length < limit.width)
    (hcurrent : current.scope = scope) (hs : s.flows = d)
    (hvisited : ∀ u ∈ s.visited, (∃ key, d.Entry scope key u) ∧ current.pos ≤ u.pos)
    (hgo : ∀ t ∈ ts, t.pos < current.pos → ∀ s' : Search, ∀ ps, s'.flows = d →
      s'.visited = s.visited ++ [t] → Path.concludeAll? (f t) s'.paths = some ps →
      go { name := scope } (.fixed []) t s' = (.ok (), { s' with paths := ps }))
    (hps : Path.concludeAll? ((ts.filter fun t => t.pos < current.pos).flatMap f) s.paths = some ps) :
    followList .plain limit go { name := scope } key current (.stored scope key) (.fixed []) s =
      (.ok (), { s with paths := ps }) := by
  let record : Token → List Path → Option (List Path) := fun t recorded =>
    if t.pos < current.pos then Path.concludeAll? (f t) recorded else some recorded
  have hrecord : (ts.drop 0).foldlM (fun recorded t => record t recorded) s.paths = some ps := by
    rw [List.drop_zero, ← hps, Path.concludeAll?_flatMap, List.foldlM_filter]
    simp only [record, decide_eq_true_eq]
    rfl
  rw [followList]
  refine (Act.bind_of_ok (walk_eq record hts (fun t ht s' qs hs' hvisited' hqs => ?_) (by omega)
    (by omega) hs rfl hrecord) _).trans rfl
  have hscope : t.scope = scope := h.scope _ _ ⟨ts, hts, ht⟩
  by_cases hlt : t.pos < current.pos
  · have hnew : t.isIn s.visited = false := by
      by_contra hin
      have hin : t.isIn s.visited = true := by simpa using hin
      obtain ⟨u, hu, hsame⟩ := List.any_eq_true.mp hin
      obtain ⟨⟨key', hentry⟩, hle⟩ := hvisited u hu
      cases h.apart _ _ _ _ ⟨ts, hts, ht⟩ hentry hsame
      omega
    have hfollow : s'.canFollow current t = true := by
      simp [canFollow, hvisited', hnew, hlt]
    have hgone := hgo t ht hlt { s' with visited := s'.visited ++ [t] } qs hs' (by rw [hvisited'])
      (by simpa [record, hlt] using hqs)
    have hleave : unvisit t (s'.visited ++ [t]) = s'.visited := unvisit_concat (by rw [hvisited', hnew])
    simp only [followStep, Act.bind_apply, Act.state, hfollow, Bool.not_true, Bool.false_eq_true, if_false, visit,
      Act.update, findImport_nil, hgone, leave, hleave]
    rfl
  · have hfollow : s'.canFollow current t = false := by
      simp [canFollow, hscope, hcurrent, hlt]
    have hqs : s'.paths = qs := by simpa [record, hlt] using hqs
    subst hqs
    simp [followStep, Act.bind_apply, Act.state, hfollow]

section

variable (h : d.Single scope)
  (hwidth : ∀ key ts, d.tokens? scope key = some ts → ts.length < limit.width)

include h hwidth

theorem explore_eq {depth : Nat}
    {p : Path} (hdepth : d.below t < depth) (ht : ∃ key, d.Entry scope key t) (hs : s.flows = d)
    (hvisited : ∀ u ∈ s.visited, (∃ key, d.Entry scope key u) ∧ t.pos ≤ u.pos)
    (hps : Path.concludeAll? ((d.traces scope t).map (p ++ ·)) s.paths = some ps) :
    explore .plain limit depth p { name := scope } (.fixed []) t s =
      (.ok (), { s with paths := ps }) := by
  induction depth generalizing p t s ps with
  | zero => omega
  | succ depth ih =>
    obtain ⟨key, hkey⟩ := ht
    have hcall : t.kind ≠ Lexicon.plain.word .call := h.kind _ _ hkey
    have hscope : t.scope = scope := h.scope _ _ hkey
    cases hts : d.tokens? scope t.kind with
    | none =>
      have hsource : s.source? { name := scope } (Lexicon.plain.key t.kind) = none := by
        simp [source?, hs, Lexicon.plain, hts]
      have hps : (p ++ [t]).conclude? s.paths = some ps := by
        simpa [Structure.traces_of_none hts, Path.concludeAll?] using hps
      have hconclude := conclude_eq hps
      have hin : Lexicon.plain.key t.scope = scope := hscope
      rw [explore]
      simp only [Act.bind_apply, Act.state, hcall, if_false, hsource, hin, ne_eq, not_true_eq_false]
      split
      · exact hconclude
      · exact (Act.bind_of_ok (findImport_nil _ _ _) _).trans hconclude
    | some ts =>
      have hsource : s.source? { name := scope } (Lexicon.plain.key t.kind) =
          some (.stored scope t.kind) := by
        simp [source?, hs, Lexicon.plain, hts]
      have hps : Path.concludeAll? ((ts.filter fun u => u.pos < t.pos).flatMap fun u =>
          (d.traces scope u).map (p ++ [t] ++ ·)) s.paths = some ps := by
        rw [Structure.traces_of_some hts, List.map_flatMap] at hps
        simpa [Function.comp_def] using hps
      have hfollow := followList_eq (explore .plain limit depth (p ++ [t])) h hts (hwidth _ _ hts)
        hscope hs hvisited (fun u hu hlt s' qs hs' hvisited' hqs => by
          have hentry : d.Entry scope t.kind u := ⟨ts, hts, hu⟩
          have hbelow := Structure.below_lt (t := t) hentry hlt
          refine ih (by omega) ⟨_, hentry⟩ hs' (fun w hw => ?_) hqs
          rw [hvisited'] at hw
          rcases List.mem_append.mp hw with hw | hw
          · obtain ⟨hentry, hle⟩ := hvisited w hw
            exact ⟨hentry, by omega⟩
          · cases List.mem_singleton.mp hw
            exact ⟨⟨_, hentry⟩, Int.le_refl _⟩) hps
      rw [explore]
      simp only [Act.bind_apply, Act.state, hcall, if_false, hsource]
      exact hfollow

theorem exploreSinks_go_eq (hdepth : d.occurrences.length < limit.depth) {place : String}
    (hts : d.tokens? scope place = some ts) {width i : Nat} (hlen : ts.length < width + i)
    (hi : i ≤ ts.length) (hs : s.flows = d) :
    ∃ s', exploreSinks.go .plain limit { name := scope } (.stored scope place) width i
        (Catalog.ofSinks (d.paths scope) (ts.take i)) s =
      (.ok (Catalog.ofSinks (d.paths scope) ts), s') ∧ s'.flows = d := by
  induction width generalizing i s with
  | zero => omega
  | succ width ih =>
    have hread : s.read (.stored scope place) = ts := by simp [read, hs, hts]
    cases hget : ts[i]? with
    | none =>
      have hend : ts.take i = ts := List.take_of_length_le (List.getElem?_eq_none_iff.mp hget)
      refine ⟨s, ?_, hs⟩
      simp [exploreSinks.go, Act.bind_apply, Act.state, hread, hget, hend]
    | some t =>
      obtain ⟨hlt, ht⟩ := List.getElem?_eq_some_iff.mp hget
      have hentry : d.Entry scope place t := ⟨ts, hts, List.mem_of_getElem? hget⟩
      have hbelow : d.below t < limit.depth := Nat.lt_of_le_of_lt (d.below_le t) hdepth
      have hexplore := explore_eq (s := { s with visited := [t], paths := [] }) h hwidth hbelow
        ⟨place, hentry⟩ hs (fun u hu => by cases List.mem_singleton.mp hu; exact ⟨⟨_, hentry⟩, Int.le_refl _⟩)
        (p := []) (by simpa using Path.concludeAll?_of_pairwise (h.traces_pairwise t))
      have himports := importsOf_eq (s := { s with visited := [t], paths := [] }) h hs
      have hnew : ∀ u ∈ ts.take i, u.same t = false := by
        intro u hu
        by_contra hsame
        have huentry : d.Entry scope place u := ⟨ts, hts, List.mem_of_mem_take hu⟩
        have heq := h.apart _ _ _ _ huentry hentry (by simpa using hsame)
        have hsplit := h.ascending _ _ hts
        rw [← List.take_append_drop i ts, List.drop_eq_getElem_cons hlt, ht] at hsplit
        have := (List.pairwise_append.mp hsplit).2.2 u hu t List.mem_cons_self
        rw [heq] at this
        omega
      have hcatalog : (Catalog.ofSinks (d.paths scope) (ts.take i)).add t (d.paths scope t) =
          Catalog.ofSinks (d.paths scope) (ts.take (i + 1)) := by
        rw [← Catalog.ofSinks_concat _ hnew, ← ht, List.take_append_getElem]
      obtain ⟨s', hgo, hs'⟩ := @ih { s with visited := [t], paths := d.paths scope t } (i + 1)
        (by omega) (by omega) hs
      refine ⟨s', ?_, hs'⟩
      rw [← hgo]
      simp only [exploreSinks.go, Act.bind_apply, Act.state, hread, hget, Act.update, himports, hexplore,
        ← hcatalog]
      rfl

end

variable {v : Vulnerability}

theorem exploreSinks_eq (h : d.Single scope)
    (hwidth : ∀ key ts, d.tokens? scope key = some ts → ts.length < limit.width)
    (hdepth : d.occurrences.length < limit.depth) (place : String) (hs : s.flows = d) :
    ∃ s', exploreSinks .plain limit { name := scope } place [] s =
      (.ok (Catalog.ofSinks (d.paths scope) ((d.tokens? scope place).getD [])), s') ∧
        s'.flows = d := by
  cases hts : d.tokens? scope place with
  | none =>
    have hsource : s.source? { name := scope } place = none := by simp [source?, hs, hts]
    refine ⟨s, ?_, hs⟩
    simp [exploreSinks, Act.bind_apply, Act.state, hsource, Catalog.ofSinks]
  | some ts =>
    have hsource : s.source? { name := scope } place = some (.stored scope place) := by
      simp [source?, hs, hts]
    obtain ⟨s', hgo, hs'⟩ := exploreSinks_go_eq (i := 0) h hwidth hdepth hts (hwidth _ _ hts)
      (Nat.zero_le _) hs
    refine ⟨s', ?_, hs'⟩
    simp only [exploreSinks, Act.bind_apply, Act.state, hsource, Option.getD_some]
    exact hgo

theorem exploreCalls_eq (h : d.Single scope) (hwidth : 0 < limit.width) (place : String)
    (c : Catalog) (hs : s.flows = d) : exploreCalls .plain limit scope place c s = (.ok c, s) := by
  have hcalls : d.tokens? scope (Lexicon.plain.place .call) = none := h.calls
  have hread : s.read (.stored scope (Lexicon.plain.place .call)) = [] := by
    simp [read, hs, hcalls]
  obtain ⟨width, hwidth⟩ := Nat.exists_eq_add_one.mpr hwidth
  simp [exploreCalls, hwidth, exploreCalls.go, Act.bind_apply, Act.state, hread]

theorem detect_of_single (h : d.Single scope) (hdepth : d.occurrences.length < limit.depth)
    (hwidth : d.occurrences.length < limit.width) (hs : s.flows = d) : (detect .plain limit v s).1 =
      .ok (vulnerablePaths .plain v (Catalog.ofSinks (d.paths scope) (d.sinks v scope))) := by
  have hlists : ∀ key ts, d.tokens? scope key = some ts → ts.length < limit.width :=
    fun key ts hts => Nat.lt_of_le_of_lt (Structure.length_le_occurrences hts) hwidth
  obtain ⟨s', hsinks, hs'⟩ := exploreSinks_eq h hlists hdepth (Lexicon.plain.place (.sink v)) hs
  have hplace : (d.tokens? scope (Lexicon.plain.place (.sink v))).getD [] = d.sinks v scope := rfl
  rw [hplace] at hsinks
  have hcalls := exploreCalls_eq h (Nat.zero_lt_of_lt hwidth) (Lexicon.plain.place (.sink v))
    (Catalog.ofSinks (d.paths scope) (d.sinks v scope)) hs'
  have hnames : s.flows.names = [scope] := by rw [hs, h.names]
  have hscopes : exploreScopes .plain limit (Lexicon.plain.place (.sink v)) [scope] [] s =
      (.ok (Catalog.ofSinks (d.paths scope) (d.sinks v scope)), s') := by
    rw [exploreScopes, Act.bind_of_ok hsinks, Act.bind_of_ok hcalls]
    rfl
  simp only [detect, Act.bind_apply, Act.state, hnames, hscopes]
  rfl

theorem detect_eq (h : d.OneScope scope) (hdepth : d.occurrences.length < limit.depth)
    (hwidth : d.occurrences.length < limit.width) (hs : s.flows = d) : (detect .plain limit v s).1 =
      .ok (vulnerablePaths .plain v (Catalog.ofSinks (d.paths scope) (d.sinks v scope))) :=
  detect_of_single h.toSingle hdepth hwidth hs

theorem entry_of_mem_sinks (ht : t ∈ d.sinks v scope) : d.Entry scope (Special.sink v).name t := by
  cases hts : d.tokens? scope (Special.sink v).name with
  | none => simp [Structure.sinks, hts] at ht
  | some ts =>
    simp only [Structure.sinks, hts, Option.getD_some] at ht
    exact ⟨ts, hts, ht⟩

theorem pathsOf_ofSinks (h : d.Single scope) (ht : t ∈ d.sinks v scope) {q : Path}
    (hq : q ∈ d.paths scope t) :
    (Catalog.ofSinks (d.paths scope) (d.sinks v scope)).pathsOf q = d.paths scope t := by
  have hascending : (d.sinks v scope).Pairwise fun t u => t.pos < u.pos := by
    cases hts : d.tokens? scope (Special.sink v).name with
    | none => simp [Structure.sinks, hts]
    | some ts => simpa [Structure.sinks, hts] using h.ascending _ _ hts
  have happart : (d.sinks v scope).Pairwise fun t u => t.same u = false := by
    refine hascending.imp_of_mem fun {t u} ht hu hlt => ?_
    by_contra hsame
    have heq := h.apart _ _ _ _ (entry_of_mem_sinks ht) (entry_of_mem_sinks hu) (by simpa using hsame)
    rw [heq] at hlt
    omega
  simp only [Catalog.pathsOf, Structure.head?_of_mem_paths hq, Option.map_some, Option.getD_some]
  exact Catalog.find_ofSinks _ happart ht

theorem mem_withBranches_ofSinks (h : d.Single scope) (p : Path) :
    let c := Catalog.ofSinks (d.paths scope) (d.sinks v scope)
    p ∈ c.withBranches c.relevant ↔ ∃ t ∈ d.sinks v scope, d.Candidate scope t p := by
  intro c
  have hrelevant : ∀ q, q ∈ c.relevant ↔
      ∃ t ∈ d.sinks v scope, Catalog.IsNearest (d.paths scope t) q := by
    intro q
    rw [Catalog.relevant_ofSinks, List.mem_flatMap]
    exact exists_congr fun t => and_congr_right fun ht => h.mem_relevantOf ⟨_, entry_of_mem_sinks ht⟩ q
  have hmem : p ∈ c.withBranches c.relevant ↔ p ∈ c.relevant ∨
      ∃ r ∈ c.relevant, ∃ t ∈ Catalog.deeper r, p ∈ c.pathsOf r ∧ Catalog.bypasses t p = true :=
    Catalog.mem_withBranches (P := fun p => ∀ x ∈ p, ∃ key, d.Entry scope key x)
    (fun p q hp hq => h.path_apart hp hq)
    (fun r hr => by
      obtain ⟨t, ht, hnear⟩ := (hrelevant r).mp hr
      exact fun x hx => Structure.entry_of_mem_paths ⟨_, entry_of_mem_sinks ht⟩ hnear.mem hx)
    (fun r hr w hw => by
      obtain ⟨t, ht, hnear⟩ := (hrelevant r).mp hr
      rw [pathsOf_ofSinks h ht hnear.mem] at hw
      exact fun x hx => Structure.entry_of_mem_paths ⟨_, entry_of_mem_sinks ht⟩ hw hx) p
  rw [hmem]
  constructor
  · rintro (hq | ⟨r, hr, u, hu, hq, hby⟩)
    · obtain ⟨t, ht, hnear⟩ := (hrelevant p).mp hq
      exact ⟨t, ht, hnear.mem, p, hnear, .inl rfl⟩
    · obtain ⟨t, ht, hnear⟩ := (hrelevant r).mp hr
      rw [pathsOf_ofSinks h ht hnear.mem] at hq
      obtain ⟨hu, hdeep⟩ := List.mem_filter.mp hu
      rw [Structure.head?_of_mem_paths hnear.mem] at hdeep
      exact ⟨t, ht, hq, r, hnear, .inr ⟨u, hu, by simpa using hdeep, hby⟩⟩
  · rintro ⟨t, ht, hq, r, hnear, rfl | ⟨u, hu, hdeep, hby⟩⟩
    · exact .inl ((hrelevant p).mpr ⟨t, ht, hnear⟩)
    · refine .inr ⟨r, (hrelevant r).mpr ⟨t, ht, hnear⟩, u, ?_, ?_, hby⟩
      · refine List.mem_filter.mpr ⟨hu, ?_⟩
        simp [Structure.head?_of_mem_paths hnear.mem, hdeep]
      · rwa [pathsOf_ofSinks h ht hnear.mem]

theorem mem_vulnerablePaths (h : d.OneScope scope) (p : Path) :
    p ∈ vulnerablePaths .plain v (Catalog.ofSinks (d.paths scope) (d.sinks v scope)) ↔
      isVulnerable .plain v p = true ∧ ∃ t ∈ d.sinks v scope, d.Candidate scope t p := by
  let c := Catalog.ofSinks (d.paths scope) (d.sinks v scope)
  have hbranches : ∀ q, q ∈ c.withBranches c.relevant ↔ ∃ t ∈ d.sinks v scope, d.Candidate scope t q :=
    fun q => mem_withBranches_ofSinks h.toSingle q
  have heven : c.withSplits (c.withBranches c.relevant) = c.withBranches c.relevant := by
    refine Catalog.withSplits_of_even fun q hq x hx => ?_
    obtain ⟨t, ht, hq, -⟩ := (hbranches q).mp hq
    obtain ⟨key, hx⟩ := Structure.entry_of_mem_paths ⟨_, entry_of_mem_sinks ht⟩ hq hx
    rw [Structure.head?_of_mem_paths hq, h.split _ _ _ _ hx (entry_of_mem_sinks ht)]
    rfl
  rw [vulnerablePaths, List.mem_filter, heven, hbranches, and_comm]

end Search

end MaskedTaint
