import MaskedTaint.Command.Source
import MaskedTaint.Proofs.Search.Candidates
import MaskedTaint.Proofs.Search.Reported

/-! The path chosen for a sink. The tokens behind the sink are compared place by place, and within
a place path by path. The first token met is the one to beat, whatever its scope; after it, only
tokens of the sink's own scope count, and of these the last one in the text wins. So a token of
another scope keeps its place if it is met first and no token of the sink's scope stands behind its
position, although positions of different scopes have nothing to do with each other. -/

namespace MaskedTaint

namespace Catalog

/-- Every path begins with the sink that it is recorded for. -/
def StartsAtSinks (c : Catalog) : Prop :=
  ∀ e ∈ c, ∀ p ∈ e.2, p.head?.map Token.mark = some e.1.mark

instance (c : Catalog) : Decidable c.StartsAtSinks :=
  inferInstanceAs (Decidable (∀ e ∈ c, ∀ p ∈ e.2, p.head?.map Token.mark = some e.1.mark))

/-- The tokens behind the sink, each with the path that it is met on, in the order of the search. -/
def met (ps : List Path) (longest : Nat) : List (Token × Path) :=
  (List.range' 1 (longest - 1)).flatMap fun i => ps.filterMap fun p => p[i]?.map (·, p)

def beats (sink : Token) (best : Token × Path) (m : Token × Path) : Token × Path :=
  if m.1.scope = sink.scope ∧ best.1.pos < m.1.pos then m else best

variable {sink : Token} {ps : List Path} {p : Path}

theorem nearer_eq (hp : p.head?.map Token.mark = some sink.mark) (i : Nat) (best : Nearest) :
    nearer i best p = match p[i]? with
      | none => best
      | some t => some (beats sink (best.getD (t, p)) (t, p)) := by
  obtain ⟨head, hhead, hmark⟩ := Option.map_eq_some_iff.mp hp
  have hscope : head.scope = sink.scope := congrArg Mark.scope hmark
  unfold nearer beats
  rw [hhead]
  cases p[i]? with
  | none => rfl
  | some t =>
    dsimp only
    have hpos : ∀ b : Token × Path, head.pos - t.pos < head.pos - b.1.pos ↔ b.1.pos < t.pos :=
      fun b => by omega
    by_cases ht : t.scope = sink.scope
    · simp only [hscope, ht, bne_self_eq_false, Bool.false_eq_true, if_false, hpos, true_and]
      split <;> rfl
    · simp [hscope, ht]

theorem foldl_nearer_eq (hps : ∀ p ∈ ps, p.head?.map Token.mark = some sink.mark) (i : Nat)
    (best : Nearest) : ps.foldl (nearer i) best = (ps.filterMap fun p => p[i]?.map (·, p)).foldl
        (fun best m => some (beats sink (best.getD m) m)) best := by
  induction ps generalizing best with
  | nil => rfl
  | cons p ps ih =>
    have hrest := ih fun q hq => hps q (List.mem_cons_of_mem _ hq)
    rw [List.foldl_cons, nearer_eq (hps p List.mem_cons_self), hrest]
    cases hp : p[i]? with
    | none => rw [List.filterMap_cons_none (by simp [hp])]
    | some t => rw [List.filterMap_cons_some (b := (t, p)) (by simp [hp]), List.foldl_cons]

theorem nearest_eq (hps : ∀ p ∈ ps, p.head?.map Token.mark = some sink.mark) :
    nearest ps = match met ps ((ps.map List.length).foldl max 0) with
      | [] => none
      | m :: ms => some (ms.foldl (beats sink) m).2 := by
  have hfold : ∀ (ms : List (Token × Path)) (m : Token × Path),
      ms.foldl (fun best m => some (beats sink (best.getD m) m)) (some m) =
        some (ms.foldl (beats sink) m) := by
    intro ms
    induction ms with
    | nil => exact fun _ => rfl
    | cons n ms ih => exact fun m => ih (beats sink m n)
  have hfirst : ∀ m : Token × Path, beats sink m m = m := fun m => ite_self m
  unfold nearest
  simp only [foldl_nearer_eq hps]
  rw [← List.foldl_flatMap, ← met]
  cases met ps ((ps.map List.length).foldl max 0) with
  | nil => rfl
  | cons m ms =>
    rw [List.foldl_cons, Option.getD_none, hfirst, hfold]
    rfl

/-- What is left at the end was met, no token of the sink's scope met later stands behind it, and
if it is not the first one it is of the sink's scope itself. -/
theorem foldl_beats_spec (sink : Token) (m : Token × Path) (ms : List (Token × Path)) :
    ms.foldl (beats sink) m ∈ m :: ms ∧
    (∀ n ∈ ms, n.1.scope = sink.scope → n.1.pos ≤ (ms.foldl (beats sink) m).1.pos) ∧
    (ms.foldl (beats sink) m = m ∨ (ms.foldl (beats sink) m).1.scope = sink.scope ∧
      m.1.pos < (ms.foldl (beats sink) m).1.pos) := by
  induction ms generalizing m with
  | nil => exact ⟨List.mem_singleton_self m, by simp, .inl rfl⟩
  | cons n ms ih =>
    obtain ⟨hmem, hmax, hfirst⟩ := ih (beats sink m n)
    rw [List.foldl_cons]
    generalize ms.foldl (beats sink) (beats sink m n) = best at hmem hmax hfirst
    have hle : (beats sink m n).1.pos ≤ best.1.pos := by
      rcases hfirst with rfl | hfirst
      · exact Int.le_refl _
      · exact Int.le_of_lt hfirst.2
    unfold beats at hmem hfirst hle
    split at hmem
    · rename_i hn
      rw [if_pos hn] at hfirst hle
      refine ⟨List.mem_cons_of_mem _ hmem, fun k hk hscope => ?_, .inr ⟨?_, by omega⟩⟩
      · rcases List.mem_cons.mp hk with rfl | hk
        · exact hle
        · exact hmax k hk hscope
      · rcases hfirst with rfl | hfirst
        · exact hn.1
        · exact hfirst.1
    · rename_i hn
      rw [if_neg hn] at hfirst hle
      refine ⟨?_, fun k hk hscope => ?_, hfirst⟩
      · rcases List.mem_cons.mp hmem with rfl | hmem
        · exact List.mem_cons_self
        · exact List.mem_cons_of_mem _ (List.mem_cons_of_mem _ hmem)
      · rcases List.mem_cons.mp hk with rfl | hk
        · have hpos : k.1.pos ≤ m.1.pos := Int.not_lt.mp fun hlt => hn ⟨hscope, hlt⟩
          omega
        · exact hmax k hk hscope

theorem mem_met {longest : Nat} (hlong : ∀ p ∈ ps, p.length ≤ longest) {t : Token} :
    (t, p) ∈ met ps longest ↔ p ∈ ps ∧ t ∈ p.tail := by
  simp only [met, List.mem_flatMap, List.mem_range'_1, List.mem_filterMap, Option.map_eq_some_iff,
    Prod.mk.injEq]
  constructor
  · rintro ⟨i, hi, p, hp, t, ht, rfl, rfl⟩
    refine ⟨hp, List.mem_of_getElem? (i := i - 1) ?_⟩
    rwa [List.getElem?_tail, Nat.sub_add_cancel hi.1]
  · rintro ⟨hp, ht⟩
    obtain ⟨i, hi⟩ := List.mem_iff_getElem?.mp ht
    rw [List.getElem?_tail] at hi
    have hlt := (List.getElem?_eq_some_iff.mp hi).1
    have hle := hlong p hp
    exact ⟨i + 1, by omega, p, hp, t, hi, rfl, rfl⟩

theorem length_le_longest (hp : p ∈ ps) : p.length ≤ (ps.map List.length).foldl max 0 := by
  have hle : ∀ (ns : List Nat) (k : Nat), ∀ n ∈ ns, n ≤ ns.foldl max k := by
    intro ns
    induction ns with
    | nil => exact fun _ n hn => by cases hn
    | cons m ns ih =>
      intro k n hn
      rcases List.mem_cons.mp hn with rfl | hn
      · exact (Nat.le_max_right k n).trans (le_foldl_max ns (max k n))
      · exact ih (max k m) n hn
  exact hle _ 0 _ (List.mem_map_of_mem hp)

/-- The first path that goes on behind the sink is the one met first. -/
theorem met_eq_cons {longest : Nat} {first : Path} {seed : Token}
    (hlong : ∀ p ∈ ps, p.length ≤ longest)
    (hfirst : ps.find? (1 < ·.length) = some first) (hseed : first[1]? = some seed) :
    ∃ ms, met ps longest = (seed, first) :: ms := by
  obtain ⟨hlength, front, back, rfl, hfront⟩ := List.find?_eq_some_iff_append.mp hfirst
  have hle := hlong first (by simp)
  have hlt : 1 < first.length := by simpa using hlength
  have hnone : front.filterMap (fun p => p[1]?.map (·, p)) = [] := by
    refine List.filterMap_eq_nil_iff.mpr fun p hp => ?_
    have hshort : p.length ≤ 1 := by simpa using hfront p hp
    rw [List.getElem?_eq_none hshort]
    rfl
  rw [met, show longest - 1 = longest - 2 + 1 by omega, List.range'_succ, List.flatMap_cons,
    List.filterMap_append, hnone, List.filterMap_cons_some (by rw [hseed]; rfl)]
  exact ⟨_, rfl⟩

/-- The token stands behind the sink on a recorded path, in the scope of the sink. -/
def BehindSink (e : Token × List Path) (t : Token) : Prop :=
  t.scope = e.1.scope ∧ ∃ p ∈ e.2, t ∈ p.tail

theorem nearest_spec {e : Token × List Path}
    (he : ∀ p ∈ e.2, p.head?.map Token.mark = some e.1.mark) {first : Path} {seed : Token}
    (hfirst : e.2.find? (1 < ·.length) = some first) (hseed : first[1]? = some seed) :
    ∃ q, nearest e.2 = some q ∧ q ∈ e.2 ∧ 1 < q.length ∧
      ((seed.scope = e.1.scope ∨ ∃ t, BehindSink e t ∧ seed.pos < t.pos) →
        ∃ t ∈ q.tail, t.scope = e.1.scope ∧ ∀ u, BehindSink e u → u.pos ≤ t.pos) ∧
      (¬ (seed.scope = e.1.scope ∨ ∃ t, BehindSink e t ∧ seed.pos < t.pos) → q = first) := by
  have hlong : ∀ p ∈ e.2, p.length ≤ (e.2.map List.length).foldl max 0 :=
    fun _ => length_le_longest
  obtain ⟨ms, hms⟩ := met_eq_cons hlong hfirst hseed
  have hnearest := nearest_eq he
  simp only [hms] at hnearest
  obtain ⟨hmem, hmax, hbest⟩ := foldl_beats_spec e.1 (seed, first) ms
  generalize ms.foldl (beats e.1) (seed, first) = best at hnearest hmem hmax hbest
  obtain ⟨b, q⟩ := best
  rw [← hms, mem_met hlong] at hmem
  have hmet : ∀ u, BehindSink e u → u = seed ∨ u.pos ≤ b.pos := by
    rintro u ⟨hscope, p, hp, hu⟩
    have hup := (mem_met hlong).mpr ⟨hp, hu⟩
    rw [hms] at hup
    rcases List.mem_cons.mp hup with hup | hup
    · exact .inl (congrArg Prod.fst hup)
    · exact .inr (hmax _ hup hscope)
  refine ⟨q, hnearest, hmem.1, ?_, fun hcase => ?_, fun hcase => ?_⟩
  · have := List.length_pos_of_mem hmem.2
    rw [List.length_tail] at this
    omega
  · have hall : ∀ u, BehindSink e u → u.pos ≤ b.pos := by
      intro u hu
      rcases hmet u hu with rfl | hle
      · rcases hbest with heq | hbest
        · cases heq
          exact Int.le_refl _
        · exact Int.le_of_lt hbest.2
      · exact hle
    refine ⟨b, hmem.2, ?_, hall⟩
    rcases hbest with heq | hbest
    · cases heq
      rcases hcase with hscope | ⟨t, ht, hlt⟩
      · exact hscope
      · have hle := hall t ht
        omega
    · exact hbest.1
  · rcases hbest with heq | hbest
    · exact (Prod.ext_iff.mp heq).2
    · exact absurd (.inr ⟨b, ⟨hbest.1, q, hmem⟩, hbest.2⟩) hcase

/-- For each sink, in order, all paths that are the sink alone are kept and one longer path, if there
is any. On that path stands the last token in the text that is of the sink's scope and behind the
sink on any of its paths, if the first token met is of that scope or before such a token in position;
otherwise the first longer path is kept. -/
theorem relevant_nearest {c : Catalog} (hc : c.StartsAtSinks) :
    ∃ chosen : Token × List Path → Option Path,
      c.relevant = (c.flatMap fun e => e.2.filter (·.length == 1) ++ (chosen e).toList) ∧
      ∀ e ∈ c, (chosen e = none ↔ ∀ p ∈ e.2, p.length = 1) ∧
        ∀ first seed, e.2.find? (1 < ·.length) = some first → first[1]? = some seed →
          ∃ q, chosen e = some q ∧ q ∈ e.2 ∧ 1 < q.length ∧
            ((seed.scope = e.1.scope ∨ ∃ t, BehindSink e t ∧ seed.pos < t.pos) →
              ∃ t ∈ q.tail, t.scope = e.1.scope ∧ ∀ u, BehindSink e u → u.pos ≤ t.pos) ∧
            (¬ (seed.scope = e.1.scope ∨ ∃ t, BehindSink e t ∧ seed.pos < t.pos) → q = first) := by
  refine ⟨fun e => nearest e.2, rfl, fun e he => ⟨⟨fun hnone p hp => ?_, fun hall => ?_⟩, ?_⟩⟩
  · obtain ⟨head, hhead, -⟩ := Option.map_eq_some_iff.mp (hc e he p hp)
    have hpos : 0 < p.length := List.length_pos_of_mem (List.mem_of_head? hhead)
    by_contra hne
    have hlonger : (e.2.find? (1 < ·.length)).isSome = true :=
      List.find?_isSome.mpr ⟨p, hp, decide_eq_true (by omega)⟩
    obtain ⟨first, hfirst⟩ := Option.isSome_iff_exists.mp hlonger
    have hlt : 1 < first.length := by simpa using List.find?_some hfirst
    obtain ⟨q, hq, -⟩ := nearest_spec (hc e he) hfirst (List.getElem?_eq_getElem hlt)
    cases hq.symm.trans hnone
  · have hmet : met e.2 ((e.2.map List.length).foldl max 0) = [] := by
      refine List.eq_nil_iff_forall_not_mem.mpr fun ⟨t, p⟩ hm => ?_
      obtain ⟨hp, ht⟩ := (mem_met fun _ => length_le_longest).mp hm
      have hshort := List.length_pos_of_mem ht
      rw [List.length_tail, hall p hp] at hshort
      omega
    simp only [nearest_eq (hc e he), hmet]
  · exact fun first seed => nearest_spec (hc e he)

def overwriting (page : String) : List (String × List Char) :=
  [("a.php", "<?php $x = 'a'; include \"b.php\"; $x = $_GET['k']; echo $x; ?>".toList),
    ("b.php", page.toList)]

theorem relevant_nearest_overwriting : ∃ p c e,
    Project.recordAll {} (overwriting "<?php $x = 'b'; ?>") = .ok p ∧
    (Search.exploreScopes .plain ⟨20, 20⟩ (Special.sink .xss).name p.flows.names []
      { flows := p.flows }).1 = .ok c ∧ c.StartsAtSinks ∧ e ∈ c ∧ e.2.length = 2 ∧
    ∃ q ∈ c.relevant, ∃ t ∈ q.tail, t.scope = e.1.scope ∧ ∀ u, BehindSink e u → u.pos ≤ t.pos := by
  have hcheck : ∃ p ∈ (Project.recordAll {} (overwriting "<?php $x = 'b'; ?>")).toOption,
      ∃ c ∈ (Search.exploreScopes .plain ⟨20, 20⟩ (Special.sink .xss).name p.flows.names []
        { flows := p.flows }).1.toOption, c.StartsAtSinks ∧ ∃ e ∈ c, e.2.length = 2 ∧
        ∃ first ∈ e.2.find? (1 < ·.length), ∃ seed ∈ first[1]?,
          ∃ p ∈ e.2, ∃ t ∈ p.tail, t.scope = e.1.scope ∧ seed.pos < t.pos := by
    decide +kernel
  obtain ⟨p, hp, c, hrun, hc, e, he, hlength, first, hfirst, seed, hseed, r, hr, t, ht, hscope, hlt⟩ :=
    hcheck
  obtain ⟨chosen, hrelevant, hchosen⟩ := relevant_nearest hc
  obtain ⟨q, hq, -, -, hnear, -⟩ := (hchosen e he).2 first seed hfirst hseed
  refine ⟨p, c, e, eq_ok_of_toOption hp, eq_ok_of_toOption hrun, hc, he, hlength, q, ?_,
    hnear (.inr ⟨t, ⟨hscope, r, hr, ht⟩, hlt⟩)⟩
  rw [hrelevant]
  exact List.mem_flatMap.mpr ⟨e, he, List.mem_append_right _ (by simp [hq])⟩

/-- An included file that sets the variable at a position behind the later assignment of the input
takes its place: the path to the input is recorded, but not chosen, and nothing is reported. -/
theorem exists_input_outshone : ∃ p c e,
    Project.recordAll {} (overwriting "<?php $title = 'The name of this page'; $x = 'b'; ?>") = .ok p ∧
    (Search.exploreScopes .plain ⟨20, 20⟩ (Special.sink .xss).name p.flows.names []
      { flows := p.flows }).1 = .ok c ∧ c.StartsAtSinks ∧ e ∈ c ∧
    (∃ t, BehindSink e t ∧ t.kind = Special.input.name) ∧
    (∀ q ∈ c.relevant, ∀ t ∈ q.tail, t.scope ≠ e.1.scope) ∧
    (Search.detect .plain ⟨20, 20⟩ .xss { flows := p.flows }).1 = .ok [] := by
  have hcheck : ∃ p ∈ (Project.recordAll {}
        (overwriting "<?php $title = 'The name of this page'; $x = 'b'; ?>")).toOption,
      ∃ c ∈ (Search.exploreScopes .plain ⟨20, 20⟩ (Special.sink .xss).name p.flows.names []
        { flows := p.flows }).1.toOption, c.StartsAtSinks ∧ ∃ e ∈ c,
        (∃ r ∈ e.2, ∃ t ∈ r.tail, t.scope = e.1.scope ∧ t.kind = Special.input.name) ∧
        (∀ q ∈ c.relevant, ∀ t ∈ q.tail, t.scope ≠ e.1.scope) ∧
        ∃ paths ∈ (Search.detect .plain ⟨20, 20⟩ .xss { flows := p.flows }).1.toOption,
          paths.length = 0 := by
    decide +kernel
  obtain ⟨p, hp, c, hrun, hc, e, he, ⟨r, hr, t, ht, hscope, hkind⟩, hnone, paths, hpaths, hlength⟩ :=
    hcheck
  rw [List.eq_nil_of_length_eq_zero hlength] at hpaths
  exact ⟨p, c, e, eq_ok_of_toOption hp, eq_ok_of_toOption hrun, hc, he,
    ⟨t, ⟨hscope, r, hr, ht⟩, hkind⟩, hnone, eq_ok_of_toOption hpaths⟩

end Catalog

end MaskedTaint
