import MaskedTaint.Proofs.Search.Horizon
import MaskedTaint.Proofs.Search.Pruning
import MaskedTaint.Proofs.Search.Safety

/-! The part of a catalog that is about one sink. Paths are compared and joined only with paths of
the same sink, so what a catalog reports for a sink is what its part for that sink reports. -/

namespace MaskedTaint

section Filter

variable {α : Type} {p : α → Bool} {xs : List α} {i : Nat}

theorem filter_take_succ_of_pos (hi : i < xs.length) (hp : p xs[i] = true) :
    (xs.take (i + 1)).filter p = (xs.take i).filter p ++ [xs[i]] := by
  rw [List.take_succ_eq_append_getElem hi, List.filter_append, List.filter_cons_of_pos hp,
    List.filter_nil]

theorem filter_take_succ_of_neg (hi : i < xs.length) (hp : ¬ p xs[i] = true) :
    (xs.take (i + 1)).filter p = (xs.take i).filter p := by
  rw [List.take_succ_eq_append_getElem hi, List.filter_append, List.filter_cons_of_neg hp,
    List.filter_nil, List.append_nil]

theorem getElem?_filter_take (hi : i < xs.length) (hp : p xs[i] = true) :
    (xs.filter p)[((xs.take i).filter p).length]? = some xs[i] := by
  have hsplit : xs.filter p = (xs.take i).filter p ++ xs[i] :: (xs.drop (i + 1)).filter p := by
    conv_lhs => rw [← List.take_append_drop i xs, List.drop_eq_getElem_cons hi]
    rw [List.filter_append, List.filter_cons_of_pos hp]
  rw [hsplit, List.getElem?_append_right le_rfl, Nat.sub_self, List.getElem?_cons_zero]

end Filter

theorem Token.same_congr_left {a b : Token} (h : a.same b = true) (t : Token) : a.same t = b.same t := by
  rw [same, same, beq_iff_eq.mp h]

namespace Path

def startsAt (t : Token) (p : Path) : Bool := p.head?.any (·.same t)

theorem startsAt_congr {p q : Path} (h : p.same q = true) (t : Token) : p.startsAt t = q.startsAt t := by
  cases p with
  | nil =>
    cases q with
    | nil => rfl
    | cons b q => cases h
  | cons a p =>
    cases q with
    | nil => cases h
    | cons b q =>
      simp only [same, Bool.and_eq_true] at h
      exact Token.same_congr_left h.1 t

theorem isIn_filter_startsAt {t : Token} {p : Path} (hp : p.startsAt t = true) (cs : List Path) :
    p.isIn (cs.filter (startsAt t)) = p.isIn cs := by
  rw [isIn, isIn, List.any_filter]
  refine congrArg (List.any cs) (funext fun q => ?_)
  cases hsame : p.same q with
  | false => simp
  | true => simp [← startsAt_congr hsame t, hp]

end Path

namespace Catalog

def ofSink (c : Catalog) (t : Token) : Catalog := c.filter fun e => e.1.same t

theorem add_nil (c : Catalog) (u : Token) : c.add u [] = c := by cases c <;> rfl

theorem add_cons (e : Token × List Path) (c : Catalog) (u : Token) {ps : List Path} (h : ps ≠ []) :
    Catalog.add (e :: c) u ps =
      if e.1.same u then (e.1, e.2 ++ ps) :: c else e :: Catalog.add c u ps := by
  cases ps with
  | nil => exact absurd rfl h
  | cons p ps => rfl

theorem ofSink_cons (e : Token × List Path) (c : Catalog) (t : Token) :
    ofSink (e :: c) t = if e.1.same t then e :: ofSink c t else ofSink c t := List.filter_cons

theorem ofSink_add (c : Catalog) (t u : Token) (ps : List Path) :
    (c.add u ps).ofSink t = if u.same t then (c.ofSink t).add u ps else c.ofSink t := by
  by_cases hps : ps = []
  · rw [hps, add_nil, add_nil, ite_self]
  · induction c with
    | nil =>
      obtain ⟨p, ps, rfl⟩ := List.exists_cons_of_ne_nil hps
      by_cases hu : u.same t = true <;> simp [add, ofSink, hu]
    | cons e c ih =>
      rw [add_cons e c u hps, ofSink_cons]
      by_cases hsame : e.1.same u = true
      · have hkey := Token.same_congr_left hsame t
        rw [if_pos hsame, ofSink_cons]
        dsimp only
        rw [hkey]
        split
        · rw [add_cons _ _ _ hps, if_pos hsame]
        · rfl
      · rw [if_neg hsame, ofSink_cons, ih]
        split
        · split
          · rw [add_cons _ _ _ hps, if_neg hsame]
          · rfl
        · rfl

theorem find_ofSink (c : Catalog) (t u : Token) :
    (c.ofSink t).find u = if u.same t then c.find u else [] := by
  have hfind : List.find? (fun e => e.1.same u) (c.ofSink t) =
      if u.same t then List.find? (fun e => e.1.same u) c else none := by
    rw [ofSink, List.find?_filter]
    split
    · rename_i hu
      refine congrArg (List.find? · c) (funext fun e => ?_)
      cases he : e.1.same u with
      | false => simp
      | true => simp [Token.same_congr_left he t, hu]
    · rename_i hu
      refine List.find?_eq_none.mpr fun e _ he => hu ?_
      obtain ⟨het, heu⟩ := of_decide_eq_true he
      exact Token.same_congr_left heu t ▸ het
  rw [find, hfind]
  split <;> rfl

open Search (BeginsAtSinks)

variable {c : Catalog} {t : Token}

theorem startsAt_of_mem (hc : BeginsAtSinks c) {e : Token × List Path} (he : e ∈ c) {p : Path}
    (hp : p ∈ e.2) : p.startsAt t = e.1.same t := by
  obtain ⟨u, hu, hsame⟩ := hc e he p hp
  rw [Path.startsAt, hu, Option.any_some, Token.same_congr_left hsame t]

theorem pathsOf_ofSink (hc : BeginsAtSinks c) (p : Path) :
    (c.ofSink t).pathsOf p = (c.pathsOf p).filter (Path.startsAt t) := by
  unfold pathsOf
  cases p.head? with
  | none => rfl
  | some u =>
    simp only [Option.map_some, Option.getD_some, find_ofSink]
    cases hf : List.find? (fun e => e.1.same u) c with
    | none => simp [find, hf]
    | some e =>
      have hsame : e.1.same u = true := by simpa using List.find?_some hf
      have hstart : ∀ q ∈ e.2, q.startsAt t = u.same t := fun q hq =>
        (startsAt_of_mem hc (List.mem_of_find?_eq_some hf) hq).trans (Token.same_congr_left hsame t)
      simp only [find, hf, Option.map_some, Option.getD_some]
      split
      · rename_i hu
        exact (List.filter_eq_self.mpr fun q hq => (hstart q hq).trans hu).symm
      · rename_i hu
        exact (List.filter_eq_nil_iff.mpr fun q hq => by rwa [hstart q hq]).symm

/-! ### Candidates -/

theorem filter_extend (wanted : Path → Bool) (ps cs : List Path) :
    (extend wanted ps cs).filter (Path.startsAt t) =
      extend wanted (ps.filter (Path.startsAt t)) (cs.filter (Path.startsAt t)) := by
  induction ps generalizing cs with
  | nil => rfl
  | cons p ps ih =>
    have hstep : ∀ cs, extend wanted (p :: ps) cs =
        extend wanted ps (if !p.isIn cs && wanted p then cs ++ [p] else cs) := fun _ => rfl
    rw [hstep, ih]
    by_cases hp : p.startsAt t = true
    · rw [List.filter_cons_of_pos hp]
      have hstep' : ∀ qs cs, extend wanted (p :: qs) cs =
          extend wanted qs (if !p.isIn cs && wanted p then cs ++ [p] else cs) := fun _ _ => rfl
      rw [hstep', Path.isIn_filter_startsAt hp]
      split <;> simp [hp]
    · rw [List.filter_cons_of_neg hp]
      split <;> simp [hp]

theorem filter_foldl_extend (hc : BeginsAtSinks c) {α : Type} (wanted : α → Path → Bool) (p : Path)
    (xs : List α) (cs : List Path) :
    (xs.foldl (fun cs x => extend (wanted x) (c.pathsOf p) cs) cs).filter (Path.startsAt t) =
      xs.foldl (fun cs x => extend (wanted x) ((c.ofSink t).pathsOf p) cs)
        (cs.filter (Path.startsAt t)) := by
  induction xs generalizing cs with
  | nil => rfl
  | cons x xs ih => rw [List.foldl_cons, List.foldl_cons, ih, filter_extend, pathsOf_ofSink hc]

theorem foldl_extend_ofSink (c : Catalog) {α : Type} (wanted : α → Path → Bool) {p : Path}
    (hp : p.startsAt t = false) (xs : List α) (cs : List Path) :
    xs.foldl (fun cs x => extend (wanted x) ((c.ofSink t).pathsOf p) cs) cs = cs := by
  have hnone : (c.ofSink t).pathsOf p = [] := by
    unfold pathsOf
    cases hhead : p.head? with
    | none => rfl
    | some u =>
      have hu : u.same t = false := by simpa [Path.startsAt, hhead] using hp
      simp [find_ofSink, hu]
  rw [hnone]
  induction xs with
  | nil => rfl
  | cons x xs ih => exact ih

theorem filter_relevant (hc : BeginsAtSinks c) :
    c.relevant.filter (Path.startsAt t) = (c.ofSink t).relevant := by
  induction c with
  | nil => rfl
  | cons e c ih =>
    have hstart : ∀ p ∈ relevantOf e.2, p.startsAt t = e.1.same t := by
      intro p hp
      refine startsAt_of_mem hc List.mem_cons_self ?_
      rcases List.mem_append.mp hp with hp | hp
      · exact (List.mem_filter.mp hp).1
      · exact nearest_mem (Option.mem_toList.mp hp)
    have hrest : BeginsAtSinks c := fun e' he' => hc e' (List.mem_cons_of_mem _ he')
    have hcons : ∀ c' : Catalog, relevant (e :: c') = relevantOf e.2 ++ c'.relevant :=
      fun _ => List.flatMap_cons
    rw [hcons, List.filter_append, ih hrest, ofSink_cons]
    split
    · rename_i he
      rw [hcons, List.filter_eq_self.mpr fun p hp => (hstart p hp).trans he]
    · rename_i he
      rw [List.filter_eq_nil_iff.mpr fun p hp => by rwa [hstart p hp], List.nil_append]

theorem filter_withBranches (hc : BeginsAtSinks c) (ps : List Path) :
    (c.withBranches ps).filter (Path.startsAt t) =
      (c.ofSink t).withBranches (ps.filter (Path.startsAt t)) := by
  have hfold : ∀ qs cs : List Path,
      (qs.foldl (fun cs p => (deeper p).foldl
        (fun cs u => extend (bypasses u) (c.pathsOf p) cs) cs) cs).filter (Path.startsAt t) =
      (qs.filter (Path.startsAt t)).foldl (fun cs p => (deeper p).foldl
        (fun cs u => extend (bypasses u) ((c.ofSink t).pathsOf p) cs) cs)
        (cs.filter (Path.startsAt t)) := by
    intro qs
    induction qs with
    | nil => exact fun _ => rfl
    | cons q qs ih =>
      intro cs
      rw [List.foldl_cons, ih, filter_foldl_extend hc]
      by_cases hq : q.startsAt t = true
      · rw [List.filter_cons_of_pos hq, List.foldl_cons]
      · rw [List.filter_cons_of_neg hq, foldl_extend_ofSink c _ (by simpa using hq)]
  exact hfold ps ps

/-! ### Joined texts -/

theorem filter_joinPath (hc : BeginsAtSinks c) (p : Path) (cs : List Path) :
    (c.joinPath p cs).filter (Path.startsAt t) =
      (c.ofSink t).joinPath p (cs.filter (Path.startsAt t)) :=
  filter_foldl_extend hc (joins p) p (splitPlaces p) cs

def missing (c : Catalog) (cs : List Path) : Nat :=
  (c.flatMap fun e => e.2).countP fun p => !p.isIn cs

theorem extend_spec (wanted : Path → Bool) {ps : List Path} (hps : ∀ p ∈ ps, p ∈ c.flatMap fun e => e.2)
    (cs : List Path) : cs <+: extend wanted ps cs ∧
      (extend wanted ps cs).length + c.missing (extend wanted ps cs) ≤ cs.length + c.missing cs := by
  induction ps generalizing cs with
  | nil => exact ⟨List.prefix_refl cs, le_rfl⟩
  | cons p ps ih =>
    obtain ⟨hfirst, hroom⟩ := ih (fun q hq => hps q (List.mem_cons_of_mem _ hq))
      (if !p.isIn cs && wanted p then cs ++ [p] else cs)
    have hstep : extend wanted (p :: ps) cs =
        extend wanted ps (if !p.isIn cs && wanted p then cs ++ [p] else cs) := rfl
    rw [hstep]
    by_cases hnew : (!p.isIn cs && wanted p) = true
    · rw [if_pos hnew] at hfirst hroom ⊢
      have hout : p.isIn cs = false := by
        simp only [Bool.and_eq_true, Bool.not_eq_true'] at hnew
        exact hnew.1
      have hless : c.missing (cs ++ [p]) < c.missing cs := by
        refine countP_lt_countP (a := p) (fun q hq => ?_) (hps p List.mem_cons_self) ?_ (by simp [hout])
        · simp only [Path.isIn, List.any_append, Bool.not_eq_true', Bool.or_eq_false_iff] at hq ⊢
          exact hq.1
        · simp [Path.isIn, Path.same_refl]
      refine ⟨(List.prefix_append cs [p]).trans hfirst, ?_⟩
      rw [List.length_append, List.length_singleton] at hroom
      omega
    · rw [if_neg hnew] at hfirst hroom ⊢
      exact ⟨hfirst, hroom⟩

theorem joinPath_spec (c : Catalog) (p : Path) (cs : List Path) : cs <+: c.joinPath p cs ∧
    (c.joinPath p cs).length + c.missing (c.joinPath p cs) ≤ cs.length + c.missing cs := by
  have hps : ∀ q ∈ c.pathsOf p, q ∈ c.flatMap fun e => e.2 := fun q hq =>
    List.mem_flatMap.mpr (records_of_pathsOf hq)
  refine List.foldlRecOn (motive := fun qs : List Path => cs <+: qs ∧
    qs.length + c.missing qs ≤ cs.length + c.missing cs) _ _ ⟨List.prefix_refl cs, le_rfl⟩ ?_
  intro qs ⟨hfirst, hroom⟩ i _
  obtain ⟨hmore, hless⟩ := extend_spec (joins p i) hps qs
  exact ⟨hfirst.trans hmore, hless.trans hroom⟩

theorem joinFrom_of_length_le (c : Catalog) (fuel : Nat) {i : Nat} {cs : List Path}
    (h : cs.length ≤ i) : c.joinFrom fuel i cs = cs := by
  cases fuel with
  | zero => rfl
  | succ fuel => rw [joinFrom, List.getElem?_eq_none h]

/-- Joining goes through the candidates one by one, and with steps enough to come to the last one
it passes through those of a sink as if there were no others. -/
theorem filter_joinFrom (hc : BeginsAtSinks c) (fuel fuel' i : Nat) (cs : List Path)
    (hfuel : cs.length + c.missing cs < fuel + i)
    (hfuel' : (cs.filter (Path.startsAt t)).length + (c.ofSink t).missing (cs.filter (Path.startsAt t)) <
      fuel' + ((cs.take i).filter (Path.startsAt t)).length) :
    (c.joinFrom fuel i cs).filter (Path.startsAt t) =
      (c.ofSink t).joinFrom fuel' ((cs.take i).filter (Path.startsAt t)).length
        (cs.filter (Path.startsAt t)) := by
  induction fuel generalizing fuel' i cs with
  | zero =>
    have hlen : cs.length ≤ i := by omega
    rw [List.take_of_length_le hlen, joinFrom_of_length_le _ _ hlen, joinFrom_of_length_le _ _ le_rfl]
  | succ fuel ih =>
    by_cases hi : i < cs.length
    · obtain ⟨hfirst, hroom⟩ := c.joinPath_spec cs[i] cs
      have htake : (c.joinPath cs[i] cs).take (i + 1) = cs.take (i + 1) := by
        obtain ⟨more, hmore⟩ := hfirst
        rw [← hmore, List.take_append_of_le_length hi]
      have hjoin : c.joinFrom (fuel + 1) i cs = c.joinFrom fuel (i + 1) (c.joinPath cs[i] cs) := by
        rw [joinFrom, List.getElem?_eq_getElem hi]
      rw [hjoin]
      by_cases hp : cs[i].startsAt t = true
      · have hget := getElem?_filter_take hi hp
        have hlen := (List.getElem?_eq_some_iff.mp hget).1
        obtain ⟨k, rfl⟩ : ∃ k, fuel' = k + 1 := ⟨fuel' - 1, by omega⟩
        obtain ⟨-, hroom'⟩ := (c.ofSink t).joinPath_spec cs[i] (cs.filter (Path.startsAt t))
        have hnext := ih k (i + 1) (c.joinPath cs[i] cs) (by omega)
        rw [htake, filter_take_succ_of_pos hi hp, filter_joinPath hc, List.length_append,
          List.length_singleton] at hnext
        rw [hnext (by omega), joinFrom, hget]
      · have hsame : (c.joinPath cs[i] cs).filter (Path.startsAt t) = cs.filter (Path.startsAt t) := by
          rw [filter_joinPath hc]
          exact foldl_extend_ofSink c (joins cs[i]) (by simpa using hp) _ _
        have hnext := ih fuel' (i + 1) (c.joinPath cs[i] cs) (by omega)
        rw [htake, filter_take_succ_of_neg hi hp, hsame] at hnext
        exact hnext hfuel'
    · have hlen : cs.length ≤ i := by omega
      rw [List.take_of_length_le hlen, joinFrom_of_length_le _ _ hlen, joinFrom_of_length_le _ _ le_rfl]

theorem missing_le (c : Catalog) (cs : List Path) : c.missing cs ≤ (c.flatMap fun e => e.2).length :=
  List.countP_le_length

theorem joinFrom_of_le (c : Catalog) {fuel fuel' : Nat} (hfuel : fuel ≤ fuel') (i : Nat) (cs : List Path)
    (h : cs.length + c.missing cs < fuel + i) : c.joinFrom fuel' i cs = c.joinFrom fuel i cs := by
  induction fuel generalizing fuel' i cs with
  | zero =>
    have hlen : cs.length ≤ i := by omega
    rw [joinFrom_of_length_le _ _ hlen, joinFrom_of_length_le _ _ hlen]
  | succ fuel ih =>
    obtain ⟨fuel', rfl⟩ := Nat.exists_eq_add_of_le' (Nat.one_le_of_lt hfuel)
    rw [joinFrom, joinFrom]
    cases cs[i]? with
    | none => rfl
    | some p =>
      obtain ⟨-, hroom⟩ := c.joinPath_spec p cs
      exact ih (Nat.le_of_succ_le_succ hfuel) (i + 1) (c.joinPath p cs) (by omega)

theorem joinFrom_eq_withSplits (c : Catalog) (cs : List Path) {fuel : Nat}
    (h : cs.length + (c.flatMap fun e => e.2).length < fuel) :
    c.joinFrom fuel 0 cs = c.withSplits cs := by
  have hmissing := c.missing_le cs
  exact c.joinFrom_of_le h 0 cs (by omega)

theorem filter_withSplits (hc : BeginsAtSinks c) (cs : List Path) :
    (c.withSplits cs).filter (Path.startsAt t) =
      (c.ofSink t).withSplits (cs.filter (Path.startsAt t)) := by
  have hmissing := c.missing_le cs
  have hmissing' := (c.ofSink t).missing_le (cs.filter (Path.startsAt t))
  refine filter_joinFrom hc _ _ 0 cs (by omega) ?_
  simp only [List.take_zero, List.filter_nil, List.length_nil]
  omega

end Catalog

theorem Search.vulnerablePaths_ofSink {c : Catalog} (hc : BeginsAtSinks c) (lex : Lexicon)
    (v : Vulnerability) (t : Token) :
    vulnerablePaths lex v (c.ofSink t) = (vulnerablePaths lex v c).filter (Path.startsAt t) := by
  unfold vulnerablePaths
  rw [← Catalog.filter_relevant hc, ← Catalog.filter_withBranches hc, ← Catalog.filter_withSplits hc,
    List.filter_filter, List.filter_filter]
  refine congrArg (List.filter · _) (funext fun p => ?_)
  exact Bool.and_comm _ _

end MaskedTaint
