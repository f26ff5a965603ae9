import MaskedTaint.Proofs.Search.SinkCatalog

/-! Joined texts as a closure. The candidates are gone through one by one, and each may bring in
further ones behind the last; so the loop over a list goes on while the list grows. It comes to an
end, since every path is brought in once, and what it ends with brings in nothing more. -/

namespace MaskedTaint

namespace Catalog

open Search (BeginsAtSinks)

def Knows (c : Catalog) (p : Path) : Prop :=
  ∃ sink, p.head? = some sink ∧ (c.find? fun e => e.1.same sink).isSome = true

/-- The loop over the candidates `cs`, from place `i` on, ends with a list; the sink of each
candidate that it comes to is known. -/
inductive JoinsTo (c : Catalog) : Nat → List Path → List Path → Prop
  | done {i : Nat} {cs : List Path} (h : cs.length ≤ i) : JoinsTo c i cs cs
  | next {i : Nat} {cs result : List Path} {p : Path} (h : cs[i]? = some p) (hp : c.Knows p)
      (hrest : JoinsTo c (i + 1) (c.joinPath p cs) result) : JoinsTo c i cs result

/-- Further paths have been added to `cs`, each a recorded path of the sink of a path before it
and unlike all paths before it. -/
inductive Extended (c : Catalog) (cs : List Path) : List Path → Prop
  | start : Extended c cs cs
  | add {ds : List Path} {p q : Path} (h : Extended c cs ds) (hp : p ∈ ds) (hq : q ∈ c.pathsOf p)
      (hnew : q.isIn ds = false) : Extended c cs (ds ++ [q])

/-- With the path `p`, the list holds all paths that leave `p` for another operand of one text. -/
def ClosedAt (c : Catalog) (ds : List Path) (p : Path) : Prop :=
  ∀ i ∈ splitPlaces p, ∀ q ∈ c.pathsOf p, joins p i q = true → q.isIn ds = true

variable {c : Catalog} {cs ds : List Path} {p q : Path}

/-! ### Adding paths -/

theorem prefix_extend (wanted : Path → Bool) (ps ds : List Path) : ds <+: extend wanted ps ds := by
  refine List.foldlRecOn (motive := (ds <+: ·)) _ _ (List.prefix_refl ds) fun es hes q _ => ?_
  split
  · exact hes.trans (List.prefix_append es [q])
  · exact hes

theorem prefix_foldl_extend {α : Type} (wanted : α → Path → Bool) (ps : List Path) (xs : List α)
    (ds : List Path) : ds <+: xs.foldl (fun ds x => extend (wanted x) ps ds) ds :=
  List.foldlRecOn (motive := (ds <+: ·)) _ _ (List.prefix_refl ds) fun es hes x _ =>
    hes.trans (prefix_extend (wanted x) ps es)

theorem Extended.extended (h : c.Extended cs ds) (hp : p ∈ ds) (wanted : Path → Bool) :
    c.Extended cs (extend wanted (c.pathsOf p) ds) := by
  refine (List.foldlRecOn (motive := fun ds => c.Extended cs ds ∧ p ∈ ds) _ _ ⟨h, hp⟩ ?_).1
  rintro ds ⟨h, hp⟩ q hq
  split
  · rename_i hnew
    simp only [Bool.and_eq_true, Bool.not_eq_true'] at hnew
    exact ⟨h.add hp hq hnew.1, List.mem_append_left _ hp⟩
  · exact ⟨h, hp⟩

theorem Extended.foldl_extend {α : Type} (h : c.Extended cs ds) (hp : p ∈ ds)
    (wanted : α → Path → Bool) (xs : List α) :
    c.Extended cs (xs.foldl (fun ds x => extend (wanted x) (c.pathsOf p) ds) ds) := by
  induction xs generalizing ds with
  | nil => exact h
  | cons x xs ih => exact ih (h.extended hp (wanted x)) ((prefix_extend (wanted x) _ ds).mem hp)

theorem Extended.joinFrom (h : c.Extended cs ds) (fuel i : Nat) :
    c.Extended cs (c.joinFrom fuel i ds) := by
  induction fuel generalizing i ds with
  | zero => exact h
  | succ fuel ih =>
    rw [Catalog.joinFrom]
    split
    · exact h
    · rename_i p hp
      exact ih (h.foldl_extend (List.mem_of_getElem? hp) (joins p) _) (i + 1)

theorem knows_of_records (hc : BeginsAtSinks c) (h : c.Records p) : c.Knows p := by
  obtain ⟨e, he, hp⟩ := h
  obtain ⟨sink, hhead, hsame⟩ := hc e he p hp
  exact ⟨sink, hhead, List.find?_isSome.mpr ⟨e, he, hsame⟩⟩

theorem Extended.knows (hc : BeginsAtSinks c) (hcs : ∀ p ∈ cs, c.Knows p) (h : c.Extended cs ds) :
    ∀ p ∈ ds, c.Knows p := by
  induction h with
  | start => exact hcs
  | add _ _ hq _ ih =>
    intro p hp
    rcases List.mem_append.mp hp with hp | hp
    · exact ih p hp
    · exact List.mem_singleton.mp hp ▸ knows_of_records hc (records_of_pathsOf hq)

/-! ### Closed lists -/

theorem isIn_of_prefix (h : ds <+: cs) (hq : q.isIn ds = true) : q.isIn cs = true := by
  obtain ⟨more, rfl⟩ := h
  rw [Path.isIn, List.any_append]
  exact Bool.or_eq_true_iff.mpr (.inl hq)

theorem isIn_extend {wanted : Path → Bool} {ps : List Path} (hq : q ∈ ps) (hwanted : wanted q = true)
    (ds : List Path) : q.isIn (extend wanted ps ds) = true := by
  obtain ⟨front, back, rfl⟩ := List.append_of_mem hq
  have hstep : extend wanted (front ++ q :: back) ds = extend wanted back
      (if !q.isIn (extend wanted front ds) && wanted q then extend wanted front ds ++ [q]
        else extend wanted front ds) := List.foldl_append
  rw [hstep, hwanted]
  refine isIn_of_prefix (prefix_extend wanted back _) ?_
  cases hin : q.isIn (extend wanted front ds) with
  | true => exact hin
  | false => simp [Path.isIn, Path.same_refl]

theorem closedAt_joinPath (c : Catalog) (p : Path) (cs : List Path) :
    c.ClosedAt (c.joinPath p cs) p := by
  intro i hi q hq hjoins
  obtain ⟨front, back, hplaces⟩ := List.append_of_mem hi
  rw [joinPath, hplaces, List.foldl_append, List.foldl_cons]
  exact isIn_of_prefix (prefix_foldl_extend (joins p) _ back _) (isIn_extend hq hjoins _)

theorem ClosedAt.mono (h : c.ClosedAt ds p) (hds : ds <+: cs) : c.ClosedAt cs p :=
  fun i hi q hq hjoins => isIn_of_prefix hds (h i hi q hq hjoins)

theorem ClosedAt.joinPath_eq (h : c.ClosedAt cs p) : c.joinPath p cs = cs := by
  refine List.foldlRecOn (motive := (· = cs)) _ _ rfl fun ds hds i hi => ?_
  subst hds
  refine List.foldlRecOn (motive := (· = ds)) _ _ rfl fun es hes q hq => ?_
  subst hes
  cases hjoins : joins p i q with
  | false => simp
  | true => simp [h i hi q hq hjoins]

/-! ### The loop -/

theorem joinFrom_closes (fuel i : Nat) (h : cs.length + c.missing cs < fuel + i)
    (hbefore : ∀ p ∈ cs.take i, c.ClosedAt cs p) :
    ∀ p ∈ c.joinFrom fuel i cs, c.ClosedAt (c.joinFrom fuel i cs) p := by
  induction fuel generalizing i cs with
  | zero => rwa [List.take_of_length_le (by omega)] at hbefore
  | succ fuel ih =>
    rw [joinFrom]
    cases hp : cs[i]? with
    | none =>
      rwa [List.take_of_length_le (List.getElem?_eq_none_iff.mp hp)] at hbefore
    | some p =>
      obtain ⟨hkept, hroom⟩ := c.joinPath_spec p cs
      refine ih (i + 1) (by omega) fun q hq => ?_
      have hlt : i < cs.length := (List.getElem?_eq_some_iff.mp hp).1
      obtain ⟨more, hmore⟩ := hkept
      rw [← hmore, List.take_append_of_le_length hlt, List.take_add_one, hp] at hq
      rcases List.mem_append.mp hq with hq | hq
      · exact (hbefore q hq).mono ⟨more, hmore⟩
      · obtain rfl := Option.some.inj (Option.mem_toList.mp hq)
        exact closedAt_joinPath c p cs

theorem joinsTo_joinFrom (hc : BeginsAtSinks c) (fuel i : Nat)
    (h : cs.length + c.missing cs < fuel + i) (hcs : ∀ p ∈ cs, c.Knows p) :
    c.JoinsTo i cs (c.joinFrom fuel i cs) := by
  induction fuel generalizing i cs with
  | zero => exact .done (by omega)
  | succ fuel ih =>
    rw [joinFrom]
    cases hp : cs[i]? with
    | none => exact .done (List.getElem?_eq_none_iff.mp hp)
    | some p =>
      have hroom := (c.joinPath_spec p cs).2
      have hmem := List.mem_of_getElem? hp
      have hjoined : c.Extended cs (c.joinPath p cs) := Extended.start.foldl_extend hmem (joins p) _
      exact .next hp (hcs p hmem) (ih (i + 1) (by omega) (hjoined.knows hc hcs))

theorem joinFrom_of_closed (h : ∀ p ∈ cs, c.ClosedAt cs p) (fuel i : Nat) :
    c.joinFrom fuel i cs = cs := by
  induction fuel generalizing i with
  | zero => rfl
  | succ fuel ih =>
    rw [joinFrom]
    split
    · rfl
    · rename_i p hp
      rw [(h p (List.mem_of_getElem? hp)).joinPath_eq, ih]

/-! ### Places -/

theorem mem_splitPlaces {i : Nat} : i ∈ splitPlaces p ↔
    ∃ a sink, p[i]? = some a ∧ p.head? = some sink ∧ a.split ≠ sink.split := by
  rw [splitPlaces, List.mem_filter, List.mem_range]
  cases p with
  | nil => simp
  | cons sink p =>
    constructor
    · rintro ⟨hlt, hsplit⟩
      refine ⟨_, sink, List.getElem?_eq_getElem hlt, rfl, ?_⟩
      simpa [List.getElem?_eq_getElem hlt] using hsplit
    · rintro ⟨a, _, ha, ⟨⟩, hne⟩
      exact ⟨(List.getElem?_eq_some_iff.mp ha).1, by simpa [ha] using hne⟩

theorem joins_iff {i : Nat} : joins p i q = true ↔ ∃ j a b, j ≤ i ∧ q[j]? = some a ∧ p[j]? = some b ∧
    a.same b = false ∧ a.split = b.split := by
  rw [joins, List.any_eq_true]
  constructor
  · rintro ⟨⟨a, b⟩, hmem, hab⟩
    obtain ⟨j, hj⟩ := List.mem_iff_getElem?.mp hmem
    obtain ⟨hj, hlt⟩ : (q.zip p)[j]? = some (a, b) ∧ j < i + 1 := by
      rw [List.getElem?_take] at hj
      split at hj
      · exact ⟨hj, by assumption⟩
      · cases hj
    obtain ⟨hq, hp⟩ := List.getElem?_zip_eq_some.mp hj
    exact ⟨j, a, b, by omega, hq, hp, by simpa using hab⟩
  · rintro ⟨j, a, b, hle, hq, hp, hsame, hsplit⟩
    refine ⟨(a, b), List.mem_of_getElem? (i := j) ?_, by simp [hsame, hsplit]⟩
    rw [List.getElem?_take, if_pos (by omega)]
    exact List.getElem?_zip_eq_some.mpr ⟨hq, hp⟩

/-- The operands of joined texts are a closure of the candidates. The loop over them ends; it keeps
them and adds recorded paths of their sinks, each one once; what it ends with leaves out no path that
it should take in, and doing it again changes nothing. -/
theorem withSplits_closes (hc : BeginsAtSinks c) (hcs : ∀ p ∈ cs, c.Knows p) :
    c.JoinsTo 0 cs (c.withSplits cs) ∧ c.Extended cs (c.withSplits cs) ∧
    (∀ p ∈ c.withSplits cs, ∀ (i : Nat) (a sink : Token), p[i]? = some a → p.head? = some sink →
      a.split ≠ sink.split → ∀ q ∈ c.pathsOf p, q.isIn (c.withSplits cs) = false →
        ∀ j ≤ i, ∀ b b' : Token, q[j]? = some b → p[j]? = some b' →
          ¬ (b.same b' = false ∧ b.split = b'.split)) ∧
    c.withSplits (c.withSplits cs) = c.withSplits cs := by
  have hfuel : cs.length + c.missing cs < cs.length + (c.flatMap fun e => e.2).length + 1 + 0 := by
    have hmissing := c.missing_le cs
    omega
  have hclosed : ∀ p ∈ c.withSplits cs, c.ClosedAt (c.withSplits cs) p :=
    joinFrom_closes _ 0 hfuel fun p hp => by cases hp
  refine ⟨joinsTo_joinFrom hc _ 0 hfuel hcs, Extended.start.joinFrom _ 0, ?_,
    joinFrom_of_closed hclosed _ 0⟩
  intro p hp i a sink ha hsink hsplit q hq hout j hj b b' hb hb' hjoin
  have hplace : i ∈ splitPlaces p := mem_splitPlaces.mpr ⟨a, sink, ha, hsink, hsplit⟩
  have hin := hclosed p hp i hplace q hq (joins_iff.mpr ⟨j, b, b', hj, hb, hb', hjoin⟩)
  rw [hin] at hout
  cases hout

/-- What is recorded for the output of `$x`, where `$x` is a text joined of three others. -/
def joinedOutput : Catalog :=
  let token (id : Nat) (kind : String) (pos split : Int) : Token :=
    .site id ⟨kind, .number 1, pos, 0, 0, 0, .number split, "m.php", "m.php"⟩
  let sink := token 0 "VAR1" 40 0
  [(sink, [[sink, token 1 "INPUT" 11 16], [sink, token 2 "VAR2" 22 16], [sink, token 3 "VAR3" 27 16]])]

theorem withSplits_closes_joinedOutput : BeginsAtSinks joinedOutput ∧
    (∀ p ∈ joinedOutput.relevant, joinedOutput.Knows p) ∧
    joinedOutput.relevant.map (·.map Token.kind) = [["VAR1", "VAR3"]] ∧
    (joinedOutput.withSplits joinedOutput.relevant).map (·.map Token.kind) =
      [["VAR1", "VAR3"], ["VAR1", "INPUT"], ["VAR1", "VAR2"]] ∧
    joinedOutput.JoinsTo 0 joinedOutput.relevant (joinedOutput.withSplits joinedOutput.relevant) := by
  have hc : BeginsAtSinks joinedOutput := by
    simp [BeginsAtSinks, joinedOutput, Token.same_refl]
  have hcs : ∀ p ∈ joinedOutput.relevant, joinedOutput.Knows p :=
    fun _ hp => knows_of_records hc (records_of_relevant hp)
  exact ⟨hc, hcs, by decide +kernel, by decide +kernel, (withSplits_closes hc hcs).1⟩

end Catalog

end MaskedTaint
