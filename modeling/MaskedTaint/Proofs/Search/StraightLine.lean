import MaskedTaint.Proofs.Flow.Signature
import MaskedTaint.Proofs.Search.OneScope
import MaskedTaint.Proofs.Search.Reported

/-! Straight-line code: one scope of plain copies, all on one branch. A token has many traces,
but each of them yields to the one that goes back from definition to reaching definition, so that
one alone stays recorded. Detection reports, sink by sink, those of them that meet an input. -/

namespace MaskedTaint

instance (t u : Token) : Decidable (t.SameBranch u) := inferInstanceAs (Decidable (_ ∧ _))

namespace Structure

/-- A scope without parameters, calls and imports. All its tokens stand on one branch, at
positions of their own; lists ascend, and what has a list has been assigned before. -/
structure StraightLine (d : Structure) (scope : String) : Prop where
  names : d.names = [scope]
  params : d.tokens? scope Special.params.name = some []
  calls : d.tokens? scope Special.call.name = none
  imports : d.tokens? scope Special.imports.name = none
  kinds : ∀ t ∈ d.occurrences, t.kind ≠ Special.call.name
  home : ∀ t ∈ d.occurrences, t.scope = scope
  branch : ∀ t ∈ d.occurrences, ∀ u ∈ d.occurrences, t.SameBranch u
  split : ∀ t ∈ d.occurrences, ∀ u ∈ d.occurrences, t.split = u.split
  commas : ∀ t ∈ d.occurrences, ∀ s ∈ t.texts, CommaFree s
  places : (d.occurrences.map Token.pos).Nodup
  ascending : ∀ e ∈ d, ∀ l ∈ e.2, l.1 ≠ Special.params.name →
    l.2.Pairwise fun t u => t.pos < u.pos
  defined : ∀ t ∈ d.occurrences, ∀ ts ∈ d.tokens? scope t.kind, ∃ u ∈ ts, u.pos < t.pos

def source? (d : Structure) (scope : String) (t : Token) : Option Token :=
  (((d.tokens? scope t.kind).getD []).filter fun u => u.pos < t.pos).maxOn? Token.pos

variable {d : Structure} {scope : String}

variable {t : Token}

theorem source?_spec {u : Token} (h : d.source? scope t = some u) :
    d.Entry scope t.kind u ∧ u.pos < t.pos ∧
      ∀ w, d.Entry scope t.kind w → w.pos < t.pos → w.pos ≤ u.pos := by
  cases hkey : d.tokens? scope t.kind with
  | none => simp [source?, hkey] at h
  | some ts =>
    simp only [source?, hkey, Option.getD_some] at h
    obtain ⟨hu, hlt⟩ := List.mem_filter.mp (List.maxOn?_mem h)
    refine ⟨⟨ts, hkey, hu⟩, by simpa using hlt, ?_⟩
    rintro w ⟨us, hus, hw⟩ hwt
    cases hkey.symm.trans hus
    have hmem : w ∈ ts.filter fun u => u.pos < t.pos := List.mem_filter.mpr ⟨hw, by simpa using hwt⟩
    simpa only [h, Option.get_some] using List.le_apply_get_maxOn?_of_mem (f := Token.pos) hmem

def chain (d : Structure) (scope : String) (t : Token) : Path :=
  t :: match _h : d.source? scope t with
    | none => []
    | some u => chain d scope u
termination_by d.below t
decreasing_by exact below_lt (source?_spec _h).1 (source?_spec _h).2.1

theorem chain_of_none (h : d.source? scope t = none) : d.chain scope t = [t] := by
  rw [chain]
  split <;> simp_all

theorem chain_of_some {u : Token} (h : d.source? scope t = some u) :
    d.chain scope t = t :: d.chain scope u := by
  rw [chain]
  split <;> simp_all

/-- What has a list has been assigned before it is read. -/
def Defined (d : Structure) (name : String) : Prop :=
  ∀ key t, d.Entry name key t → ∀ ts ∈ d.tokens? name t.kind, ∃ u ∈ ts, u.pos < t.pos

/-- One scope of copies, all on one branch. -/
structure Copies (d : Structure) (name : String) : Prop extends d.OneScope name where
  branch : ∀ key t key' u, d.Entry name key t → d.Entry name key' u → t.SameBranch u
  defined : d.Defined name

theorem StraightLine.copies (h : d.StraightLine scope) : d.Copies scope where
  names := h.names
  calls := h.calls
  imports := h.imports
  kind _ _ ht := h.kinds _ ht.mem_occurrences
  split _ _ _ _ ht hu := h.split _ ht.mem_occurrences _ hu.mem_occurrences
  apart _ t _ u ht hu hsame := by
    have ht := ht.mem_occurrences
    have hu := hu.mem_occurrences
    have hfields := (Token.fields_of_same (h.commas t ht) (h.commas u hu) hsame).1
    exact List.inj_on_of_nodup_map h.places ht hu (Token.fields_eq_iff.mp hfields).2.2.1
  ascending key ts hts := by
    by_cases hkey : key = Special.params.name
    · subst hkey
      cases h.params.symm.trans hts
      exact .nil
    · obtain ⟨e, he, hl⟩ := mem_of_tokens? hts
      exact h.ascending e he _ hl hkey
  scope _ _ ht := h.home _ ht.mem_occurrences
  branch _ _ _ _ ht hu := h.branch _ ht.mem_occurrences _ hu.mem_occurrences
  defined _ _ ht := h.defined _ ht.mem_occurrences

namespace Copies

variable (h : d.Copies scope) (ht : ∃ key, d.Entry scope key t)

include h ht

theorem tokens?_of_source? (hnone : d.source? scope t = none) : d.tokens? scope t.kind = none := by
  obtain ⟨key, ht⟩ := ht
  cases hkey : d.tokens? scope t.kind with
  | none => rfl
  | some ts =>
    obtain ⟨u, hu, hlt⟩ := h.defined key t ht ts hkey
    have hmem : u ∈ ts.filter fun u => u.pos < t.pos := List.mem_filter.mpr ⟨hu, by simpa using hlt⟩
    have hsome := List.isSome_maxOn?_of_mem (f := Token.pos) hmem
    simp only [source?, hkey, Option.getD_some] at hnone
    rw [hnone] at hsome
    cases hsome

theorem unbroken_chain : d.Unbroken scope (d.chain scope t) := by
  induction hn : d.below t using Nat.strong_induction_on generalizing t with | _ n ih
  cases hsource : d.source? scope t with
  | none =>
    rw [chain_of_none hsource]
    exact .last (h.tokens?_of_source? ht hsource)
  | some u =>
    obtain ⟨hu, hlt, hlast⟩ := source?_spec hsource
    have hchain := ih (d.below u) (hn ▸ below_lt hu hlt) ⟨_, hu⟩ rfl
    rw [chain_of_some hsource]
    rw [chain] at hchain ⊢
    refine .step hu hlt (fun w hw huw hwt => ?_) hchain
    have := hlast w hw hwt
    omega

theorem yields_of_earlier {p q : Path}
    (hp : p ∈ d.traces scope t) (hq : q ∈ d.traces scope t) (hpq : Path.Earlier p q) :
    Path.yields p q = true := by
  obtain ⟨a, b, hdiff, hlt⟩ := hpq
  have hzip := List.of_mem_zip (List.mem_of_find?_eq_some hdiff)
  obtain ⟨_, ha⟩ := entry_of_mem_traces ht hp hzip.1
  obtain ⟨_, hb⟩ := entry_of_mem_traces ht hq hzip.2
  have hhead : p.head? = some t := by
    obtain ⟨r, rfl⟩ := exists_cons_of_mem_traces hp
    rfl
  obtain ⟨key, ht⟩ := ht
  obtain ⟨hdepth, horder, hflow⟩ := h.branch _ a _ b ha hb
  have hsplit := h.split _ t _ b ht hb
  have hscope := (h.scope _ a ha).trans (h.scope _ b hb).symm
  simp [Path.yields, hdiff, Path.comparable, hdepth, horder, hflow, hscope, hhead, hsplit, hlt]

theorem paths_eq : d.paths scope t = [d.chain scope t] := by
  have hpairwise : (d.paths scope t).Pairwise Path.Earlier :=
    (h.traces_pairwise t).filter _
  have hmem : d.chain scope t ∈ d.paths scope t := by
    have hchain := h.unbroken_chain ht
    rw [chain] at hchain ⊢
    exact h.mem_paths_of_unbroken ht hchain
  cases hpaths : d.paths scope t with
  | nil => simp [hpaths] at hmem
  | cons p ps =>
    have hps : ps = [] := by
      by_contra hne
      obtain ⟨q, hq⟩ := List.exists_mem_of_ne_nil ps hne
      rw [hpaths] at hpairwise
      have hlater := (List.pairwise_cons.mp hpairwise).1 q hq
      obtain ⟨hp, hstands⟩ := Path.mem_standing.mp (hpaths ▸ List.mem_cons_self : p ∈ d.paths scope t)
      have hq := mem_traces_of_mem_paths (hpaths ▸ List.mem_cons_of_mem p hq : q ∈ d.paths scope t)
      have hyields := h.yields_of_earlier ht hp hq hlater
      rw [hstands q hq] at hyields
      cases hyields
    rw [hpaths, hps, List.mem_singleton] at hmem
    rw [hps, hmem]

theorem relevantOf_paths : Catalog.relevantOf (d.paths scope t) = [d.chain scope t] := by
  cases hkey : d.tokens? scope t.kind with
  | none =>
    have hchain : d.chain scope t = [t] := chain_of_none (by simp [source?, hkey])
    rw [h.paths_eq ht, hchain]
    rfl
  | some ts =>
    have hfalls : ∀ p ∈ d.paths scope t, Catalog.Falls t p := fun p hp =>
      h.falls ht (by simp [hkey]) hp
    rw [h.paths_eq ht] at hfalls ⊢
    obtain ⟨q, hq, hnearest⟩ := Catalog.nearest_of_falls hfalls (by simp)
    obtain ⟨u, rest, hlong, -⟩ := hfalls _ List.mem_cons_self
    rw [List.mem_singleton.mp hnearest.mem] at hq
    simp only [Catalog.relevantOf, hq, List.filter_cons, List.filter_nil]
    simp [hlong]

end Copies

end Structure

theorem Catalog.withBranches_of_level {c : Catalog} {ps : List Path} (h : ∀ p ∈ ps, deeper p = []) :
    c.withBranches ps = ps := by
  have hfold : ∀ qs cs : List Path, (∀ p ∈ qs, deeper p = []) →
      qs.foldl (fun cs p => (deeper p).foldl
        (fun cs t => extend (bypasses t) (c.pathsOf p) cs) cs) cs = cs := by
    intro qs cs hqs
    induction qs with
    | nil => rfl
    | cons p qs ih =>
      rw [List.foldl_cons, hqs p List.mem_cons_self]
      exact ih fun r hr => hqs r (List.mem_cons_of_mem _ hr)
  exact hfold ps ps h

namespace Search

instance (v : Vulnerability) (p : Path) : Decidable (MeetsInput v p) :=
  decidable_of_iff (isVulnerable .plain v p = true)
    ⟨meetsInput_of_isVulnerable, isVulnerable_of_meetsInput⟩

theorem detect_copies {d : Structure} {scope : String} {limit : Limit} (h : d.Copies scope)
    (hdepth : d.occurrences.length < limit.depth) (hwidth : d.occurrences.length < limit.width)
    (v : Vulnerability) : (detect .plain limit v { flows := d }).1 =
      .ok (((d.sinks v scope).map (d.chain scope)).filter fun p => MeetsInput v p) := by
  -- Of each sink nothing but its chain is a candidate.
  have hrelevant : (Catalog.ofSinks (d.paths scope) (d.sinks v scope)).relevant =
      (d.sinks v scope).map (d.chain scope) := by
    rw [Catalog.relevant_ofSinks, List.flatMap_congr fun t ht => h.relevantOf_paths ⟨_, entry_of_mem_sinks ht⟩]
    exact List.flatMap_pure_eq_map _ _
  have hentries : ∀ p ∈ (d.sinks v scope).map (d.chain scope), ∀ x ∈ p, ∃ t key key',
      p.head? = some t ∧ d.Entry scope key t ∧ d.Entry scope key' x := by
    intro p hp x hx
    obtain ⟨t, ht, rfl⟩ := List.mem_map.mp hp
    have ht := entry_of_mem_sinks ht
    have hpath : d.chain scope t ∈ d.paths scope t := by simp [h.paths_eq ⟨_, ht⟩]
    obtain ⟨key', hx⟩ := Structure.entry_of_mem_paths ⟨_, ht⟩ hpath hx
    exact ⟨t, _, key', Structure.head?_of_mem_paths hpath, ht, hx⟩
  have hlevel : ∀ p ∈ (d.sinks v scope).map (d.chain scope), Catalog.deeper p = [] := by
    intro p hp
    refine List.filter_eq_nil_iff.mpr fun x hx => ?_
    obtain ⟨t, _, _, hhead, ht, hx⟩ := hentries p hp x hx
    simp [hhead, (h.branch _ t _ x ht hx).1]
  have heven : ∀ p ∈ (d.sinks v scope).map (d.chain scope), ∀ x ∈ p,
      some x.split = p.head?.map Token.split := by
    intro p hp x hx
    obtain ⟨t, _, _, hhead, ht, hx⟩ := hentries p hp x hx
    rw [hhead, Option.map_some, h.split _ x _ t hx ht]
  rw [detect_eq h.toOneScope hdepth hwidth rfl, vulnerablePaths, hrelevant,
    Catalog.withBranches_of_level hlevel, Catalog.withSplits_of_even heven]
  refine congrArg Except.ok (List.filter_congr fun p _ => ?_)
  rw [Bool.eq_iff_iff, decide_eq_true_iff]
  exact ⟨meetsInput_of_isVulnerable, isVulnerable_of_meetsInput⟩

/-- On straight-line code the reported paths are the chains of the sinks, in the order of the
sinks, that meet an input. -/
theorem detect_straightLine (d : Structure) (scope : String) (h : d.StraightLine scope)
    (limit : Limit) (hdepth : d.occurrences.length < limit.depth)
    (hwidth : d.occurrences.length < limit.width) (v : Vulnerability) :
    (detect .plain limit v { flows := d }).1 =
      .ok (((d.sinks v scope).map (d.chain scope)).filter fun p => MeetsInput v p) :=
  detect_copies h.copies hdepth hwidth v

def overwritten : Structure :=
  let site (id : Nat) (kind : String) (pos : Int) : Token :=
    .site id ⟨kind, .number 1, pos, 0, 0, 0, .number 0, "m.php", "m.php"⟩
  [("m.php", [("ARGS", []), ("VAR1", [site 0 "INPUT" 11, site 1 "CONSTANT_ENCAPSED_STRING" 37]),
    ("VAR2", [site 2 "VAR1" 28]), ("XSS_SENS", [site 3 "VAR2" 47, site 4 "VAR1" 56])])]

theorem detect_straightLine_overwritten : overwritten.StraightLine "m.php" ∧
    (detect .plain usualLimit .xss { flows := overwritten }).1 =
      .ok (((overwritten.sinks .xss "m.php").map (overwritten.chain "m.php")).filter
        fun p => MeetsInput .xss p) ∧
    (overwritten.sinks .xss "m.php").map (fun t => (overwritten.chain "m.php" t).map Token.pos) =
      [[47, 28, 11], [56, 37]] := by
  have hline : overwritten.StraightLine "m.php" := by
    constructor
    case params => rfl
    all_goals decide +kernel
  refine ⟨hline, detect_straightLine overwritten "m.php" hline usualLimit (by decide) (by decide) .xss,
    ?_⟩
  simp only [show overwritten.sinks .xss "m.php" = [_, _] from rfl, List.map_cons, List.map_nil]
  rw [Structure.chain_of_some rfl, Structure.chain_of_some rfl, Structure.chain_of_none rfl,
    Structure.chain_of_some rfl, Structure.chain_of_none rfl]
  rfl

end Search

end MaskedTaint
