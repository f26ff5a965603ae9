import Mathlib.Logic.Relation
import MaskedTaint.Proofs.Search.Safety

/-! How far a search can see. The tokens that it can meet are those of the structure and their
arguments bound to parameters, so there are finitely many of them. Names that a scope has no list
for are looked up in the files it includes; each such look-up is a hop from one scope to another. -/

namespace MaskedTaint

theorem countP_lt_countP {α : Type} {p q : α → Bool} {l : List α} {a : α}
    (h : ∀ x, p x = true → q x = true) (ha : a ∈ l) (hp : p a = false) (hq : q a = true) :
    l.countP p < l.countP q := by
  obtain ⟨l₁, l₂, rfl⟩ := List.append_of_mem ha
  have h₁ : l₁.countP p ≤ l₁.countP q := List.countP_mono_left fun x _ => h x
  have h₂ : l₂.countP p ≤ l₂.countP q := List.countP_mono_left fun x _ => h x
  rw [List.countP_append, List.countP_append, List.countP_cons_of_neg (by simp [hp]),
    List.countP_cons_of_pos hq]
  omega

theorem Token.BoundTo.bound_eq {param arg t : Token} (h : param.BoundTo arg t) :
    Search.bound Lexicon.plain.saysCall param arg = .ok t := by
  cases h with
  | @call i m target args hkind =>
    have hsays : Lexicon.plain.saysCall (.jump i m target args) = true := beq_iff_eq.mpr hkind
    unfold Search.bound
    rw [if_pos hsays]
    rfl
  | site hkind =>
    have hsays : ¬ Lexicon.plain.saysCall arg = true := mt beq_iff_eq.mp hkind
    unfold Search.bound
    rw [if_neg hsays]

namespace Token

def unmet (sight ts : List Token) : Nat := sight.countP fun t => !t.isIn ts

variable {sight ts us : List Token} {t : Token}

theorem isIn_append : t.isIn (ts ++ us) = (t.isIn ts || t.isIn us) := List.any_append

theorem unmet_mono (h : ∀ t : Token, t.isIn ts = true → t.isIn us = true) :
    unmet sight us ≤ unmet sight ts := by
  refine List.countP_mono_left fun t _ ht => ?_
  cases hts : t.isIn ts with
  | false => rfl
  | true => simp [h t hts] at ht

theorem unmet_append_le (ts us : List Token) : unmet sight (ts ++ us) ≤ unmet sight ts :=
  unmet_mono fun t ht => by rw [isIn_append, ht, Bool.true_or]

theorem unmet_append_lt (ht : t ∈ sight) (hnew : t.isIn ts = false) :
    unmet sight (ts ++ [t]) < unmet sight ts := by
  refine countP_lt_countP (fun u hu => ?_) ht ?_ ?_
  · rw [isIn_append, Bool.not_or, Bool.and_eq_true] at hu
    exact hu.1
  · rw [isIn_append, show t.isIn [t] = true by simp [isIn, t.same_refl], Bool.or_true]
    rfl
  · rw [hnew]
    rfl

def boundUnder (param : Mark) : Token → List Token
  | site i m => [site i (Search.boundMark param m)]
  | jump i m target args =>
    [site i (Search.boundMark param m), jump i (Search.boundMark param m) target args]

variable {param : Mark} {u : Token}

theorem mem_boundUnder_mark (t : Token) : t ∈ t.boundUnder t.mark := by
  cases t with
  | site i m => exact List.mem_singleton_self _
  | jump i m target args => exact List.mem_cons_of_mem _ (List.mem_singleton_self _)

theorem mark_of_mem_boundUnder (h : u ∈ t.boundUnder param) : u.mark = Search.boundMark param t.mark := by
  cases t with
  | site i m => rw [List.mem_singleton.mp h]; rfl
  | jump i m target args => rcases List.mem_pair.mp h with rfl | rfl <;> rfl

theorem mem_boundUnder_of_bound {isCall : Token → Bool} {p : Token}
    (h : Search.bound isCall p t = .ok u) : u ∈ t.boundUnder p.mark := by
  unfold Search.bound at h
  cases t with
  | site i m =>
    split at h
    · cases h
    · cases h
      exact List.mem_singleton_self _
  | jump i m target args =>
    split at h
    · cases h
      exact List.mem_cons_of_mem _ (List.mem_singleton_self _)
    · cases h
      exact List.mem_cons_self

theorem boundUnder_boundMark (m : Mark) (t : Token) :
    t.boundUnder (Search.boundMark param m) = t.boundUnder param := by
  cases t <;> rfl

end Token

namespace Structure

def sights (d : Structure) : List Token :=
  d.occurrences.flatMap fun p => d.occurrences.flatMap (Token.boundUnder p.mark)

def breadth (d : Structure) : Nat := d.occurrences.length * (d.sights.length + 1)

def sortedImports (d : Structure) (scope : String) : List Token :=
  Search.sortImports ((d.tokens? scope Special.imports.name).getD [])

/-- The file that an import brings in, if the import comes before the token and the file has a
list for the token's name. -/
def offer? (d : Structure) (t : Token) : Token → Option String
  | .jump _ m target _ =>
    if m.pos ≤ t.pos ∧ (d.tokens? target t.kind).isSome = true then some target else none
  | .site _ _ => none

/-- The file in which a token's name is looked up if its scope has no list for it: the last one
included before the token that has such a list. -/
def importOf? (d : Structure) (t : Token) : Option String :=
  (d.sortedImports t.scope).findSome? (d.offer? t)

/-- From a token whose name its scope has no list for to a token of the list in an included file. -/
structure Hops (d : Structure) (t u : Token) : Prop where
  kind : t.kind ≠ Special.call.name ∧ t.kind ≠ Special.input.name
  unlisted : d.tokens? t.scope t.kind = none
  included : d.importOf? t = some u.scope
  listed : d.Under u.scope t.kind u

def HopsEnd (d : Structure) : Prop := ∀ t, ¬ Relation.TransGen d.Hops t t

variable {d : Structure} {scope key : String} {t : Token}

/-! ### Tokens within sight -/

theorem mem_sights : t ∈ d.sights ↔
    ∃ p ∈ d.occurrences, ∃ u ∈ d.occurrences, t ∈ u.boundUnder p.mark := by
  simp only [sights, List.mem_flatMap]

theorem mem_sights_of_mem_occurrences (h : t ∈ d.occurrences) : t ∈ d.sights :=
  mem_sights.mpr ⟨t, h, t, h, t.mem_boundUnder_mark⟩

theorem mem_sights_of_bound {isCall : Token → Bool} {p arg : Token} (hp : p ∈ d.sights)
    (harg : arg ∈ d.occurrences) (h : Search.bound isCall p arg = .ok t) : t ∈ d.sights := by
  obtain ⟨q, hq, u, -, hpu⟩ := mem_sights.mp hp
  -- where the parameter counts it has from an occurrence, even if it was bound itself
  have ht := Token.mem_boundUnder_of_bound h
  rw [Token.mark_of_mem_boundUnder hpu, Token.boundUnder_boundMark] at ht
  exact mem_sights.mpr ⟨q, hq, arg, harg, ht⟩

theorem exists_jump_of_mem_sights {i : Nat} {m : Mark} {target : String} {args : List Token}
    (h : .jump i m target args ∈ d.sights) : ∃ m', .jump i m' target args ∈ d.occurrences := by
  obtain ⟨p, -, u, hu, hmem⟩ := mem_sights.mp h
  cases u with
  | site j n => cases List.mem_singleton.mp hmem
  | jump j n target' args' =>
    rcases List.mem_pair.mp hmem with hsite | hjump
    · cases hsite
    · cases hjump
      exact ⟨n, hu⟩

theorem unmet_sights_le (d : Structure) (ts : List Token) :
    Token.unmet d.sights ts ≤ d.sights.length := List.countP_le_length

theorem length_le_breadth : d.occurrences.length ≤ d.breadth := by
  rw [breadth, Nat.mul_succ]
  omega

theorem Bound.exists_call (h : d.Bound scope key t) : ∃ args, d.Call scope args := by
  cases h with
  | binds h =>
    obtain ⟨args, _, _, _, _, hcall, _⟩ := h
    exact ⟨args, hcall⟩
  | again hcall => exact ⟨_, hcall⟩

theorem Bound.mem_sights (h : d.Bound scope key t) : t ∈ d.sights := by
  induction h with
  | binds h =>
    obtain ⟨args, params, i, param, arg, hcall, hparams, hparam, -, harg, hbound⟩ := h
    have hentry : d.Entry scope _ param := ⟨params, hparams, List.mem_of_getElem? hparam⟩
    exact mem_sights_of_bound (mem_sights_of_mem_occurrences hentry.mem_occurrences)
      (hcall.arg_mem (List.mem_of_getElem? harg)) hbound.bound_eq
  | again hc _ ha ht ih => exact mem_sights_of_bound ih (hc.arg_mem ha) ht.bound_eq

theorem Under.mem_sights (h : d.Under scope key t) : t ∈ d.sights :=
  h.elim (fun h => mem_sights_of_mem_occurrences h.mem_occurrences) Bound.mem_sights

theorem length_tokens?_le (d : Structure) (scope key : String) :
    ((d.tokens? scope key).getD []).length ≤ d.occurrences.length := by
  cases hts : d.tokens? scope key with
  | none => exact Nat.zero_le _
  | some ts =>
    obtain ⟨e, he, hlist⟩ := mem_of_tokens? hts
    exact (Token.length_le_occurrencesIn ts).trans (list_within he hlist).length_le

/-! ### Hops -/

open Classical in
noncomputable def rank (d : Structure) (t : Token) : Nat :=
  d.sights.countP fun u => decide (Relation.TransGen d.Hops t u)

theorem rank_le (d : Structure) (t : Token) : d.rank t ≤ d.sights.length := List.countP_le_length

theorem Hops.rank_lt {u : Token} (h : d.Hops t u) (hend : d.HopsEnd) : d.rank u < d.rank t := by
  classical
  refine countP_lt_countP (fun x hx => ?_) h.listed.mem_sights ?_ ?_
  · exact decide_eq_true (.head h (of_decide_eq_true hx))
  · exact decide_eq_false (hend u)
  · exact decide_eq_true (.single h)

end Structure

end MaskedTaint
