import MaskedTaint.Proofs.Search.Roaming
import MaskedTaint.Proofs.Search.SinkCatalog

/-! Recursive functions. Without imports every search ends, whatever the tokens are and however
functions call each other, and how long it takes can be told beforehand. -/

namespace MaskedTaint

namespace Search

/-- The imports that a view has of its own lead to files that have none. -/
def unimported (lex : Lexicon) (d : Structure) : Terrain lex d where
  kept _ f := (∀ scope key ts, f.tokens? scope key = some ts → ∀ t ∈ ts, t ∈ d.sights) ∧
    ∀ scope, f.tokens? scope (lex.place .imports) = none
  listed _ _ t := t ∈ d.sights
  bound _ _ t := t ∈ d.sights
  imports _ i := i = .fixed []
  hops := 1
  home _ r _ i _ := r = 0 → i = .fixed []
  mono _ h := h
  sight h := h
  lists h := h
  read h hts := h.1 _ _ _ hts
  sorts h hts := by
    rw [h.2] at hts
    cases hts
  lacks h _ := ⟨h, rfl⟩
  binds hf ht _ hparams hparam harg hbound := by
    obtain ⟨m, hmem⟩ := Structure.exists_jump_of_mem_sights ht
    exact Structure.mem_sights_of_bound (hf.1 _ _ _ hparams _ (List.mem_of_getElem? hparam))
      (Structure.arg_mem_occurrences hmem (List.mem_of_getElem? harg)) hbound
  append {S f scope key ts t} hf hts ht := by
    refine ⟨fun scope' key' us hus u hu => ?_, fun scope' => ?_⟩
    · rw [Structure.tokens?_putTokens] at hus
      split at hus
      · cases hus
        rcases List.mem_append.mp hu with hu | hu
        · exact hf.1 _ _ _ hts u hu
        · exact List.mem_singleton.mp hu ▸ ht
      · exact hf.1 _ _ _ hus u hu
    · -- a list of imports would have been there before
      have hne : ¬ (scope' = scope ∧ lex.place .imports = key) := by
        rintro ⟨rfl, rfl⟩
        rw [hf.2] at hts
        cases hts
      rw [Structure.tokens?_putTokens, if_neg hne]
      exact hf.2 scope'
  far _ _ _ _ h := by cases h
  hop {S r w i c target s} _ _ _ _ _ hhome hfind := by
    refine ⟨Nat.pos_of_ne_zero fun hr => ?_, fun i t hi _ _ => hi⟩
    rw [hhome hr] at hfind
    cases hfind

/-- How deep the search may still go with `a` calls to enter and `b` of `h` tokens to visit. Of the
imports that a view has of its own one can be looked into at once, `r` says whether. -/
def depthFor (h a b r : Nat) : Nat := (a * (h + 1) + b) * 2 + r + 1

end Search

def Structure.bounds (d : Structure) : Limit :=
  ⟨Search.depthFor d.sights.length d.sights.length d.sights.length 1, d.breadth + 1⟩

namespace Search

/-- The search of a structure without imports ends, whatever its tokens are and however its functions
call each other: within bounds that depend on the structure only, no list that is walked grows
further and no way goes deeper, and wider limits give the same. Nor does the joining of the paths
found ever run on. -/
theorem detect_ends_without_imports (lex : Lexicon) {d : Structure}
    (hd : ∀ scope, d.tokens? scope (lex.place .imports) = none) (v : Vulnerability) :
    (∀ limit, d.bounds.Within limit →
      (detect lex limit v { flows := d }).1 ≠ .error .unending ∧
        detect lex limit v { flows := d } = detect lex d.bounds v { flows := d }) ∧
      ∀ (c : Catalog) (cs : List Path) (fuel : Nat),
        cs.length + (c.flatMap fun e => e.2).length < fuel → c.joinFrom fuel 0 cs = c.withSplits cs := by
  have hkept : (unimported lex d).kept [] d := by
    refine ⟨fun scope key ts hts t ht => ?_, hd⟩
    have hentry : d.Entry scope key t := ⟨ts, hts, ht⟩
    exact Structure.mem_sights_of_mem_occurrences hentry.mem_occurrences
  exact ⟨fun limit hlimit => (unimported lex d).detect_ends hkept v hlimit,
    fun c cs fuel h => c.joinFrom_eq_withSplits cs h⟩

/-- Two functions that call each other and themselves, with calls as arguments, and assign their
parameters. -/
def recursing : List (String × List Char) :=
  [("a.php", ("<?php function f($x) \x7b $x = g(f($x), $x); return f($x); \x7d " ++
    "function g($y, $z) \x7b $z = f(g($y, $z)); return $z; \x7d echo f($_GET['k']); ?>").toList)]

theorem detect_ends_without_imports_recursing : ∃ p, Project.recordAll {} recursing = .ok p ∧
    (∀ scope, p.flows.tokens? scope (Lexicon.plain.place .imports) = none) ∧
    (∀ limit, p.flows.bounds.Within limit →
      (detect .plain limit .xss { flows := p.flows }).1 ≠ .error .unending ∧
        detect .plain limit .xss { flows := p.flows } =
          detect .plain p.flows.bounds .xss { flows := p.flows }) ∧
      ∀ (c : Catalog) (cs : List Path) (fuel : Nat),
        cs.length + (c.flatMap fun e => e.2).length < fuel → c.joinFrom fuel 0 cs = c.withSplits cs := by
  have hcheck : ∃ p ∈ (Project.recordAll {} recursing).toOption,
      ∀ e ∈ p.flows, Special.imports.name ∉ e.2.names := by decide +kernel
  obtain ⟨p, hp, hnone⟩ := hcheck
  have hd : ∀ scope, p.flows.tokens? scope (Lexicon.plain.place .imports) = none := by
    intro scope
    cases hts : p.flows.tokens? scope (Lexicon.plain.place .imports) with
    | none => rfl
    | some ts =>
      obtain ⟨e, he, hlist⟩ := Structure.mem_of_tokens? hts
      exact absurd (List.mem_map_of_mem hlist) (hnone e he)
  exact ⟨p, eq_ok_of_toOption hp, hd, detect_ends_without_imports .plain hd .xss⟩

end Search

end MaskedTaint
