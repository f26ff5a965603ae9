import MaskedTaint.Proofs.Search.Abreast

/-! One sink among others. A search for all sinks of a structure and a search for those like one
token run side by side. They see the same lists, except those of the sinks; imports may be sorted
in one of them and not yet in the other. As long as no call into the structure is met on the way
from another sink, what is done for that sink leaves nothing behind that the second search lacks. -/

namespace MaskedTaint

namespace Special

theorem mem_all (p : Special) : p ∈ all := by
  cases p with
  | sink v => cases v <;> decide
  | sanitizer v => cases v <;> decide
  | _ => decide

@[simp] theorem name_inj {p q : Special} : p.name = q.name ↔ p = q := by
  have h : ∀ p ∈ all, ∀ q ∈ all, p.name = q.name → p = q := by decide
  exact ⟨h p (mem_all p) q (mem_all q), congrArg name⟩

theorem ne_name_of_not_isName {key : String} (h : isName key = false) (p : Special) : key ≠ p.name := by
  rintro rfl
  have hany : isName p.name = true := List.any_eq_true.mpr ⟨p, mem_all p, beq_self_eq_true _⟩
  rw [hany] at h
  cases h

end Special

namespace Structure

def leadsOut (d : Structure) : Token → Bool
  | .site _ _ => false
  | .jump _ _ target _ => !d.has target

def Idle (d : Structure) (c : Token) : Prop := ∀ c' : Token, c'.same c = true → d.leadsOut c' = true

def PlainParams (d : Structure) : Prop :=
  ∀ scope param, d.Entry scope Special.params.name param → Special.isName param.kind = false

def onlySink (d : Structure) (v : Vulnerability) (t : Token) : Structure :=
  d.mapValues fun lists => lists.map fun l =>
    (l.1, if l.1 = (Special.sink v).name then l.2.filter (·.same t) else l.2)

variable {d e e' : Structure} {v : Vulnerability} {t : Token} {E : List String} {scope : String}

/-- Imports may be sorted in the first structure alone. -/
theorem Matches.sort_left {X : String → Prop} {ts : List Token} (h : Matches X E e e')
    (hts : e.tokens? scope Special.imports.name = some ts) :
    Matches X [] (e.putTokens scope Special.imports.name (Search.sortImports ts)) e' where
  has other := (h.has other).trans (has_putTokens_of_isSome (hts ▸ rfl) other).symm
  isSome other key := by
    rw [h.isSome, tokens?_putTokens]
    split
    · rename_i hsame
      rw [hsame.1, hsame.2, hts]
      rfl
    · rfl
  imports other := by
    rw [h.imports, tokens?_putTokens]
    split
    · rename_i hsame
      rw [hsame.1, hts, Option.map_some, Option.map_some, Search.sortImports_sortImports]
    · rfl
  settled other hother := by cases hother
  others other key hkey himports := by
    rw [tokens?_putTokens_of_ne _ _ fun hsame => himports hsame.2]
    exact h.others other key hkey himports

theorem tokens?_onlySink (d : Structure) (v : Vulnerability) (t : Token) (scope key : String) :
    (d.onlySink v t).tokens? scope key = (d.tokens? scope key).map fun ts =>
      if key = (Special.sink v).name then ts.filter (·.same t) else ts := by
  rw [Structure.tokens?, Structure.tokens?, onlySink, Table.get?_mapValues]
  cases d.get? scope with
  | none => rfl
  | some lists =>
    exact Table.get?_map (fun key ts =>
      if key = (Special.sink v).name then ts.filter (·.same t) else ts) lists key

theorem has_onlySink (d : Structure) (v : Vulnerability) (t : Token) (scope : String) :
    (d.onlySink v t).has scope = d.has scope := by
  rw [Table.has, onlySink, Table.get?_mapValues, Option.isSome_map, Table.has]

theorem Idle.of_same {c c' : Token} (h : d.Idle c) (hsame : c'.same c = true) : d.Idle c' :=
  fun c'' h'' => h c'' (Token.same_trans h'' hsame)

theorem Idle.jump {c : Token} (h : d.Idle c) :
    ∃ i m target args, c = .jump i m target args ∧ d.has target = false := by
  have hout := h c c.same_refl
  cases c with
  | site i m => cases hout
  | jump i m target args => exact ⟨i, m, target, args, rfl, by simpa [leadsOut] using hout⟩

end Structure

namespace Search

variable {d : Structure} {v : Vulnerability} {t : Token} {E : List String} {C : Path → Prop}
  {s s' : Search}

/-- All sinks, and those like `t`. -/
def bareOf (d : Structure) (v : Vulnerability) (t : Token) : Pairing where
  first := d
  second := d.onlySink v t
  apart key := key = (Special.sink v).name
  kinds key := Special.isName key = false
  idle := d.Idle

theorem proper_bareOf (hd : d.PlainParams) : (bareOf d v t).Proper where
  kinds _ hkey := Special.ne_name_of_not_isName hkey _
  params := .inr ⟨by simp only [bareOf]; decide, hd⟩
  places p hp := by
    intro h
    rw [Special.name_inj.mp h] at hp
    simp at hp
  idle _ hc := hc.jump
  same _ _ hc hsame := hc.of_same hsame

theorem along_bareOf (d : Structure) (v : Vulnerability) (t : Token) :
    Along (bareOf d v t) [] { flows := d } { flows := d.onlySink v t } where
  flows := {
    has := d.has_onlySink v t
    isSome := fun scope key => by rw [Structure.tokens?_onlySink, Option.isSome_map]
    imports := fun scope => by simp [Structure.tokens?_onlySink]
    settled := fun scope hscope => by cases hscope
    others := fun scope key hkey _ => by
      rw [Structure.tokens?_onlySink]
      simp [show ¬ key = (Special.sink v).name from hkey] }
  has _ := rfl
  kept _ _ _ _ := rfl
  kept' _ _ _ _ := rfl
  analysed _ _ := rfl

theorem Along.sinks (h : Along (bareOf d v t) E s s') (scope : String) :
    s.flows.tokens? scope (Special.sink v).name = d.tokens? scope (Special.sink v).name ∧
    s'.flows.tokens? scope (Special.sink v).name =
      (d.tokens? scope (Special.sink v).name).map (List.filter (·.same t)) := by
  have hkind : ¬ (bareOf d v t).kinds (Special.sink v).name :=
    fun hkey => Special.ne_name_of_not_isName hkey _ rfl
  have himports : (Special.sink v).name ≠ Special.imports.name := by simp
  refine ⟨h.kept scope _ hkind himports, (h.kept' scope _ hkind himports).trans ?_⟩
  simp [bareOf, Structure.tokens?_onlySink]

/-! ### Another sink -/

theorem steady_along (s' : Search) : Steady fun s => Along (bareOf d v t) [] s s' where
  visited _ _ hs := { hs with }
  paths _ _ hs := { hs with }
  imports _ _ _ hs hts := {
    flows := hs.flows.sort_left hts
    has := fun other => (Structure.has_putTokens_of_isSome (Option.isSome_of_eq_some hts) other).trans
      (hs.has other)
    kept := fun other key hkind himports => (Structure.tokens?_putTokens_of_ne _ _
      fun hsame => himports hsame.2).trans (hs.kept other key hkind himports)
    kept' := hs.kept'
    analysed := hs.analysed }

/-- What is done for a sink on whose way all calls are idle leaves nothing behind. -/
theorem aside_invariant (hd : d.PlainParams) (hC : Linked d C)
    (hidle : ∀ p c, C (p ++ [c]) → c.kind = Special.call.name → d.Idle c) (s' : Search) :
    Invariant (Holding d C fun s => Along (bareOf d v t) [] s s') (fun _ => True) C
      (fun c t => ∃ scope, d.Under scope c.kind t) (ViewOf d) (ImportsOf d) (fun _ => ¬ d.NoImports) := by
  refine holding_invariant d.allows_all (steady_along s') hC fun p c hpath hkind => ?_
  intro s o s₁ hs hrun
  have hproper : (bareOf d v t).Proper := proper_bareOf hd
  have hc : (bareOf d v t).idle c := hidle p c hpath hkind
  rw [hproper.enterCall_idle hc _ hs.has] at hrun
  cases hrun
  refine ⟨?_, trivial⟩
  have hnote := hs.note [c] [] fun c' hc' => ?_
  · simpa using hnote
  · exact (hproper.not_isIn (by simpa using hc) hc').symm

end Search

end MaskedTaint
