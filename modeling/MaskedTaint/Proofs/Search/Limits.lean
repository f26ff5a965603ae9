import MaskedTaint.Proofs.Search.Invariants

/-! Limits only stop a search. One that ends within its limits ends in the same way within wider
ones. -/

namespace MaskedTaint

structure Limit.Within (l l' : Limit) : Prop where
  depth : l.depth ≤ l'.depth
  width : l.width ≤ l'.width

namespace Search

def EndsAs {α : Type} (x y : Searching α) : Prop := ∀ s, (x s).1 = .error .unending ∨ y s = x s

/-- Two searches in the same state end alike, unless the first one comes to its limits. -/
abbrev Alike {α : Type} (E : List String) (Q : List String → α → α → Prop) (x y : Searching α) : Prop :=
  Couples (fun _ => Eq) (· = .unending) (fun e s e' s' => e = e' ∧ s = s') E Q x y

def alikeRelations : Relations where
  state _ := Eq
  reach p p' c c' := p = p' ∧ c = c'
  next _ _ := Eq
  view := Eq
  settled _ := Eq
  imports _ := Eq
  found := Eq

variable {α : Type} {lex : Lexicon} {limit limit' : Limit} {E : List String}

theorem Alike.refl {Q : List String → α → α → Prop} (x : Searching α) (hQ : ∀ E a, Q E a a) :
    Alike E Q x x := by
  rintro s _ rfl
  rcases x s with ⟨e | a, s'⟩
  · exact .error ⟨rfl, rfl⟩
  · exact .ok (List.Subset.refl E) rfl (hQ E a)

theorem Alike.endsAs {x y : Searching α} (h : Alike [] (fun _ => Eq) x y) : EndsAs x y := by
  intro s
  have hrun := h s s rfl
  revert hrun
  generalize x s = run
  generalize y s = run'
  rintro (⟨-, rfl, rfl⟩ | ⟨rfl, rfl⟩ | rfl)
  · exact .inr rfl
  · exact .inr rfl
  · exact .inl rfl

theorem lists_alike {P : Token → Token → Prop} (src : Source) (hP : ∀ t, P t t) :
    Lists (fun _ => Eq) E P src src := by
  rintro E' s _ - rfl
  exact List.forall₂_same.mpr fun t _ => hP t

theorem coupling_alike (hl : limit.Within limit') :
    Coupling (· = .unending) (fun e s e' s' => e = e' ∧ s = s') alikeRelations lex lex limit limit' where
  settled_mono _ hv := hv
  imports_mono _ hi := hi
  width := .inr ⟨hl.width, rfl⟩
  depth := .inr ⟨hl.depth, rfl⟩
  kind := by
    rintro p _ c _ ⟨rfl, rfl⟩ w -
    rfl
  visit := by
    rintro p _ t _ E s _ ⟨rfl, rfl⟩ rfl
    rfl
  leave := by
    rintro p _ t _ E s _ ⟨rfl, rfl⟩ rfl
    rfl
  conclude := by
    rintro p _ c _ E ⟨rfl, rfl⟩
    exact Alike.refl _ fun _ _ => trivial
  importsOf := by
    rintro v _ E rfl
    exact Alike.refl _ fun _ _ => ⟨rfl, rfl⟩
  enter := by
    rintro p _ c _ E ⟨rfl, rfl⟩ -
    refine Alike.refl _ fun _ o => rel_of_forall fun v _ => ⟨rfl, ?_⟩
    rintro E s _ - rfl
    exact rel_of_forall fun src _ => lists_alike src fun _ => ⟨rfl, rfl⟩
  lists := by
    rintro p _ c _ E v _ s _ ⟨rfl, rfl⟩ - rfl rfl
    exact ⟨rel_of_forall fun src _ => lists_alike src fun _ => rfl, Iff.rfl⟩
  home := by
    rintro p _ c _ ⟨rfl, rfl⟩ -
    refine ⟨?_, rfl, fun _ _ => lists_alike _ fun _ => rfl⟩
    rintro E s _ rfl
    exact ⟨rfl, fun _ => ⟨rfl, rfl⟩, rfl⟩
  follow := by
    rintro p _ c _ t _ E s _ ⟨rfl, rfl⟩ - rfl rfl
    exact ⟨rfl, fun _ => ⟨rfl, rfl⟩⟩
  between := by
    rintro p _ c _ t _ E i _ ⟨rfl, rfl⟩ - rfl rfl
    exact Alike.refl _ fun _ _ => rel_of_forall fun _ _ => rfl
  before := by
    rintro p _ c _ E i _ ⟨rfl, rfl⟩ - rfl
    exact Alike.refl _ fun _ _ => rel_of_forall fun _ _ => rfl
  found := by
    rintro p _ c _ scope _ ⟨rfl, rfl⟩ - rfl
    exact ⟨rfl, fun _ _ => ⟨lists_alike _ fun _ => rfl, lists_alike _ fun _ => ⟨rfl, rfl⟩⟩⟩

theorem exploreScopes_alike (hl : limit.Within limit') (place : String) (scopes : List String)
    (c : Catalog) : Alike [] (fun _ => Eq) (exploreScopes lex limit place scopes c)
      (exploreScopes lex limit' place scopes c) := by
  have K : Survey (· = .unending) (fun e s e' s' => e = e' ∧ s = s') (fun _ _ => alikeRelations)
      (fun _ => Eq) Eq Eq Eq lex lex limit limit' place place := {
    coupling := fun _ => coupling_alike hl
    width := .inr ⟨hl.width, rfl⟩
    start := by
      rintro t _ E s _ rfl rfl
      rfl
    path := fun ht => ⟨rfl, ht⟩
    view := fun _ hv => hv
    add := by
      rintro t _ E s _ c _ rfl rfl rfl
      exact ⟨rfl, rfl⟩
    sources := by
      rintro v _ E s _ rfl rfl
      exact rel_of_forall fun src _ => lists_alike src fun _ => rfl }
  have K' : Rounds (· = .unending) (fun e s e' s' => e = e' ∧ s = s') (fun _ => Eq) Eq Eq Eq Eq
      lex lex limit limit' place place := {
    width := K.width
    listed := by
      rintro scope _ E rfl
      exact lists_alike _ fun _ => rfl
    enter := by
      rintro t _ E rfl
      exact Alike.refl _ fun _ _ => rel_of_forall fun _ _ => rfl
    named := by
      rintro scope _ rfl
      rfl
    sinks := fun hv => K.exploreSinks hv }
  exact K'.exploreScopes (List.forall₂_same.mpr fun _ _ => rfl) rfl

theorem detect_endsAs (hl : limit.Within limit') (v : Vulnerability) :
    EndsAs (detect lex limit v) (detect lex limit' v) := by
  refine Alike.endsAs (.look ?_)
  rintro s _ rfl
  refine Couples.bind (exploreScopes_alike hl _ _ _) (fun E c _ _ hc => ?_) s s rfl
  exact .pure (congrArg _ hc)

end Search

end MaskedTaint
