import MaskedTaint.Proofs.Search.Coupling

/-! What a search keeps. A property of the state that outlasts the small acts of a search holds
throughout it, and the search fails only as these acts do: a search is coupled with itself. -/

namespace MaskedTaint

namespace Search

/-- Whatever is read from the source in the course of the search has the property. -/
def Offers (I : Search → Prop) (P : Token → Prop) (src : Source) : Prop :=
  ∀ s, I s → ∀ t ∈ s.read src, P t

abbrev Both {α : Type} (P : α → Prop) (a a' : α) : Prop := a = a' ∧ P a

variable {α : Type} {I : Search → Prop} {A : SearchError → Prop} {Q : α → Prop} {x : Searching α}
  {E : List String}

theorem Couples.single (h : Act.Ensures I I A Q x) :
    Couples (fun _ => Both I) (fun _ => False) (fun e _ _ _ => A e) E (fun _ => Both Q) x x := by
  rintro s _ ⟨rfl, hs⟩
  have hland := h s hs
  revert hland
  generalize x s = run
  rintro (⟨hs', ha⟩ | he)
  · exact .ok (List.Subset.refl E) ⟨rfl, hs'⟩ ⟨rfl, ha⟩
  · exact .error he

theorem Couples.ensures {R : List String → α → α → Prop}
    (h : Couples (fun _ => Both I) (fun _ => False) (fun e _ _ _ => A e) [] R x x)
    (hQ : ∀ E a a', R E a a' → Q a) : Act.Ensures I I A Q x := by
  intro s hs
  have hrun := h s s ⟨rfl, hs⟩
  revert hrun
  rcases x s with ⟨e | a, s'⟩ <;> rintro (⟨-, hs', ha⟩ | h | h)
  · exact .error h
  · exact h.elim
  · exact .ok hs'.2 (hQ _ _ _ ha)

theorem Couples.keeping {α' : Type} {S : List String → Search → Search → Prop} {L : SearchError → Prop}
    {F : SearchError → Search → SearchError → Search → Prop} {R : List String → α → α' → Prop}
    {y : Searching α'} (h : Couples S L F E R x y) (hI : Act.Ensures I I A Q x) :
    Couples (fun E s s' => I s ∧ S E s s') L F E (fun E a a' => R E a a' ∧ Q a) x y := by
  intro s s' hs
  have hrun := h s s' hs.2
  have hland := hI s hs.1
  revert hrun hland
  generalize x s = run
  generalize y s' = run'
  rintro (⟨hE, hs', ha⟩ | h | h) hland
  · cases hland with
    | ok hI' hq => exact .ok hE ⟨hI', hs'⟩ ⟨ha, hq⟩
  · exact .error h
  · exact .free h

theorem lists_single {P : Token → Prop} {src : Source} (h : Offers I P src) :
    Lists (fun _ => Both I) E (Both P) src src := by
  rintro _ s _ _ ⟨rfl, hs⟩
  exact List.forall₂_same.mpr fun t ht => ⟨rfl, h s hs t ht⟩

theorem rel_of_forall {R : α → α → Prop} {o : Option α} (h : ∀ a, o = some a → R a a) :
    Option.Rel R o o := by
  cases o with
  | none => exact .none
  | some a => exact .some (h a rfl)

theorem rel_both {P : α → Prop} {o o' : Option α} (h : Both (fun o => ∀ a, o = some a → P a) o o') :
    Option.Rel (Both P) o o' := by
  obtain ⟨rfl, ho⟩ := h
  exact rel_of_forall fun a ha => ⟨rfl, ho a ha⟩

structure Invariant (I : Search → Prop) (A : SearchError → Prop) (path : Path → Prop)
    (next : Token → Token → Prop) (view : View → Prop) (imports : Source → Prop)
    (found : String → Prop) : Prop where
  unending : A .unending
  visited : ∀ {s : Search} {ts}, I s → I { s with visited := ts }
  conclude : ∀ {p}, path p → Act.Ensures I I A (fun _ => True) (conclude p)
  importsOf : ∀ {v}, view v → Act.Ensures I I A imports (importsOf .plain v)
  enter : ∀ {p c}, path (p ++ [c]) → c.kind = Special.call.name →
    Act.Ensures I I A (fun o => ∀ v, o = some v → view v ∧ ∀ (s : Search) src, I s →
      s.source? v Special.result.name = some src → Offers I (fun t => path (p ++ [c] ++ [t])) src)
      (enterCall .plain Lexicon.plain.saysCall c)
  lists : ∀ {p c v src} {s : Search}, path (p ++ [c]) → c.kind ≠ Special.call.name → view v → I s →
    s.source? v c.kind = some src → Offers I (next c) src
  home : ∀ {p c}, path (p ++ [c]) → c.kind ≠ Special.call.name →
    (∀ s, I s → s.flows.has c.scope = false → A (.missing c.scope c.scope)) ∧
    view { name := c.scope } ∧ Offers I (next c) (.stored c.scope c.kind)
  follow : ∀ {p c t} {s : Search}, path (p ++ [c]) → c.kind ≠ Special.call.name → next c t →
    s.canFollow c t = true → path (p ++ [c] ++ [t])
  find : ∀ {p c i}, path (p ++ [c]) → c.kind ≠ Special.call.name → imports i → ∀ wanted,
    Act.Ensures I I A (fun o => ∀ scope, o = some scope → found scope) (findImport .plain wanted c.kind i)
  found : ∀ {p c scope}, path (p ++ [c]) → c.kind ≠ Special.call.name → found scope →
    view { name := scope } ∧ Offers I (next c) (.stored scope c.kind) ∧
    Offers I (fun t => path (p ++ [c] ++ [t])) (.stored scope c.kind)

theorem ensures_all (x : Searching α) :
    Act.Ensures (fun _ => True) (fun _ => True) (fun _ => True) (fun _ => True) x := by
  intro s _
  rcases x s with ⟨e | a, s'⟩
  · exact .error trivial
  · exact .ok trivial trivial

theorem invariant_true : Invariant (fun _ => True) (fun _ => True) (fun _ => True) (fun _ _ => True)
    (fun _ => True) (fun _ => True) (fun _ => True) where
  unending := trivial
  visited _ := trivial
  conclude _ := ensures_all _
  importsOf _ := ensures_all _
  enter _ _ := (ensures_all _).imp (fun _ h => h) fun _ _ _ _ => ⟨trivial, fun _ _ _ _ _ _ _ _ => trivial⟩
  lists _ _ _ _ _ _ _ _ _ := trivial
  home _ _ := ⟨fun _ _ _ => trivial, trivial, fun _ _ _ _ => trivial⟩
  follow _ _ _ _ := trivial
  find _ _ _ _ := (ensures_all _).imp (fun _ h => h) fun _ _ _ _ => trivial
  found _ _ _ := ⟨trivial, fun _ _ _ _ => trivial, fun _ _ _ _ => trivial⟩

namespace Invariant

variable {path : Path → Prop} {next : Token → Token → Prop} {view : View → Prop}
  {imports : Source → Prop} {found : String → Prop}

def relations (I : Search → Prop) (path : Path → Prop) (next : Token → Token → Prop)
    (view : View → Prop) (imports : Source → Prop) (found : String → Prop) : Relations where
  state _ := Both I
  reach p p' c c' := p = p' ∧ Both (fun c => path (p ++ [c])) c c'
  next c _ := Both (next c)
  view := Both view
  settled _ := Both view
  imports _ := Both imports
  found := Both found

theorem ensures_meet {R : Option View → Prop} {isCall : Token → Bool} {t : Token} (hnone : R none)
    (h : Act.Ensures I I A R (enterCall .plain isCall t)) :
    Act.Ensures I I A R (meet .plain isCall t) := by
  refine .bind .state fun s _ => ?_
  split
  · exact .pure hnone
  · exact h

theorem coupling (h : Invariant I A path next view imports found) (limit : Limit) :
    Coupling (fun _ => False) (fun e _ _ _ => A e) (relations I path next view imports found)
      .plain .plain limit limit where
  settled_mono _ hv := hv
  imports_mono _ hi := hi
  width := .inl ⟨rfl, fun _ _ _ _ => h.unending⟩
  depth := .inl ⟨rfl, fun _ _ _ _ => h.unending⟩
  kind := by
    rintro p _ c _ ⟨rfl, rfl, -⟩ w -
    rfl
  visit := by
    rintro p _ t _ E s _ ⟨rfl, rfl, -⟩ ⟨rfl, hs⟩
    exact ⟨rfl, h.visited hs⟩
  leave := by
    rintro p _ t _ E s _ ⟨rfl, rfl, -⟩ ⟨rfl, hs⟩
    exact ⟨rfl, h.visited hs⟩
  conclude := by
    rintro p _ c _ E ⟨rfl, rfl, hc⟩
    exact (Couples.single (h.conclude hc)).imp fun _ _ _ _ _ => trivial
  importsOf := by
    rintro v _ E ⟨rfl, hv⟩
    exact (Couples.single (h.importsOf hv)).imp fun _ _ _ _ hi => ⟨hi, rfl, hv⟩
  enter := by
    rintro p _ c _ E ⟨rfl, rfl, hc⟩ hkind
    refine (Couples.single (ensures_meet (fun v hv => by cases hv) (h.enter hc hkind))).imp ?_
    rintro _ o _ - ⟨rfl, ho⟩
    refine rel_of_forall fun v hv => ⟨⟨rfl, (ho v hv).1⟩, ?_⟩
    rintro E s _ - ⟨rfl, hs⟩
    refine rel_of_forall fun src hsrc E' s₁ s' hE hs₁ => ?_
    exact (lists_single ((ho v hv).2 s src hs hsrc) E' s₁ s' hE hs₁).imp fun _ _ ht => ⟨rfl, ht⟩
  lists := by
    rintro p _ c _ E v _ s _ ⟨rfl, rfl, hc⟩ hkind ⟨rfl, hv⟩ ⟨rfl, hs⟩
    exact ⟨rel_of_forall fun src hsrc => lists_single (h.lists hc hkind hv hs hsrc), Iff.rfl⟩
  home := by
    rintro p _ c _ ⟨rfl, rfl, hc⟩ hkind
    obtain ⟨hmissing, hview, hlist⟩ := h.home hc hkind
    refine ⟨?_, ⟨rfl, hview⟩, fun E _ => lists_single hlist⟩
    rintro E s _ ⟨rfl, hs⟩
    exact ⟨rfl, hmissing s hs, rfl⟩
  follow := by
    rintro p _ c _ t _ E s _ ⟨rfl, rfl, hc⟩ hkind ⟨rfl, ht⟩ ⟨rfl, hs⟩
    exact ⟨rfl, fun hcan => ⟨rfl, rfl, h.follow hc hkind ht hcan⟩⟩
  between := by
    rintro p _ c _ t _ E i _ ⟨rfl, rfl, hc⟩ hkind ⟨rfl, ht⟩ ⟨rfl, hi⟩
    exact (Couples.single (h.find hc hkind hi _)).imp fun _ _ _ _ ho => rel_both ho
  before := by
    rintro p _ c _ E i _ ⟨rfl, rfl, hc⟩ hkind ⟨rfl, hi⟩
    exact (Couples.single (h.find hc hkind hi _)).imp fun _ _ _ _ ho => rel_both ho
  found := by
    rintro p _ c _ scope _ ⟨rfl, rfl, hc⟩ hkind ⟨rfl, hscope⟩
    obtain ⟨hview, hnext, hall⟩ := h.found hc hkind hscope
    refine ⟨⟨rfl, hview⟩, fun E _ => ⟨lists_single hnext, ?_⟩⟩
    exact fun E' s s' hE hs => (lists_single hall E' s s' hE hs).imp fun _ _ ht => ⟨rfl, ht⟩

theorem explore (h : Invariant I A path next view imports found) (limit : Limit) (depth : Nat)
    {p : Path} {v : View} {i : Source} {c : Token} (hv : view v) (hi : imports i)
    (hc : path (p ++ [c])) : Act.Ensures I I A (fun _ => True) (explore .plain limit depth p v i c) :=
  ((h.coupling limit).explore (.inl ⟨rfl, fun _ _ _ _ => h.unending⟩) p p [] v v i i c c ⟨rfl, hv⟩
    ⟨rfl, hi⟩ ⟨rfl, rfl, hc⟩).ensures fun _ _ _ _ => trivial

/-- The same for the search from all sinks. Between two sinks `T` holds. -/
theorem exploreScopes {I : Token → Search → Prop} {T : Search → Prop} {path : Token → Path → Prop}
    {S C : Token → Prop} {Q : Catalog → Prop} {place : String} {limit : Limit}
    (h : ∀ t, S t → Invariant (I t) A (path t) next view imports found) (hunending : A .unending)
    (hpath : ∀ t, S t → path t [t])
    (hstart : ∀ t s, S t → T s → I t { s with visited := [t], paths := [] })
    (hend : ∀ t s c, S t → I t s → Q c → T s ∧ Q (c.add t s.paths))
    (hsinks : ∀ v s src, view v → T s → s.source? v place = some src → Offers T S src)
    (hcalls : ∀ scope, view { name := scope } ∧ Offers T C (.stored scope Special.call.name))
    (henter : ∀ t, C t → Act.Ensures T T A (fun o => ∀ v, o = some v → view v)
      (enterCall .plain Lexicon.plain.filesCall t))
    (scopes : List String) {c : Catalog} (hc : Q c) :
    Act.Ensures T T A Q (exploreScopes .plain limit place scopes c) := by
  have K : Survey (fun _ => False) (fun e _ _ _ => A e)
      (fun t _ => relations (I t) (path t) next view imports found) (fun _ => Both T) (Both Q)
      (Both view) (Both S) .plain .plain limit limit place place := {
    coupling := by
      rintro t _ ⟨rfl, ht⟩
      exact (h t ht).coupling limit
    width := .inl ⟨rfl, fun _ _ _ _ => hunending⟩
    start := by
      rintro t _ E s _ ⟨rfl, ht⟩ ⟨rfl, hs⟩
      exact ⟨rfl, hstart t s ht hs⟩
    path := by
      rintro t _ ⟨rfl, ht⟩
      exact ⟨rfl, rfl, hpath t ht⟩
    view := fun _ hv => hv
    add := by
      rintro t _ E s _ c _ ⟨rfl, ht⟩ ⟨rfl, hs⟩ ⟨rfl, hc⟩
      obtain ⟨hs', hc'⟩ := hend t s c ht hs hc
      exact ⟨⟨rfl, hs'⟩, rfl, hc'⟩
    sources := by
      rintro v _ E s _ ⟨rfl, hv⟩ ⟨rfl, hs⟩
      exact rel_of_forall fun src hsrc => lists_single (hsinks v s src hv hs hsrc) }
  have K' : Rounds (fun _ => False) (fun e _ _ _ => A e) (fun _ => Both T) (Both Q) (Both view)
      (Both C) (Both fun _ => True) .plain .plain limit limit place place := {
    width := K.width
    listed := by
      rintro scope _ E ⟨rfl, -⟩
      exact lists_single (hcalls scope).2
    enter := by
      rintro t _ E ⟨rfl, ht⟩
      refine (Couples.single (ensures_meet (fun v hv => by cases hv) (henter t ht))).imp ?_
      rintro _ o _ - ⟨rfl, ho⟩
      exact rel_of_forall fun v hv => ⟨rfl, ho v hv⟩
    named := by
      rintro scope _ ⟨rfl, -⟩
      exact ⟨rfl, (hcalls scope).1⟩
    sinks := fun hv => K.exploreSinks hv }
  have hscopes := K'.exploreScopes (E := []) (List.forall₂_same.mpr fun scope (_ : scope ∈ scopes) =>
    ⟨rfl, trivial⟩) ⟨rfl, hc⟩
  exact hscopes.ensures fun _ _ _ hc => hc.1 ▸ hc.2

end Invariant

end Search

end MaskedTaint
