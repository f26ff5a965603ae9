import MaskedTaint.Proofs.Search.Correspondence
import MaskedTaint.Proofs.Search.Coupling

/-! Corresponding searches agree: run side by side, they take the same steps, record
corresponding paths, and fail for the same cause if they fail. What they do in one step is
compared act by act; that it stays so is the coupling of two searches. -/

namespace MaskedTaint

/-- Failures for the same cause; the name of a missing entry may differ. -/
def SearchError.Alike : SearchError → SearchError → Prop
  | .missing _ _, .missing _ _ => True
  | e, e' => e = e'

namespace Correspondence

def held (C : Correspondence) (lex : Lexicon) (key : String) : Token → Token → Prop :=
  if key = lex.place .imports then C.imported else C.token

abbrev Scopes (C : Correspondence) (lex : Lexicon) : Scope → Scope → Prop :=
  Table.Related C.key fun key => List.Forall₂ (C.held lex key)

abbrev Flows (C : Correspondence) (lex : Lexicon) : Structure → Structure → Prop :=
  Table.Related C.scope fun _ => C.Scopes lex

structure Searches (C : Correspondence) (lex : Lexicon) (s s' : Search) : Prop where
  flows : C.Flows lex s.flows s'.flows
  analysed : List.Forall₂ C.token s.analysed s'.analysed
  visited : List.Forall₂ C.token s.visited s'.visited
  paths : C.PathLists s.paths s'.paths

structure Views (C : Correspondence) (lex : Lexicon) (v v' : View) : Prop where
  name : C.scope v.name v'.name
  own : C.Scopes lex v.own v'.own

/-- Sources whose tokens are related by `R`, now and after any steps of the search. -/
def Sources (C : Correspondence) (lex : Lexicon) (R : Token → Token → Prop) (src src' : Source) : Prop :=
  ∀ s s', C.Searches lex s s' → List.Forall₂ R (s.read src) (s'.read src')

abbrev Agree {α α' : Type} (C : Correspondence) (lex : Lexicon) (Q : α → α' → Prop)
    (x : Searching α) (y : Searching α') (s s' : Search) : Prop :=
  Act.Agree (C.Searches lex) SearchError.Alike Q x y s s'

variable {C : Correspondence} {lex lex' : Lexicon} {s s' : Search} {v v' : View} {d d' : Structure}
  {scope scope' key key' : String} {t t' u u' : Token} {isCall isCall' : Token → Bool}

theorem held_imports : C.held lex (lex.place .imports) = C.imported := if_pos rfl

theorem Searches.withFlows (hs : C.Searches lex s s') (hd : C.Flows lex d d') :
    C.Searches lex { s with flows := d } { s' with flows := d' } :=
  ⟨hd, hs.analysed, hs.visited, hs.paths⟩

theorem views_of_name (h : C.scope scope scope') : C.Views lex { name := scope } { name := scope' } :=
  ⟨h, .nil⟩

structure CallTest (C : Correspondence) (lex : Lexicon) (isCall isCall' : Token → Bool) : Prop where
  alike : ∀ t t', C.token t t' → isCall t = isCall' t'
  complete : ∀ t : Token, t.kind = lex.word .call → isCall t = true

section Faithful

variable (h : C.Faithful lex lex')

include h

theorem Faithful.held_place {p : Special} (hp : p ≠ .imports) :
    C.held lex (lex.place p) = C.token := if_neg (h.imports_ne p hp)

theorem Faithful.token_of_held (hu : C.token u u') (ht : C.held lex (lex.key u.kind) t t') :
    C.token t t' := by
  unfold held at ht
  split at ht
  · rename_i hk
    exact h.token_of_imported _ _ _ _ hu hk ht
  · exact ht

theorem Faithful.held_of_token (key : String) (ht : C.token t t') : C.held lex key t t' := by
  unfold held
  split
  · exact h.imported_of_token _ _ ht
  · exact ht

/-! ### Reading lists -/

theorem Faithful.tokens? (hd : C.Flows lex d d') (hs : C.scope scope scope') (hk : C.key key key') :
    Option.Rel (List.Forall₂ (C.held lex key)) (d.tokens? scope key) (d'.tokens? scope' key') := by
  have ho := hd.get? h.scope_iff hs
  unfold Structure.tokens?
  generalize d.get? scope = o at ho
  generalize d'.get? scope' = o' at ho
  cases ho with
  | none => exact .none
  | some hsc => exact hsc.get? h.key_iff hk

theorem Faithful.hasList (hs : C.Searches lex s s') (hn : C.scope scope scope') (hk : C.key key key') :
    s.hasList scope key = s'.hasList scope' key' :=
  (h.tokens? hs.flows hn hk).isSome_eq

theorem Faithful.stored (hn : C.scope scope scope') (hk : C.key key key') :
    C.Sources lex (C.held lex key) (.stored scope key) (.stored scope' key') :=
  fun _ _ hs => (h.tokens? hs.flows hn hk).getD .nil

theorem Faithful.stored_kind (hn : C.scope scope scope') (ht : C.token t t') :
    C.Sources lex C.token (.stored scope (lex.key t.kind)) (.stored scope' (lex'.key t'.kind)) :=
  fun s s' hs => (h.stored hn (h.kind t t' ht) s s' hs).imp fun _ _ hu => h.token_of_held ht hu

theorem Faithful.source? (hs : C.Searches lex s s') (hv : C.Views lex v v') (hk : C.key key key') :
    Option.Rel (C.Sources lex (C.held lex key)) (s.source? v key) (s'.source? v' key') := by
  unfold Search.source?
  rw [(h.tokens? hs.flows hv.name hk).isSome_eq]
  split
  · exact .some (h.stored hv.name hk)
  · exact (hv.own.get? h.key_iff hk).map fun _ _ hts _ _ _ => hts

theorem Faithful.source_place (hs : C.Searches lex s s') (hv : C.Views lex v v') {p : Special}
    (hp : p ≠ .imports) :
    Option.Rel (C.Sources lex C.token) (s.source? v (lex.place p)) (s'.source? v' (lex'.place p)) :=
  h.held_place hp ▸ h.source? hs hv (h.place p)

variable {ts ts' : List Token}

section

variable (hd : C.Flows lex d d') (hs : C.scope scope scope') (hk : C.key key key')
  (hts : List.Forall₂ (C.held lex key) ts ts')

include hd hs hk hts

theorem Faithful.putTokens :
    C.Flows lex (d.putTokens scope key ts) (d'.putTokens scope' key' ts') := by
  have hempty : C.Scopes lex Table.empty Table.empty := .nil
  have hscope := (hd.get? h.scope_iff hs).getD hempty
  exact hd.put h.scope_iff hs (hscope.put h.key_iff hk hts)

theorem Faithful.append : C.Flows lex (d.append scope key ts) (d'.append scope' key' ts') :=
  h.putTokens hd hs hk (List.rel_append ((h.tokens? hd hs hk).getD .nil) hts)

/-! ### Imports and calls -/

end

theorem Faithful.sortImports (hts : List.Forall₂ C.imported ts ts') :
    List.Forall₂ C.imported (Search.sortImports ts) (Search.sortImports ts') :=
  hts.mergeSort fun a a' b b' ha hb => by
    have hpos := h.pos_iff a a' b b' ha hb
    rw [Bool.eq_iff_iff]
    simp only [decide_eq_true_eq]
    omega

theorem Faithful.importsOf (hv : C.Views lex v v') (hs : C.Searches lex s s') :
    C.Agree lex (C.Sources lex C.imported) (Search.importsOf lex v) (Search.importsOf lex' v') s s' := by
  have hstored := (h.tokens? hs.flows hv.name (h.place .imports)).isSome_eq
  have himports := h.stored hv.name (h.place .imports)
  rw [held_imports] at himports
  refine .look ?_
  unfold Search.source?
  by_cases hst : (s.flows.tokens? v.name (lex.place .imports)).isSome = true
  · have hsorted := h.sortImports (himports s s' hs)
    rw [← (held_imports : C.held lex _ = C.imported)] at hsorted
    have hput := hs.withFlows (h.putTokens hs.flows hv.name (h.place .imports) hsorted)
    rw [if_pos hst, if_pos (hstored ▸ hst)]
    exact .bind (.update hput) fun _ _ _ _ _ hs => .pure hs himports
  · have ho := hv.own.get? h.key_iff (h.place .imports)
    rw [held_imports] at ho
    rw [if_neg hst, if_neg (hstored ▸ hst)]
    generalize v.own.get? (lex.place .imports) = o at ho
    generalize v'.own.get? (lex'.place .imports) = o' at ho
    cases ho with
    | none => exact .pure hs fun _ _ _ => .nil
    | some hts => exact .pure hs fun _ _ _ => hts

theorem Faithful.sortOwn (hv : C.Views lex v v') :
    C.Views lex (Search.sortOwn lex v) (Search.sortOwn lex' v') := by
  refine ⟨hv.name, List.forall₂_map_left_iff.mpr (List.forall₂_map_right_iff.mpr (hv.own.imp ?_))⟩
  rintro ⟨key, ts⟩ ⟨key', ts'⟩ ⟨hkey, hts⟩
  have hiff := h.key_iff key key' _ _ hkey (h.place .imports)
  refine ⟨hkey, ?_⟩
  dsimp only at hts ⊢
  by_cases himports : key = lex.place .imports
  · rw [if_pos himports, if_pos (hiff.mp himports)]
    rw [himports, held_imports] at hts ⊢
    exact h.sortImports hts
  · rwa [if_neg himports, if_neg (mt hiff.mpr himports)]

theorem Faithful.callTest_says : C.CallTest lex lex.saysCall lex'.saysCall := by
  refine ⟨fun t t' ht => ?_, fun _ hk => beq_iff_eq.mpr hk⟩
  rw [Bool.eq_iff_iff]
  simp only [Lexicon.saysCall, beq_iff_eq, h.word_iff t t' .call ht]

theorem Faithful.callTest_files : C.CallTest lex lex.filesCall lex'.filesCall := by
  refine ⟨fun t t' ht => ?_, fun _ hk => beq_iff_eq.mpr (congrArg lex.key hk)⟩
  rw [Bool.eq_iff_iff]
  simp only [Lexicon.filesCall, beq_iff_eq]
  exact h.key_iff _ _ _ _ (h.kind t t' ht) (h.place .call)

theorem Faithful.bound (hcall : C.CallTest lex isCall isCall') {p p' a a' : Token} (hp : C.token p p')
    (ha : C.token a a') : Act.SameOutcome SearchError.Alike C.token (Search.bound isCall p a)
      (Search.bound isCall' p' a') := by
  unfold Search.bound
  rw [← hcall.alike a a' ha]
  by_cases hc : isCall a = true
  · have htarget := h.target a a' (h.imported_of_token a a' ha)
    simp only [hc, if_true]
    cases a with
    | site i m =>
      cases a' with
      | site i' m' => exact .error rfl
      | jump i' m' g' as' => exact htarget.elim
    | jump i m g as =>
      cases a' with
      | site i' m' => exact htarget.elim
      | jump i' m' g' as' => exact .ok (h.bound_jump p p' i m g as i' m' g' as' hp ha)
  · have hk : a.kind ≠ lex.word .call := fun hk => hc (hcall.complete a hk)
    simp only [hc]
    exact .ok (h.bound_site p p' a a' hp ha hk)

theorem Faithful.addTo (hv : C.Views lex v v') (hk : C.key key key') (ht : C.token t t')
    (hs : C.Searches lex s s') :
    C.Agree lex (C.Views lex) (Search.addTo v key t) (Search.addTo v' key' t') s s' := by
  have hheld : List.Forall₂ (C.held lex key) [t] [t'] := .cons (h.held_of_token key ht) .nil
  refine .look ?_
  rw [h.hasList hs hv.name hk]
  split
  · refine .bind (.update (hs.withFlows (h.append hs.flows hv.name hk hheld))) ?_
    exact fun _ _ _ _ _ hs => .pure hs hv
  · have hown := (hv.own.get? h.key_iff hk).getD List.Forall₂.nil
    exact .pure hs ⟨hv.name, hv.own.put h.key_iff hk (List.rel_append hown hheld)⟩

section

variable (hcall : C.CallTest lex isCall isCall')

include hcall

theorem Faithful.bindFrom {args args' : List Token}
    (hargs : List.Forall₂ C.token args args') (hv : C.Views lex v v') (i : Nat)
    (hs : C.Searches lex s s') : C.Agree lex (C.Views lex) (Search.bindFrom lex isCall v i args)
      (Search.bindFrom lex' isCall' v' i args') s s' := by
  induction hargs generalizing v v' i s s' with
  | nil => exact .pure hs hv
  | cons ha _ ih =>
    have hread := h.stored hv.name (h.place .params) s s' hs
    rw [h.held_place (p := .params) (by decide)] at hread
    have hparam := hread.getElem? i
    refine .look ?_
    generalize (s.read (.stored v.name (lex.place .params)))[i]? = o at hparam
    generalize (s'.read (.stored v'.name (lex'.place .params)))[i]? = o' at hparam
    cases hparam with
    | none => exact .pure hs hv
    | @some p p' hp =>
      have hb := h.bound hcall hp ha
      dsimp only
      generalize Search.bound isCall p _ = b at hb
      generalize Search.bound isCall' p' _ = b' at hb
      cases hb with
      | error he => exact .fail hs he
      | ok ht => exact .bind (h.addTo hv (h.kind p p' hp) ht hs) fun _ _ _ _ hv hs => ih hv (i + 1) hs

theorem Faithful.callee (hn : C.scope scope scope')
    {args args' : List Token} (hargs : List.Forall₂ C.token args args') (hs : C.Searches lex s s') :
    C.Agree lex (C.Views lex) (Search.callee lex isCall scope args)
      (Search.callee lex' isCall' scope' args') s s' := by
  refine .look ?_
  rw [h.hasList hs hn (h.place .params)]
  split
  · exact .bind (h.bindFrom hcall hargs (views_of_name hn) 0 hs) fun _ _ _ _ hv hs => .pure hs (h.sortOwn hv)
  · exact .fail hs trivial

theorem Faithful.enterCall (ht : C.token t t') (hs : C.Searches lex s s') :
    C.Agree lex (Option.Rel (C.Views lex)) (Search.enterCall lex isCall t)
      (Search.enterCall lex' isCall' t') s s' := by
  have hmet : C.Searches lex { s with analysed := s.analysed ++ [t] }
      { s' with analysed := s'.analysed ++ [t'] } :=
    ⟨hs.flows, List.rel_append hs.analysed (.cons ht .nil), hs.visited, hs.paths⟩
  refine .bind (.update hmet) fun _ _ s s' _ hs => ?_
  have htarget := h.target t t' (h.imported_of_token t t' ht)
  cases t with
  | site i m =>
    cases t' with
    | site i' m' => exact .fail hs rfl
    | jump i' m' g' as' => exact htarget.elim
  | jump i m g as =>
    cases t' with
    | site i' m' => exact htarget.elim
    | jump i' m' g' as' =>
      refine .look ?_
      rw [hs.flows.has h.scope_iff htarget]
      split
      · refine .bind (h.callee hcall htarget (h.args _ _ _ _ _ _ _ _ ht) hs) ?_
        exact fun _ _ _ _ hv hs => .pure hs (.some hv)
      · exact .pure hs .none

theorem Faithful.meet (ht : C.token t t')
    (hs : C.Searches lex s s') : C.Agree lex (Option.Rel (C.Views lex)) (Search.meet lex isCall t)
      (Search.meet lex' isCall' t') s s' := by
  refine .look ?_
  rw [h.isIn ht hs.analysed]
  split
  · exact .pure hs .none
  · exact h.enterCall hcall ht hs

end

theorem Faithful.findImport {wanted wanted' : Token → Bool}
    (hw : ∀ t t', C.imported t t' → wanted t = wanted' t') (hk : C.key key key') {src src' : Source}
    (hsrc : C.Sources lex C.imported src src') (hs : C.Searches lex s s') :
    C.Agree lex (Option.Rel C.scope) (Search.findImport lex wanted key src)
      (Search.findImport lex' wanted' key' src') s s' := by
  have hts := hsrc s s' hs
  unfold Agree Act.Agree Search.findImport
  generalize s.read src = ts at hts
  generalize s'.read src' = ts' at hts
  induction hts with
  | nil => exact ⟨hs, .ok .none⟩
  | @cons t t' ts ts' ht _ ih =>
    have htarget := h.target t t' ht
    simp only [Search.findImport.go, ← hw t t' ht]
    by_cases hwt : wanted t = true
    · simp only [hwt, if_true]
      cases t with
      | site i m =>
        cases t' with
        | site i' m' => exact ⟨hs, .error rfl⟩
        | jump i' m' g' as' => exact htarget.elim
      | jump i m g as =>
        cases t' with
        | site i' m' => exact htarget.elim
        | jump i' m' g' as' =>
          dsimp only
          rw [h.hasList hs htarget hk]
          split
          · exact ⟨hs, .ok (.some htarget)⟩
          · exact ih
    · simp only [hwt]
      exact ih

/-! ### Tokens on the way -/

theorem Faithful.conclude {p p' : Path} (hp : C.Paths p p') (hs : C.Searches lex s s') :
    C.Agree lex (fun _ _ => True) (Search.conclude p) (Search.conclude p') s s' := by
  have ho := h.conclude? hp hs.paths
  refine .look ?_
  generalize p.conclude? s.paths = o at ho
  generalize p'.conclude? s'.paths = o' at ho
  cases ho with
  | none => exact .fail hs rfl
  | some hps => exact .update ⟨hs.flows, hs.analysed, hs.visited, hps⟩

theorem Faithful.unvisit (ht : C.token t t') (hts : List.Forall₂ C.token ts ts') :
    List.Forall₂ C.token (Search.unvisit t ts) (Search.unvisit t' ts') := by
  induction hts with
  | nil => exact .nil
  | cons hu hts ih =>
    simp only [Search.unvisit, h.same _ _ _ _ hu ht]
    split
    · exact hts
    · exact .cons hu ih

theorem Faithful.canFollow {c c' : Token} (hc : C.token c c') (ht : C.token t t')
    (hs : C.Searches lex s s') : s.canFollow c t = s'.canFollow c' t' := by
  unfold Search.canFollow
  rw [Bool.eq_iff_iff]
  simp only [h.isIn ht hs.visited, Bool.and_eq_true, Bool.or_eq_true, bne_iff_ne, ne_eq,
    decide_eq_true_eq, h.home_iff _ _ _ _ hc ht, h.token_pos_iff ht hc]

end Faithful

/-! ### Searching -/

def relations (C : Correspondence) (lex : Lexicon) : Search.Relations where
  state _ := C.Searches lex
  reach p p' t t' := C.Paths p p' ∧ C.token t t'
  next _ _ := C.token
  view := C.Views lex
  settled _ := C.Views lex
  imports _ := C.Sources lex C.imported
  found := C.scope

abbrev Couples {α α' : Type} (C : Correspondence) (lex : Lexicon) (E : List String)
    (Q : α → α' → Prop) (x : Searching α) (y : Searching α') : Prop :=
  Search.Couples (fun _ => C.Searches lex) (fun _ => False)
    (fun e s e' s' => e.Alike e' ∧ C.Searches lex s s') E (fun _ => Q) x y

theorem couples_iff {α α' : Type} {Q : α → α' → Prop} {x : Searching α} {y : Searching α'}
    {E : List String} :
    C.Couples lex E Q x y ↔ ∀ s s', C.Searches lex s s' → C.Agree lex Q x y s s' := by
  refine forall_congr' fun s => forall_congr' fun s' => imp_congr_right fun hs => ?_
  unfold Agree Act.Agree
  rcases x s with ⟨o, t⟩
  rcases y s' with ⟨o', t'⟩
  constructor
  · rintro (⟨-, ht, ha⟩ | ⟨he, ht⟩ | ⟨⟨⟩⟩)
    · exact ⟨ht, .ok ha⟩
    · exact ⟨ht, .error he⟩
  · rintro ⟨ht, ha | he⟩
    · exact .ok (List.Subset.refl E) ht ha
    · exact .error ⟨he, ht⟩

section Searching

variable (h : C.Faithful lex lex')

include h

theorem Faithful.coupling (limit : Limit) :
    Search.Coupling (fun _ => False) (fun e s e' s' => e.Alike e' ∧ C.Searches lex s s')
      (C.relations lex) lex lex' limit limit where
  settled_mono _ hv := hv
  imports_mono _ hi := hi
  width := .inl ⟨rfl, fun _ _ _ hs => ⟨rfl, hs⟩⟩
  depth := .inl ⟨rfl, fun _ _ _ hs => ⟨rfl, hs⟩⟩
  kind hc w _ := h.word_iff _ _ w hc.2
  visit ht hs := ⟨hs.flows, hs.analysed, List.rel_append hs.visited (.cons ht.2 .nil), hs.paths⟩
  leave ht hs := ⟨hs.flows, hs.analysed, h.unvisit ht.2 hs.visited, hs.paths⟩
  conclude hc := couples_iff.mpr fun _ _ => h.conclude (List.rel_append hc.1 (.cons hc.2 .nil))
  importsOf hv := Search.Couples.imp (couples_iff.mpr fun _ _ => h.importsOf hv)
    fun _ _ _ _ hi => ⟨hi, hv⟩
  enter hc _ := by
    refine Search.Couples.imp (couples_iff.mpr fun _ _ => h.meet h.callTest_says hc.2) ?_
    refine fun _ _ _ _ ho => ho.imp fun _ _ hv => ⟨hv, fun _ s s' hv hs => ?_⟩
    have hsrc := h.source_place hs hv (p := .result) (by decide)
    refine hsrc.imp fun _ _ hsrc _ s s' _ hs => (hsrc s s' hs).imp fun _ _ ht => ?_
    exact ⟨List.rel_append hc.1 (.cons hc.2 .nil), ht⟩
  lists hc _ hv hs := by
    refine ⟨(h.source? hs hv (h.kind _ _ hc.2)).imp fun _ _ hsrc _ s s' _ hs => ?_,
      h.scope_iff _ _ _ _ (h.home _ _ hc.2) hv.name⟩
    exact (hsrc s s' hs).imp fun _ _ ht => h.token_of_held hc.2 ht
  home hc _ := by
    have hhome := h.home _ _ hc.2
    refine ⟨fun _ s s' hs => ⟨hs.flows.has h.scope_iff hhome, fun _ => ⟨trivial, hs⟩,
      h.hasList hs hhome (h.kind _ _ hc.2)⟩, views_of_name hhome, ?_⟩
    exact fun _ _ _ s s' _ => h.stored_kind hhome hc.2 s s'
  follow hc _ ht hs :=
    ⟨h.canFollow hc.2 ht hs, fun _ => ⟨List.rel_append hc.1 (.cons hc.2 .nil), ht⟩⟩
  between {p p' c c' t t' E i i'} hc _ ht hi := by
    refine couples_iff.mpr fun _ _ => h.findImport (fun u u' hu => ?_) (h.kind _ _ hc.2) hi
    rw [Bool.eq_iff_iff]
    simp only [Bool.and_eq_true, decide_eq_true_eq,
      h.pos_iff t t' u u' (h.imported_of_token t t' ht) hu,
      h.pos_iff u u' c c' hu (h.imported_of_token c c' hc.2)]
  before {p p' c c' E i i'} hc _ hi := by
    refine couples_iff.mpr fun _ _ => h.findImport (fun u u' hu => ?_) (h.kind _ _ hc.2) hi
    rw [Bool.eq_iff_iff]
    simp only [decide_eq_true_eq, ← Int.not_lt,
      h.pos_iff c c' u u' (h.imported_of_token c c' hc.2) hu]
  found hc _ hn := by
    refine ⟨views_of_name hn, fun _ _ => ⟨fun _ s s' _ => h.stored_kind hn hc.2 s s', ?_⟩⟩
    exact fun _ s s' _ hs => (h.stored_kind hn hc.2 s s' hs).imp fun _ _ ht =>
      ⟨List.rel_append hc.1 (.cons hc.2 .nil), ht⟩

theorem Faithful.exploreScopes (limit : Limit) {p : Special} (hp : p ≠ .imports)
    {names names' : List String} (hn : List.Forall₂ C.scope names names') (hs : C.Searches lex s s') :
    C.Agree lex C.Catalogs (Search.exploreScopes lex limit (lex.place p) names [])
      (Search.exploreScopes lex' limit (lex'.place p) names' []) s s' := by
  have hwidth : Search.Lasts (fun _ => False) (fun e s e' s' => e.Alike e' ∧ C.Searches lex s s')
      (fun _ => C.Searches lex) limit.width limit.width := .inl ⟨rfl, fun _ _ _ hs => ⟨rfl, hs⟩⟩
  have hsinks : Search.Survey (fun _ => False) (fun e s e' s' => e.Alike e' ∧ C.Searches lex s s')
      (fun _ _ => C.relations lex) (fun _ => C.Searches lex) C.Catalogs (C.Views lex) C.token
      lex lex' limit limit (lex.place p) (lex'.place p) :=
    { coupling := fun _ => h.coupling limit
      width := hwidth
      start := fun ht hs => ⟨hs.flows, hs.analysed, .cons ht .nil, .nil⟩
      path := fun ht => ⟨.nil, ht⟩
      view := fun _ hv => hv
      add := fun ht hs hc => ⟨hs, h.add hc ht hs.paths⟩
      sources := fun hv hs => (h.source_place hs hv hp).imp fun _ _ hsrc _ s s' _ => hsrc s s' }
  have hrounds : Search.Rounds (fun _ => False) (fun e s e' s' => e.Alike e' ∧ C.Searches lex s s')
      (fun _ => C.Searches lex) C.Catalogs (C.Views lex) C.token C.scope lex lex' limit limit
      (lex.place p) (lex'.place p) :=
    { width := hwidth
      listed := fun hn _ s s' _ =>
        h.held_place (p := .call) (by decide) ▸ h.stored hn (h.place .call) s s'
      enter := fun ht => couples_iff.mpr fun _ _ => h.meet h.callTest_files ht
      named := views_of_name
      sinks := fun hv hc => hsinks.exploreSinks hv hc }
  exact couples_iff.mp (hrounds.exploreScopes (E := []) hn .nil) s s' hs

/-! ### Detection -/

theorem Faithful.isVulnerable (v : Vulnerability) {p p' : Path} (hp : C.Paths p p') :
    Search.isVulnerable lex v p = Search.isVulnerable lex' v p' := by
  have hkind : ∀ (w : Special) t t', C.token t t' →
      (t.kind == lex.word w) = (t'.kind == lex'.word w) := by
    intro w t t' ht
    rw [Bool.eq_iff_iff]
    simp only [beq_iff_eq, h.word_iff t t' w ht]
  have hf := hp.find? (p := fun t => t.kind == lex.word (.sanitizer v) || t.kind == lex.word .input)
    (q := fun t => t.kind == lex'.word (.sanitizer v) || t.kind == lex'.word .input)
    fun t t' ht => by rw [hkind _ t t' ht, hkind _ t t' ht]
  unfold Search.isVulnerable
  generalize p.find? _ = o at hf
  generalize p'.find? _ = o' at hf
  cases hf with
  | none => rfl
  | some ht => simp only [bne, hkind _ _ _ ht]

theorem Faithful.vulnerablePaths (v : Vulnerability) {c c' : Catalog} (hc : C.Catalogs c c') :
    C.PathLists (Search.vulnerablePaths lex v c) (Search.vulnerablePaths lex' v c') :=
  (h.withSplits hc (h.withBranches hc (h.relevant hc))).filter fun _ _ hp => h.isVulnerable v hp

theorem Faithful.detect (limit : Limit) (v : Vulnerability) (hs : C.Searches lex s s') :
    C.Agree lex C.PathLists (Search.detect lex limit v) (Search.detect lex' limit v) s s' := by
  have hnames : List.Forall₂ C.scope s.flows.names s'.flows.names := by
    rw [Table.names, Table.names, List.forall₂_map_left_iff, List.forall₂_map_right_iff]
    exact hs.flows.imp fun _ _ he => he.1
  refine .look (.bind (h.exploreScopes limit (p := .sink v) (by simp) hnames hs) ?_)
  exact fun _ _ _ _ hc hs => .pure hs (h.vulnerablePaths v hc)

end Searching

end Correspondence

end MaskedTaint
