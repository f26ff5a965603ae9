import MaskedTaint.Proofs.Acts
import MaskedTaint.Proofs.Related
import MaskedTaint.Search.Detect

/-! Two searches side by side. Wherever a property of one search or a relation between two of them
outlasts the small acts (sorting imports, entering a call, finding an import, recording a path, going
to a token and back), it outlasts the search; this module goes once through the loops and cases of the
search for all of them. The relation may get to know more scopes whose imports have been sorted, so it
comes with a list of these. -/

namespace MaskedTaint

namespace Search

/-- Both runs give values, related in a state that knows at least the scopes `E`; or both fail in a
way that `F` allows; or the first one fails in a way that says nothing of the other. -/
inductive Coupled {α α' : Type} (S : List String → Search → Search → Prop) (L : SearchError → Prop)
    (F : SearchError → Search → SearchError → Search → Prop) (E : List String)
    (Q : List String → α → α' → Prop) :
    Except SearchError α × Search → Except SearchError α' × Search → Prop
  | ok {E' : List String} {a : α} {a' : α'} {s s' : Search} (hE : E ⊆ E') (hs : S E' s s')
      (ha : Q E' a a') : Coupled S L F E Q (.ok a, s) (.ok a', s')
  | error {e e' : SearchError} {s s' : Search} (h : F e s e' s') :
      Coupled S L F E Q (.error e, s) (.error e', s')
  | free {e : SearchError} {s : Search} {run : Except SearchError α' × Search} (h : L e) :
      Coupled S L F E Q (.error e, s) run

def Couples {α α' : Type} (S : List String → Search → Search → Prop) (L : SearchError → Prop)
    (F : SearchError → Search → SearchError → Search → Prop) (E : List String)
    (Q : List String → α → α' → Prop) (x : Searching α) (y : Searching α') : Prop :=
  ∀ s s', S E s s' → Coupled S L F E Q (x s) (y s')

namespace Couples

variable {α α' β β' : Type} {S : List String → Search → Search → Prop} {L : SearchError → Prop}
  {F : SearchError → Search → SearchError → Search → Prop} {E : List String}
  {Q : List String → α → α' → Prop} {R : List String → β → β' → Prop}
  {x : Searching α} {y : Searching α'}

theorem pure {a : α} {a' : α'} (h : Q E a a') :
    Couples S L F E Q (pure a : Searching α) (pure a' : Searching α') :=
  fun _ _ hs => .ok (List.Subset.refl E) hs h

theorem fail {e e' : SearchError} (h : ∀ s s', S E s s' → F e s e' s') :
    Couples S L F E Q (Act.fail e : Searching α) (Act.fail e' : Searching α') :=
  fun s s' hs => .error (h s s' hs)

theorem update {f g : Search → Search} (h : ∀ s s', S E s s' → S E (f s) (g s')) :
    Couples S L F E (fun _ _ _ => True) (Act.update f : Searching Unit) (Act.update g : Searching Unit) :=
  fun s s' hs => .ok (List.Subset.refl E) (h s s' hs) trivial

theorem look {f : Search → Searching α} {g : Search → Searching α'}
    (h : ∀ s s', S E s s' → Coupled S L F E Q (f s s) (g s' s')) :
    Couples S L F E Q (Act.state >>= f) (Act.state >>= g) := h

theorem peek {f : Search → Searching α} {g : Search → Searching α'}
    (h : ∀ s s', S E s s' → Couples S L F E Q (f s) (g s')) :
    Couples S L F E Q (Act.state >>= f) (Act.state >>= g) := fun s s' hs => h s s' hs s s' hs

theorem andThen {T : List String → Search → Search → Prop} {f : α → Searching β}
    {g : α' → Searching β'} (hx : Couples S L F E Q x y)
    (hf : ∀ E' a a' s s', E ⊆ E' → Q E' a a' → S E' s s' → Coupled T L F E' R (f a s) (g a' s'))
    {s s' : Search} (hs : S E s s') : Coupled T L F E R ((x >>= f) s) ((y >>= g) s') := by
  have h := hx s s' hs
  rcases hrun : x s with ⟨o, t⟩
  rcases hrun' : y s' with ⟨o', t'⟩
  rw [hrun, hrun'] at h
  cases h with
  | ok hE ht ha =>
    rw [Act.bind_of_ok hrun, Act.bind_of_ok hrun']
    have hnext := hf _ _ _ t t' hE ha ht
    revert hnext
    generalize f _ t = run
    generalize g _ t' = run'
    rintro (⟨hE', hu, hb⟩ | h | h)
    · exact .ok (List.Subset.trans hE hE') hu hb
    · exact .error h
    · exact .free h
  | error h =>
    rw [Act.bind_of_error hrun, Act.bind_of_error hrun']
    exact .error h
  | free h =>
    rw [Act.bind_of_error hrun]
    exact .free h

theorem bind {f : α → Searching β} {g : α' → Searching β'} (hx : Couples S L F E Q x y)
    (hf : ∀ E' a a', E ⊆ E' → Q E' a a' → Couples S L F E' R (f a) (g a')) :
    Couples S L F E R (x >>= f) (y >>= g) :=
  fun _ _ hs => hx.andThen (fun E' a a' s s' hE ha => hf E' a a' hE ha s s') hs

theorem imp {Q' : List String → α → α' → Prop} (hx : Couples S L F E Q x y)
    (h : ∀ E' a a', E ⊆ E' → Q E' a a' → Q' E' a a') : Couples S L F E Q' x y := by
  intro s s' hs
  have hrun := hx s s' hs
  revert hrun
  generalize x s = run
  generalize y s' = run'
  rintro (⟨hE, ht, ha⟩ | h' | h')
  · exact .ok hE ht (h _ _ _ hE ha)
  · exact .error h'
  · exact .free h'

end Couples

/-- A call is looked into once. -/
def meet (lex : Lexicon) (isCall : Token → Bool) (t : Token) : Searching (Option View) := do
  let s ← Act.state
  if t.isIn s.analysed then return none else enterCall lex isCall t

theorem meet_bind {α : Type} {lex : Lexicon} {isCall : Token → Bool} {t : Token}
    {k : Option View → Searching α} {x : Searching α} (hk : k none = x) (s : Search) :
    (if t.isIn s.analysed then x else enterCall lex isCall t >>= k) s = (meet lex isCall t >>= k) s := by
  unfold meet
  rw [Act.bind_apply, Act.state_bind]
  by_cases h : t.isIn s.analysed = true
  · rw [if_pos h, if_pos h, ← hk]
    rfl
  · rw [if_neg h, if_neg h]
    rfl

theorem explore_call {lex : Lexicon} {limit : Limit} {depth : Nat} {p : Path} {v : View} {i : Source}
    {c : Token} (hkind : c.kind = lex.word .call) :
    explore lex limit (depth + 1) p v i c = (do
      match ← meet lex lex.saysCall c with
      | none => return ()
      | some v =>
        let imports ← importsOf lex v
        let s ← Act.state
        match s.source? v (lex.place .result) with
        | none => conclude (p ++ [c])
        | some source => followAll limit (explore lex limit depth (p ++ [c])) v source imports) := by
  funext s
  rw [explore, Act.state_bind, if_pos hkind]
  exact meet_bind rfl s

/-- The two lists are related place by place, now and later. -/
def Lists (S : List String → Search → Search → Prop) (E : List String) (R : Token → Token → Prop)
    (src src' : Source) : Prop :=
  ∀ E' s s', E ⊆ E' → S E' s s' → List.Forall₂ R (s.read src) (s'.read src')

/-- What two searches are compared by. They `reach` a token along a path; `next` are the tokens in
the lists that it points to, `found` the scopes of imports that have such a list. -/
structure Relations where
  state : List String → Search → Search → Prop
  reach : Path → Path → Token → Token → Prop
  next : Token → Token → Token → Token → Prop
  view : View → View → Prop
  /-- Views whose imports have been sorted. -/
  settled : List String → View → View → Prop
  imports : List String → Source → Source → Prop
  found : String → String → Prop

variable (L : SearchError → Prop) (F : SearchError → Search → SearchError → Search → Prop)

/-- A loop of `n` rounds and one of `n'`: as many, or at least as many if the first may stop. -/
def Lasts (S : List String → Search → Search → Prop) (n n' : Nat) : Prop :=
  (n = n' ∧ ∀ E s s', S E s s' → F .unending s .unending s') ∨ n ≤ n' ∧ L .unending

structure Coupling (R : Relations) (lex lex' : Lexicon) (limit limit' : Limit) : Prop where
  settled_mono : ∀ {E E' v v'}, E ⊆ E' → R.settled E v v' → R.settled E' v v'
  imports_mono : ∀ {E E' i i'}, E ⊆ E' → R.imports E i i' → R.imports E' i i'
  width : Lasts L F R.state limit.width limit'.width
  depth : Lasts L F R.state limit.depth limit'.depth
  kind : ∀ {p p' : Path} {c c' : Token}, R.reach p p' c c' → ∀ w ∈ [Special.call, .input],
    (c.kind = lex.word w ↔ c'.kind = lex'.word w)
  visit : ∀ {p p' : Path} {t t' : Token} {E s s'}, R.reach p p' t t' → R.state E s s' →
    R.state E { s with visited := s.visited ++ [t] } { s' with visited := s'.visited ++ [t'] }
  leave : ∀ {p p' : Path} {t t' : Token} {E s s'}, R.reach p p' t t' → R.state E s s' →
    R.state E { s with visited := unvisit t s.visited } { s' with visited := unvisit t' s'.visited }
  conclude : ∀ {p p' c c' E}, R.reach p p' c c' → Couples R.state L F E (fun _ _ _ => True)
    (conclude (p ++ [c])) (conclude (p' ++ [c']))
  importsOf : ∀ {v v' E}, R.view v v' → Couples R.state L F E
    (fun E' i i' => R.imports E' i i' ∧ R.settled E' v v') (importsOf lex v) (importsOf lex' v')
  enter : ∀ {p p' : Path} {c c' : Token} {E}, R.reach p p' c c' →
    c.kind = lex.word .call → Couples R.state L F E (fun _ => Option.Rel fun v v' => R.view v v' ∧
      ∀ E s s', R.settled E v v' → R.state E s s' → Option.Rel
        (Lists R.state E fun t t' => R.reach (p ++ [c]) (p' ++ [c']) t t')
        (s.source? v (lex.place .result)) (s'.source? v' (lex'.place .result)))
      (meet lex lex.saysCall c) (meet lex' lex'.saysCall c')
  lists : ∀ {p p' : Path} {c c' : Token} {E v v' s s'}, R.reach p p' c c' →
    c.kind ≠ lex.word .call → R.settled E v v' → R.state E s s' →
      Option.Rel (Lists R.state E (R.next c c'))
        (s.source? v (lex.key c.kind)) (s'.source? v' (lex'.key c'.kind)) ∧
      (lex.key c.scope = v.name ↔ lex'.key c'.scope = v'.name)
  home : ∀ {p p' : Path} {c c' : Token}, R.reach p p' c c' → c.kind ≠ lex.word .call →
    (∀ E s s', R.state E s s' →
      s.flows.has (lex.key c.scope) = s'.flows.has (lex'.key c'.scope) ∧
      (s.flows.has (lex.key c.scope) = false →
        F (.missing c.scope (lex.key c.scope)) s (.missing c'.scope (lex'.key c'.scope)) s') ∧
      s.hasList (lex.key c.scope) (lex.key c.kind) = s'.hasList (lex'.key c'.scope) (lex'.key c'.kind)) ∧
    R.view { name := lex.key c.scope } { name := lex'.key c'.scope } ∧
    ∀ E, R.settled E { name := lex.key c.scope } { name := lex'.key c'.scope } →
      Lists R.state E (R.next c c') (.stored (lex.key c.scope) (lex.key c.kind))
        (.stored (lex'.key c'.scope) (lex'.key c'.kind))
  follow : ∀ {p p' : Path} {c c' t t' : Token} {E s s'}, R.reach p p' c c' →
    c.kind ≠ lex.word .call → R.next c c' t t' → R.state E s s' →
      s.canFollow c t = s'.canFollow c' t' ∧
      (s.canFollow c t = true → R.reach (p ++ [c]) (p' ++ [c']) t t')
  between : ∀ {p p' : Path} {c c' t t' : Token} {E i i'}, R.reach p p' c c' →
    c.kind ≠ lex.word .call → R.next c c' t t' → R.imports E i i' →
      Couples R.state L F E (fun _ => Option.Rel R.found)
        (findImport lex (fun i => t.pos < i.pos && i.pos < c.pos) (lex.key c.kind) i)
        (findImport lex' (fun i => t'.pos < i.pos && i.pos < c'.pos) (lex'.key c'.kind) i')
  before : ∀ {p p' : Path} {c c' : Token} {E i i'}, R.reach p p' c c' →
    c.kind ≠ lex.word .call → R.imports E i i' →
      Couples R.state L F E (fun _ => Option.Rel R.found)
        (findImport lex (fun i => i.pos ≤ c.pos) (lex.key c.kind) i)
        (findImport lex' (fun i => i.pos ≤ c'.pos) (lex'.key c'.kind) i')
  found : ∀ {p p' : Path} {c c' : Token} {scope scope'}, R.reach p p' c c' →
    c.kind ≠ lex.word .call → R.found scope scope' →
      R.view { name := scope } { name := scope' } ∧
      ∀ E, R.settled E { name := scope } { name := scope' } →
        Lists R.state E (R.next c c') (.stored scope (lex.key c.kind))
          (.stored scope' (lex'.key c'.kind)) ∧
        Lists R.state E (fun t t' => R.reach (p ++ [c]) (p' ++ [c']) t t')
          (.stored scope (lex.key c.kind)) (.stored scope' (lex'.key c'.kind))

/-- The same for the sinks of a scope, where what is compared may depend on the sink. `T` is what holds
between two sinks. -/
structure Survey (R : Token → Token → Relations) (T : List String → Search → Search → Prop)
    (Q : Catalog → Catalog → Prop) (V : View → View → Prop) (sinks : Token → Token → Prop)
    (lex lex' : Lexicon) (limit limit' : Limit) (place place' : String) : Prop where
  coupling : ∀ {t t'}, sinks t t' → Coupling L F (R t t') lex lex' limit limit'
  width : Lasts L F T limit.width limit'.width
  start : ∀ {t t' E s s'}, sinks t t' → T E s s' → (R t t').state E
    { s with visited := [t], paths := [] } { s' with visited := [t'], paths := [] }
  path : ∀ {t t'}, sinks t t' → (R t t').reach [] [] t t'
  view : ∀ {t t' v v'}, sinks t t' → V v v' → (R t t').view v v'
  add : ∀ {t t' E s s' c c'}, sinks t t' → (R t t').state E s s' → Q c c' →
    T E s s' ∧ Q (c.add t s.paths) (c'.add t' s'.paths)
  sources : ∀ {v v' E s s'}, V v v' → T E s s' →
    Option.Rel (Lists T E sinks) (s.source? v place) (s'.source? v' place')

/-- The rounds that a search makes, to the sinks of each scope and of the functions called there. -/
structure Rounds (T : List String → Search → Search → Prop) (Q : Catalog → Catalog → Prop)
    (V : View → View → Prop) (calls : Token → Token → Prop) (names : String → String → Prop)
    (lex lex' : Lexicon) (limit limit' : Limit) (place place' : String) : Prop where
  width : Lasts L F T limit.width limit'.width
  listed : ∀ {scope scope' E}, names scope scope' →
    Lists T E calls (.stored scope (lex.place .call)) (.stored scope' (lex'.place .call))
  enter : ∀ {t t' E}, calls t t' → Couples T L F E (fun _ => Option.Rel V)
    (meet lex lex.filesCall t) (meet lex' lex'.filesCall t')
  named : ∀ {scope scope'}, names scope scope' → V { name := scope } { name := scope' }
  sinks : ∀ {v v' E c c'}, V v v' → Q c c' → Couples T L F E (fun _ => Q)
    (exploreSinks lex limit v place c) (exploreSinks lex' limit' v' place' c')

/-- What the search does with a token that it comes to from the end of a path. -/
def Goes (R : Relations) (p p' : Path) (go go' : View → Source → Token → Searching Unit) : Prop :=
  ∀ E v v' i i' t t', R.settled E v v' → R.imports E i i' → R.reach p p' t t' →
    Couples R.state L F E (fun _ _ _ => True) (go v i t) (go' v' i' t')

variable {L F} {S : List String → Search → Search → Prop} {E : List String}

theorem Lists.mono {E' : List String} {P : Token → Token → Prop} {src src' : Source}
    (h : Lists S E P src src') (hE : E ⊆ E') : Lists S E' P src src' :=
  fun _ s s' hE' => h _ s s' (List.Subset.trans hE hE')

theorem Lists.getElem? {P : Token → Token → Prop} {src src' : Source} (h : Lists S E P src src')
    {s s' : Search} (hs : S E s s') (i : Nat) : Option.Rel P (s.read src)[i]? (s'.read src')[i]? :=
  (h E s s' (List.Subset.refl E) hs).getElem? i

theorem Lasts.zero {α α' : Type} {n : Nat} {Q : List String → α → α' → Prop} (h : Lasts L F S 0 n)
    {y : Nat → Searching α'} (hy : y 0 = Act.fail .unending) :
    Couples S L F E Q (Act.fail .unending) (y n) := by
  rcases h with ⟨rfl, hF⟩ | ⟨-, hL⟩
  · exact hy ▸ .fail fun s s' hs => hF E s s' hs
  · exact fun _ _ _ => .free hL

theorem Lasts.succ {n m : Nat} (h : Lasts L F S (n + 1) m) : ∃ k, m = k + 1 ∧ Lasts L F S n k := by
  rcases h with ⟨rfl, hF⟩ | ⟨hle, hL⟩
  · exact ⟨n, rfl, .inl ⟨rfl, hF⟩⟩
  · exact ⟨m - 1, by omega, .inr ⟨by omega, hL⟩⟩

namespace Coupling

variable {R : Relations} {lex lex' : Lexicon} {limit limit' : Limit}

theorem walk {P : Token → Token → Prop} {src src' : Source}
    {body body' : Source → Token → Searching Source} (hsrc : Lists R.state E P src src')
    (hbody : ∀ E' i i' t t', E ⊆ E' → R.imports E' i i' → P t t' →
      Couples R.state L F E' R.imports (body i t) (body' i' t'))
    {width width' : Nat} (hwidth : Lasts L F R.state width width') (n : Nat) {E' : List String}
    (hE : E ⊆ E') {imports imports' : Source} (hi : R.imports E' imports imports') :
    Couples R.state L F E' R.imports (walk src body width n imports)
      (walk src' body' width' n imports') := by
  induction width generalizing width' n E' imports imports' with
  | zero => exact hwidth.zero (y := fun w => Search.walk src' body' w n imports') rfl
  | succ width ih =>
    obtain ⟨width', rfl, hrest⟩ := hwidth.succ
    refine .look fun s s' hs => ?_
    have ht := (hsrc.mono hE).getElem? hs n
    revert ht
    cases (s.read src)[n]? <;> cases (s'.read src')[n]? <;> intro ht <;> cases ht
    · exact Couples.pure hi s s' hs
    · rename_i ht
      refine Couples.bind (hbody E' _ _ _ _ hE hi ht) (fun E'' i i' hE' hi' => ?_) s s' hs
      exact ih hrest (n + 1) (List.Subset.trans hE hE') hi'

variable (K : Coupling L F R lex lex' limit limit')

include K

section Following

variable {p p' : Path} {go go' : View → Source → Token → Searching Unit}
  (hgo : Goes L F R p p' go go')

include hgo

variable {v v' : View} {i i' : Source}

theorem visiting (hv : R.settled E v v') (hi : R.imports E i i')
    {t t' : Token} (ht : R.reach p p' t t') :
    Couples R.state L F E R.imports (visiting t (go v i t) >>= fun _ => pure i)
      (visiting t' (go' v' i' t') >>= fun _ => pure i') := by
  refine .bind (Q := fun _ _ _ => True) ?_ fun E' _ _ hE _ => .pure (K.imports_mono hE hi)
  refine .bind (.update fun s s' => K.visit ht) fun E₁ _ _ hE₁ _ => ?_
  refine .bind (hgo E₁ _ _ _ _ _ _ (K.settled_mono hE₁ hv) (K.imports_mono hE₁ hi) ht) ?_
  exact fun _ _ _ _ _ => .update fun s s' => K.leave ht

theorem followAll (hv : R.settled E v v') {src src' : Source}
    (hsrc : Lists R.state E (fun t t' => R.reach p p' t t') src src') (hi : R.imports E i i') :
    Couples R.state L F E (fun _ _ _ => True) (followAll limit go v src i)
      (followAll limit' go' v' src' i') := by
  refine .bind (walk hsrc (fun E' i i' t t' hE hi ht => ?_) K.width 0 (List.Subset.refl E) hi)
    fun _ _ _ _ _ => .pure trivial
  exact K.visiting hgo (K.settled_mono hE hv) hi ht

omit hgo

theorem followList {c c' : Token} (hgo : Goes L F R (p ++ [c]) (p' ++ [c']) go go')
    (hc : R.reach p p' c c') (hkind : c.kind ≠ lex.word .call)
    (hv : R.settled E v v') {src src' : Source} (hsrc : Lists R.state E (R.next c c') src src')
    (hi : R.imports E i i') : Couples R.state L F E (fun _ _ _ => True)
      (followList lex limit go v (lex.key c.kind) c src i)
      (followList lex' limit' go' v' (lex'.key c'.kind) c' src' i') := by
  refine .bind (walk hsrc (fun E₁ i i' t t' hE₁ hi ht => ?_) K.width 0 (List.Subset.refl E) hi)
    fun _ _ _ _ _ => .pure trivial
  refine .look fun s s' hs => ?_
  obtain ⟨hcan, hpath⟩ := K.follow hc hkind ht hs
  rw [← hcan]
  by_cases hfollow : s.canFollow c t = true
  · have hpath := hpath hfollow
    simp only [hfollow, Bool.not_true, Bool.false_eq_true, if_false]
    refine Couples.bind (.update fun s s' => K.visit hpath) (fun E₂ _ _ hE₂ _ => ?_) s s' hs
    have hi₂ := K.imports_mono hE₂ hi
    refine .bind (K.between hc hkind ht hi₂) fun E₃ o o' hE₃ ho => ?_
    cases ho with
    | none =>
      have hi₃ := K.imports_mono hE₃ hi₂
      have hv₃ := K.settled_mono (List.Subset.trans hE₁ (List.Subset.trans hE₂ hE₃)) hv
      refine .bind (hgo E₃ _ _ _ _ _ _ hv₃ hi₃ hpath) fun E₄ _ _ hE₄ _ => ?_
      refine .bind (.update fun s s' => K.leave hpath) fun E₅ _ _ hE₅ _ => .pure ?_
      exact K.imports_mono (List.Subset.trans hE₄ hE₅) hi₃
    | some hfound =>
      obtain ⟨hview, hlists⟩ := K.found hc hkind hfound
      refine .bind (K.importsOf hview) fun E₄ j j' _ ⟨hj, hsettled⟩ => ?_
      refine .bind (walk (hlists E₄ hsettled).1 (fun E₅ i i' t t' hE₅ hi ht => ?_) K.width 0
        (List.Subset.refl E₄) hj) fun E₅ _ _ hE₅ _ => .pure (K.imports_mono hE₅ hj)
      refine .look fun s s' hs => ?_
      obtain ⟨hcan, hpath⟩ := K.follow hc hkind ht hs
      rw [← hcan]
      split
      · rename_i hfollow
        exact K.visiting hgo (K.settled_mono hE₅ hsettled) hi (hpath hfollow) s s' hs
      · exact Couples.pure hi s s' hs
  · simp only [hfollow, Bool.not_false, if_true]
    exact Couples.pure hi s s' hs

end Following

theorem explore {depth depth' : Nat} (hdepth : Lasts L F R.state depth depth') (p p' : Path) :
    Goes L F R p p' (explore lex limit depth p) (explore lex' limit' depth' p') := by
  induction depth generalizing depth' p p' with
  | zero =>
    intro E v v' i i' c c' _ _ _
    exact hdepth.zero (y := fun n => Search.explore lex' limit' n p' v' i' c') rfl
  | succ depth ih =>
    obtain ⟨depth', rfl, hrest⟩ := hdepth.succ
    intro E v v' i i' c c' hv hi hc
    have hgo := ih hrest (p ++ [c]) (p' ++ [c'])
    have hcall := K.kind hc .call (by simp)
    by_cases hkind : c.kind = lex.word .call
    · intro s s' hs
      rw [explore_call hkind, explore_call (hcall.mp hkind)]
      refine Couples.bind (K.enter hc hkind) (fun E₁ o o' _ ho => ?_) s s' hs
      cases ho with
      | none => exact .pure trivial
      | some hview =>
        obtain ⟨hview, hresult⟩ := hview
        refine .bind (K.importsOf hview) fun E₂ j j' _ ⟨hj, hsettled⟩ => ?_
        refine .look fun s s' hs => ?_
        have hsource := hresult E₂ s s' hsettled hs
        revert hsource
        cases s.source? _ (lex.place .result) <;> cases s'.source? _ (lex'.place .result) <;>
          intro hsource <;> cases hsource
        · exact K.conclude hc s s' hs
        · rename_i hsource
          exact K.followAll hgo hsettled hsource hj s s' hs
    · refine .look fun s s' hs => ?_
      rw [if_neg hkind, if_neg (mt hcall.mpr hkind)]
      obtain ⟨hsource, hhome⟩ := K.lists hc hkind hv hs
      revert hsource
      cases s.source? v (lex.key c.kind) <;> cases s'.source? v' (lex'.key c'.kind) <;>
        intro hsource <;> cases hsource
      · dsimp only
        have hinput := K.kind hc .input (by simp)
        by_cases hin : c.kind = lex.word .input
        · rw [if_pos hin, if_pos (hinput.mp hin)]
          exact K.conclude hc s s' hs
        · rw [if_neg hin, if_neg (mt hinput.mpr hin)]
          by_cases haway : lex.key c.scope = v.name
          · rw [if_neg (not_not.mpr haway), if_neg (not_not.mpr (hhome.mp haway))]
            refine Couples.bind (K.before hc hkind hi) (fun E₁ o o' _ ho => ?_) s s' hs
            cases ho with
            | none => exact K.conclude hc
            | some hfound =>
              obtain ⟨hview, hlists⟩ := K.found hc hkind hfound
              refine .bind (K.importsOf hview) fun E₂ j j' _ ⟨hj, hsettled⟩ => ?_
              exact K.followAll hgo hsettled (hlists E₂ hsettled).2 hj
          · rw [if_pos haway, if_pos (mt hhome.mpr haway)]
            obtain ⟨hstate, hview, hlist⟩ := K.home hc hkind
            obtain ⟨hhas, hmissing, hhaslist⟩ := hstate E s s' hs
            rw [← hhas, ← hhaslist]
            by_cases hscope : s.flows.has (lex.key c.scope) = true
            · simp only [hscope, Bool.not_true, Bool.false_eq_true, if_false]
              refine Couples.bind (K.importsOf hview) (fun E₁ j j' _ ⟨hj, hsettled⟩ => ?_) s s' hs
              split
              · exact K.followList hgo hc hkind hsettled (hlist E₁ hsettled) hj
              · exact K.conclude hc
            · have hno : s.flows.has (lex.key c.scope) = false := by simpa using hscope
              simp only [hno, Bool.not_false, if_true]
              exact .error (hmissing hno)
      · rename_i hsource
        exact K.followList hgo hc hkind hv hsource hi s s' hs

end Coupling

namespace Survey

variable {R : Token → Token → Relations} {T : List String → Search → Search → Prop}
  {Q : Catalog → Catalog → Prop} {V : View → View → Prop} {sinks : Token → Token → Prop}
  {lex lex' : Lexicon} {limit limit' : Limit} {place place' : String}
  (K : Survey L F R T Q V sinks lex lex' limit limit' place place')

include K

theorem exploreSinks_go {v v' : View} (hv : V v v') {src src' : Source}
    (hsrc : Lists T E sinks src src') {width width' : Nat} (hwidth : Lasts L F T width width') (n : Nat)
    {c c' : Catalog} (hc : Q c c') :
    Couples T L F E (fun _ => Q) (exploreSinks.go lex limit v src width n c)
      (exploreSinks.go lex' limit' v' src' width' n c') := by
  induction width generalizing E width' n c c' with
  | zero => exact hwidth.zero (y := fun w => exploreSinks.go lex' limit' v' src' w n c') rfl
  | succ width ih =>
    obtain ⟨width', rfl, hrest⟩ := hwidth.succ
    refine .look fun s s' hs => ?_
    have ht := hsrc.getElem? hs n
    revert ht
    cases (s.read src)[n]? <;> cases (s'.read src')[n]? <;> intro ht <;> cases ht
    · exact Couples.pure hc s s' hs
    · rename_i t t' ht
      have hK := K.coupling ht
      refine Couples.andThen (hK.importsOf (K.view ht hv)) (fun E₁ i i' s s' hE₁ hi hs => ?_)
        (K.start ht hs)
      have hexplore := hK.explore hK.depth [] [] E₁ v v' i i' t t' hi.2 hi.1 (K.path ht)
      refine Couples.andThen hexplore (fun E₂ _ _ s s' hE₂ _ hs => ?_) hs
      obtain ⟨hs', hc'⟩ := K.add ht hs hc
      exact ih (hsrc.mono (List.Subset.trans hE₁ hE₂)) hrest (n + 1) hc' s s' hs'

theorem exploreSinks {v v' : View} (hv : V v v') {c c' : Catalog} (hc : Q c c') :
    Couples T L F E (fun _ => Q) (exploreSinks lex limit v place c)
      (exploreSinks lex' limit' v' place' c') := by
  refine .look fun s s' hs => ?_
  have hsource := K.sources hv hs
  revert hsource
  cases s.source? v place <;> cases s'.source? v' place' <;> intro hsource <;> cases hsource
  · exact Couples.pure hc s s' hs
  · rename_i hsrc
    exact K.exploreSinks_go hv hsrc K.width 0 hc s s' hs

end Survey

namespace Rounds

variable {T : List String → Search → Search → Prop} {Q : Catalog → Catalog → Prop}
  {V : View → View → Prop} {calls : Token → Token → Prop} {names : String → String → Prop}
  {lex lex' : Lexicon} {limit limit' : Limit} {place place' : String}
  (K : Rounds L F T Q V calls names lex lex' limit limit' place place')

include K

theorem exploreCalls {scope scope' : String} (hname : names scope scope') {width width' : Nat}
    (hwidth : Lasts L F T width width') (n : Nat) {c c' : Catalog} (hc : Q c c') :
    Couples T L F E (fun _ => Q) (exploreCalls.go lex limit scope place width n c)
      (exploreCalls.go lex' limit' scope' place' width' n c') := by
  induction width generalizing E width' n c c' with
  | zero => exact hwidth.zero (y := fun w => exploreCalls.go lex' limit' scope' place' w n c') rfl
  | succ width ih =>
    obtain ⟨width', rfl, hrest⟩ := hwidth.succ
    refine .look fun s s' hs => ?_
    have ht := (K.listed hname).getElem? hs n
    revert ht
    cases (s.read (.stored scope (lex.place .call)))[n]? <;>
      cases (s'.read (.stored scope' (lex'.place .call)))[n]? <;> intro ht <;> cases ht
    · exact Couples.pure hc s s' hs
    · rename_i t t' ht
      dsimp only
      rw [meet_bind, meet_bind]
      · refine Couples.bind (K.enter ht) (fun E₁ o o' _ ho => ?_) s s' hs
        cases ho with
        | none => exact ih hrest (n + 1) hc
        | some hv => exact .bind (K.sinks hv hc) fun _ _ _ _ hc' => ih hrest (n + 1) hc'
      · rfl
      · rfl

theorem exploreScopes {scopes scopes' : List String} (hscopes : List.Forall₂ names scopes scopes')
    {c c' : Catalog} (hc : Q c c') :
    Couples T L F E (fun _ => Q) (exploreScopes lex limit place scopes c)
      (exploreScopes lex' limit' place' scopes' c') := by
  induction hscopes generalizing E c c' with
  | nil => exact .pure hc
  | cons hname _ ih =>
    refine .bind (K.sinks (K.named hname) hc) fun _ _ _ _ hc => ?_
    exact .bind (K.exploreCalls hname K.width 0 hc) fun _ _ _ _ hc => ih hc

end Rounds

end Search

end MaskedTaint
