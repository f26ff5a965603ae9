import MaskedTaint.Proofs.Related
import MaskedTaint.Search.Explorer

/-! Two searches that correspond: their tokens, scope names and keys stand for each
other. The search looks at tokens only through their names and through comparisons, so if
these come out alike on both sides, then so do paths and what is chosen from them. -/

namespace MaskedTaint

theorem Lexicon.plain_place_ne_imports {p : Special} (hp : p ≠ .imports) :
    Lexicon.plain.place p ≠ Lexicon.plain.place .imports := by
  rcases p with _ | v | v | _ | _ | _ | _ <;> (try cases v) <;> first | decide | exact absurd rfl hp

/-- What stands for what. Tokens in a list of imports are only asked where they stand and
where they lead. -/
structure Correspondence where
  token : Token → Token → Prop
  imported : Token → Token → Prop
  scope : String → String → Prop
  key : String → String → Prop

namespace Correspondence

def SameTarget (C : Correspondence) (lex lex' : Lexicon) : Token → Token → Prop
  | .site _ _, .site _ _ => True
  | .jump _ _ target _, .jump _ _ target' _ => C.scope (lex.key target) (lex'.key target')
  | _, _ => False

/-- The comparisons of a search come out alike on both sides, but for those of whole tokens. -/
structure Lawful (C : Correspondence) (lex lex' : Lexicon) : Prop where
  scope_iff : ∀ a a' b b', C.scope a a' → C.scope b b' → (a = b ↔ a' = b')
  key_iff : ∀ a a' b b', C.key a a' → C.key b b' → (a = b ↔ a' = b')
  place : ∀ p, C.key (lex.place p) (lex'.place p)
  imports_ne : ∀ p, p ≠ Special.imports → lex.place p ≠ lex.place .imports
  imported_of_token : ∀ t t', C.token t t' → C.imported t t'
  token_of_imported : ∀ u u' t t', C.token u u' → lex.key u.kind = lex.place .imports →
    C.imported t t' → C.token t t'
  target : ∀ t t', C.imported t t' → C.SameTarget lex lex' t t'
  args : ∀ i m g as i' m' g' as', C.token (.jump i m g as) (.jump i' m' g' as') →
    List.Forall₂ C.token as as'
  pos_iff : ∀ a a' b b', C.imported a a' → C.imported b b' → (a.pos < b.pos ↔ a'.pos < b'.pos)
  kind : ∀ t t', C.token t t' → C.key (lex.key t.kind) (lex'.key t'.kind)
  home : ∀ t t', C.token t t' → C.scope (lex.key t.scope) (lex'.key t'.scope)
  word_iff : ∀ t t' p, C.token t t' → (t.kind = lex.word p ↔ t'.kind = lex'.word p)
  home_iff : ∀ a a' b b', C.token a a' → C.token b b' → (a.scope = b.scope ↔ a'.scope = b'.scope)
  depth_iff : ∀ a a' b b', C.token a a' → C.token b b' →
    (a.mark.depth < b.mark.depth ↔ a'.mark.depth < b'.mark.depth)
  order_iff : ∀ a a' b b', C.token a a' → C.token b b' →
    (a.mark.order = b.mark.order ↔ a'.mark.order = b'.mark.order)
  flow_iff : ∀ a a' b b', C.token a a' → C.token b b' →
    (a.mark.flow = b.mark.flow ↔ a'.mark.flow = b'.mark.flow)
  split_iff : ∀ a a' b b', C.token a a' → C.token b b' → (a.split = b.split ↔ a'.split = b'.split)
  bound_site : ∀ p p' a a', C.token p p' → C.token a a' → a.kind ≠ lex.word .call →
    C.token (.site a.id (Search.boundMark p.mark a.mark))
      (.site a'.id (Search.boundMark p'.mark a'.mark))
  bound_jump : ∀ p p' i m g as i' m' g' as', C.token p p' →
    C.token (.jump i m g as) (.jump i' m' g' as') →
    C.token (.jump i (Search.boundMark p.mark m) g as)
      (.jump i' (Search.boundMark p'.mark m') g' as')

/-- All comparisons of a search come out alike on both sides. -/
structure Faithful (C : Correspondence) (lex lex' : Lexicon) : Prop extends C.Lawful lex lex' where
  same : ∀ a a' b b', C.token a a' → C.token b b' → a.same b = a'.same b'

abbrev Paths (C : Correspondence) : Path → Path → Prop := List.Forall₂ C.token

abbrev PathLists (C : Correspondence) : List Path → List Path → Prop := List.Forall₂ C.Paths

abbrev Catalogs (C : Correspondence) : Catalog → Catalog → Prop :=
  List.Forall₂ fun e e' => C.token e.1 e'.1 ∧ C.PathLists e.2 e'.2

variable {C : Correspondence} {lex lex' : Lexicon}

variable {a a' b b' t t' : Token} {p p' q q' : Path} {ps ps' cs cs' : List Path} {c c' : Catalog}

section

variable (h : C.Faithful lex lex')

include h

theorem Faithful.depth_eq_iff (ha : C.token a a')
    (hb : C.token b b') : a.mark.depth = b.mark.depth ↔ a'.mark.depth = b'.mark.depth := by
  have hab := h.depth_iff a a' b b' ha hb
  have hba := h.depth_iff b b' a a' hb ha
  omega

theorem Faithful.token_pos_iff (ha : C.token a a')
    (hb : C.token b b') : a.pos < b.pos ↔ a'.pos < b'.pos :=
  h.pos_iff a a' b b' (h.imported_of_token _ _ ha) (h.imported_of_token _ _ hb)

/-! ### Paths -/

theorem Faithful.path_same (hp : C.Paths p p') (hq : C.Paths q q') : p.same q = p'.same q' := by
  induction hp generalizing q q' with
  | nil => cases hq <;> rfl
  | cons ha _ ih =>
    cases hq with
    | nil => rfl
    | cons hb hq => simp only [Path.same, h.same _ _ _ _ ha hb, ih hq]

theorem Faithful.isIn {ts ts' : List Token}
    (ht : C.token t t') (hts : List.Forall₂ C.token ts ts') : t.isIn ts = t'.isIn ts' :=
  hts.any_eq fun _ _ hu => h.same _ _ _ _ ht hu

section

variable (hp : C.Paths p p')

include hp

theorem Faithful.path_isIn (hps : C.PathLists ps ps') : p.isIn ps = p'.isIn ps' :=
  hps.any_eq fun _ _ hq => h.path_same hp hq

theorem Faithful.remove? (hps : C.PathLists ps ps') :
    Option.Rel C.PathLists (p.remove? ps) (p'.remove? ps') := by
  induction hps with
  | nil => exact .none
  | @cons q q' ps ps' hq hps ih =>
    have hs := h.path_same hq hp
    simp only [Path.remove?, hs]
    split
    · exact .some hps
    · generalize p.remove? ps = o at ih
      generalize p'.remove? ps' = o' at ih
      cases ih with
      | none => exact .none
      | some hr => exact .some (.cons hq hr)

theorem Faithful.firstDifference (hq : C.Paths q q') :
    Option.Rel (fun d d' => C.token d.1 d'.1 ∧ C.token d.2 d'.2) (p.firstDifference q)
      (p'.firstDifference q') :=
  (hp.zip hq).find? fun ⟨_, _⟩ ⟨_, _⟩ he => by simp only [h.same _ _ _ _ he.1 he.2]

theorem Faithful.split_head (ht : C.token t t') :
    (p.head?.map Token.split = some t.split) ↔ (p'.head?.map Token.split = some t'.split) := by
  cases hp with
  | nil => simp
  | cons ha _ => simpa using h.split_iff _ _ _ _ ha ht

theorem Faithful.comparable (ha : C.token a a') (hb : C.token b b') :
    p.comparable a b = p'.comparable a' b' := by
  rw [Bool.eq_iff_iff]
  simp only [Path.comparable, Bool.and_eq_true, beq_iff_eq, h.depth_eq_iff ha hb,
    h.order_iff _ _ _ _ ha hb, h.flow_iff _ _ _ _ ha hb, h.home_iff _ _ _ _ ha hb,
    h.split_head hp hb]

theorem Faithful.overtaken?
    (hq : C.Paths q q') : Option.Rel C.Paths (p.overtaken? q) (p'.overtaken? q') := by
  have hd := h.firstDifference hp hq
  unfold Path.overtaken?
  generalize p.firstDifference q = o at hd
  generalize p'.firstDifference q' = o' at hd
  cases hd with
  | none => exact .none
  | @some d d' hd =>
    simp only [h.comparable hp hd.1 hd.2, h.token_pos_iff hd.1 hd.2]
    split
    · split
      · exact .some hp
      · exact .some hq
    · exact .none

end

theorem Faithful.removeAll {ds ds' : List Path}
    (hds : C.PathLists ds ds') (hps : C.PathLists ps ps') :
    Option.Rel C.PathLists (ds.foldlM (fun ps p => p.remove? ps) ps)
      (ds'.foldlM (fun ps p => p.remove? ps) ps') := by
  induction hds generalizing ps ps' with
  | nil => exact .some hps
  | @cons d d' ds ds' hd hds ih =>
    have hr := h.remove? hd hps
    simp only [List.foldlM_cons]
    generalize d.remove? ps = o at hr
    generalize d'.remove? ps' = o' at hr
    cases hr with
    | none => exact .none
    | some hr => exact ih hr

theorem Faithful.conclude? (hp : C.Paths p p') (hps : C.PathLists ps ps') :
    Option.Rel C.PathLists (p.conclude? ps) (p'.conclude? ps') :=
  h.removeAll (List.rel_filterMap (fun _ _ hr => h.overtaken? hr hp) hps)
    (List.rel_append hps (.cons hp .nil))

/-! ### Catalogs -/

theorem Faithful.find
    (hc : C.Catalogs c c') (ht : C.token t t') : C.PathLists (c.find t) (c'.find t') := by
  have hf := hc.find? (p := fun e => e.1.same t) (q := fun e => e.1.same t')
    fun _ _ he => h.same _ _ _ _ he.1 ht
  exact (hf.map fun _ _ he => he.2).getD .nil

theorem Faithful.add (hc : C.Catalogs c c') (ht : C.token t t') (hps : C.PathLists ps ps') :
    C.Catalogs (c.add t ps) (c'.add t' ps') := by
  cases hps with
  | nil =>
    cases hc with
    | nil => exact .nil
    | cons he hc => exact .cons he hc
  | cons hp hps =>
    induction hc with
    | nil => exact .cons ⟨ht, .cons hp hps⟩ .nil
    | cons he hc ih =>
      simp only [Catalog.add, h.same _ _ _ _ he.1 ht]
      split
      · exact .cons ⟨he.1, List.rel_append he.2 (.cons hp hps)⟩ hc
      · exact .cons he ih

abbrev Nearests (C : Correspondence) : Catalog.Nearest → Catalog.Nearest → Prop :=
  Option.Rel fun e e' => C.token e.1 e'.1 ∧ C.Paths e.2 e'.2

theorem Faithful.nearer (i : Nat) {b b' : Catalog.Nearest}
    (hb : C.Nearests b b') (hp : C.Paths p p') :
    C.Nearests (Catalog.nearer i b p) (Catalog.nearer i b' p') := by
  have ht := hp.getElem? i
  have hs := hp.head?
  unfold Catalog.nearer
  generalize p[i]? = o at ht
  generalize p'[i]? = o' at ht
  generalize p.head? = k at hs
  generalize p'.head? = k' at hs
  cases ht with
  | none => exact hb
  | @some t t' ht =>
    cases hs with
    | none => exact hb
    | @some sink sink' hs =>
      have hbest : C.token (b.getD (t, p)).1 (b'.getD (t', p')).1 ∧
          C.Paths (b.getD (t, p)).2 (b'.getD (t', p')).2 := by
        cases hb with
        | none => exact ⟨ht, hp⟩
        | some he => exact he
      have hscope : (t.scope != sink.scope) = (t'.scope != sink'.scope) := by
        rw [Bool.eq_iff_iff]
        simp only [bne_iff_ne, ne_eq, h.home_iff _ _ _ _ ht hs]
      have hnear := h.token_pos_iff hbest.1 ht
      simp only [hscope]
      split
      · exact .some hbest
      · have hiff : (sink.pos - t.pos < sink.pos - (b.getD (t, p)).1.pos) ↔
            (sink'.pos - t'.pos < sink'.pos - (b'.getD (t', p')).1.pos) := by omega
        simp only [hiff]
        split
        · exact .some ⟨ht, hp⟩
        · exact .some hbest

omit h in
theorem map_length_eq (h : C.PathLists ps ps') : ps.map List.length = ps'.map List.length := by
  induction h with
  | nil => rfl
  | cons hp _ ih => simp [hp.length_eq, ih]

theorem Faithful.nearest (hps : C.PathLists ps ps') :
    Option.Rel C.Paths (Catalog.nearest ps) (Catalog.nearest ps') := by
  have hfold : ∀ (is : List Nat) (b b' : Catalog.Nearest), C.Nearests b b' →
      C.Nearests (is.foldl (fun best i => ps.foldl (Catalog.nearer i) best) b)
        (is.foldl (fun best i => ps'.foldl (Catalog.nearer i) best) b') := by
    intro is
    induction is with
    | nil => exact fun _ _ hb => hb
    | cons i is ih =>
      intro b b' hb
      exact ih _ _ (List.rel_foldl (P := C.Nearests) (R := C.Paths)
        (fun _ _ hb _ _ hp => h.nearer i hb hp) hb hps)
  unfold Catalog.nearest
  rw [map_length_eq hps]
  exact Option.Rel.map (hfold _ none none .none) fun _ _ he => he.2

omit h in
theorem toList_rel {p p' : Option Path} (h : Option.Rel C.Paths p p') :
    C.PathLists p.toList p'.toList := by
  cases h with
  | none => exact .nil
  | some hp => exact .cons hp .nil

theorem Faithful.relevant (hc : C.Catalogs c c') : C.PathLists c.relevant c'.relevant :=
  List.rel_flatMap hc fun _ _ he => List.rel_append
    (he.2.filter fun _ _ hp => by rw [hp.length_eq]) (toList_rel (h.nearest he.2))

theorem Faithful.bypasses (ht : C.token t t') (hp : C.Paths p p') :
    Catalog.bypasses t p = Catalog.bypasses t' p' := by
  refine hp.any_eq fun u u' hu => ?_
  have hpos := h.token_pos_iff ht hu
  rw [Bool.eq_iff_iff]
  simp only [Bool.and_eq_true, decide_eq_true_eq, Bool.or_eq_true, bne_iff_ne, ne_eq,
    h.order_iff _ _ _ _ hu ht, h.flow_iff _ _ _ _ hu ht, h.depth_eq_iff hu ht, ← Int.not_lt, hpos]

theorem Faithful.extend {w w' : Path → Bool}
    (hw : ∀ p p', C.Paths p p' → w p = w' p') (hps : C.PathLists ps ps')
    (hcs : C.PathLists cs cs') : C.PathLists (Catalog.extend w ps cs) (Catalog.extend w' ps' cs') := by
  refine List.rel_foldl (fun cs cs' hcs p p' hp => ?_) hcs hps
  simp only [h.path_isIn hp hcs, hw p p' hp]
  split
  · exact List.rel_append hcs (.cons hp .nil)
  · exact hcs

theorem Faithful.deeper (hp : C.Paths p p') :
    List.Forall₂ C.token (Catalog.deeper p) (Catalog.deeper p') := by
  refine hp.filter fun t t' ht => ?_
  cases hp with
  | nil => rfl
  | cons hs _ => simp [h.depth_iff _ _ _ _ hs ht]

theorem Faithful.pathsOf
    (hc : C.Catalogs c c') (hp : C.Paths p p') : C.PathLists (c.pathsOf p) (c'.pathsOf p') := by
  cases hp with
  | nil => exact .nil
  | cons hs _ => exact h.find hc hs

theorem Faithful.withBranches (hc : C.Catalogs c c') (hps : C.PathLists ps ps') :
    C.PathLists (c.withBranches ps) (c'.withBranches ps') := by
  refine List.rel_foldl (fun cs cs' hcs p p' hp => ?_) hps hps
  refine List.rel_foldl (fun cs cs' hcs t t' ht => ?_) hcs (h.deeper hp)
  exact h.extend (fun _ _ hq => h.bypasses ht hq) (h.pathsOf hc hp) hcs

theorem Faithful.joins (i : Nat) (hp : C.Paths p p')
    (hq : C.Paths q q') : Catalog.joins p i q = Catalog.joins p' i q' := by
  refine (List.forall₂_take (i + 1) (hq.zip hp)).any_eq fun ⟨a, b⟩ ⟨a', b'⟩ he => ?_
  have hs := h.split_iff _ _ _ _ he.1 he.2
  simp only [h.same _ _ _ _ he.1 he.2, beq_eq_decide, hs]

theorem Faithful.splitPlaces (hp : C.Paths p p') :
    Catalog.splitPlaces p = Catalog.splitPlaces p' := by
  unfold Catalog.splitPlaces
  rw [hp.length_eq]
  refine List.filter_congr fun i _ => ?_
  have ht := hp.getElem? i
  generalize p[i]? = o at ht
  generalize p'[i]? = o' at ht
  cases ht with
  | none => cases hp <;> rfl
  | some ht =>
    have hs := h.split_head hp ht
    rw [Bool.eq_iff_iff]
    simp only [bne_iff_ne, ne_eq, Option.map_some, eq_comm (a := some _), hs]

theorem Faithful.joinPath (hc : C.Catalogs c c') (hp : C.Paths p p') (hcs : C.PathLists cs cs') :
    C.PathLists (c.joinPath p cs) (c'.joinPath p' cs') := by
  unfold Catalog.joinPath
  rw [h.splitPlaces hp]
  induction Catalog.splitPlaces p' generalizing cs cs' with
  | nil => exact hcs
  | cons i is ih =>
    exact ih (h.extend (fun _ _ hq => h.joins i hp hq) (h.pathsOf hc hp) hcs)

theorem Faithful.joinFrom (hc : C.Catalogs c c') (fuel i : Nat) (hcs : C.PathLists cs cs') :
    C.PathLists (c.joinFrom fuel i cs) (c'.joinFrom fuel i cs') := by
  induction fuel generalizing i cs cs' with
  | zero => exact hcs
  | succ fuel ih =>
    have hp := hcs.getElem? i
    simp only [Catalog.joinFrom]
    generalize cs[i]? = o at hp
    generalize cs'[i]? = o' at hp
    cases hp with
    | none => exact hcs
    | some hp => exact ih (i + 1) (h.joinPath hc hp hcs)

theorem Faithful.withSplits (hc : C.Catalogs c c') (hcs : C.PathLists cs cs') :
    C.PathLists (c.withSplits cs) (c'.withSplits cs') := by
  have hsize : (c.flatMap fun e => e.2).length = (c'.flatMap fun e => e.2).length := by
    induction hc with
    | nil => rfl
    | cons he _ ih => simp only [List.flatMap_cons, List.length_append, he.2.length_eq, ih]
  unfold Catalog.withSplits
  rw [hcs.length_eq, hsize]
  exact h.joinFrom hc _ 0 hcs

end

end Correspondence

end MaskedTaint
