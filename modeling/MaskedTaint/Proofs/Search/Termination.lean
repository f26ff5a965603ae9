import MaskedTaint.Proofs.Search.Roaming

/-! Whether a search ends. Calls are entered once and tokens are not visited again while they are
on the way, but nothing stops a search from hopping from file to file. Without a cycle of hops the
search of a recorded project ends, and limits that are wide enough do not matter. -/

namespace MaskedTaint

theorem Structure.Grown.sortImports {d f : Structure} {count : Nat} (hd : d.Sound count) (h : d.Grown f)
    (scope : String) : Search.sortImports ((f.tokens? scope Special.imports.name).getD []) =
      d.sortedImports scope := by
  cases hts : f.tokens? scope Special.imports.name with
  | none =>
    rw [sortedImports, h.tokens?_eq_none hts]
  | some ts =>
    obtain ⟨first, more, hfirst, hmore, -, -, heq⟩ := h.lists _ _ _ hts
    have hnone : more = [] := List.eq_nil_iff_forall_not_mem.mpr fun t ht =>
      (hd.bound_key (hmore t ht)).ne_special .imports rfl
    rw [sortedImports, hfirst]
    rcases heq hnone with rfl | rfl
    · rfl
    · exact Search.sortImports_sortImports first

namespace Search

/-- The search has made this of the structure, and has sorted the imports of the scopes in `S`. -/
structure Tidied (d : Structure) (S : List String) (f : Structure) : Prop where
  grown : d.Grown f
  sorted : ∀ scope ∈ S, (f.tokens? scope Special.imports.name).getD [] = d.sortedImports scope

def HomeImports (d : Structure) (scope : String) (i : Source) : Prop :=
  i = .stored scope Special.imports.name ∨ i = .fixed [] ∧ d.sortedImports scope = []

/-- The view and the imports are those of the token's own scope, and few hops go on from it. -/
structure Home (d : Structure) (S : List String) (r : Nat) (w : View) (i : Source) (c : Token) :
    Prop where
  sorted : w.name ∈ S
  imports : HomeImports d w.name i
  rank : d.rank c < r

variable {d f : Structure} {count r : Nat} {S : List String} {s : Search} {w : View} {i : Source}
  {scope target key : String} {t c : Token}

theorem HomeImports.read (h : HomeImports d scope i) (hs : Tidied d S s.flows) (hscope : scope ∈ S) :
    s.read i = d.sortedImports scope := by
  rcases h with rfl | ⟨rfl, hnone⟩
  · exact hs.sorted scope hscope
  · exact hnone.symm

variable {ts : List Token}

theorem Tidied.sort (hd : d.Sound count) (h : Tidied d S f)
    (hts : f.tokens? scope Special.imports.name = some ts) :
    Tidied d (scope :: S) (f.putTokens scope Special.imports.name (sortImports ts)) := by
  refine ⟨h.grown.putTokens (hts ▸ rfl) (h.grown.lists _ _ _ hts).sortImports, fun other hother => ?_⟩
  rw [Structure.tokens?_putTokens]
  split
  · rename_i hsame
    have hsort := h.grown.sortImports hd scope
    rwa [hts, ← hsame.1] at hsort
  · rename_i hne
    exact h.sorted other ((List.mem_cons.mp hother).resolve_left fun h => hne ⟨h, rfl⟩)

theorem Tidied.append (hd : d.Sound count) (h : Tidied d S f)
    (hts : f.tokens? scope key = some ts) (ht : d.Bound scope key t) :
    Tidied d S (f.putTokens scope key (ts ++ [t])) := by
  refine ⟨h.grown.putTokens (hts ▸ rfl) ((h.grown.lists _ _ _ hts).append ht), fun other hother => ?_⟩
  rw [Structure.tokens?_putTokens, if_neg fun hsame => (hd.bound_key ht).ne_special .imports hsame.2.symm]
  exact h.sorted other hother

theorem findImport_go_eq (hs : ∀ target, s.hasList target c.kind = (d.tokens? target c.kind).isSome)
    (h : (findImport.go .plain (fun i => i.pos ≤ c.pos) c.kind s ts).1 = .ok (some scope)) :
    ts.findSome? (d.offer? c) = some scope := by
  induction ts with
  | nil => cases h
  | cons t ts ih =>
    unfold findImport.go at h
    rw [List.findSome?_cons]
    by_cases hpos : t.pos ≤ c.pos
    · rw [if_pos (decide_eq_true hpos)] at h
      cases t with
      | site i m => cases h
      | jump i m target args =>
        have hkey : Lexicon.plain.key target = target := rfl
        dsimp only at h
        rw [hkey, hs target] at h
        by_cases hlist : (d.tokens? target c.kind).isSome = true
        · rw [if_pos hlist] at h
          cases h
          rw [Structure.offer?, if_pos ⟨hpos, hlist⟩]
        · rw [if_neg hlist] at h
          rw [Structure.offer?, if_neg fun hboth => hlist hboth.2]
          exact ih h
    · rw [if_neg (by simpa using hpos)] at h
      have hoffer : d.offer? c t = none := by
        cases t with
        | site i m => rfl
        | jump i m target args => exact if_neg fun hboth => hpos hboth.1
      rw [hoffer]
      exact ih h

theorem Tidied.hop (hhops : d.HopsEnd) (hs : Tidied d S s.flows)
    (hkind : c.kind ≠ Special.call.name ∧ c.kind ≠ Special.input.name) (hscope : c.scope = w.name)
    (hsrc : s.source? w c.kind = none)
    (hhome : c.scope = w.name → d.sights.length + 1 < r ∨ Home d S r w i c)
    (hfind : (findImport.go .plain (fun i => i.pos ≤ c.pos) c.kind s (s.read i)).1 =
      .ok (some target)) :
    0 < r ∧ ∀ i' t, HomeImports d target i' → d.Under target c.kind t → t.scope = target →
      Home d (target :: S) (r - 1) { name := target } i' t := by
  have hfound := findImport_go_eq (fun target => hs.grown.hasList target c.kind) hfind
  have hunlisted : d.tokens? c.scope c.kind = none := by
    rw [← Option.not_isSome_iff_eq_none, ← hs.grown.hasList, hscope]
    exact fun hsome => by simp [source?, hsome] at hsrc
  refine ⟨?_, fun i' t hi' ht htscope => ⟨List.mem_cons_self, hi', ?_⟩⟩
  · rcases hhome hscope with hr | hhome
    · omega
    · exact hhome.rank.trans_le' (Nat.zero_le _)
  · rcases hhome hscope with hr | hhome
    · have hrank := d.rank_le t
      omega
    · -- a hop that stays at home leaves fewer hops to follow
      have hhop : d.Hops c t := by
        refine ⟨hkind, hunlisted, ?_, htscope ▸ ht⟩
        rw [Structure.importOf?, hscope, ← hhome.imports.read hs hhome.sorted, hfound, htscope]
      have hrank := hhop.rank_lt hhops
      have hlt := hhome.rank
      omega

def hopping (hd : d.Sound count) (hhops : d.HopsEnd) : Terrain .plain d where
  kept := Tidied d
  listed := d.Under
  bound := d.Bound
  imports := HomeImports d
  hops := d.sights.length + 2
  home S r w i c := c.scope = w.name → d.sights.length + 1 < r ∨ Home d S r w i c
  mono hS h := ⟨h.grown, fun scope hscope => h.sorted scope (hS hscope)⟩
  sight := Structure.Under.mem_sights
  lists := .inr
  read h hts := h.grown.under hts
  sorts h hts := ⟨h.sort hd hts, .inl rfl⟩
  lacks {S f scope} h hnone := by
    have hsort := h.grown.sortImports hd scope
    have hnone : f.tokens? scope Special.imports.name = none := hnone
    rw [hnone, Option.getD_none, sortImports, List.mergeSort_nil] at hsort
    refine ⟨⟨h.grown, fun other hother => ?_⟩, .inr ⟨rfl, hsort.symm⟩⟩
    rcases List.mem_cons.mp hother with rfl | hother
    · rw [hnone, ← hsort]
      rfl
    · exact h.sorted other hother
  binds {S f scope key j m target args isCall params param arg t i} hf ht hcall hparams hparam harg hbound := by
    have htells : TellsCalls isCall := by
      rcases hcall with ⟨rfl, -⟩ | ⟨rfl, -⟩
      · exact tellsCalls_says
      · exact tellsCalls_files
    exact hf.grown.bound (ht.call (hcall.imp And.right And.right)) hparams hparam harg
      (boundTo_of_bound htells hbound)
  append h hts ht := h.append hd hts ht
  far _ _ _ _ _ := .inl (Nat.lt_succ_self _)
  hop hs hcall hinput hscope hsrc hhome hfind := by
    obtain ⟨hr, hnext⟩ := hs.hop hhops ⟨hcall, hinput⟩ hscope hsrc hhome hfind
    exact ⟨hr, fun i' t hi' ht htscope => .inr (hnext i' t hi' ht htscope)⟩

end Search

end MaskedTaint
