import MaskedTaint.Command.Source
import MaskedTaint.Proofs.Flow.Recording
import MaskedTaint.Proofs.Search.Reported

/-! The search of a recorded project is safe. Whatever it looks up unasked is there: the scope of
every token it meets, the parameters of every function it enters, the target of every call and
import, the recorded paths of every candidate. It fails only where a path is to be dropped that
is not there, and where it does not end. -/

namespace MaskedTaint

namespace Structure

variable {d : Structure} {count : Nat}

theorem Sound.bound_key (h : d.Sound count) {scope key : String} {t : Token} (ht : d.Bound scope key t) :
    NamesVariable key := by
  induction ht with
  | binds ht =>
    obtain ⟨_, params, i, param, _, _, hparams, hparam, rfl, _⟩ := ht
    exact (h.tokens? hparams param (List.mem_of_getElem? hparam)).param rfl
  | again _ _ _ _ ih => exact absurd rfl (ih.ne_special .params)

theorem Sound.under_scope (h : d.Sound count) {scope key : String} {t : Token}
    (ht : d.Under scope key t) : d.has t.scope = true := by
  have hoccurs : ∀ u ∈ d.occurrences, d.has u.scope = true := by
    intro u hu
    obtain ⟨e, he, l, hl, x, hx, hmem⟩ := mem_occurrences.mp hu
    rw [show u.scope = e.1 from (h.within he hl (Token.mem_occurrencesIn.mpr ⟨x, hx, hmem⟩)).scope]
    exact (Table.has_iff_mem_names _ _).mpr (List.mem_map_of_mem he)
  rcases ht with ht | ht
  · exact hoccurs t ht.mem_occurrences
  · obtain ⟨param, arg, harg, hbound⟩ := ht.exists_arg
    have hscope : t.scope = arg.scope := by cases hbound <;> rfl
    exact hscope ▸ hoccurs arg harg

def Admitted (e : SearchError) : Prop := e = .absent ∨ e = .unending

theorem Sound.allows (h : d.Sound count) : d.Allows Admitted where
  unending := .inr rfl
  absent := .inl rfl
  site scope key i m ht hkind := by
    rcases ht with ⟨ts, hts, ht⟩ | ht
    · have hfits := h.tokens? hts _ ht
      have hcall : m.kind ≠ Special.call.name := h.kind_ne_call (Entry.mem_occurrences ⟨ts, hts, ht⟩)
      rcases hkind with hkind | hkey
      · exact absurd hkind hcall
      · rcases List.mem_pair.mp hkey with hkey | hkey
        · exact absurd (hfits.call hkey) hcall
        · cases hfits.imported hkey
    · have hkey := h.bound_key ht
      rcases hkind with hkind | hkind
      · obtain ⟨param, arg, -, hbound⟩ := ht.exists_arg
        cases hbound with
        | site harg => exact absurd hkind harg
      · rcases List.mem_pair.mp hkind with hkind | hkind <;> exact absurd hkind (hkey.ne_special _)
  arg i m ht hkind := absurd hkind (h.kind_ne_call ht)
  params scope hscope hnone := by
    obtain ⟨s, hs⟩ := Option.isSome_iff_exists.mp hscope
    have hparams : (s.get? Special.params.name).isSome = true := h.params _ (Table.mem_of_get? hs)
    rw [Structure.tokens?, hs, Option.bind_some] at hnone
    rw [hnone] at hparams
    cases hparams
  scope scope key t ht hno := by
    rw [h.under_scope ht] at hno
    cases hno

end Structure

namespace Search

variable {d : Structure}

def BeginsAtSinks (c : Catalog) : Prop :=
  ∀ e ∈ c, ∀ p ∈ e.2, ∃ t, p.head? = some t ∧ e.1.same t = true

variable {c : Catalog}

theorem beginsAtSinks_add (hc : BeginsAtSinks c) {sink : Token} {ps : List Path}
    (hps : ∀ p ∈ ps, p.head? = some sink) : BeginsAtSinks (c.add sink ps) :=
  Catalog.forall_add (P := fun key p => ∃ t, p.head? = some t ∧ key.same t = true) hc sink
    fun p hp _ hkey => ⟨sink, hps p hp, hkey⟩

theorem CatalogOf.beginsAtSinks {v : Vulnerability} (hc : CatalogOf d v c) : BeginsAtSinks c := by
  intro e he p hp
  obtain ⟨t, hsame, -, hhead⟩ := hc e he p hp
  exact ⟨t, hhead, hsame⟩

theorem BeginsAtSinks.found (hc : BeginsAtSinks c) {p : Path}
    (hp : p ∈ c.withSplits (c.withBranches c.relevant)) :
    ∃ sink, p.head? = some sink ∧ (c.find? fun e => e.1.same sink).isSome = true := by
  have hrelevant : c.RecordsAll c.relevant := fun _ => Catalog.records_of_relevant
  obtain ⟨e, he, hpe⟩ := hrelevant.withBranches.joinFrom _ 0 p hp
  obtain ⟨sink, hhead, hsame⟩ := hc e he p hpe
  exact ⟨sink, hhead, List.find?_isSome.mpr ⟨e, he, hsame⟩⟩

/-! ### Visited tokens -/

def Retains (s s' : Search) : Prop :=
  ∀ u : Token, s.visited.countP u.same ≤ s'.visited.countP u.same

def RetainsBut (t : Token) (s s' : Search) : Prop :=
  ∀ u : Token, s.visited.countP u.same ≤ s'.visited.countP u.same + if u.same t then 1 else 0

theorem Retains.refl (s : Search) : Retains s s := fun _ => le_rfl

theorem Retains.trans (s₁ s₂ s₃ : Search) (h : Retains s₁ s₂) (h' : Retains s₂ s₃) : Retains s₁ s₃ :=
  fun u => (h u).trans (h' u)

abbrev Retaining {α : Type} (x : Searching α) : Prop := Act.Leads Retains x

section Retaining

variable {α β : Type} {lex : Lexicon} {limit : Limit}

theorem retaining_pure (a : α) : Retaining (pure a : Searching α) := Act.Leads.pure Retains.refl a

theorem retaining_fail (e : SearchError) : Retaining (Act.fail e : Searching α) := Retains.refl

theorem retaining_state : Retaining (Act.state : Searching Search) := Retains.refl

theorem retaining_update {f : Search → Search} (h : ∀ s, (f s).visited = s.visited) :
    Retaining (Act.update f) := fun s u => by rw [← h s]; exact le_rfl

variable {x : Searching α}

theorem retaining_bind {f : α → Searching β} (hx : Retaining x)
    (hf : ∀ a, Retaining (f a)) : Retaining (x >>= f) := Act.Leads.bind Retains.trans hx hf

theorem importsOf_retains (w : View) : Retaining (importsOf lex w) := by
  refine retaining_bind retaining_state fun s => ?_
  split
  · exact retaining_bind (retaining_update fun _ => rfl) fun _ => retaining_pure _
  · exact retaining_pure _
  · exact retaining_pure _

theorem addTo_retains (w : View) (key : String) (t : Token) : Retaining (addTo w key t) := by
  refine retaining_bind retaining_state fun s => ?_
  split
  · exact retaining_bind (retaining_update fun _ => rfl) fun _ => retaining_pure _
  · exact retaining_pure _

theorem bindFrom_retains (isCall : Token → Bool) (args : List Token) (w : View) (i : Nat) :
    Retaining (bindFrom lex isCall w i args) := by
  induction args generalizing w i with
  | nil => exact retaining_pure _
  | cons arg args ih =>
    refine retaining_bind retaining_state fun s => ?_
    split
    · exact retaining_pure _
    · split
      · exact retaining_fail _
      · exact retaining_bind (addTo_retains _ _ _) fun w' => ih w' (i + 1)

theorem enterCall_retains (isCall : Token → Bool) (t : Token) : Retaining (enterCall lex isCall t) := by
  refine retaining_bind (retaining_update fun _ => rfl) fun _ => ?_
  cases t with
  | site i m => exact retaining_fail _
  | jump i m target args =>
    refine retaining_bind retaining_state fun s => ?_
    split
    · refine retaining_bind (retaining_bind retaining_state fun s' => ?_) fun _ => retaining_pure _
      split
      · exact retaining_bind (bindFrom_retains isCall args _ 0) fun _ => retaining_pure _
      · exact retaining_fail _
    · exact retaining_pure _

theorem findImport_retains (wanted : Token → Bool) (key : String) (imports : Source) :
    Retaining (findImport lex wanted key imports) := by
  intro s
  rw [show (findImport lex wanted key imports s).2 = s from findImport_go_state wanted key s _]
  exact Retains.refl s

theorem conclude_retains (p : Path) : Retaining (conclude p) := by
  refine retaining_bind retaining_state fun s => ?_
  split
  · exact retaining_update fun _ => rfl
  · exact retaining_fail _

theorem walk_retains {body : Source → Token → Searching Source} (hbody : ∀ i t, Retaining (body i t))
    (src : Source) (width i : Nat) (imports : Source) : Retaining (walk src body width i imports) := by
  induction width generalizing i imports with
  | zero => exact retaining_fail _
  | succ width ih =>
    refine retaining_bind retaining_state fun s => ?_
    split
    · exact retaining_pure _
    · exact retaining_bind (hbody _ _) fun imports' => ih (i + 1) imports'

theorem countP_unvisit (t u : Token) (ts : List Token) :
    ts.countP u.same ≤ (unvisit t ts).countP u.same + if u.same t then 1 else 0 := by
  induction ts with
  | nil => simp
  | cons x ts ih =>
    unfold unvisit
    split
    · rename_i hx
      have hiff : u.same x = u.same t := by
        rw [Bool.eq_iff_iff]
        exact ⟨fun h => Token.same_trans h hx, fun h => Token.same_trans h (Token.same_symm hx)⟩
      rw [List.countP_cons, hiff]
    · rw [List.countP_cons, List.countP_cons]
      omega

theorem visit_retains {t : Token} (hx : Act.Leads (RetainsBut t) x) :
    Retaining (visit t >>= fun _ => x) := by
  intro s u
  have h := hx { s with visited := s.visited ++ [t] } u
  rw [List.countP_append, List.countP_singleton] at h
  have hrun : (visit t >>= fun _ => x) s = x { s with visited := s.visited ++ [t] } := rfl
  rw [hrun]
  omega

theorem thenLeave_retainsBut {t : Token} (hx : Retaining x) (b : β) :
    Act.Leads (RetainsBut t) (x >>= fun _ => leave t >>= fun _ => pure b : Searching β) := by
  have hleave : Act.Leads (RetainsBut t) (leave t >>= fun _ => pure b : Searching β) :=
    fun s u => countP_unvisit t u s.visited
  refine Act.Leads.andThen (S := RetainsBut t) (fun s s' h u => ?_) (fun s₁ s₂ s₃ h h' u => ?_) hx
    fun _ => hleave
  · exact (h u).trans (Nat.le_add_right _ _)
  · exact (h u).trans (h' u)

theorem visiting_retains (t : Token) {x : Searching Unit} (hx : Retaining x) :
    Retaining (visiting t x) :=
  visit_retains (thenLeave_retainsBut hx ())

variable {go : View → Source → Token → Searching Unit}

section

variable (hgo : ∀ w i t, Retaining (go w i t)) (w : View)

include hgo w

theorem followAll_retains (src imports : Source) :
    Retaining (followAll limit go w src imports) := by
  refine retaining_bind (walk_retains (fun i t => ?_) src limit.width 0 imports) fun _ => retaining_pure _
  exact retaining_bind (visiting_retains t (hgo w i t)) fun _ => retaining_pure _

theorem followIf_retains (current : Token) (i : Source) (t : Token) :
    Retaining (followIf go w current i t) := by
  refine retaining_bind retaining_state fun s => ?_
  split
  · exact retaining_bind (visiting_retains t (hgo _ i t)) fun _ => retaining_pure _
  · exact retaining_pure _

theorem followStep_retains (key : String) (current : Token) (i : Source) (t : Token) :
    Retaining (followStep lex limit go w key current i t) := by
  refine retaining_bind retaining_state fun s => ?_
  split
  · exact retaining_pure _
  · refine visit_retains (Act.Leads.andThen (S := RetainsBut t) (fun s s' h u => ?_)
      (fun s₁ s₂ s₃ h h' u => (h u).trans (h' u)) (findImport_retains _ key i) fun o => ?_)
    · exact (h u).trans (Nat.le_add_right _ _)
    · cases o with
      | none => exact thenLeave_retainsBut (hgo w i t) i
      | some scope =>
        have hfollow : Retaining (importsOf lex { name := scope } >>= fun imports =>
            walk (.stored scope key) (followIf go { name := scope } current) limit.width 0 imports >>=
              fun _ => pure imports) :=
          retaining_bind (importsOf_retains _) fun i =>
            retaining_bind (walk_retains (followIf_retains hgo _ _) _ _ _ i) fun _ => retaining_pure i
        exact fun s u => (hfollow s u).trans (Nat.le_add_right _ _)

theorem followList_retains (key : String) (current : Token) (src imports : Source) :
    Retaining (followList lex limit go w key current src imports) :=
  retaining_bind (walk_retains (followStep_retains hgo w key current) src limit.width 0 imports)
    fun _ => retaining_pure _

end

theorem explore_retains (limit : Limit) (depth : Nat) (p : Path) (w : View) (i : Source) (t : Token) :
    Retaining (explore lex limit depth p w i t) := by
  induction depth generalizing p w i t with
  | zero => exact retaining_fail _
  | succ depth ih =>
    have hgo : ∀ w i u, Retaining (explore lex limit depth (p ++ [t]) w i u) := ih (p ++ [t])
    refine retaining_bind retaining_state fun s => ?_
    split
    · split
      · exact retaining_pure _
      · refine retaining_bind (enterCall_retains _ t) fun o => ?_
        cases o with
        | none => exact retaining_pure _
        | some w' =>
          refine retaining_bind (importsOf_retains w') fun i' => retaining_bind retaining_state fun s' => ?_
          split
          · exact conclude_retains _
          · exact followAll_retains hgo _ _ _
    · split
      · exact followList_retains hgo _ _ _ _ _
      · split
        · exact conclude_retains _
        · split
          · dsimp only
            split
            · exact retaining_fail _
            · refine retaining_bind (importsOf_retains _) fun i' => ?_
              split
              · exact followList_retains hgo _ _ _ _ _
              · exact conclude_retains _
          · refine retaining_bind (findImport_retains _ _ _) fun o => ?_
            cases o with
            | none => exact conclude_retains _
            | some scope =>
              exact retaining_bind (importsOf_retains _) fun i' => followAll_retains hgo _ _ _

theorem explore_isIn_visited (depth : Nat) (p : Path) (w : View) (i : Source) (t : Token) (s : Search) :
    t.isIn (explore lex limit depth p w i t { s with visited := s.visited ++ [t] }).2.visited = true := by
  have hretains : Retaining (explore lex limit depth p w i t) := explore_retains limit depth p w i t
  have h : (s.visited ++ [t]).countP t.same ≤ _ := hretains { s with visited := s.visited ++ [t] } t
  have hpos : 0 < (s.visited ++ [t]).countP t.same :=
    List.countP_pos_iff.mpr ⟨t, by simp, t.same_refl⟩
  obtain ⟨u, hu, hsame⟩ := List.countP_pos_iff.mp (hpos.trans_le h)
  exact List.any_eq_true.mpr ⟨u, hu, hsame⟩

end Retaining

/-! ### Recorded projects -/

theorem recordAll_sound {p q : Project} (hp : p.Sound) (files : List (String × List Char))
    (h : p.recordAll files = .ok q) : q.Sound := by
  induction files generalizing p with
  | nil =>
    cases h
    exact hp
  | cons f files ih =>
    unfold Project.recordAll at h
    dsimp only at h
    split at h
    · cases h
    · exact ih (hp.recordFile f.1 f.2) h

/-- The search of a project whose files were all recorded fails only where a path is to be dropped
that is not there, and where it does not end. The sink of every candidate path is found among
the recorded ones, and a token that was visited is there when it is left. -/
theorem detect_recorded_safe {files : List (String × List Char)} {p : Project}
    (h : Project.recordAll {} files = .ok p) (limit : Limit) (v : Vulnerability) :
    (∀ e, (detect .plain limit v { flows := p.flows }).1 = .error e → e = .absent ∨ e = .unending) ∧
    (∀ c s, exploreScopes .plain limit (Lexicon.plain.place (.sink v)) p.flows.names []
        { flows := p.flows } = (.ok c, s) →
      ∀ q ∈ c.withSplits (c.withBranches c.relevant),
        ∃ sink, q.head? = some sink ∧ (c.find? fun e => e.1.same sink).isSome = true) ∧
    ∀ (depth : Nat) (q : Path) (w : View) (i : Source) (t : Token) (s : Search),
      t.isIn (explore .plain limit depth q w i t { s with visited := s.visited ++ [t] }).2.visited =
        true := by
  have hsound := (recordAll_sound Project.sound_empty files h).flows
  have hempty : CatalogOf p.flows v [] := fun e he => by cases he
  have hland := exploreScopes_ensures hsound.allows limit p.flows.names hempty _
    (keeping_start { flows := p.flows })
  refine ⟨fun e he => ?_, fun c s hc q hq => ?_, fun depth => explore_isIn_visited depth⟩
  · rw [detect, Act.state_bind] at he
    rcases hrun : exploreScopes .plain limit (Lexicon.plain.place (.sink v)) p.flows.names []
      { flows := p.flows } with ⟨o, s⟩
    rw [hrun] at hland
    cases hland with
    | ok hs hc =>
      rw [Act.bind_of_ok hrun] at he
      cases he
    | error hadmitted =>
      rw [Act.bind_of_error hrun] at he
      cases he
      exact hadmitted
  · rw [hc] at hland
    cases hland with
    | ok hs hcatalog => exact hcatalog.beginsAtSinks.found hq

/-- Two files; the second one includes the first and calls its function. -/
def including : List (String × List Char) :=
  [("'a.php'", "<?php function f($p) \x7b return $p; \x7d $b = $_GET['k'];".toList),
    ("b.php", "include 'a.php'; if ($b) \x7b $c = f($b) . 'x'; \x7d echo $c;".toList)]

theorem detect_recorded_safe_including : ∃ p, Project.recordAll {} including = .ok p ∧
    (∀ e, (detect .plain ⟨20, 20⟩ .xss { flows := p.flows }).1 = .error e →
      e = .absent ∨ e = .unending) ∧
    (∀ c s, exploreScopes .plain ⟨20, 20⟩ (Lexicon.plain.place (.sink .xss)) p.flows.names []
        { flows := p.flows } = (.ok c, s) →
      ∀ q ∈ c.withSplits (c.withBranches c.relevant),
        ∃ sink, q.head? = some sink ∧ (c.find? fun e => e.1.same sink).isSome = true) ∧
    ∀ (depth : Nat) (q : Path) (w : View) (i : Source) (t : Token) (s : Search),
      t.isIn (explore .plain ⟨20, 20⟩ depth q w i t
        { s with visited := s.visited ++ [t] }).2.visited = true := by
  have hrecorded : (Project.recordAll {} including).toOption.isSome = true := by decide +kernel
  cases hp : Project.recordAll {} including with
  | error e =>
    rw [hp] at hrecorded
    cases hrecorded
  | ok p => exact ⟨p, rfl, detect_recorded_safe hp ⟨20, 20⟩ .xss⟩

end Search

end MaskedTaint
