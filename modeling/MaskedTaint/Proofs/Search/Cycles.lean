import MaskedTaint.Proofs.Flow.Appending
import MaskedTaint.Proofs.Search.Termination

/-! Projects whose files include each other. If no way of hops comes back to where it began, the
search ends; if one does, it may go round for ever. -/

namespace MaskedTaint

namespace Search

/-- The search of a project whose files were all recorded ends, if there is no cycle of hops. Any
limits wide enough give the same. -/
theorem detect_recorded_ends {files : List (String × List Char)} {p : Project}
    (h : Project.recordAll {} files = .ok p) (hhops : p.flows.HopsEnd) (v : Vulnerability) :
    ∃ limit : Limit, (detect .plain limit v { flows := p.flows }).1 ≠ .error .unending ∧
      ∀ wider, limit.Within wider →
        detect .plain wider v { flows := p.flows } = detect .plain limit v { flows := p.flows } := by
  have hsound := (recordAll_sound Project.sound_empty files h).flows
  have hstart : Tidied p.flows [] p.flows := ⟨p.flows.grown_refl, fun _ h => by cases h⟩
  exact ⟨(hopping hsound hhops).bounds,
    ((hopping hsound hhops).detect_ends hstart v ⟨le_rfl, le_rfl⟩).1,
    fun wider hwider => ((hopping hsound hhops).detect_ends hstart v hwider).2⟩

/-! ### Hops that end -/

def ImportsInputs (d : Structure) : Prop :=
  ∀ t ∈ d.occurrences, t.kind ≠ Special.call.name ∧
    (t.kind = Special.input.name ∨ (d.tokens? t.scope t.kind).isSome = true ∨
      ∀ u ∈ ((d.importOf? t).bind fun scope => d.tokens? scope t.kind).getD [],
        u.kind = Special.input.name)

instance (d : Structure) : Decidable (ImportsInputs d) :=
  inferInstanceAs (Decidable (∀ t ∈ d.occurrences, _))

variable {d : Structure} {count : Nat} {scope : String} {t : Token}

section

variable (hd : d.Sound count) (h : ImportsInputs d)

include hd h

theorem ImportsInputs.not_call (target : String) (args : List Token) : ¬ d.Call target args := by
  rintro ⟨i, m, hmem, hkind | ⟨scope, ts, hts, ht⟩⟩
  · exact (h _ hmem).1 hkind
  · exact (h _ hmem).1 ((hd.tokens? hts _ ht).call rfl)

theorem ImportsInputs.entry {key : String} (ht : d.Under scope key t) : d.Entry scope key t := by
  rcases ht with hentry | hbound
  · exact hentry
  · obtain ⟨args, hcall⟩ := hbound.exists_call
    exact absurd hcall (h.not_call hd _ _)

theorem ImportsInputs.hopsEnd : d.HopsEnd := by
  intro t hcycle
  -- a token on a cycle stands in the structure, so the hop from it leads to an input
  obtain ⟨u, hfirst, hrest⟩ := Relation.TransGen.head'_iff.mp hcycle
  obtain ⟨_, -, hlast⟩ := Relation.TransGen.tail'_iff.mp hcycle
  have hinput : u.kind = Special.input.name := by
    rcases (h t (h.entry hd hlast.listed).mem_occurrences).2 with hkind | hlisted | hall
    · exact absurd hkind hfirst.kind.2
    · rw [hfirst.unlisted] at hlisted
      cases hlisted
    · obtain ⟨ts, hts, hu⟩ := h.entry hd hfirst.listed
      refine hall u ?_
      rw [hfirst.included, Option.bind_some, hts]
      exact hu
  rcases Relation.ReflTransGen.cases_head hrest with rfl | ⟨w, hnext, -⟩
  · exact hfirst.kind.2 hinput
  · exact hnext.kind.2 hinput

end

/-- Two files that include each other; the second one gives the first one an input. -/
def sharing : List (String × List Char) :=
  [("a.php", "<?php include \"b.php\"; $x = $y; echo $x; ?>".toList),
    ("b.php", "<?php include \"a.php\"; $y = $_GET['k']; ?>".toList)]

theorem detect_recorded_ends_sharing : ∃ p, Project.recordAll {} sharing = .ok p ∧ p.flows.HopsEnd ∧
    ∃ limit : Limit, (detect .plain limit .xss { flows := p.flows }).1 ≠ .error .unending ∧
      ∀ wider, limit.Within wider → detect .plain wider .xss { flows := p.flows } =
        detect .plain limit .xss { flows := p.flows } := by
  have hcheck : ∃ p ∈ (Project.recordAll {} sharing).toOption, ImportsInputs p.flows := by
    decide +kernel
  obtain ⟨p, hp, hinputs⟩ := hcheck
  have hp := eq_ok_of_toOption hp
  have hhops := hinputs.hopsEnd (recordAll_sound Project.sound_empty sharing hp).flows
  exact ⟨p, hp, hhops, detect_recorded_ends hp hhops .xss⟩

/-! ### Hops that go round -/

def IsJump (t : Token) : Prop := ∃ i m target args, t = .jump i m target args

structure OnlyHop (d : Structure) (t u : Token) : Prop where
  hop : d.Hops t u
  alone : d.tokens? u.scope t.kind = some [u]
  imports : ∃ i, d.tokens? t.scope Special.imports.name = some [i] ∧ IsJump i

section Unending

variable {d : Structure} {limit : Limit}

variable {s : Search} {scope : String}

theorem bind_unending {α β : Type} {x : Searching α} (f : α → Searching β)
    (h : (x s).1 = .error .unending) : ((x >>= f) s).1 = .error .unending := by
  rcases hrun : x s with ⟨e | a, s'⟩
  · rw [hrun] at h
    cases h
    rw [Act.bind_of_error hrun]
  · rw [hrun] at h
    cases h

theorem importsOf_alone {i : Token}
    (hi : d.tokens? scope Special.imports.name = some [i]) (hs : s.flows = d) :
    ∃ s', importsOf .plain { name := scope } s = (.ok (.stored scope Special.imports.name), s') ∧
      s'.flows = d := by
  have hsrc : s.source? { name := scope } (Lexicon.plain.place .imports) =
      some (.stored scope Special.imports.name) := by
    simp [source?, Lexicon.place, Lexicon.plain, hs, hi]
  have hsort : sortImports (s.read (.stored scope Special.imports.name)) = [i] := by
    simp [Search.read, hs, hi, sortImports]
  refine ⟨{ s with flows := s.flows.putTokens scope Special.imports.name [i] }, ?_, ?_⟩
  · rw [importsOf, Act.state_bind, hsrc, ← hsort]
    rfl
  · rw [hs]
    exact Structure.putTokens_of_tokens? hi

theorem findImport_alone {t i : Token} (hjump : IsJump i)
    (hoffer : d.offer? t i = some scope) (hs : s.flows = d)
    (hi : d.tokens? t.scope Special.imports.name = some [i]) :
    findImport .plain (fun i => i.pos ≤ t.pos) t.kind (.stored t.scope Special.imports.name) s =
      (.ok (some scope), s) := by
  obtain ⟨j, m, target, args, rfl⟩ := hjump
  have hboth : m.pos ≤ t.pos ∧ (d.tokens? target t.kind).isSome = true := by
    by_contra hnot
    rw [Structure.offer?, if_neg hnot] at hoffer
    cases hoffer
  rw [Structure.offer?, if_pos hboth] at hoffer
  cases hoffer
  have hread : s.read (.stored t.scope Special.imports.name) = [.jump j m scope args] := by
    simp [Search.read, hs, hi]
  have hlist : s.hasList (Lexicon.plain.key scope) t.kind = true := by
    simpa [hasList, hs, Lexicon.plain] using hboth.2
  have hpos : decide ((Token.jump j m scope args).pos ≤ t.pos) = true := decide_eq_true hboth.1
  rw [findImport, hread, findImport.go, if_pos hpos, if_pos hlist]
  rfl

theorem followAll_unending {go : View → Source → Token → Searching Unit} {w : View} {imports : Source}
    {key : String} {u : Token} (hs : s.flows = d) (hu : d.tokens? scope key = some [u])
    (hgo : ∀ s : Search, s.flows = d → (go w imports u s).1 = .error .unending) :
    (followAll limit go w (.stored scope key) imports s).1 = .error .unending := by
  refine bind_unending _ ?_
  cases limit.width with
  | zero => rfl
  | succ width =>
    have hread : (s.read (.stored scope key))[0]? = some u := by
      simp [Search.read, hs, hu]
    rw [walk, Act.state_bind, hread]
    refine bind_unending _ (bind_unending _ ?_)
    rw [visiting, visit, Act.update_bind]
    exact bind_unending _ (hgo _ hs)

theorem explore_unending {P : Token → Prop} (hP : ∀ t, P t → ∃ u, P u ∧ OnlyHop d t u)
    (depth : Nat) (ht : P t) (p : Path) (hs : s.flows = d) :
    (explore .plain limit depth p { name := t.scope } (.stored t.scope Special.imports.name) t s).1 =
      .error .unending := by
  induction depth generalizing t p s with
  | zero => rfl
  | succ depth ih =>
    obtain ⟨u, hu, hhop⟩ := hP t ht
    obtain ⟨_, -, hnext⟩ := hP u hu
    obtain ⟨i, hi, hjump⟩ := hhop.imports
    obtain ⟨j, hj, -⟩ := hnext.imports
    have hcall : ¬ t.kind = Lexicon.plain.word .call := hhop.hop.kind.1
    have hinput : ¬ t.kind = Lexicon.plain.word .input := hhop.hop.kind.2
    have hscope : ¬ Lexicon.plain.key t.scope ≠ t.scope := not_not.mpr rfl
    have hsrc : s.source? { name := t.scope } (Lexicon.plain.key t.kind) = none := by
      simp [source?, hs, Lexicon.plain, hhop.hop.unlisted]
    have hoffer : d.offer? t i = some u.scope := by
      have hincluded := hhop.hop.included
      simpa [Structure.importOf?, Structure.sortedImports, hi, sortImports] using hincluded
    have hfind : findImport .plain (fun i => i.pos ≤ t.pos) (Lexicon.plain.key t.kind)
        (.stored t.scope Special.imports.name) s = (.ok (some u.scope), s) :=
      findImport_alone hjump hoffer hs hi
    obtain ⟨s', himports, hs'⟩ := importsOf_alone hj hs
    unfold explore
    rw [Act.state_bind, if_neg hcall, hsrc]
    dsimp only
    rw [if_neg hinput, if_neg hscope, Act.bind_of_ok hfind]
    dsimp only
    rw [Act.bind_of_ok himports]
    exact followAll_unending hs' hhop.alone fun s hs => ih hu _ hs

theorem detect_unending {v : Vulnerability} {scopes : List String} {sink : Token}
    {sinks : List Token} {P : Token → Prop} (hP : ∀ t, P t → ∃ u, P u ∧ OnlyHop d t u)
    (hsink : P sink) (hnames : d.names = sink.scope :: scopes)
    (hsinks : d.tokens? sink.scope (Special.sink v).name = some (sink :: sinks)) :
    (detect .plain limit v { flows := d }).1 = .error .unending := by
  obtain ⟨_, -, hhop⟩ := hP sink hsink
  obtain ⟨i, hi, -⟩ := hhop.imports
  rw [detect, Act.state_bind]
  refine bind_unending _ ?_
  dsimp only
  rw [hnames, exploreScopes]
  refine bind_unending _ ?_
  have hsrc : source? { flows := d } { name := sink.scope } (Lexicon.plain.place (.sink v)) =
      some (.stored sink.scope (Special.sink v).name) := by
    simp [source?, Lexicon.place, Lexicon.plain, hsinks]
  rw [exploreSinks, Act.state_bind, hsrc]
  dsimp only
  cases limit.width with
  | zero => rfl
  | succ width =>
    have hread : (Search.read { flows := d } (.stored sink.scope (Special.sink v).name))[0]? =
        some sink := by
      simp [Search.read, hsinks]
    rw [exploreSinks.go, Act.state_bind, hread]
    dsimp only
    rw [Act.update_bind]
    obtain ⟨s', himports, hs'⟩ := importsOf_alone (s := { flows := d, visited := [sink] }) hi rfl
    rw [Act.bind_of_ok himports]
    exact bind_unending _ (explore_unending hP limit.depth hsink [] hs')

end Unending

def circling : List (String × List Char) :=
  [("a.php", "<?php include \"b.php\"; $x = $y; echo $y; ?>".toList),
    ("b.php", "<?php include \"a.php\"; $y = $x; ?>".toList)]

def circles (d : Structure) : Bool :=
  match d.names, d.tokens? "a.php" "XSS_SENS", d.tokens? "b.php" "VAR2", d.tokens? "a.php" "VAR1",
    d.tokens? "a.php" "IMPORTS", d.tokens? "b.php" "IMPORTS" with
  | scope :: _, some [z], some [x], some [y], some [.jump _ _ _ _], some [.jump _ _ _ _] =>
    scope = "a.php" && hopsTo z "VAR2" "a.php" "b.php" && hopsTo y "VAR2" "a.php" "b.php" &&
      hopsTo x "VAR1" "b.php" "a.php"
  | _, _, _, _, _, _ => false
where
  hopsTo (t : Token) (kind scope target : String) : Bool :=
    t.kind = kind && t.scope = scope && (d.tokens? scope kind).isNone && d.importOf? t = some target

theorem scope_of_hopsTo {kind target : String}
    (h : circles.hopsTo d t kind scope target = true) : t.scope = scope := by
  simp only [circles.hopsTo, Bool.and_eq_true, decide_eq_true_eq] at h
  exact h.1.1.2

theorem onlyHop_of_hopsTo {u i : Token} {kind target : String}
    (ht : circles.hopsTo d t kind scope target = true)
    (hkind : kind ≠ Special.call.name ∧ kind ≠ Special.input.name)
    (hu : d.tokens? target kind = some [u]) (htarget : u.scope = target)
    (hi : d.tokens? scope Special.imports.name = some [i]) (hjump : IsJump i) : OnlyHop d t u := by
  simp only [circles.hopsTo, Bool.and_eq_true, decide_eq_true_eq, Option.isNone_iff_eq_none] at ht
  obtain ⟨⟨⟨rfl, rfl⟩, hnone⟩, himport⟩ := ht
  subst htarget
  exact ⟨⟨hkind, hnone, himport, .inl ⟨_, hu, List.mem_singleton_self u⟩⟩, hu, i, hi, hjump⟩

/-- Files that include each other can keep the search going round for ever, whatever its limits. -/
theorem exists_unending_search : ∃ files p, Project.recordAll {} files = .ok p ∧
    ∀ limit, (detect .plain limit .xss { flows := p.flows }).1 = .error .unending := by
  have hcheck : ∃ p ∈ (Project.recordAll {} circling).toOption, circles p.flows = true := by
    decide +kernel
  obtain ⟨p, hp, hcircles⟩ := hcheck
  refine ⟨circling, p, eq_ok_of_toOption hp, fun limit => ?_⟩
  unfold circles at hcircles
  split at hcircles
  · rename_i scope scopes z x y _ _ _ _ _ _ _ _ hnames hz hx hy hi hj
    simp only [Bool.and_eq_true, decide_eq_true_eq] at hcircles
    obtain ⟨⟨⟨rfl, hhz⟩, hhy⟩, hhx⟩ := hcircles
    have hjump : ∀ {k m target args}, IsJump (.jump k m target args) := ⟨_, _, _, _, rfl⟩
    have hvar : ∀ kind ∈ ["VAR1", "VAR2"], kind ≠ Special.call.name ∧ kind ≠ Special.input.name := by
      decide
    have hxs : x.scope = "b.php" := scope_of_hopsTo hhx
    have hys : y.scope = "a.php" := scope_of_hopsTo hhy
    have hzs : z.scope = "a.php" := scope_of_hopsTo hhz
    have hzx : OnlyHop p.flows z x := onlyHop_of_hopsTo hhz (hvar _ (by simp)) hx hxs hi hjump
    have hxy : OnlyHop p.flows x y := onlyHop_of_hopsTo hhx (hvar _ (by simp)) hy hys hj hjump
    have hyx : OnlyHop p.flows y x := onlyHop_of_hopsTo hhy (hvar _ (by simp)) hx hxs hi hjump
    refine detect_unending (P := fun t => t = z ∨ t = x ∨ t = y) ?_ (.inl rfl) (hzs ▸ hnames) (hzs ▸ hz)
    rintro t (rfl | rfl | rfl)
    · exact ⟨x, .inr (.inl rfl), hzx⟩
    · exact ⟨y, .inr (.inr rfl), hxy⟩
    · exact ⟨x, .inr (.inl rfl), hyx⟩
  · cases hcircles

end Search

end MaskedTaint
