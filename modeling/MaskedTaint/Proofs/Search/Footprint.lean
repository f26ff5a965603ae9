import MaskedTaint.Proofs.Search.Abreast
import MaskedTaint.Proofs.Search.Reported
import MaskedTaint.Proofs.Search.Safety

/-! What a search leaves behind. An argument is added to the list that the called function already
has for the parameter, and later searches of the same structure come upon it there; imports are sorted
in place. Apart from that the structure stays as it was, and if no parameter has a list of its own, the
structure gives the same results when it is searched again. -/

namespace MaskedTaint

namespace Structure

/-- Every argument of a call goes to a parameter for which the function has no list of its own. -/
def BindsApart (d : Structure) : Prop :=
  ∀ scope key t, d.Binds scope key t → d.tokens? scope key = none

variable {d e : Structure} {scope key : String} {ts : List Token}

theorem BindsApart.of_params (h : ∀ e ∈ d, ∀ param ∈ (e.2.get? Special.params.name).getD [],
    e.2.get? param.kind = none) : d.BindsApart := by
  rintro scope key t ⟨args, params, i, param, arg, -, hparams, hparam, rfl, -, -⟩
  obtain ⟨lists, hlists, hparams⟩ := Option.bind_eq_some_iff.mp hparams
  have hnone := h _ (Table.mem_of_get? hlists) param (by simp [hparams, List.mem_of_getElem? hparam])
  rw [tokens?, hlists]
  exact hnone

theorem BindsApart.binds_of_bound (h : d.BindsApart) {t : Token} (ht : d.Bound scope key t) :
    d.Binds scope key t := by
  induction ht with
  | binds hbinds => exact hbinds
  | again _ _ _ _ ih =>
    -- such an argument would be a parameter, and parameters are a list of the function's own
    obtain ⟨_, params, _, _, _, _, hparams, _⟩ := id ih
    rw [h _ _ _ ih] at hparams
    cases hparams

theorem Grown.eq_of_bindsApart (h : d.Grown e) (hd : d.BindsApart) (hts : e.tokens? scope key = some ts) :
    ∃ first, d.tokens? scope key = some first ∧
      (ts = first ∨ key = Special.imports.name ∧ ts = Search.sortImports first) := by
  obtain ⟨first, more, hfirst, hmore, -, hsame, hsorted⟩ := h.lists scope key ts hts
  have hnone : more = [] := by
    refine List.eq_nil_iff_forall_not_mem.mpr fun t ht => ?_
    rw [hd scope key t (hd.binds_of_bound (hmore t ht))] at hfirst
    cases hfirst
  refine ⟨first, hfirst, ?_⟩
  by_cases hkey : key = Special.imports.name
  · exact (hsorted hnone).imp_right fun hts => ⟨hkey, hts⟩
  · exact .inl (by simpa [hnone] using hsame hkey)

theorem Grown.matches (h : d.Grown e) (hd : d.BindsApart) : Matches (fun _ => False) [] d e where
  has := h.has
  isSome := h.hasList
  imports scope := by
    cases hts : e.tokens? scope Special.imports.name with
    | none => rw [h.tokens?_eq_none hts]
    | some ts =>
      obtain ⟨first, hfirst, rfl | ⟨-, rfl⟩⟩ := h.eq_of_bindsApart hd hts
      · rw [hfirst]
      · rw [hfirst, Option.map_some, Option.map_some, Search.sortImports_sortImports]
  settled scope hscope := by cases hscope
  others scope key _ hkey := by
    cases hts : e.tokens? scope key with
    | none => exact (h.tokens?_eq_none hts).symm
    | some ts =>
      obtain ⟨first, hfirst, rfl | ⟨himports, -⟩⟩ := h.eq_of_bindsApart hd hts
      · exact hfirst.symm
      · exact absurd himports hkey

end Structure

namespace Search

variable {d e : Structure} {limit : Limit} {v : Vulnerability}

/-- Two structures that differ in the order of their imports only. -/
def twins (d e : Structure) : Pairing := ⟨d, e, fun _ => False, fun _ => True, fun _ => False⟩

theorem proper_twins : (twins d e).Proper where
  kinds _ _ := not_false
  params := .inl fun _ => trivial
  places _ _ := not_false
  idle _ hc := hc.elim
  same _ _ hc _ := hc

theorem survey_twins : Survey (fun _ => False) (fun e _ e' _ => e = e')
      (fun _ _ => abreastRelations (twins d e) (fun _ => True) (fun _ => True) (fun _ _ => True)
        (fun _ => True) (fun _ => True) (fun _ => True))
      (Along (twins d e)) Eq Eq Eq .plain .plain limit limit (Lexicon.plain.place (.sink v))
      (Lexicon.plain.place (.sink v)) where
  coupling _ := invariant_true.abreast proper_twins (fun _ _ _ => not_false) limit
  width := .inl ⟨rfl, fun _ _ _ _ => rfl⟩
  start := by
    rintro t _ E s s' rfl hs
    exact ⟨trivial, { hs with }, rfl, rfl⟩
  path := by
    rintro t _ rfl
    exact ⟨rfl, rfl, trivial⟩
  view := by
    rintro t _ w _ rfl rfl
    exact ⟨rfl, trivial⟩
  add := by
    rintro t _ E s s' c _ rfl hs rfl
    exact ⟨hs.2.1, by rw [hs.2.2.2]⟩
  sources := by
    rintro w _ E s s' rfl hs
    rw [hs.source?]
    refine rel_of_forall fun src hsrc E' s₁ s₁' hE hs₁ => ?_
    have hshared : Shared (twins d e) E src :=
      shared_source? hsrc not_false fun h => absurd h (by cases v <;> decide)
    rw [hs₁.read (hshared.mono hE)]
    exact List.forall₂_refl _

theorem rounds_twins (d e : Structure) (limit : Limit) (v : Vulnerability) :
    Rounds (fun _ => False) (fun e _ e' _ => e = e') (Along (twins d e)) Eq Eq Eq Eq .plain .plain limit
      limit (Lexicon.plain.place (.sink v)) (Lexicon.plain.place (.sink v)) where
  width := .inl ⟨rfl, fun _ _ _ _ => rfl⟩
  listed := by
    rintro scope _ E rfl E' s s' - hs
    have hshared : Shared (twins d e) E' (.stored scope (Lexicon.plain.place .call)) :=
      ⟨not_false, fun h => absurd h (by decide)⟩
    rw [hs.read hshared]
    exact List.forall₂_refl _
  enter := by
    rintro t _ E rfl
    refine Couples.imp (Q := fun _ => Option.Rel (Both (OwnKinds (twins d e)))) ?_ fun _ _ _ _ ho => ?_
    · simpa only [Keep, and_true] using meet_keep (R := fun _ _ => True) (E := E)
        (fun _ _ _ _ _ _ _ => trivial) (proper_twins (d := d) (e := e)) Lexicon.plain.filesCall t
    · cases ho with
      | none => exact .none
      | some hw => exact .some hw.1
  named := by
    rintro scope _ rfl
    rfl
  sinks hw := survey_twins.exploreSinks hw

theorem Couples.fst_eq {α : Type} {S : List String → Search → Search → Prop} {E : List String}
    {x y : Searching α} (h : Couples S (fun _ => False) (fun e _ e' _ => e = e') E (fun _ => Eq) x y)
    {s s' : Search} (hs : S E s s') : (y s').1 = (x s).1 := by
  have hrun := h s s' hs
  revert hrun
  generalize x s = run
  generalize y s' = run'
  rintro (⟨-, -, rfl⟩ | rfl | h)
  · rfl
  · rfl
  · exact h.elim

theorem detect_twins (hnames : e.names = d.names) (h : Structure.Matches (fun _ => False) [] d e)
    (limit : Limit) (v : Vulnerability) :
    (detect .plain limit v { flows := e }).1 = (detect .plain limit v { flows := d }).1 := by
  have hstart : Along (twins d e) [] { flows := d } { flows := e } :=
    ⟨h, fun _ => rfl, fun _ _ _ _ => rfl, fun _ _ _ _ => rfl, fun _ _ => rfl⟩
  have hscopes := (rounds_twins d e limit v).exploreScopes (E := [])
    (List.forall₂_refl d.names) (rfl : ([] : Catalog) = [])
  have hdetect := hscopes.bind (f := fun c => pure (vulnerablePaths .plain v c))
    (g := fun c => pure (vulnerablePaths .plain v c)) fun _ _ _ _ hc => .pure (congrArg _ hc)
  rw [detect, Act.state_bind, Act.state_bind]
  dsimp only
  rw [hnames]
  exact hdetect.fst_eq hstart

/-- What a search leaves behind. No scope and no list is added; bound arguments are added at the ends
of lists, and imports are sorted. If arguments go only to parameters without lists of their own, all
lists but the imports are as before, and every later search gives what it gives on the structure as it
was. -/
theorem detect_footprint (d : Structure) (limit : Limit) (v : Vulnerability) (paths : List Path)
    (s : Search) (h : detect .plain limit v { flows := d } = (.ok paths, s)) :
    s.flows.names = d.names ∧
    (∀ scope key, (s.flows.tokens? scope key).isSome = (d.tokens? scope key).isSome) ∧
    (∀ scope key ts, s.flows.tokens? scope key = some ts → d.Grows scope key ts) ∧
    (d.BindsApart →
      (∀ scope key, key ≠ Special.imports.name → s.flows.tokens? scope key = d.tokens? scope key) ∧
      ∀ limit' w, (detect .plain limit' w { flows := s.flows }).1 =
        (detect .plain limit' w { flows := d }).1) := by
  rw [detect, Act.state_bind] at h
  obtain ⟨catalog, s₁, hscopes, hpaths⟩ := Act.bind_eq_ok_iff.mp h
  cases hpaths
  have hland := exploreScopes_ensures (v := v) d.allows_all limit d.names (c := [])
    (fun e he => by cases he) _ (keeping_start { flows := d })
  rw [hscopes] at hland
  cases hland with
  | ok hkeeping _ =>
    have hgrown := hkeeping.flows
    refine ⟨hgrown.names, hgrown.hasList, hgrown.lists, fun hd => ?_⟩
    have hmatch := hgrown.matches hd
    exact ⟨fun scope key hkey => hmatch.others scope key not_false hkey,
      fun limit' w => detect_twins hgrown.names hmatch limit' w⟩

def binding : List (String × List Char) :=
  [("m.php", "<?php function f($p)\x7becho $p;\x7d include \"b.php\"; f($_GET['x']); echo $b;".toList),
   ("b.php", "<?php $b = $_GET['y'];".toList)]

theorem detect_footprint_binding : ∃ p paths s, Project.recordAll {} binding = .ok p ∧
    detect .plain usualLimit .xss { flows := p.flows } = (.ok paths, s) ∧
    paths.length = 2 ∧ p.flows.BindsApart ∧
    (∀ scope key, key ≠ Special.imports.name → s.flows.tokens? scope key = p.flows.tokens? scope key) ∧
    ∀ limit' w, (detect .plain limit' w { flows := s.flows }).1 =
      (detect .plain limit' w { flows := p.flows }).1 := by
  have hcheck : ∃ p ∈ (Project.recordAll {} binding).toOption,
      (∀ e ∈ p.flows, ∀ param ∈ (e.2.get? Special.params.name).getD [], e.2.get? param.kind = none) ∧
      ∃ paths ∈ (detect .plain usualLimit .xss { flows := p.flows }).1.toOption, paths.length = 2 := by
    decide +kernel
  obtain ⟨p, hp, hparams, paths, hpaths, hlength⟩ := hcheck
  have hapart := Structure.BindsApart.of_params hparams
  obtain ⟨s, hrun⟩ : ∃ s, detect .plain usualLimit .xss { flows := p.flows } = (.ok paths, s) :=
    ⟨_, Prod.ext (eq_ok_of_toOption hpaths) rfl⟩
  obtain ⟨-, -, -, hrest⟩ := detect_footprint p.flows usualLimit .xss paths s hrun
  exact ⟨p, paths, s, eq_ok_of_toOption hp, hrun, hlength, hapart, hrest hapart⟩

def leaking : List (String × List Char) :=
  [("m.php", "<?php function f($p) \x7b mysql_query($p); $p = 'a'; \x7d f('b'); echo f($_GET['x']);".toList)]

/-- The function has a list for its parameter, to which the search for one kind of vulnerability adds
the arguments. The search for the other kind comes upon them and reports a path, where it reports none
of the structure as it was. -/
theorem exists_leaked_argument : ∃ p s leaked, Project.recordAll {} leaking = .ok p ∧
    detect .plain usualLimit .xss { flows := p.flows } = (.ok [], s) ∧
    (p.flows.tokens? "FUNC1" "VAR1").map List.length = some 1 ∧
    (s.flows.tokens? "FUNC1" "VAR1").map List.length = some 3 ∧
    (detect .plain usualLimit .sqli { flows := p.flows }).1 = .ok [] ∧
    (detect .plain usualLimit .sqli { flows := s.flows }).1 = .ok [leaked] ∧
    leaked.map Token.kind = ["VAR1", "INPUT"] := by
  have hcheck : ∃ p ∈ (Project.recordAll {} leaking).toOption,
      (∃ ps ∈ (detect .plain usualLimit .xss { flows := p.flows }).1.toOption, ps.length = 0) ∧
      (∃ ps ∈ (detect .plain usualLimit .sqli { flows := p.flows }).1.toOption, ps.length = 0) ∧
      (∃ ps ∈ (detect .plain usualLimit .sqli
          { flows := (detect .plain usualLimit .xss { flows := p.flows }).2.flows }).1.toOption,
        ps.length = 1 ∧ ∀ leaked ∈ ps, leaked.map Token.kind = ["VAR1", "INPUT"]) ∧
      (p.flows.tokens? "FUNC1" "VAR1").map List.length = some 1 ∧
      ((detect .plain usualLimit .xss { flows := p.flows }).2.flows.tokens? "FUNC1" "VAR1").map
        List.length = some 3 := by
    decide +kernel
  obtain ⟨p, hp, ⟨_, hxss, hnone⟩, ⟨_, hsqli, hnone'⟩, ⟨_, hpaths, hone, hkinds⟩, hlists⟩ := hcheck
  obtain ⟨leaked, rfl⟩ := List.length_eq_one_iff.mp hone
  rw [List.length_eq_zero_iff.mp hnone] at hxss
  rw [List.length_eq_zero_iff.mp hnone'] at hsqli
  exact ⟨p, _, leaked, eq_ok_of_toOption hp, Prod.ext (eq_ok_of_toOption hxss) rfl, hlists.1, hlists.2,
    eq_ok_of_toOption hsqli, eq_ok_of_toOption hpaths, hkinds leaked List.mem_cons_self⟩

end Search

end MaskedTaint
