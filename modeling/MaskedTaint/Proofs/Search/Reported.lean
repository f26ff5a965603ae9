import MaskedTaint.Proofs.Search.Chains

/-! Reported paths. They are recorded paths, so they are chains of the structure, and on each
of them an input comes before any sanitizer. -/

namespace MaskedTaint

namespace Catalog

def Records (c : Catalog) (p : Path) : Prop := ∃ e ∈ c, p ∈ e.2

def RecordsAll (c : Catalog) (ps : List Path) : Prop := ∀ p ∈ ps, c.Records p

variable {p : Path} {ps : List Path} {c : Catalog}

theorem nearer_kept {P : Path → Prop} {i : Nat} {best : Nearest}
    (hbest : ∀ e ∈ best, P e.2) (hp : i < p.length → P p) : ∀ e ∈ nearer i best p, P e.2 := by
  intro e he
  unfold nearer at he
  split at he
  · rename_i ht _
    have hp := hp (List.getElem?_eq_some_iff.mp ht).1
    have hkept : ∀ t : Token, P (best.getD (t, p)).2 := by
      intro t
      cases best with
      | none => exact hp
      | some b => exact hbest b rfl
    dsimp only at he
    split at he
    · cases he
      exact hkept _
    · split at he
      · cases he
        exact hp
      · cases he
        exact hkept _
  · exact hbest e he

theorem nearest_kept {P : Path → Prop} (hps : ∀ p ∈ ps, 1 < p.length → P p)
    (h : nearest ps = some p) : P p := by
  obtain ⟨e, he, rfl⟩ := Option.map_eq_some_iff.mp h
  refine List.foldlRecOn (motive := fun best : Nearest => ∀ e ∈ best, P e.2) _ _
    (fun e he => by cases he) (fun best hbest i hi => ?_) e he
  refine List.foldlRecOn (motive := fun best : Nearest => ∀ e ∈ best, P e.2) _ _ hbest
    fun best hbest p hp => nearer_kept hbest fun hlt => hps p hp ?_
  have hi' := (List.mem_range'_1.mp hi).1
  omega

theorem nearest_mem (h : nearest ps = some p) : p ∈ ps :=
  nearest_kept (fun _ hp _ => hp) h

theorem records_of_relevant (h : p ∈ c.relevant) : c.Records p := by
  obtain ⟨e, he, hp⟩ := List.mem_flatMap.mp h
  rcases List.mem_append.mp hp with hp | hp
  · exact ⟨e, he, (List.mem_filter.mp hp).1⟩
  · exact ⟨e, he, nearest_mem (Option.mem_toList.mp hp)⟩

theorem records_of_pathsOf {q : Path} (h : q ∈ c.pathsOf p) : c.Records q := by
  unfold pathsOf at h
  cases hp : p.head? with
  | none => simp [hp] at h
  | some sink =>
    simp only [hp, Option.map_some, Option.getD_some, find] at h
    cases hf : List.find? (fun e => e.1.same sink) c with
    | none => simp [hf] at h
    | some e =>
      rw [hf] at h
      exact ⟨e, List.mem_of_find?_eq_some hf, h⟩

theorem RecordsAll.extend {wanted : Path → Bool} (p : Path) {cs : List Path}
    (hcs : c.RecordsAll cs) : c.RecordsAll (extend wanted (c.pathsOf p) cs) := by
  refine List.foldlRecOn (motive := c.RecordsAll) _ _ hcs fun cs hcs r hr q hq => ?_
  split at hq
  · rcases List.mem_append.mp hq with hq | hq
    · exact hcs q hq
    · exact List.mem_singleton.mp hq ▸ records_of_pathsOf hr
  · exact hcs q hq

theorem RecordsAll.withBranches (hps : c.RecordsAll ps) : c.RecordsAll (c.withBranches ps) := by
  refine List.foldlRecOn (motive := c.RecordsAll) _ _ hps fun cs hcs p _ => ?_
  exact List.foldlRecOn (motive := c.RecordsAll) _ _ hcs fun cs hcs _ _ => hcs.extend p

theorem RecordsAll.joinFrom (fuel i : Nat) {cs : List Path}
    (hcs : c.RecordsAll cs) : c.RecordsAll (c.joinFrom fuel i cs) := by
  induction fuel generalizing i cs with
  | zero => exact hcs
  | succ fuel ih =>
    unfold Catalog.joinFrom
    cases cs[i]? with
    | none => exact hcs
    | some p =>
      refine ih (i + 1) ?_
      exact List.foldlRecOn (motive := c.RecordsAll) _ _ hcs fun cs hcs _ _ => hcs.extend p

end Catalog

namespace Search

/-- An input stands on the path, and no sanitizer before it. -/
def MeetsInput (v : Vulnerability) (p : Path) : Prop :=
  ∃ before t after, p = before ++ t :: after ∧ t.kind = Special.input.name ∧
    ∀ u ∈ before, u.kind ≠ (Special.sanitizer v).name

variable {v : Vulnerability} {p : Path}

theorem meetsInput_of_isVulnerable (h : isVulnerable .plain v p = true) : MeetsInput v p := by
  unfold isVulnerable at h
  split at h
  · cases h
  · rename_i t ht
    obtain ⟨hkind, before, after, rfl, hbefore⟩ := List.find?_eq_some_iff_append.mp ht
    have hnot : t.kind ≠ (Special.sanitizer v).name := by simpa [Lexicon.plain] using h
    refine ⟨before, t, after, rfl, ?_, fun u hu => ?_⟩
    · simpa [Lexicon.plain, hnot] using hkind
    · have hu := hbefore u hu
      simp only [Lexicon.plain, Bool.not_eq_true', Bool.or_eq_false_iff, beq_eq_false_iff_ne] at hu
      exact hu.1

theorem isVulnerable_of_meetsInput (h : MeetsInput v p) : isVulnerable .plain v p = true := by
  obtain ⟨before, t, after, rfl, hkind, hbefore⟩ := h
  have hne : Special.input.name ≠ (Special.sanitizer v).name := by cases v <;> decide
  have hfirst : ∀ (u : Token) (q : Path), u.kind = Special.input.name →
      isVulnerable .plain v (u :: q) = true := by
    intro u q hu
    simp [isVulnerable, Lexicon.plain, hu, hne]
  induction before with
  | nil => exact hfirst t after hkind
  | cons u before ih =>
    by_cases hu : u.kind = Special.input.name
    · exact hfirst u _ hu
    · have hclean := hbefore u List.mem_cons_self
      have hrest := ih fun w hw => hbefore w (List.mem_cons_of_mem _ hw)
      have hskip : isVulnerable .plain v (u :: (before ++ t :: after)) =
          isVulnerable .plain v (before ++ t :: after) := by
        simp only [isVulnerable, Lexicon.plain]
        rw [List.find?_cons_of_neg (by simp [hclean, hu])]
      exact hskip.trans hrest

theorem records_of_vulnerablePaths {c : Catalog}
    (h : p ∈ vulnerablePaths .plain v c) : c.Records p ∧ MeetsInput v p := by
  obtain ⟨hp, hv⟩ := List.mem_filter.mp h
  have hrelevant : c.RecordsAll c.relevant := fun q hq => Catalog.records_of_relevant hq
  exact ⟨hrelevant.withBranches.joinFrom _ 0 p hp, meetsInput_of_isVulnerable hv⟩

theorem keeping_start (s : Search) : Keeping s.flows (fun _ => True) s :=
  ⟨s.flows.grown_refl, fun _ _ => trivial⟩

/-- What the search records and reports is a chain of stored tokens that starts at a sink of the
vulnerability; a reported one also meets an input before any sanitizer of that vulnerability. -/
theorem detect_chains (s : Search) (limit : Limit) (v : Vulnerability) (paths : List Path)
    (h : (detect .plain limit v s).1 = .ok paths) :
    ∃ catalog : Catalog,
      (exploreScopes .plain limit (Lexicon.plain.place (.sink v)) s.flows.names [] s).1 =
        .ok catalog ∧
      (∀ p, catalog.Records p → s.flows.Chain v p) ∧
      ∀ p ∈ paths, s.flows.Chain v p ∧ MeetsInput v p := by
  obtain ⟨s', hrun⟩ : ∃ s', detect .plain limit v s = (.ok paths, s') := ⟨_, Prod.ext h rfl⟩
  obtain ⟨s₀, _, hstate, hrun⟩ := Act.bind_eq_ok_iff.mp hrun
  cases hstate
  obtain ⟨catalog, s₁, hexplore, hpaths⟩ := Act.bind_eq_ok_iff.mp hrun
  cases hpaths
  have hempty : CatalogOf s.flows v [] := fun e he => by cases he
  have hcatalog := ((exploreScopes_ensures s.flows.allows_all limit s.flows.names hempty).keeps s
    catalog _ (keeping_start s) hexplore).2
  have hrecords : ∀ p, catalog.Records p → s.flows.Chain v p := by
    rintro p ⟨e, he, hp⟩
    obtain ⟨t, -, hchain, -⟩ := hcatalog e he p hp
    exact hchain
  refine ⟨catalog, congrArg Prod.fst hexplore, hrecords, fun p hp => ?_⟩
  obtain ⟨hp, hinput⟩ := records_of_vulnerablePaths hp
  exact ⟨hrecords p hp, hinput⟩

/-- A function whose only parameter has the kind of a list of parameters, and a call of it
with two arguments: the first one becomes a parameter, the second one is bound to that. -/
def joinedParam : Structure :=
  let mark (kind scope : String) (pos : Int) : Mark :=
    ⟨kind, .number 1, pos, 0, 0, 0, .number 0, scope, "p.php"⟩
  [("f", [("ARGS", [.site 0 (mark "ARGS" "f" 1)]), ("XSS_SENS", [.site 1 (mark "VX" "f" 50)])]),
    ("m", [("ARGS", []), ("FUNC_CALL", [.jump 2 (mark "FUNC_CALL" "m" 60) "f"
      [.site 3 (mark "VX" "m" 62), .site 4 (mark "INPUT" "m" 64)]])])]

theorem detect_chains_joinedParam :
    (detect .plain usualLimit .xss { flows := joinedParam }).1.toOption.map
      (fun ps => ps.map fun p => p.map Token.pos) = some [[50, 64]] ∧
    ∃ paths catalog,
      (detect .plain usualLimit .xss { flows := joinedParam }).1 = .ok paths ∧
      (exploreScopes .plain usualLimit "XSS_SENS" joinedParam.names []
        { flows := joinedParam }).1 = .ok catalog ∧
      (∀ p, Catalog.Records catalog p → joinedParam.Chain .xss p) ∧
      ∀ p ∈ paths, joinedParam.Chain .xss p ∧ MeetsInput .xss p := by
  refine ⟨by decide +kernel, ?_⟩
  obtain ⟨paths, hpaths⟩ :
      ∃ paths, (detect .plain usualLimit .xss { flows := joinedParam }).1 = .ok paths := ⟨_, rfl⟩
  obtain ⟨catalog, hcatalog, hrecords, hchains⟩ :=
    detect_chains { flows := joinedParam } usualLimit .xss paths hpaths
  exact ⟨paths, catalog, hpaths, hcatalog, hrecords, hchains⟩

/-- A function with a parameter of the kind of imports, called with a call: inside it the
kinds of its tokens are also looked up in the scope of that argument. -/
def importedParam : Structure :=
  let mark (kind scope : String) (pos : Int) : Mark :=
    ⟨kind, .number 1, pos, 0, 0, 0, .number 0, scope, "p.php"⟩
  [("f", [("ARGS", [.site 0 (mark "IMPORTS" "f" 1)]), ("XSS_SENS", [.site 1 (mark "VX" "f" 50)])]),
    ("g", [("ARGS", []), ("VX", [.site 2 (mark "INPUT" "f" 70)])]),
    ("m", [("ARGS", []), ("FUNC_CALL", [.jump 3 (mark "FUNC_CALL" "m" 60) "f"
      [.jump 4 (mark "FUNC_CALL" "m" 10) "g" []]])])]

/-- Without arguments that join the parameters, and with imports only where the structure has
lists of them, too little is said: the first structure has a path with a token that is neither
listed nor bound to a listed parameter, the second one has no list of imports and a path that
goes on to a later token of the same scope. -/
theorem exists_path_beyond_listed :
    (∃ t u, (detect .plain usualLimit .xss { flows := joinedParam }).1 = .ok [[t, u]] ∧
      t.kind ≠ Special.call.name ∧
      ¬ ∃ scope, joinedParam.Entry scope t.kind u ∨ joinedParam.Binds scope t.kind u) ∧
    ∃ t u, (detect .plain usualLimit .xss { flows := importedParam }).1 = .ok [[t, u]] ∧
      t.kind ≠ Special.call.name ∧
      (∀ scope, importedParam.tokens? scope Special.imports.name = none) ∧
      u.scope = t.scope ∧ t.pos < u.pos := by
  constructor
  · refine ⟨.site 1 _, .site 4 _, rfl, by decide, ?_⟩
    rintro ⟨scope, ⟨ts, hts, -⟩ | ⟨args, params, i, param, arg, -, hparams, hparam, hkind, -⟩⟩
    · obtain ⟨e, he, hmem⟩ := Structure.mem_of_tokens? hts
      have hno : ∀ e ∈ joinedParam, ∀ l ∈ e.2, l.1 ≠ "VX" := by decide
      exact hno e he _ hmem rfl
    · obtain ⟨e, he, hmem⟩ := Structure.mem_of_tokens? hparams
      have hno : ∀ e ∈ joinedParam, ∀ l ∈ e.2, l.1 = "ARGS" → ∀ t ∈ l.2, t.kind ≠ "VX" := by decide
      exact hno e he _ hmem rfl param (List.mem_of_getElem? hparam) hkind
  · refine ⟨.site 1 ⟨"VX", .number 1, 50, 0, 0, 0, .number 0, "f", "p.php"⟩,
      .site 2 ⟨"INPUT", .number 1, 70, 0, 0, 0, .number 0, "f", "p.php"⟩,
      by with_unfolding_all rfl, by decide, fun scope => ?_, by decide, by decide⟩
    cases hts : importedParam.tokens? scope Special.imports.name with
    | none => rfl
    | some ts =>
      obtain ⟨e, he, hmem⟩ := Structure.mem_of_tokens? hts
      have hno : ∀ e ∈ importedParam, ∀ l ∈ e.2, l.1 ≠ "IMPORTS" := by decide
      exact absurd rfl (hno e he _ hmem)

end Search

end MaskedTaint
