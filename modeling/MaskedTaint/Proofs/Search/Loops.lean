import MaskedTaint.Proofs.Search.Horizon

/-! The loops of a search and what ends them. A walk comes to the end of its list if the list stays
short while it is walked. A token is followed from a list only if it is not on the way already, so
there is one token less to visit from then on. -/

namespace MaskedTaint

namespace Search

abbrev Ends {α : Type} (I J : Search → Prop) (Q : α → Prop) (x : Searching α) : Prop :=
  Act.Ensures I J (· ≠ .unending) Q x

/-- A search with `K` in which at most `b` of the tokens in sight are still to be visited. -/
structure ToVisit (sight : List Token) (K : Search → Prop) (b : Nat) (s : Search) : Prop where
  rest : K s
  visits : Token.unmet sight s.visited ≤ b

def IgnoresVisits (K : Search → Prop) : Prop := ∀ s ts, K s → K { s with visited := ts }

/-- The list has at most `n` tokens, all of them with `P`. -/
def Reads (K : Search → Prop) (n : Nat) (P : Token → Prop) (src : Source) : Prop :=
  ∀ s, K s → (s.read src).length ≤ n ∧ ∀ t ∈ s.read src, P t

variable {α : Type} {lex : Lexicon} {limit : Limit} {sight : List Token} {b n : Nat}
  {I K K' : Search → Prop} {P : Token → Prop} {W : View → Prop} {Q : Source → Prop} {src : Source}

theorem Reads.weaken (h : Reads K n P src) (hI : ∀ s, I s → K s) : Reads I n P src :=
  fun s hs => h s (hI s hs)

/-! ### Visits -/

variable {s : Search}

theorem isIn_of_retains {s' : Search} (h : Retains s s') {t : Token} (ht : t.isIn s.visited = true) :
    t.isIn s'.visited = true := by
  have hpos : 0 < s.visited.countP t.same := List.countP_pos_iff.mpr (List.any_eq_true.mp ht)
  exact List.any_eq_true.mpr (List.countP_pos_iff.mp (hpos.trans_le (h t)))

theorem Ends.retaining {R : α → Prop} {x : Searching α} (hx : Ends (ToVisit sight K b) K' R x)
    (hr : Retaining x) : Ends (ToVisit sight K b) (ToVisit sight K' b) R x := by
  intro s hs
  have hland := hx s hs
  have hretains := hr s
  revert hland hretains
  generalize x s = run
  rintro (⟨hs', ha⟩ | he) hretains
  · exact .ok ⟨hs', (Token.unmet_mono fun t => isIn_of_retains hretains).trans hs.visits⟩ ha
  · exact .error he

theorem Ends.amongVisits {R : α → Prop} {x : Searching α} (hx : Ends K K' R x) (hr : Retaining x) :
    Ends (ToVisit sight K b) (ToVisit sight K' b) R x :=
  Ends.retaining (hx.weaken fun _ hs => hs.rest) hr

theorem visit_ends (hK : IgnoresVisits K) (t : Token) :
    Ends (fun s => K s ∧ Token.unmet sight (s.visited ++ [t]) ≤ b) (ToVisit sight K b) (fun _ => True)
      (visit t) :=
  .update fun s hs => ⟨hK s _ hs.1, hs.2⟩

theorem leave_ends (hK : IgnoresVisits K) (t : Token) : Ends K K (fun _ => True) (leave t) :=
  .update fun s hs => hK s _ hs

theorem visiting_ends (hK : IgnoresVisits K) (t : Token) {x : Searching Unit}
    (hx : Ends (ToVisit sight K b) K (fun _ => True) x) :
    Ends (fun s => K s ∧ Token.unmet sight (s.visited ++ [t]) ≤ b) K (fun _ => True) (visiting t x) :=
  .bind (visit_ends hK t) fun _ _ => .bind hx fun _ _ => leave_ends hK t

theorem unmet_of_canFollow {current t : Token} (ht : t ∈ sight) (hs : ToVisit sight K b s)
    (hcan : s.canFollow current t = true) :
    0 < b ∧ Token.unmet sight (s.visited ++ [t]) ≤ b - 1 := by
  have hnew : t.isIn s.visited = false := by
    simp only [canFollow, Bool.and_eq_true, Bool.not_eq_true'] at hcan
    exact hcan.1
  have hless := Token.unmet_append_lt ht hnew
  have hvisits := hs.visits
  omega

theorem conclude_ends_of (hK : ∀ s ps, K s → K { s with paths := ps }) (p : Path) :
    Ends K K (fun _ => True) (conclude p) := by
  refine .bind .state fun s _ => ?_
  cases p.conclude? s.paths with
  | none => exact .fail fun he => by cases he
  | some ps => exact .update fun s hs => hK s ps hs

theorem bound_error {isCall : Token → Bool} {p t : Token} {e : SearchError}
    (h : bound isCall p t = .error e) : e ≠ .unending := by
  unfold bound at h
  split at h
  · cases t with
    | site i m =>
      cases h
      exact fun he => by cases he
    | jump i m target args => cases h
  · cases h

/-! ### Walks -/

theorem walk_ends (hread : Reads I n P src) {body : Source → Token → Searching Source}
    (hbody : ∀ i t, Q i → P t → Ends I I Q (body i t)) (width i : Nat) (hi : i ≤ n)
    (hwidth : n < width + i) {imports : Source} (himports : Q imports) :
    Ends I I Q (walk src body width i imports) := by
  induction width generalizing i imports with
  | zero => omega
  | succ width ih =>
    refine .bind .state fun s hs => ?_
    cases ht : (s.read src)[i]? with
    | none => exact .pure himports
    | some t =>
      -- the list is read anew at each step, but its bound stays
      obtain ⟨hlength, hall⟩ := hread s hs
      have hlt : i < (s.read src).length := (List.getElem?_eq_some_iff.mp ht).choose
      refine .bind (hbody imports t himports (hall t (List.mem_of_getElem? ht))) fun i' hi' => ?_
      exact ih (i + 1) (by omega) (by omega) hi'

/-! ### Following -/

theorem findImport_go_ends (wanted : Token → Bool) (key : String) (ts : List Token) :
    (findImport.go lex wanted key s ts).1 ≠ .error .unending := by
  induction ts with
  | nil => exact fun h => by cases h
  | cons t ts ih =>
    unfold findImport.go
    split
    · cases t with
      | site i m => exact fun h => by cases h
      | jump i m target args =>
        dsimp only
        split
        · exact fun h => by cases h
        · exact ih
    · exact ih

theorem findImport_ends (lex : Lexicon) (wanted : Token → Bool) (key : String)
    (imports : Source) : Ends I I (fun _ => True) (findImport lex wanted key imports) := by
  intro s hs
  have hstate : (findImport.go lex wanted key s (s.read imports)).2 = s :=
    findImport_go_state wanted key s (s.read imports)
  have hends : (findImport.go lex wanted key s (s.read imports)).1 ≠ .error .unending :=
    findImport_go_ends wanted key (s.read imports)
  unfold findImport
  revert hstate hends
  generalize findImport.go lex wanted key s (s.read imports) = run
  obtain ⟨o, s'⟩ := run
  rintro rfl hends
  cases o with
  | error e => exact .error fun he => hends (congrArg Except.error he)
  | ok o => exact .ok hs trivial

theorem Reads.toVisit (h : Reads K n P src) : Reads (ToVisit sight K b) n P src :=
  h.weaken fun _ hs => hs.rest

section Following

variable {go : View → Source → Token → Searching Unit}

variable {w : View} {imports : Source}

section

variable (hK : IgnoresVisits K) (hwidth : n < limit.width)
  (hretains : ∀ w i t, Retaining (go w i t))

include hK hwidth hretains

theorem followAll_ends (hread : Reads K n P src)
    (hgo : ∀ t, P t → Ends (ToVisit sight K b) K (fun _ => True) (go w imports t)) :
    Ends (ToVisit sight K b) (ToVisit sight K b) (fun _ => True) (followAll limit go w src imports) := by
  refine .bind (walk_ends (Q := (· = imports)) hread.toVisit (fun i t hi ht => ?_) limit.width 0
    (Nat.zero_le _) (by omega) rfl) fun _ _ => .pure trivial
  subst hi
  have hvisiting := (visiting_ends hK t (hgo t ht)).weaken fun s hs =>
    ⟨ToVisit.rest hs, (Token.unmet_append_le _ _).trans hs.visits⟩
  exact .bind (Ends.retaining hvisiting (visiting_retains t (hretains w i t))) fun _ _ => .pure rfl

theorem followImported_ends {current : Token}
    (hsight : ∀ t, P t → t ∈ sight) (hread : Reads K n P src)
    (hgo : 0 < b → ∀ i t, Q i → P t → (t.scope = current.scope → t.pos < current.pos) →
      Ends (ToVisit sight K (b - 1)) K (fun _ => True) (go w i t)) (hi : Q imports) :
    Ends (ToVisit sight K b) (ToVisit sight K b) Q
      (walk src (followIf go w current) limit.width 0 imports) := by
  refine walk_ends hread.toVisit (fun i t hi ht => ?_) limit.width 0 (Nat.zero_le _) (by omega) hi
  refine Ends.retaining (.look fun s hs => ?_) (followIf_retains hretains w current i t)
  split
  · rename_i hcan
    obtain ⟨hb, hless⟩ := unmet_of_canFollow (hsight t ht) hs hcan
    have hvisiting : Ends (· = s) K (fun _ => True) (visiting t (go w i t)) :=
      (visiting_ends hK t (hgo hb i t hi ht (pos_lt_of_canFollow hcan))).weaken fun s' hs' =>
        hs' ▸ ⟨hs.rest, hless⟩
    exact .bind hvisiting fun _ _ => .pure hi
  · exact .imp (.pure hi) (fun s' hs' => hs' ▸ hs.rest) fun _ h => h

theorem followList_ends {key : String} {current : Token}
    (hsight : ∀ t, P t → t ∈ sight) (hread : Reads K n P src)
    (hlists : ∀ scope, Reads K n P (.stored scope key)) (hnames : ∀ scope, W { name := scope })
    (himports : ∀ scope, Ends K K Q (importsOf lex { name := scope }))
    (hgo : 0 < b → ∀ w i t, W w → Q i → P t → (t.scope = current.scope → t.pos < current.pos) →
      Ends (ToVisit sight K (b - 1)) K (fun _ => True) (go w i t)) (hw : W w) (hi : Q imports) :
    Ends (ToVisit sight K b) (ToVisit sight K b) (fun _ => True)
      (followList lex limit go w key current src imports) := by
  refine .bind (walk_ends (Q := Q) hread.toVisit (fun i t hi ht => ?_) limit.width 0 (Nat.zero_le _) (by omega)
    hi) fun _ _ => .pure trivial
  refine Ends.retaining (.look fun s hs => ?_) (followStep_retains hretains w key current i t)
  by_cases hcan : s.canFollow current t = true
  · simp only [hcan, Bool.not_true, Bool.false_eq_true, if_false]
    obtain ⟨hb, hless⟩ := unmet_of_canFollow (hsight t ht) hs hcan
    have hvisit : Ends (· = s) (ToVisit sight K (b - 1)) (fun _ => True) (visit t) :=
      (visit_ends hK t).weaken fun s' hs' => hs' ▸ ⟨hs.rest, hless⟩
    refine .bind hvisit fun _ _ => .bind (findImport_ends lex _ _ i) fun o _ => ?_
    cases o with
    | none =>
      refine .bind (hgo hb w i t hw hi ht (pos_lt_of_canFollow hcan)) fun _ _ => ?_
      exact .bind (leave_ends hK t) fun _ _ => .pure hi
    | some scope =>
      -- the token stays on the way, so what the import lists costs a visit beyond that
      refine .bind (Ends.amongVisits (himports scope) (importsOf_retains _)) fun i' hi' => ?_
      refine .bind (followImported_ends (Q := Q) hK hwidth hretains hsight (hlists scope) ?_ hi')
        fun _ _ => .imp (.pure hi') (fun s hs => hs.rest) fun _ h => h
      intro _ i t hi ht hearlier
      refine (hgo hb _ i t (hnames scope) hi ht hearlier).weaken fun s hs => ⟨hs.rest, ?_⟩
      exact hs.visits.trans (Nat.sub_le _ _)
  · simp only [hcan, Bool.not_false, if_true]
    exact .imp (.pure hi) (fun s' hs' => hs' ▸ hs.rest) fun _ h => h

end

end Following

/-! ### Detection -/

section Detection

variable {w : View} {scope place : String}

section

variable (hstart : ∀ s t, I s → P t → K { s with visited := [t], paths := [] })
  (himports : Ends K K Q (importsOf lex w))
  (hexplore : ∀ i t, Q i → P t → Ends K I (fun _ => True) (explore lex limit limit.depth [] w i t))

include hstart himports hexplore

theorem exploreSinks_go_ends_of (hread : Reads I n P src) (width i : Nat) (hi : i ≤ n)
    (hwidth : n < width + i) (c : Catalog) :
    Ends I I (fun _ => True) (exploreSinks.go lex limit w src width i c) := by
  induction width generalizing i c with
  | zero => omega
  | succ width ih =>
    refine .bind .state fun s hs => ?_
    cases ht : (s.read src)[i]? with
    | none => exact .pure trivial
    | some t =>
      obtain ⟨hlength, hall⟩ := hread s hs
      have hlt : i < (s.read src).length := (List.getElem?_eq_some_iff.mp ht).choose
      have hsink := hall t (List.mem_of_getElem? ht)
      refine .bind (J := K) (.update fun s hs => hstart s t hs hsink) fun _ _ => ?_
      refine .bind himports fun imports hq => .bind (hexplore imports t hq hsink) fun _ _ => ?_
      exact .bind .state fun s' _ => ih (i + 1) (by omega) (by omega) _

theorem exploreSinks_ends_of (hwidth : n < limit.width)
    (hread : ∀ s src, I s → s.source? w place = some src → Reads I n P src)
    (c : Catalog) : Ends I I (fun _ => True) (exploreSinks lex limit w place c) := by
  refine .bind .state fun s hs => ?_
  cases hsrc : s.source? w place with
  | none => exact .pure trivial
  | some src =>
    exact exploreSinks_go_ends_of hstart himports hexplore (hread s src hs hsrc) limit.width 0
      (Nat.zero_le _) (by omega) c

end

theorem exploreCalls_go_ends_of (hread : Reads I n P (.stored scope (lex.place .call)))
    (henter : ∀ t, P t → Ends (fun s => I s ∧ t.isIn s.analysed = false) I
      (fun o => ∀ w, o = some w → W w) (enterCall lex lex.filesCall t))
    (hsinks : ∀ w c, W w → Ends I I (fun _ => True) (exploreSinks lex limit w place c))
    (width i : Nat) (hi : i ≤ n) (hwidth : n < width + i) (c : Catalog) :
    Ends I I (fun _ => True) (exploreCalls.go lex limit scope place width i c) := by
  induction width generalizing i c with
  | zero => omega
  | succ width ih =>
    refine .look fun s hs => ?_
    cases ht : (s.read (.stored scope (lex.place .call)))[i]? with
    | none => exact .imp (.pure trivial) (fun s' hs' => hs' ▸ hs) fun _ h => h
    | some t =>
      obtain ⟨hlength, hall⟩ := hread s hs
      have hlt : i < _ := (List.getElem?_eq_some_iff.mp ht).choose
      have hnext := fun c => ih (i + 1) (by omega) (by omega) c
      dsimp only
      split
      · exact (hnext c).weaken fun s' hs' => hs' ▸ hs
      · rename_i hnew
        rw [Bool.not_eq_true] at hnew
        have hcall := (henter t (hall t (List.mem_of_getElem? ht))).weaken fun s' hs' =>
          (show s' = s from hs') ▸ ⟨hs, hnew⟩
        refine .bind hcall fun o ho => ?_
        cases o with
        | none => exact hnext c
        | some w => exact .bind (hsinks w c (ho w rfl)) fun c' _ => hnext c'

theorem exploreScopes_ends_of
    (hsinks : ∀ scope c, Ends I I (fun _ => True) (exploreSinks lex limit { name := scope } place c))
    (hcalls : ∀ scope c, Ends I I (fun _ => True) (exploreCalls lex limit scope place c))
    (scopes : List String) (c : Catalog) :
    Ends I I (fun _ => True) (exploreScopes lex limit place scopes c) := by
  induction scopes generalizing c with
  | nil => exact .pure trivial
  | cons scope scopes ih =>
    exact .bind (hsinks scope c) fun c' _ => .bind (hcalls scope c') fun c'' _ => ih c''

end Detection

end Search

end MaskedTaint
