import MaskedTaint.Proofs.Search.Limits
import MaskedTaint.Proofs.Search.Loops

/-! Searches that end. A call is entered again only if it is not like one entered before, and what
arguments become under parameters is made of what stands in the structure. So the calls not entered
yet bound the length of every list, and the tokens not visited yet bound the depth of the search.
Only hops from file to file could go on for ever; what ends these is left open here. -/

namespace MaskedTaint

namespace Search

/-- What a search makes of a structure, once the imports of the scopes `S` have been sorted, is
`kept S`. At most `r` hops follow a token that is `home S r`, and `hops` are always enough. -/
structure Terrain (lex : Lexicon) (d : Structure) where
  kept : List String → Structure → Prop
  listed : String → String → Token → Prop
  bound : String → String → Token → Prop
  imports : String → Source → Prop
  hops : Nat
  home : List String → Nat → View → Source → Token → Prop
  mono : ∀ {S S' f}, S' ⊆ S → kept S f → kept S' f
  sight : ∀ {scope key t}, listed scope key t → t ∈ d.sights
  lists : ∀ {scope key t}, bound scope key t → listed scope key t
  read : ∀ {S f scope key ts}, kept S f → f.tokens? scope key = some ts → ∀ t ∈ ts, listed scope key t
  sorts : ∀ {S f scope ts}, kept S f → f.tokens? scope (lex.place .imports) = some ts →
    kept (scope :: S) (f.putTokens scope (lex.place .imports) (sortImports ts)) ∧
      imports scope (.stored scope (lex.place .imports))
  lacks : ∀ {S f scope}, kept S f → f.tokens? scope (lex.place .imports) = none →
    kept (scope :: S) f ∧ imports scope (.fixed [])
  binds : ∀ {S f scope key j m target args isCall params param arg t} {i : Nat}, kept S f →
    listed scope key (.jump j m target args) →
    isCall = lex.saysCall ∧ m.kind = lex.word .call ∨ isCall = lex.filesCall ∧ key = lex.place .call →
    f.tokens? (lex.key target) (lex.place .params) = some params → params[i]? = some param →
    args[i]? = some arg → Search.bound isCall param arg = .ok t →
      bound (lex.key target) (lex.key param.kind) t
  append : ∀ {S f scope key ts t}, kept S f → f.tokens? scope key = some ts → bound scope key t →
    kept S (f.putTokens scope key (ts ++ [t]))
  far : ∀ S w i c, home S hops w i c
  hop : ∀ {S r w i c target} {s : Search}, kept S s.flows → c.kind ≠ lex.word .call →
    c.kind ≠ lex.word .input → lex.key c.scope = w.name → s.source? w (lex.key c.kind) = none →
    home S r w i c →
    (findImport.go lex (fun i => i.pos ≤ c.pos) (lex.key c.kind) s (s.read i)).1 = .ok (some target) →
      0 < r ∧ ∀ i' t, imports target i' → listed target (lex.key c.kind) t →
        home (target :: S) (r - 1) { name := target } i' t

variable {lex : Lexicon} {d : Structure} (T : Terrain lex d)

def Terrain.Seen (t : Token) : Prop := ∃ scope key, T.listed scope key t

/-- At most `a` calls are still to be entered. There is room for `m` more tokens in each list even if
each of these calls adds its arguments to it. -/
structure Roams (a m : Nat) (S : List String) (s : Search) : Prop where
  kept : T.kept S s.flows
  calls : Token.unmet d.sights s.analysed ≤ a
  room : ∀ scope key, (s.read (.stored scope key)).length +
    d.occurrences.length * Token.unmet d.sights s.analysed + m ≤ d.breadth

def OwnBound (n : Nat) (w : View) : Prop :=
  ∀ key ts, w.own.get? key = some ts → ts.length ≤ n ∧ ∀ t ∈ ts, T.bound w.name key t

variable {T} {limit : Limit} {a a' b r m m' n : Nat} {S S' : List String} {s : Search} {w : View}
  {place scope key : String} {t : Token} {isCall : Token → Bool}

theorem roams_start (h : T.kept [] d) : Roams T d.sights.length 0 [] { flows := d } := by
  have hcalls := d.unmet_sights_le []
  refine ⟨h, hcalls, fun scope key => ?_⟩
  have hlist : (Search.read { flows := d } (.stored scope key)).length ≤ d.occurrences.length :=
    d.length_tokens?_le scope key
  have hmul := Nat.mul_le_mul_left d.occurrences.length hcalls
  rw [Structure.breadth, Nat.mul_succ]
  dsimp only
  omega

theorem Roams.mono (h : Roams T a m S s) (ha : a ≤ a') (hm : m' ≤ m) (hS : S' ⊆ S) :
    Roams T a' m' S' s :=
  ⟨T.mono hS h.kept, h.calls.trans ha, fun scope key =>
    (Nat.add_le_add_left hm _).trans (h.room scope key)⟩

theorem Roams.less (h : Roams T a m S s) : Roams T a 0 S s :=
  h.mono le_rfl (Nat.zero_le m) (List.Subset.refl S)

theorem roams_ignoresVisits : IgnoresVisits (Roams T a m S) := fun _ _ hs => ⟨hs.kept, hs.calls, hs.room⟩

theorem Roams.toVisit (h : Roams T a m S s) :
    ToVisit d.sights (Roams T a m S) d.sights.length s := ⟨h, d.unmet_sights_le _⟩

theorem OwnBound.mono (h : OwnBound T n w) {n' : Nat} (hn : n ≤ n') : OwnBound T n' w :=
  fun key ts hts => ⟨(h key ts hts).1.trans hn, (h key ts hts).2⟩

theorem ownBound_name (n : Nat) (scope : String) : OwnBound T n { name := scope } := by
  intro key ts h
  cases h

/-! ### Lists -/

theorem reads_stored (scope key : String) :
    Reads (Roams T a m S) d.breadth (T.listed scope key) (.stored scope key) := by
  intro s hs
  have hroom := hs.room scope key
  refine ⟨by omega, fun t ht => ?_⟩
  cases hts : s.flows.tokens? scope key with
  | none => simp [Search.read, hts] at ht
  | some ts => exact T.read hs.kept hts t (by simpa [Search.read, hts] using ht)

theorem reads_source? (hw : OwnBound T d.occurrences.length w) {src : Source}
    (h : s.source? w key = some src) : Reads (Roams T a m S) d.breadth (T.listed w.name key) src := by
  unfold source? at h
  split at h
  · cases h
    exact reads_stored _ _
  · obtain ⟨ts, hts, rfl⟩ := Option.map_eq_some_iff.mp h
    obtain ⟨hlength, hall⟩ := hw key ts hts
    exact fun _ _ => ⟨hlength.trans Structure.length_le_breadth, fun t ht => T.lists (hall t ht)⟩

theorem Reads.seen {I : Search → Prop} {src : Source} (h : Reads I n (T.listed scope key) src) :
    Reads I n T.Seen src :=
  fun s hs => ⟨(h s hs).1, fun t ht => ⟨scope, key, (h s hs).2 t ht⟩⟩

theorem importsOf_roams (w : View) :
    Ends (Roams T a m S) (Roams T a m (w.name :: S)) (fun i => w.own = Table.empty → T.imports w.name i)
      (importsOf lex w) := by
  intro s hs
  cases hts : s.flows.tokens? w.name (lex.place .imports) with
  | some ts =>
    obtain ⟨hkept, himports⟩ := T.sorts hs.kept hts
    rw [importsOf_of_some hts]
    refine .ok ⟨hkept, hs.calls, fun scope key => ?_⟩ fun _ => himports
    have hroom := hs.room scope key
    simp only [Search.read, Structure.tokens?_putTokens] at hroom ⊢
    split
    · rename_i hsame
      rw [hsame.1, hsame.2, hts] at hroom
      rwa [Option.getD_some, sortImports, List.length_mergeSort]
    · exact hroom
  | none =>
    obtain ⟨hkept, himports⟩ := T.lacks hs.kept hts
    rw [importsOf_of_none hts]
    refine .ok ⟨hkept, hs.calls, hs.room⟩ fun hown => ?_
    rw [hown, Table.get?_empty, Option.getD_none]
    exact himports

theorem importsOf_roamsOn (w : View) :
    Ends (Roams T a m S) (Roams T a m S) (fun _ => True) (importsOf lex w) :=
  (importsOf_roams w).imp (fun _ hs => hs.mono le_rfl le_rfl (List.subset_cons_self _ S))
    fun _ _ => trivial

theorem conclude_roams (p : Path) :
    Ends (Roams T a m S) (Roams T a m S) (fun _ => True) (conclude p) :=
  conclude_ends_of (fun _ _ hs => ⟨hs.kept, hs.calls, hs.room⟩) p

/-! ### Calls -/

theorem Roams.append (hs : Roams T a (m + 1) S s) (hlist : s.hasList scope key = true)
    (ht : T.bound scope key t) :
    Roams T a m S { s with flows := s.flows.append scope key [t] } := by
  obtain ⟨ts, hts⟩ := Option.isSome_iff_exists.mp hlist
  have happend : s.flows.append scope key [t] = s.flows.putTokens scope key (ts ++ [t]) := by
    rw [Structure.append, hts]
    rfl
  rw [happend]
  refine ⟨T.append hs.kept hts ht, hs.calls, fun scope' key' => ?_⟩
  have hroom := hs.room scope' key'
  simp only [Search.read, Structure.tokens?_putTokens] at hroom ⊢
  split
  · rename_i hsame
    rw [hsame.1, hsame.2, hts, Option.getD_some] at hroom
    rw [Option.getD_some, List.length_append, List.length_singleton]
    omega
  · omega

theorem addTo_roams (hw : OwnBound T n w) (ht : T.bound w.name key t) :
    Ends (Roams T a (m + 1) S) (Roams T a m S) (fun w' => OwnBound T (n + 1) w' ∧ w'.name = w.name)
      (addTo w key t) := by
  refine .look fun s hs => ?_
  split
  · rename_i hlist
    rintro s' rfl
    exact .ok (hs.append hlist ht) ⟨hw.mono (Nat.le_succ n), rfl⟩
  · rintro s' rfl
    refine .ok (hs.mono le_rfl (Nat.le_succ m) (List.Subset.refl S)) ⟨fun key' ts hts => ?_, rfl⟩
    by_cases h : key' = key
    · subst h
      rw [Table.get?_put_self] at hts
      cases hts
      cases hown : w.own.get? key' with
      | none => exact ⟨Nat.succ_le_succ (Nat.zero_le n), fun u hu => List.mem_singleton.mp hu ▸ ht⟩
      | some us =>
        obtain ⟨hlength, hall⟩ := hw key' us hown
        refine ⟨?_, fun u hu => ?_⟩
        · rw [Option.getD_some, List.length_append, List.length_singleton]
          omega
        · rcases List.mem_append.mp hu with hu | hu
          · exact hall u hu
          · exact List.mem_singleton.mp hu ▸ ht
    · rw [Table.get?_put_of_ne _ _ h] at hts
      exact (hw.mono (Nat.le_succ n)) key' ts hts

theorem bindFrom_roams {target : String} {args : List Token} (i : Nat)
    (hbinds : ∀ {f : Structure} {params param arg t} {j : Nat}, T.kept S f →
      f.tokens? target (lex.place .params) = some params → params[i + j]? = some param →
      args[j]? = some arg → Search.bound isCall param arg = .ok t →
      T.bound target (lex.key param.kind) t) (hw : OwnBound T n w) (hname : w.name = target) :
    Ends (Roams T a args.length S) (Roams T a 0 S) (OwnBound T (n + args.length))
      (bindFrom lex isCall w i args) := by
  induction args generalizing i n w with
  | nil => exact .pure hw
  | cons arg args ih =>
    refine .bind .state fun s hs => ?_
    cases hparam : (s.read (.stored w.name (lex.place .params)))[i]? with
    | none => exact .imp (.pure (hw.mono (Nat.le_add_right _ _))) (fun s hs => hs.less) fun _ h => h
    | some param =>
      dsimp only
      cases hbound : Search.bound isCall param arg with
      | error e => exact .fail (bound_error hbound)
      | ok t =>
        have ht : T.bound w.name (lex.key param.kind) t := by
          cases hts : s.flows.tokens? w.name (lex.place .params) with
          | none => simp [Search.read, hts] at hparam
          | some params =>
            rw [Search.read, hts, Option.getD_some] at hparam
            exact hname ▸ hbinds (j := 0) hs.kept (hname ▸ hts) hparam rfl hbound
        refine .bind (addTo_roams hw ht) fun w' hw' => ?_
        have hrest := ih (i + 1) (fun {f params param arg t j} hf hparams hparam harg hbound =>
          hbinds (j := j + 1) hf hparams (by rwa [Nat.add_comm j, ← Nat.add_assoc]) harg hbound) hw'.1
          (hw'.2.trans hname)
        rwa [Nat.add_assoc, Nat.add_comm 1] at hrest

theorem enterCall_roams (ht : T.listed scope key t) (hcall : isCall = lex.saysCall ∧ t.kind = lex.word .call ∨
      isCall = lex.filesCall ∧ key = lex.place .call) :
    Ends (fun s => Roams T a 0 S s ∧ t.isIn s.analysed = false) (Roams T (a - 1) 0 S)
      (fun o => ∀ w, o = some w → OwnBound T d.occurrences.length w) (enterCall lex isCall t) := by
  -- the call leaves one less to enter, and its arguments fill at most the room that this makes
  refine .bind (J := Roams T (a - 1) d.occurrences.length S) (.update fun s hs => ?_) fun _ _ => ?_
  · obtain ⟨hs, hnew⟩ := hs
    have hless := Token.unmet_append_lt (T.sight ht) hnew
    have hcalls := hs.calls
    refine ⟨hs.kept, by dsimp only; omega, fun scope key => ?_⟩
    have hroom := hs.room scope key
    have hmul := Nat.mul_le_mul_left d.occurrences.length (Nat.succ_le_of_lt hless)
    rw [Nat.mul_succ] at hmul
    simp only [Search.read] at hroom ⊢
    omega
  · cases t with
    | site i m => exact .fail fun he => by cases he
    | jump i m target args =>
      obtain ⟨m', hmem⟩ := Structure.exists_jump_of_mem_sights (T.sight ht)
      have hlength := Structure.length_args_le hmem
      refine .bind .state fun s _ => ?_
      split
      · have hcallee : Ends (Roams T (a - 1) args.length S) (Roams T (a - 1) 0 S)
            (OwnBound T (0 + args.length)) (callee lex isCall (lex.key target) args) := by
          refine .bind .state fun s _ => ?_
          split
          · refine .bind (bindFrom_roams 0 (fun {f params param arg t j} hf hparams hparam harg hbound => ?_)
              (ownBound_name 0 _) rfl) fun w hw => .pure fun key ts hts => ?_
            · exact T.binds hf ht hcall hparams ((Nat.zero_add j) ▸ hparam) harg hbound
            · obtain ⟨us, hus, hperm⟩ := exists_of_get?_sortOwn hts
              obtain ⟨hlength, hall⟩ := hw key us hus
              exact ⟨hperm.length_eq ▸ hlength, fun t ht => hall t (hperm.mem_iff.mp ht)⟩
          · exact .fail fun he => by cases he
        refine .bind (hcallee.weaken fun s hs => hs.mono le_rfl hlength (List.Subset.refl S)) fun w hw => ?_
        refine .pure fun w' hw' => ?_
        cases hw'
        exact hw.mono (by omega)
      · exact .imp (.pure fun w hw => by cases hw) (fun s hs => hs.less) fun _ h => h

/-! ### The search -/

/-- How deep the search may still go with `a` calls to enter, `b` of `h` tokens to visit and `r` hops
to make, where at most `k` hops are made in a row. -/
def cost (k h a b r : Nat) : Nat := (a * (h + 1) + b) * (k + 1) + r + 1

theorem cost_call {k h : Nat} (ha : 0 < a) : cost k h (a - 1) h k < cost k h a b r := by
  obtain ⟨a, rfl⟩ : ∃ n, a = n + 1 := ⟨a - 1, by omega⟩
  have hmul : (a * (h + 1) + h + 1) * (k + 1) ≤ ((a + 1) * (h + 1) + b) * (k + 1) :=
    Nat.mul_le_mul_right _ (by rw [Nat.succ_mul]; omega)
  rw [Nat.succ_mul] at hmul
  simp only [cost, Nat.add_sub_cancel]
  omega

theorem cost_visit {k h : Nat} (hb : 0 < b) : cost k h a (b - 1) k < cost k h a b r := by
  obtain ⟨b, rfl⟩ : ∃ n, b = n + 1 := ⟨b - 1, by omega⟩
  simp only [cost, Nat.add_sub_cancel, ← Nat.add_assoc, Nat.succ_mul]
  omega

theorem findImport_finds (s : Search) (c : Token) (i : Source) {I : Search → Prop} :
    Ends (fun s' => I s' ∧ s' = s) I (fun o => ∀ target, o = some target →
      (findImport.go lex (fun i => i.pos ≤ c.pos) (lex.key c.kind) s (s.read i)).1 = .ok (some target))
      (findImport lex (fun i => i.pos ≤ c.pos) (lex.key c.kind) i) := by
  rintro s' ⟨hs, rfl⟩
  have hland := findImport_ends lex (fun i => i.pos ≤ c.pos) (lex.key c.kind) i s' hs
  revert hland
  unfold findImport
  generalize findImport.go lex (fun i => i.pos ≤ c.pos) (lex.key c.kind) s' (s'.read i) = run
  rintro (⟨hs', -⟩ | he)
  · exact .ok hs' fun target ho => by rw [ho]
  · exact .error he

theorem explore_roams (hwidth : d.breadth < limit.width) (depth : Nat) {p : Path} {i : Source}
    {c : Token} (hdepth : cost T.hops d.sights.length a b r ≤ depth)
    (hw : OwnBound T d.occurrences.length w) (hc : T.Seen c) (hhome : T.home S r w i c) :
    Ends (ToVisit d.sights (Roams T a 0 S) b) (Roams T a 0 S) (fun _ => True)
      (explore lex limit depth p w i c) := by
  induction depth generalizing a b r S p w i c with
  | zero => simp [cost] at hdepth
  | succ depth ih =>
    have hretains : ∀ w i t, Retaining (explore lex limit depth (p ++ [c]) w i t) :=
      explore_retains limit depth (p ++ [c])
    have hsight : ∀ t, T.Seen t → t ∈ d.sights := fun t ⟨_, _, ht⟩ => T.sight ht
    refine .look fun s hs => ?_
    by_cases hcall : c.kind = lex.word .call
    · rw [if_pos hcall]
      split
      · exact .imp (.pure trivial) (fun s' hs' => hs' ▸ hs.rest) fun _ h => h
      · rename_i hnew
        rw [Bool.not_eq_true] at hnew
        have ha : 0 < a := by
          have hless := Token.unmet_append_lt (hsight c hc) hnew
          have hcalls := hs.rest.calls
          omega
        obtain ⟨scope, key, hlisted⟩ := hc
        have henter := (enterCall_roams (a := a) (S := S) hlisted (.inl ⟨rfl, hcall⟩)).weaken
          fun s' hs' => (show s' = s from hs') ▸ ⟨hs.rest, hnew⟩
        have hfewer : ∀ s, Roams T (a - 1) 0 S s → Roams T a 0 S s := fun _ hs =>
          hs.mono (Nat.sub_le a 1) le_rfl (List.Subset.refl S)
        refine .bind henter fun o ho => .imp ?_ hfewer fun _ h => h
        cases o with
        | none => exact .pure trivial
        | some w' =>
          have hw' := ho w' rfl
          refine .bind (importsOf_roamsOn w') fun i' _ => .bind .state fun s' _ => ?_
          cases hsrc : s'.source? w' (lex.place .result) with
          | none => exact conclude_roams _
          | some src =>
            refine ((followAll_ends roams_ignoresVisits hwidth hretains (reads_source? hw' hsrc).seen
              fun t ht => ?_).weaken fun _ hs => hs.toVisit).imp (fun _ hs => hs.rest) fun _ h => h
            exact ih (Nat.le_of_lt_succ ((cost_call ha).trans_le hdepth)) hw' ht (T.far _ _ _ _)
    · rw [if_neg hcall]
      -- from a list one token less is to be visited
      have hgo : 0 < b → ∀ w i t, OwnBound T d.occurrences.length w → True → T.Seen t →
          (t.scope = c.scope → t.pos < c.pos) → Ends (ToVisit d.sights (Roams T a 0 S) (b - 1))
            (Roams T a 0 S) (fun _ => True) (explore lex limit depth (p ++ [c]) w i t) :=
        fun hb w i t hw _ ht _ =>
          ih (Nat.le_of_lt_succ ((cost_visit hb).trans_le hdepth)) hw ht (T.far _ _ _ _)
      have hlist : ∀ {w src} {i : Source}, OwnBound T d.occurrences.length w →
          Reads (Roams T a 0 S) d.breadth T.Seen src →
          Ends (ToVisit d.sights (Roams T a 0 S) b) (Roams T a 0 S) (fun _ => True)
            (followList lex limit (explore lex limit depth (p ++ [c])) w (lex.key c.kind) c src i) :=
        fun hw hread => (followList_ends roams_ignoresVisits hwidth hretains hsight hread
          (fun scope => (reads_stored scope _).seen) (ownBound_name _) (fun scope => importsOf_roamsOn _)
          hgo hw trivial).imp (fun _ hs => hs.rest) fun _ h => h
      have hconclude : Ends (ToVisit d.sights (Roams T a 0 S) b) (Roams T a 0 S) (fun _ => True)
          (conclude (p ++ [c])) := (conclude_roams _).weaken fun _ hs => hs.rest
      refine Act.Ensures.weaken (I := fun s' => ToVisit d.sights (Roams T a 0 S) b s' ∧ s' = s) ?_
        fun s' hs' => ⟨(show s' = s from hs') ▸ hs, hs'⟩
      cases hsrc : s.source? w (lex.key c.kind) with
      | some src => exact (hlist hw (reads_source? hw hsrc).seen).weaken fun _ hs => hs.1
      | none =>
        dsimp only
        split
        · exact hconclude.weaken fun _ hs => hs.1
        · rename_i hinput
          split
          · refine Act.Ensures.weaken ?_ fun _ hs => hs.1
            split
            · exact .fail fun he => by cases he
            · refine .bind (Ends.amongVisits (importsOf_roamsOn _) (importsOf_retains _)) fun i' _ => ?_
              split
              · exact hlist (ownBound_name _ _) (reads_stored _ _).seen
              · exact hconclude
          · rename_i hscope
            refine .bind (findImport_finds s c i) fun o ho => ?_
            cases o with
            | none => exact hconclude
            | some target =>
              -- a hop: fewer of them can follow
              obtain ⟨hr, hnext⟩ := T.hop hs.rest.kept hcall hinput (not_not.mp hscope) hsrc hhome
                (ho target rfl)
              refine .bind (Ends.amongVisits (importsOf_roams _) (importsOf_retains _)) fun i' hi' => ?_
              refine (followAll_ends roams_ignoresVisits hwidth hretains (reads_stored target _)
                fun t ht => ?_).imp
                (fun _ hs => hs.rest.mono le_rfl le_rfl (List.subset_cons_self _ S)) fun _ h => h
              exact ih (by simp only [cost] at hdepth ⊢; omega) (ownBound_name _ target) ⟨_, _, ht⟩
                (hnext i' t (hi' rfl) ht)

/-! ### Detection -/

/-- Limits that no search reaches. -/
def Terrain.bounds (T : Terrain lex d) : Limit :=
  ⟨cost T.hops d.sights.length d.sights.length d.sights.length T.hops, d.breadth + 1⟩

abbrev Rests {α : Type} (T : Terrain lex d) (x : Searching α) : Prop :=
  Ends (Roams T d.sights.length 0 []) (Roams T d.sights.length 0 []) (fun _ => True) x

theorem exploreSinks_roams (hlimit : T.bounds.Within limit) (hw : OwnBound T d.occurrences.length w)
    (c : Catalog) : Rests T (exploreSinks lex limit w place c) := by
  refine exploreSinks_ends_of (K := Roams T d.sights.length 0 []) (fun s t hs _ => ?_)
    (importsOf_roamsOn w) (fun i t _ ht => ?_) hlimit.width
    (fun s src _ hsrc => (reads_source? hw hsrc).seen) c
  · exact ⟨hs.kept, hs.calls, hs.room⟩
  · exact (explore_roams hlimit.width limit.depth hlimit.depth hw ht (T.far _ _ _ _)).weaken
      fun _ hs => hs.toVisit

theorem exploreCalls_roams (hlimit : T.bounds.Within limit) (scope : String) (c : Catalog) :
    Rests T (exploreCalls lex limit scope place c) := by
  refine exploreCalls_go_ends_of (reads_stored scope _) (fun t ht => ?_)
    (fun w c hw => exploreSinks_roams hlimit hw c) limit.width 0 (Nat.zero_le _) hlimit.width c
  exact (enterCall_roams ht (.inr ⟨rfl, rfl⟩)).imp
    (fun s hs => hs.mono (Nat.sub_le _ _) le_rfl (List.Subset.refl [])) fun _ h => h

theorem detect_roams (hlimit : T.bounds.Within limit) (v : Vulnerability) :
    Rests T (detect lex limit v) := by
  refine .bind .state fun s _ => .bind (exploreScopes_ends_of (fun scope c => ?_) (fun scope c => ?_)
    s.flows.names []) fun _ _ => .pure trivial
  · exact exploreSinks_roams hlimit (ownBound_name _ scope) c
  · exact exploreCalls_roams hlimit scope c

/-- Within its limits and all wider ones the search ends, and in the same way. -/
theorem Terrain.detect_ends (T : Terrain lex d) (h : T.kept [] d) (v : Vulnerability)
    (hlimit : T.bounds.Within limit) : (detect lex limit v { flows := d }).1 ≠ .error .unending ∧
      detect lex limit v { flows := d } = detect lex T.bounds v { flows := d } := by
  have hends : ∀ limit, T.bounds.Within limit →
      (detect lex limit v { flows := d }).1 ≠ .error .unending := by
    intro limit hlimit herror
    have hland := detect_roams hlimit v _ (roams_start h)
    revert herror hland
    generalize detect lex limit v { flows := d } = run
    rintro herror (_ | he)
    · cases herror
    · exact he (Except.error.inj herror)
  exact ⟨hends limit hlimit, (detect_endsAs hlimit v _).resolve_left (hends _ ⟨le_rfl, le_rfl⟩)⟩

end Search

end MaskedTaint
