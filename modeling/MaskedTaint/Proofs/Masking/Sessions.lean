import MaskedTaint.Proofs.Masking.Books
import MaskedTaint.Proofs.Masking.Renaming

/-! Names over a whole session. One masker is given text after text, and goes on after a failure.
At any point its tables hold the names it has found, each once and in the order in which they
first occurred, and a symbol that was delivered shows the place of its name: two symbols are named
alike just when their texts are the same. -/

namespace MaskedTaint

namespace Names

theorem number_eraseDups (xs : List String) (x : String) :
    (number xs.eraseDups x).2 = (xs ++ [x]).eraseDups := by
  have hone : [x].eraseDups = [x] := by simp [List.eraseDups_cons]
  rw [List.eraseDups_append, number]
  by_cases hx : x ∈ xs
  · have hsome : (List.findIdx? (fun y => y == x) xs.eraseDups).isSome = true := by
      simpa [List.findIdx?_isSome] using hx
    obtain ⟨i, hi⟩ := Option.isSome_iff_exists.mp hsome
    simp [hi, List.removeAll, hx]
  · have hnone : List.findIdx? (fun y => y == x) xs.eraseDups = none := by
      refine List.findIdx?_eq_none_iff.mpr fun y hy => beq_false_of_ne ?_
      rintro rfl
      exact hx (List.mem_eraseDups.mp hy)
    simp [hnone, List.removeAll, hx, hone]

/-- The number of a name is its place, counted from one. -/
theorem getElem?_number (ns : Names) (x : String) :
    ∃ i, (ns.number x).1 = i + 1 ∧ (ns.number x).2[i]? = some x :=
  ⟨_, number_eq List.prefix_rfl, List.getElem?_idxOf (ns.mem_number x)⟩

theorem place_eq_iff {ns : Names} {i j : Nat} {x y : String} (h : ns.Nodup) (hi : ns[i]? = some x)
    (hj : ns[j]? = some y) : i = j ↔ x = y := by
  obtain ⟨hilt, rfl⟩ := List.getElem?_eq_some_iff.mp hi
  obtain ⟨hjlt, rfl⟩ := List.getElem?_eq_some_iff.mp hj
  exact h.getElem_inj_iff.symm

end Names

namespace Symbol

theorem masked_name_inj_iff {x y : Symbol} (hx : x.isMasked = true) (hy : y.isMasked = true) :
    x.name = y.name ↔ x = y := ⟨masked_name_inj hx hy, congrArg name⟩

/-- The name of the function that is declared or called. -/
def function? : Symbol → Option String
  | func n | call n => some (funcName n)
  | _ => none

end Symbol

namespace Masker

variable {found : List Masked} {m m' : Masker} {t u : Masked}

/-! ### Tables -/

def texts (kind : Kind) (found : List Masked) : List String :=
  (found.filter fun t => t.symbol == .plain kind).map Masked.text

def signs (found : List Masked) : List String := (texts .operator found).filter (· != "=")

/-- The tables hold the names among the lexemes `found`, in the order of their first occurrence. -/
structure Tabulates (found : List Masked) (m : Masker) : Prop where
  vars : m.vars = (texts .dollarName found).eraseDups
  ops : m.ops = (signs found).eraseDups
  funcs : m.funcs = (texts .word found).eraseDups

theorem Tabulates.of_names (h : Tabulates found m) (hm : m'.names = m.names) : Tabulates found m' := by
  simp only [names, Prod.mk.injEq] at hm
  exact ⟨hm.1.trans h.vars, hm.2.1.trans h.ops, hm.2.2.trans h.funcs⟩

theorem ReadsOn.names_eq (h : ReadsOn m m') : m'.names = m.names :=
  congrArg (fun b : Books => (b.vars, b.ops, b.funcs)) h.1

theorem quiet_names : QuietAhead fun m m' => m'.names = m.names where
  trans _ _ _ h h' := h'.trans h
  same _ _ hvars hops hfuncs := by rw [names, names, hvars, hops, hfuncs]
  skipTo wanted m := (skipTo_readsOn wanted m).names_eq
  unpeeked _ := rfl
  peek m := (peek_readsOn m).names_eq

theorem upcoming_names (m : Masker) : (upcoming m).2.names = m.names :=
  quiet_names.bind (fun m => (significant_readsOn m).names_eq) (fun t => quiet_names.settleBlock t) m

theorem texts_append_of_eq {kind : Kind} (ht : t.symbol = .plain kind) :
    texts kind (found ++ [t]) = texts kind found ++ [t.text] := by
  simp [texts, ht]

theorem texts_append_of_ne {kind : Kind} (ht : t.symbol ≠ .plain kind) :
    texts kind (found ++ [t]) = texts kind found := by
  simp [texts, ht]

theorem Tabulates.other (h : Tabulates found m) (hname : t.symbol ≠ .plain .dollarName)
    (hoperator : t.symbol ≠ .plain .operator) (hword : t.symbol ≠ .plain .word)
    (hm : m'.names = m.names) : Tabulates (found ++ [t]) m' := by
  obtain ⟨hvars, hops, hfuncs⟩ := h.of_names hm
  refine ⟨?_, ?_, ?_⟩
  · rw [texts_append_of_ne hname, hvars]
  · rw [signs, texts_append_of_ne hoperator, hops, signs]
  · rw [texts_append_of_ne hword, hfuncs]

/-- What is masked is entered, also when it cannot be masked. -/
theorem Tabulates.mask (h : Tabulates found m) (t : Masked) :
    Tabulates (found ++ [t]) (mask t m).2 := by
  have hkeep : ∀ {kind : Kind}, t.symbol ≠ .plain kind →
      texts kind (found ++ [t]) = texts kind found := texts_append_of_ne
  by_cases hname : t.symbol = .plain .dollarName
  · refine ⟨?_, ?_, ?_⟩ <;> simp only [Masker.mask, hname, pureStep, maskVariable]
    · rw [texts_append_of_eq hname, h.vars, Names.number_eraseDups]
    · rw [signs, hkeep (by simp [hname]), h.ops, signs]
    · rw [hkeep (by simp [hname]), h.funcs]
  by_cases hoperator : t.symbol = .plain .operator
  · have hvars := hkeep hname
    have hfuncs : texts .word (found ++ [t]) = texts .word found := hkeep (by simp [hoperator])
    simp only [Masker.mask, hoperator, pureStep, maskOperator]
    split
    · rename_i htext
      refine ⟨hvars ▸ h.vars, ?_, hfuncs ▸ h.funcs⟩
      simp [signs, texts_append_of_eq hoperator, htext, h.ops]
    · rename_i htext
      refine ⟨hvars ▸ h.vars, ?_, hfuncs ▸ h.funcs⟩
      rw [signs, texts_append_of_eq hoperator, List.filter_append, ← signs, h.ops,
        Names.number_eraseDups]
      simp [htext]
  by_cases hword : t.symbol = .plain .word
  · have hentered : Tabulates (found ++ [t]) { m with funcs := (m.funcs.number t.text).2 } := by
      refine ⟨?_, ?_, ?_⟩
      · rw [hkeep hname, h.vars]
      · rw [signs, hkeep hoperator, h.ops, signs]
      · rw [texts_append_of_eq hword, h.funcs, Names.number_eraseDups]
    simp only [Masker.mask, hword, maskWord_apply]
    split
    · exact hentered.of_names (quiet_names.declare _ t _)
    · exact hentered.of_names (quiet_names.callOrWord _ t _)
  · refine h.other hname hoperator hword ?_
    by_cases hinput : t.symbol = .plain .input
    · simp only [Masker.mask, hinput]
      exact quiet_names.bind quiet_names.skipOffset (fun _ => quiet_names.pure t) m
    · exact quiet_names.mask_of_other hname hoperator hword hinput m

/-! ### Symbols -/

/-- What the symbol `u` shows of the lexeme `t` it was made of: the place of its text. -/
inductive Shows (m : Masker) (t : Masked) : Masked → Prop
  | name {i : Nat} (h : t.symbol = .plain .dollarName) (hi : m.vars[i]? = some t.text) :
      Shows m t { t with symbol := .var (i + 1) }
  | assign (h : t.symbol = .plain .operator) (htext : t.text = "=") :
      Shows m t { t with symbol := .op 0 }
  | operator {i : Nat} (h : t.symbol = .plain .operator) (htext : t.text ≠ "=")
      (hi : m.ops[i]? = some t.text) : Shows m t { t with symbol := .op (i + 1) }
  | declaration {i : Nat} (h : t.symbol = .plain .word) (hi : m.funcs[i]? = some t.text) :
      Shows m t { t with symbol := .func (i + 1) }
  | call {i : Nat} (h : t.symbol = .plain .word) (hi : m.funcs[i]? = some t.text) :
      Shows m t { t with symbol := .call (i + 1) }
  | other {s : Symbol} (hname : t.symbol ≠ .plain .dollarName)
      (hoperator : t.symbol ≠ .plain .operator) (hs : ¬ Symbol.IsMaskedName s.name) :
      Shows m t { t with symbol := s }

theorem Shows.grows (h : Shows m t u) (hm : Grows m m') : Shows m' t u := by
  have hkeep : ∀ {ns ns' : Names} {i : Nat}, ns.Grown ns' → ns[i]? = some t.text →
      ns'[i]? = some t.text := by
    intro ns ns' i hns hi
    obtain ⟨later, rfl⟩ := hns.kept
    rwa [List.getElem?_append_left (List.getElem?_eq_some_iff.mp hi).1]
  cases h with
  | name h hi => exact .name h (hkeep hm.vars hi)
  | assign h htext => exact .assign h htext
  | operator h htext hi => exact .operator h htext (hkeep hm.ops hi)
  | declaration h hi => exact .declaration h (hkeep hm.funcs hi)
  | call h hi => exact .call h (hkeep hm.funcs hi)
  | other hname hoperator hs => exact .other hname hoperator hs

theorem Enters.shows {b b' : Books} (h : Enters b t u b') (hb : m.books = b')
    (ht : t.symbol.IsLexeme) (hname : t.symbol ≠ .plain .dollarName)
    (hoperator : t.symbol ≠ .plain .operator) : Shows m t u := by
  have hself : Shows m t t := by
    obtain ⟨kind, hkind, hlisted⟩ := ht
    exact .other hname hoperator (hkind ▸ Symbol.not_isMaskedName_plain hlisted)
  have hmark : ∀ {s : Symbol}, Symbol.endsInDigit s.name = false → Shows m t { t with symbol := s } :=
    fun hs => .other hname hoperator (Symbol.not_isMaskedName hs)
  have hfuncs : m.funcs = b'.funcs := congrArg Books.funcs hb
  obtain ⟨i, hnumber, hi⟩ := b.funcs.getElem?_number t.text
  cases h with
  | name h => exact absurd h hname
  | assign h | operator h => exact absurd h hoperator
  | endCall | endParens | leave | leaveFunction => exact hmark (by decide)
  | declare h =>
    rw [hnumber]
    exact .declaration h (hfuncs ▸ hi)
  | call h =>
    rw [hnumber]
    exact .call h (hfuncs ▸ hi)
  | _ => exact hself

theorem mask_shows (ht : t.symbol.IsLexeme) (h : mask t m = (.ok u, m')) : Shows m' t u := by
  by_cases hname : t.symbol = .plain .dollarName
  · obtain ⟨i, hnumber, hi⟩ := m.vars.getElem?_number t.text
    simp only [mask, hname, pureStep, maskVariable, hnumber] at h
    cases h
    exact .name hname hi
  by_cases hoperator : t.symbol = .plain .operator
  · obtain ⟨i, hnumber, hi⟩ := m.ops.getElem?_number t.text
    simp only [mask, hoperator, pureStep, maskOperator, hnumber] at h
    split at h
    · cases h
      exact .assign hoperator ‹_›
    · cases h
      exact .operator hoperator ‹_› hi
  · exact (mask_enters t m u m' h).shows rfl ht hname hoperator

/-! ### Sessions -/

inductive Request
  | load (text : List Char)
  | loadFile (text : List Char)
  | token
  | peek
  | read

structure Session where
  masker : Masker := {}
  /-- The lexemes that were masked so far, the first one first. -/
  found : List Masked := []
  /-- The symbols that were delivered, each behind its lexeme. -/
  given : List (Masked × Masked) := []

namespace Session

/-- The lexeme that is masked next, if one is met. -/
def next (s : Session) : List Masked :=
  match (upcoming s.masker).1 with
  | .ok t => t.toList
  | .error _ => []

def delivered (s : Session) : List Masked :=
  match (Masker.token s.masker).1 with
  | .ok u => u.toList
  | .error _ => []

def step (s : Session) : Request → Session
  | .load text => { s with masker := s.masker.load text }
  | .loadFile text => { s with masker := s.masker.loadFile text }
  | .peek => { s with masker := (Masker.peek s.masker).2 }
  | .read => { s with masker := (Masker.read s.masker).2 }
  | .token =>
    { masker := (Masker.token s.masker).2
      found := s.found ++ s.next
      given := s.given ++ s.next.zip s.delivered }

/-- What happens does not depend on how a request ends: after a failure the session goes on. -/
def run (s : Session) (rs : List Request) : Session := rs.foldl step s

structure Sound (s : Session) : Prop where
  listed : s.masker.IsListed
  tables : s.masker.Tabulates s.found
  shown : ∀ p ∈ s.given, Shows s.masker p.1 p.2

variable {s : Session}

theorem sound_empty : ({} : Session).Sound where
  listed _ h := by cases h
  tables := ⟨rfl, rfl, rfl⟩
  shown _ h := by cases h

theorem step_grows (s : Session) (r : Request) : Grows s.masker (s.step r).masker := by
  cases r with
  | load text | loadFile text => exact .of_names rfl id
  | token => exact token_growing s.masker
  | peek => exact (peek_readsOn s.masker).grows
  | read => exact (skipTo_readsOn _ s.masker).grows

theorem run_grows (s : Session) (rs : List Request) : Grows s.masker (s.run rs).masker := by
  induction rs generalizing s with
  | nil => exact .refl _
  | cons r rs ih => exact (s.step_grows r).trans _ _ _ (ih (s.step r))

theorem Sound.step (h : s.Sound) (r : Request) : (s.step r).Sound := by
  have hgrows := s.step_grows r
  have hquiet : (s.step r).masker.names = s.masker.names → (s.step r).found = s.found →
      (s.step r).given = s.given → (s.step r).Sound := by
    intro hnames hfound hgiven
    refine ⟨hgrows.listed h.listed, hfound ▸ h.tables.of_names hnames, ?_⟩
    rw [hgiven]
    exact fun p hp => (h.shown p hp).grows hgrows
  cases r with
  | load text | loadFile text => exact hquiet rfl rfl rfl
  | peek => exact hquiet (peek_readsOn s.masker).names_eq rfl rfl
  | read => exact hquiet (skipTo_readsOn _ s.masker).names_eq rfl rfl
  | token =>
    have hnames := upcoming_names s.masker
    rcases hup : upcoming s.masker with ⟨e | t, m₁⟩ <;> rw [hup] at hnames
    · have htoken : Masker.token s.masker = (.error e, m₁) := by
        rw [token_eq_upcoming, Act.bind_of_error hup]
      exact hquiet (by simp [Session.step, htoken, hnames]) (by simp [Session.step, next, hup])
        (by simp [Session.step, next, hup])
    · cases t with
      | none =>
        exact hquiet (by simp [Session.step, token_end hup, hnames]) (by simp [Session.step, next, hup])
          (by simp [Session.step, next, hup])
      | some t =>
        have htables := (h.tables.of_names hnames).mask t
        rcases hmask : mask t m₁ with ⟨e | u, m₂⟩ <;> rw [hmask] at htables
        · have htoken : Masker.token s.masker = (.error e, m₂) := by
            rw [token_of_upcoming hup, Act.bind_of_error hmask]
          refine ⟨hgrows.listed h.listed, ?_, ?_⟩
          · simpa [Session.step, next, hup, htoken] using htables
          · simpa [Session.step, next, hup, delivered, htoken] using
              fun t u hp => (h.shown (t, u) hp).grows hgrows
        · have htoken : Masker.token s.masker = (.ok (some u), { m₂ with last := some u }) := by
            rw [token_of_upcoming hup, Act.bind_of_ok hmask]
            rfl
          have hu := mask_shows (upcoming_isLexeme h.listed hup) hmask
          have hlast : Grows m₂ { m₂ with last := some u } := .of_names rfl id
          have htables : Tabulates (s.found ++ [t]) { m₂ with last := some u } := htables.of_names rfl
          refine ⟨hgrows.listed h.listed, ?_, fun p hp => ?_⟩
          · simpa [Session.step, next, hup, htoken] using htables
          · simp only [Session.step, next, hup, delivered, htoken] at hp
            rcases List.mem_append.mp hp with hp | hp
            · exact (h.shown p hp).grows hgrows
            · obtain rfl : p = (t, u) := by simpa using hp
              simpa [Session.step, htoken] using hu.grows hlast

theorem Sound.run (h : s.Sound) (rs : List Request) : (s.run rs).Sound := by
  induction rs generalizing s with
  | nil => exact h
  | cons r rs ih => exact ih (h.step r)

end Session

/-! ### One name for one text -/

theorem Shows.of_name (h : Shows m t u) (ht : t.symbol = .plain .dollarName) :
    ∃ i, u.symbol = .var (i + 1) ∧ m.vars[i]? = some t.text := by
  cases h with
  | name _ hi => exact ⟨_, rfl, hi⟩
  | other hname => exact absurd ht hname
  | _ => simp_all

theorem Shows.of_operator (h : Shows m t u) (ht : t.symbol = .plain .operator) :
    u.symbol = .op 0 ∧ t.text = "=" ∨
      ∃ i, u.symbol = .op (i + 1) ∧ t.text ≠ "=" ∧ m.ops[i]? = some t.text := by
  cases h with
  | assign _ htext => exact .inl ⟨rfl, htext⟩
  | operator _ htext hi => exact .inr ⟨_, rfl, htext, hi⟩
  | other _ hoperator => exact absurd ht hoperator
  | _ => simp_all

theorem Shows.of_function {f : String} (h : Shows m t u) (hf : u.symbol.function? = some f) :
    ∃ i, f = Symbol.funcName (i + 1) ∧ m.funcs[i]? = some t.text := by
  cases h with
  | declaration _ hi | call _ hi =>
    cases hf
    exact ⟨_, rfl, hi⟩
  | @other s _ _ hs =>
    cases s with
    | func n | call n => exact absurd ⟨_, rfl, rfl⟩ hs
    | _ => cases hf
  | _ => cases hf

theorem Shows.name_eq_op_zero_iff (h : Shows m t u) :
    u.symbol.name = "OP0" ↔ t.symbol = .plain .operator ∧ t.text = "=" := by
  have hzero : (Symbol.op 0).name = "OP0" := rfl
  have hne : ∀ {x : Symbol}, x.isMasked = true → x ≠ .op 0 → x.name ≠ "OP0" :=
    fun hx h0 hname => h0 (Symbol.masked_name_inj hx rfl hname)
  cases h with
  | assign ht htext => exact ⟨fun _ => ⟨ht, htext⟩, fun _ => rfl⟩
  | operator ht htext => exact ⟨fun h => absurd h (hne rfl (by simp)), fun h => absurd h.2 htext⟩
  | other _ hoperator hs => exact ⟨fun h => absurd ⟨.op 0, rfl, h.symm⟩ hs, fun h => absurd h.1 hoperator⟩
  | name ht | declaration ht | call ht =>
    exact ⟨fun h => absurd h (hne rfl (by simp)), fun h => by simp [ht] at h⟩

structure Distinct (m : Masker) : Prop where
  vars : m.vars.Nodup
  ops : m.ops.Nodup
  funcs : m.funcs.Nodup

variable {t' u' : Masked}

theorem Distinct.variables_eq_iff (hm : m.Distinct) (h : Shows m t u)
    (h' : Shows m t' u') (ht : t.symbol = .plain .dollarName) (ht' : t'.symbol = .plain .dollarName) :
    u.symbol.name = u'.symbol.name ↔ t.text = t'.text := by
  obtain ⟨i, hu, hi⟩ := h.of_name ht
  obtain ⟨j, hu', hj⟩ := h'.of_name ht'
  rw [hu, hu', Symbol.masked_name_inj_iff rfl rfl, ← Names.place_eq_iff hm.vars hi hj]
  simp

theorem Distinct.operators_eq_iff (hm : m.Distinct) (h : Shows m t u)
    (h' : Shows m t' u') (ht : t.symbol = .plain .operator) (ht' : t'.symbol = .plain .operator) :
    u.symbol.name = u'.symbol.name ↔ t.text = t'.text := by
  obtain ⟨hu, htext⟩ | ⟨i, hu, htext, hi⟩ := h.of_operator ht <;>
    obtain ⟨hu', htext'⟩ | ⟨j, hu', htext', hj⟩ := h'.of_operator ht' <;>
    rw [hu, hu', Symbol.masked_name_inj_iff rfl rfl]
  · simp [htext, htext']
  · simp [htext, htext'.symm]
  · simp [htext, htext']
  · rw [← Names.place_eq_iff hm.ops hi hj]
    simp

theorem Distinct.functions_eq_iff (hm : m.Distinct) {f g : String} (h : Shows m t u)
    (h' : Shows m t' u') (hf : u.symbol.function? = some f) (hg : u'.symbol.function? = some g) :
    f = g ↔ t.text = t'.text := by
  obtain ⟨i, rfl, hi⟩ := h.of_function hf
  obtain ⟨j, rfl, hj⟩ := h'.of_function hg
  rw [← Names.place_eq_iff hm.funcs hi hj]
  exact (Symbol.masked_name_inj_iff (x := .func (i + 1)) (y := .func (j + 1)) rfl rfl).trans (by simp)

/-- At any point of a session the tables hold the names met so far, each once and in the order of
their first occurrence, and what is in a table stays where it is; a symbol that was delivered
shows the place of its text, so two of them carry one name just when their texts are the same. -/
theorem Session.run_faithful (rs later : List Request) :
    let s := Session.run {} rs
    let m := s.masker
    let m' := (s.run later).masker
    (m.vars = (texts .dollarName s.found).eraseDups ∧ m.ops = (signs s.found).eraseDups ∧
      m.funcs = (texts .word s.found).eraseDups) ∧
    (m.vars.Nodup ∧ m.ops.Nodup ∧ m.funcs.Nodup) ∧ "=" ∉ m.ops ∧
    (m.vars <+: m'.vars ∧ m.ops <+: m'.ops ∧ m.funcs <+: m'.funcs) ∧
    (∀ p ∈ s.given, m.Shows p.1 p.2) ∧
    (∀ p ∈ s.given, p.2.symbol.name = "OP0" ↔ p.1.symbol = .plain .operator ∧ p.1.text = "=") ∧
    ∀ p ∈ s.given, ∀ q ∈ s.given,
      (p.1.symbol = .plain .dollarName → q.1.symbol = .plain .dollarName →
        (p.2.symbol.name = q.2.symbol.name ↔ p.1.text = q.1.text)) ∧
      (p.1.symbol = .plain .operator → q.1.symbol = .plain .operator →
        (p.2.symbol.name = q.2.symbol.name ↔ p.1.text = q.1.text)) ∧
      ∀ f g, p.2.symbol.function? = some f → q.2.symbol.function? = some g →
        (f = g ↔ p.1.text = q.1.text) := by
  intro s m m'
  have hsound : s.Sound := Session.sound_empty.run rs
  have hgrown : Grows {} m := Session.run_grows {} rs
  have hlater : Grows m m' := s.run_grows later
  have hdistinct : m.Distinct :=
    ⟨hgrown.vars.nodup .nil, hgrown.ops.nodup .nil, hgrown.funcs.nodup .nil⟩
  refine ⟨⟨hsound.tables.vars, hsound.tables.ops, hsound.tables.funcs⟩,
    ⟨hdistinct.vars, hdistinct.ops, hdistinct.funcs⟩, ?_,
    ⟨hlater.vars.kept, hlater.ops.kept, hlater.funcs.kept⟩, hsound.shown,
    fun p hp => (hsound.shown p hp).name_eq_op_zero_iff, fun p hp q hq => ⟨?_, ?_, ?_⟩⟩
  · rw [hsound.tables.ops, List.mem_eraseDups]
    simp [signs]
  · exact hdistinct.variables_eq_iff (hsound.shown p hp) (hsound.shown q hq)
  · exact hdistinct.operators_eq_iff (hsound.shown p hp) (hsound.shown q hq)
  · exact fun f g => hdistinct.functions_eq_iff (hsound.shown p hp) (hsound.shown q hq)

/-- The first text breaks off: a name is met where no function is being declared. -/
def brokenThenRead : List Request :=
  [.load "<?php function if (f".toList, .token, .token, .token, .load " $b = $a; $a < $b".toList] ++
    List.replicate 7 .token

theorem Session.run_faithful_brokenThenRead :
    ((Session.run {} brokenThenRead).given.map fun p => (p.1.text, p.2.symbol.name)) =
      [("function", "FUNCTION"), ("if", "IF"), ("$b", "VAR1"), ("=", "OP0"), ("$a", "VAR2"),
        (";", "SEMI"), ("$a", "VAR2"), ("<", "OP1"), ("$b", "VAR1")] ∧
      (Session.run {} brokenThenRead).masker.funcs = ["f"] ∧
      "=" ∉ (Session.run {} brokenThenRead).masker.ops :=
  ⟨by decide +kernel, by decide +kernel, (Session.run_faithful brokenThenRead []).2.2.1⟩

end Masker

end MaskedTaint
