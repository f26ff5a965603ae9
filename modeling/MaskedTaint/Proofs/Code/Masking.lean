import MaskedTaint.Proofs.Code.Syntax
import MaskedTaint.Proofs.Masking.Books

/-! Masking code, one step for each piece of its syntax. A masker stands at the lexemes ahead
also if a block has been announced whose brace is still to be read, or which has none. -/

namespace MaskedTaint

variable {m : Masker} {t : Lexeme} {u : Masked} {ts : List Lexeme} {s : Parens} {blocks : List CodeBlock}
  {parens : Nat}

/-- The account of parentheses: those whose end is marked, and plain ones inside them. -/
structure Parens where
  marked : Nat
  inner : Nat := 0
  inCall : Bool := false

namespace Parens

abbrev idle (marked : Nat) : Parens := ⟨marked, 0, false⟩

def after (s : Parens) : Bit → Parens
  | .group _ => if s.marked = 0 then s else { s with inner := s.inner + 1 }
  | .call _ _ => { s with marked := s.marked + 1, inCall := true }
  | .close _ =>
    if s.marked = 0 then s
    else if s.inner = 0 then { s with marked := s.marked - 1, inCall := false }
    else { s with inner := s.inner - 1 }
  | _ => s

end Parens

namespace Masker

def Facing (m : Masker) (ts : List Lexeme) : Prop :=
  m.peeked = none ∧ m.lexer.Gives ts ∨
    ∃ t rest, ts = t :: rest ∧ t.kind.isLayout = false ∧ m.peeked = some t ∧ m.lexer.Gives rest

structure Counts (m : Masker) (s : Parens) : Prop where
  parens : m.parens = s.marked
  innerParens : m.innerParens = s.inner
  inCall : m.inCall = s.inCall
  inDeclaration : m.inDeclaration = false

structure Reading (m : Masker) (ts : List Lexeme) (s : Parens) (blocks : List CodeBlock) : Prop where
  facing : m.Facing ts
  counts : m.Counts s
  blocks : m.blocks = blocks
  blockAhead : m.blockAhead = false

structure Announced (m : Masker) (ts : List Lexeme) (s : Parens) (blocks : List CodeBlock) : Prop where
  peeked : m.peeked = none
  gives : m.lexer.Gives ts
  counts : m.Counts s
  blocks : m.blocks = blocks
  blockAhead : m.blockAhead = true

inductive Stands (m : Masker) (ts : List Lexeme) (s : Parens) (blocks : List CodeBlock) : Prop
  | reading (h : m.Reading ts s blocks)
  | brace {left : Lexeme} {tags : List Lexeme} (hleft : left.kind = .leftBrace)
      (htags : ∀ t ∈ tags, t.kind.isTag = true) (hblocks : blocks ≠ [])
      (h : m.Announced (left :: (tags ++ ts)) s blocks)
  | single {b : CodeBlock} {outer : List CodeBlock} (hblocks : blocks = { b with oneLiner := true } :: outer)
      (h : m.Announced ts s (b :: outer))

def Yields (m : Masker) (P : Masked → Prop) (Q : Masker → Prop) : Prop :=
  ∃ u m', token m = (.ok (some u), m') ∧ P u ∧ m'.last = some u ∧ Q m'

def Unfinished (m : Masker) : Prop := ∃ u, m.last = some u ∧ needsNoEnd u.symbol = false

/-! ### Meeting lexemes -/

theorem sift_keep (last : Option Masked) (h : t.kind.isLayout = false) :
    sift last t = .keep t.masked := by
  unfold sift
  split
  · simp_all [Kind.isLayout]
  · simp_all [Kind.isLayout]
  · simp [h]

theorem sift_gap (last : Option Masked) (h : t.kind.isGap = true) : sift last t = .drop last := by
  have hlayout := Kind.isLayout_of_isGap h
  unfold sift
  split
  iterate 2 simp_all [Kind.isGap, Kind.isTag]
  · simp [hlayout]

theorem siftLexer_gives {l : Lexer} (last : Option Masked) (h : l.Gives ts) : ∃ l', match ts with
    | [] => siftLexer last l = (.ok none, last, l')
    | t :: ts => l'.Gives ts ∧ siftLexer last l = match sift last t with
      | .keep u => (.ok (some u), last, l')
      | .drop last' => siftLexer last' l' := by
  fun_induction siftLexer last l with
  | case1 last l u l' hn v hv =>
    have hgap : u.kind.isGap = false := Bool.eq_false_iff.mpr fun hg => by simp [sift_gap last hg] at hv
    obtain ⟨rest, rfl, hl'⟩ := (Lexer.gives_lexeme hn hgap).mp h
    exact ⟨l', hl', by rw [hv]⟩
  | case2 last l u l' hn last' hv ih =>
    by_cases hgap : u.kind.isGap = true
    · rw [sift_gap last hgap] at hv
      cases hv
      exact ih ((Lexer.gives_gap hn hgap).mp h)
    · obtain ⟨rest, rfl, hl'⟩ := (Lexer.gives_lexeme hn (by simpa using hgap)).mp h
      exact ⟨l', hl', by rw [hv]⟩
  | case3 last l l' hn =>
    obtain rfl := (Lexer.gives_finished hn).mp h
    exact ⟨l', rfl⟩
  | case4 last l e l' hn => exact absurd h (Lexer.not_gives_failed hn)

theorem significant_gives (hp : m.peeked = none) (h : m.lexer.Gives (t :: ts)) :
    ∃ l', l'.Gives ts ∧ significant m = match sift m.last t with
      | .keep u => (.ok (some u), { m with lexer := l' })
      | .drop last => significant { m with last := last, lexer := l' } := by
  obtain ⟨l', hl', hsift⟩ := siftLexer_gives m.last h
  refine ⟨l', hl', ?_⟩
  rw [significant_apply_none hp, siftOn, hsift]
  cases sift m.last t with
  | keep u => rfl
  | drop last =>
    have hp' : ({ m with last := last, lexer := l' } : Masker).peeked = none := hp
    exact (significant_apply_none hp').symm

theorem Facing.significant (h : m.Facing (t :: ts)) (hkeep : sift m.last t = .keep u) :
    ∃ l', l'.Gives ts ∧ significant m = (.ok (some u), { m with peeked := none, lexer := l' }) := by
  rcases h with ⟨hp, hl⟩ | ⟨t', rest, hts, hlayout, hp, hl⟩
  · obtain ⟨l', hl', hsig⟩ := significant_gives hp hl
    refine ⟨l', hl', ?_⟩
    rw [hsig, hkeep, ← hp]
  · obtain ⟨rfl, rfl⟩ := List.cons.inj hts
    refine ⟨m.lexer, hl, ?_⟩
    rw [significant_apply_some hp, hkeep]

theorem settleBlock_brace (hahead : m.blockAhead = true) (hu : u.symbol = .plain .leftBrace) :
    settleBlock (some u) m = (skipLayout >>= fun t =>
      (Act.update fun m => { m with blockAhead := false }) >>= fun _ =>
        pure (t.map Lexeme.masked) : Masking (Option Masked)) m := by
  simp [settleBlock, Act.bind_apply, Act.state, hahead, hu]

theorem skipTo_of_find {l' : Lexer} {wanted : Kind → Bool} {t : Option Lexeme}
    (hpeeked : m.peeked = none) (hfind : m.lexer.find wanted = (.ok t, l')) :
    skipTo wanted m = (.ok t, { m with lexer := l' }) := by
  rw [skipTo_apply_none wanted hpeeked]
  simp only [onLexer, Act.onPart, hfind]

theorem token_of_mask {m₁ m₂ : Masker} {v : Masked} (hupcoming : upcoming m = (.ok (some u), m₁))
    (hmask : mask u m₁ = (.ok v, m₂)) : token m = (.ok (some v), { m₂ with last := some v }) := by
  rw [token_of_upcoming hupcoming, Act.bind_of_ok hmask]
  rfl

def Meets (m : Masker) (u : Masked) (ts : List Lexeme) (s : Parens) (blocks : List CodeBlock) : Prop :=
  ∃ m', upcoming m = (.ok (some u), m') ∧ m'.peeked = none ∧ m'.lexer.Gives ts ∧ m'.Reading ts s blocks

theorem Counts.of_eq {m' : Masker} (h : m.Counts s) (hparens : m'.parens = m.parens := by rfl)
    (hinner : m'.innerParens = m.innerParens := by rfl) (hcall : m'.inCall = m.inCall := by rfl)
    (hdecl : m'.inDeclaration = m.inDeclaration := by rfl) : m'.Counts s :=
  ⟨hparens.trans h.parens, hinner.trans h.innerParens, hcall.trans h.inCall, hdecl.trans h.inDeclaration⟩

theorem Reading.meets (h : m.Reading (t :: ts) s blocks) (hkeep : sift m.last t = .keep u) :
    m.Meets u ts s blocks := by
  obtain ⟨l', hl', hsig⟩ := h.facing.significant hkeep
  refine ⟨{ m with peeked := none, lexer := l' }, ?_, rfl, hl', .inl ⟨rfl, hl'⟩,
    h.counts.of_eq, h.blocks, h.blockAhead⟩
  rw [upcoming, Act.bind_of_ok hsig]
  simp [settleBlock, Act.state_bind, h.blockAhead]

theorem isLayout_of_isTag {kind : Kind} (h : kind.isTag = true) : kind.isLayout = true := by
  cases kind <;> first | rfl | cases h

theorem Stands.meets (h : m.Stands (t :: ts) s blocks) (ht : t.kind.isLayout = false)
    (hbrace : t.kind ≠ .leftBrace) : m.Meets t.masked ts s blocks := by
  have hkeep := sift_keep m.last ht
  cases h with
  | reading h => exact h.meets hkeep
  | @brace left tags hleft htags hblocks h =>
    have hkeepLeft : sift m.last left = .keep left.masked := sift_keep m.last (by rw [hleft]; rfl)
    obtain ⟨l₁, hl₁, hsig⟩ := significant_gives h.peeked h.gives
    rw [hkeepLeft] at hsig
    obtain ⟨l₂, hfind, hl₂⟩ := hl₁.find (fun kind => !kind.isLayout)
      (fun kind hgap => by simp [Kind.isLayout_of_isGap hgap])
      (fun x hx => by simp [isLayout_of_isTag (htags x hx)]) (by simp [ht])
    have hp₁ : ({ m with lexer := l₁ } : Masker).peeked = none := h.peeked
    have hahead₁ : ({ m with lexer := l₁ } : Masker).blockAhead = true := h.blockAhead
    have hskip := skipTo_of_find hp₁ hfind
    refine ⟨{ m with lexer := l₂, blockAhead := false }, ?_, h.peeked, hl₂, .inl ⟨h.peeked, hl₂⟩,
      h.counts.of_eq, h.blocks, rfl⟩
    rw [upcoming, Act.bind_of_ok hsig, settleBlock_brace hahead₁ (congrArg Symbol.plain hleft), skipLayout,
      Act.bind_of_ok hskip]
    rfl
  | @single b outer hblocks h =>
    obtain ⟨l₁, hl₁, hsig⟩ := significant_gives h.peeked h.gives
    rw [hkeep] at hsig
    refine ⟨{ m with lexer := l₁, blocks := blocks, blockAhead := false }, ?_, h.peeked, hl₁,
      .inl ⟨h.peeked, hl₁⟩, h.counts.of_eq, rfl, rfl⟩
    have hno : (Symbol.plain t.kind == Symbol.plain .leftBrace) = false := by simpa using hbrace
    rw [upcoming, Act.bind_of_ok hsig]
    simp [settleBlock, Act.state_bind, h.blockAhead, h.blocks, Lexeme.masked, hno, hblocks, Act.update_bind]

theorem Stands.meetsSign {kind : Kind} (t : Sign kind) (h : m.Stands (t.val :: ts) s blocks)
    (hlayout : kind.isLayout = false) (hbrace : kind ≠ .leftBrace) : m.Meets t.val.masked ts s blocks := by
  obtain ⟨t, rfl⟩ := t
  exact h.meets hlayout hbrace

theorem Meets.yields {P : Masked → Prop} {Q : Masker → Prop} (h : m.Meets u ts s blocks)
    (hmask : ∀ m' : Masker, m'.peeked = none → m'.lexer.Gives ts → m'.Reading ts s blocks →
      ∃ v m'', mask u m' = (.ok v, m'') ∧ P v ∧ Q { m'' with last := some v }) : m.Yields P Q := by
  obtain ⟨m', hmeet, hp, hl, hm⟩ := h
  obtain ⟨v, m'', hv, hP, hQ⟩ := hmask m' hp hl hm
  exact ⟨v, _, token_of_mask hmeet hv, hP, rfl, hQ⟩

theorem Reading.of_eq {m' : Masker} {ts' : List Lexeme} (h : m.Reading ts s blocks)
    (hfacing : m'.Facing ts') (hcounts : ∀ s, m.Counts s → m'.Counts s := by exact fun _ h => h.of_eq)
    (hblocks : m'.blocks = m.blocks := by rfl) (hahead : m'.blockAhead = m.blockAhead := by rfl) :
    m'.Reading ts' s blocks :=
  ⟨hfacing, hcounts s h.counts, hblocks.trans h.blocks, hahead.trans h.blockAhead⟩

theorem Reading.withLast (h : m.Reading ts s blocks) (last : Option Masked) :
    ({ m with last := last } : Masker).Reading ts s blocks :=
  h.of_eq h.facing

theorem peek_gives (hp : m.peeked = none) (h : m.lexer.Gives (t :: ts))
    (ht : t.kind.isLayout = false) :
    ∃ l', l'.Gives ts ∧ peek m = (.ok (some t), { m with lexer := l', peeked := some t }) := by
  obtain ⟨l', hfind, hl'⟩ := h.find_head (fun kind => !kind.isLayout)
    (fun kind hgap => by simp [Kind.isLayout_of_isGap hgap]) (by simp [ht])
  refine ⟨l', hl', ?_⟩
  have hskip := skipTo_of_find hp hfind
  simp only [peek, skipLayout, Act.bind_apply, Act.state, hp, hskip]
  rfl

theorem skipTo_gives (kind : Kind) (hkind : kind.isGap = false) (hp : m.peeked = none)
    (h : m.lexer.Gives (t :: ts)) (ht : t.kind = kind) :
    ∃ l', l'.Gives ts ∧ skipTo (· == kind) m = (.ok (some t), { m with lexer := l' }) := by
  obtain ⟨l', hfind, hl'⟩ := h.find_head (· == kind)
    (fun k hgap => by
      have hne : k ≠ kind := fun he => by simp [he, hkind] at hgap
      simpa using hne)
    (by simp [ht])
  exact ⟨l', hl', skipTo_of_find hp hfind⟩

end Masker

/-! ### Expressions -/

def Symbol.isCalm : Symbol → Bool
  | var _ | op _ => true
  | plain kind => kind.isCalm || kind == .word || kind == .input || kind == .leftParen
  | _ => false

namespace Bit

def Becomes (s : Parens) : Bit → Symbol → Prop
  | call _ _, x => ∃ n, x = .call n
  | sanitizer _, x => x.isSanitizer = true
  | close _, x => x = if s.marked ≠ 0 ∧ s.inner = 0 then .endParens else .plain .rightParen
  | b, x => x.isCalm = true ∧ (x = .op 0 → b.isAssignment = true)

/-- The symbol of a piece stands where a lexeme of it stands, and a closing tag behind it ends a
statement where it may follow. -/
structure IsSymbol (s : Parens) (b : Bit) (u : Masked) : Prop where
  pos : ∃ t ∈ b.lexemes, u.pos = t.pos
  becomes : b.Becomes s u.symbol
  unfinished : b.allows .closeTag = true → Masker.needsNoEnd u.symbol = false

theorem IsSymbol.ne_endParens {s : Parens} {b : Bit} {u : Masked} (h : b.IsSymbol s u)
    (hclose : ∀ r, b = .close r → s.inner ≠ 0) : u.symbol ≠ .endParens := by
  have hbecomes := h.becomes
  intro hu
  rw [hu] at hbecomes
  cases b with
  | close r => simp [Becomes, hclose r rfl] at hbecomes
  | call name left =>
    obtain ⟨n, hn⟩ := hbecomes
    cases hn
  | sanitizer t => cases hbecomes
  | _ => cases hbecomes.1

end Bit

namespace Masker

variable {t next : Lexeme}

theorem mask_calm (ht : t.kind.isCalm = true) (hname : t.kind ≠ .dollarName)
    (hop : t.kind ≠ .operator) (m : Masker) : mask t.masked m = (.ok t.masked, m) := by
  obtain ⟨kind, text, line, pos⟩ := t
  cases kind <;> first | exact absurd rfl hname | exact absurd rfl hop | rfl | cases ht

theorem needsNoEnd_calm {kind : Kind} (h : kind.isCalm = true) (hcolon : kind ≠ .colon) :
    needsNoEnd (.plain kind) = false := by
  cases kind <;> first | exact absurd rfl hcolon | rfl | cases h

theorem Yields.imp {P P' : Masked → Prop} {Q Q' : Masker → Prop} (h : m.Yields P Q)
    (hP : ∀ u, P u → P' u) (hQ : ∀ m', Q m' → Q' m') : m.Yields P' Q' := by
  obtain ⟨u, m', htoken, hu, hlast, hm'⟩ := h
  exact ⟨u, m', htoken, hP u hu, hlast, hQ m' hm'⟩

theorem yields_name (t : Sign .dollarName) (h : m.Meets t.val.masked ts s blocks) :
    m.Yields (fun u => ∃ n, u = { t.val.masked with symbol := .var n })
      (Reading · ts s blocks) := by
  refine h.yields fun m' hp hl hm => ?_
  refine ⟨{ t.val.masked with symbol := .var (m'.vars.number t.val.text).1 },
    { m' with vars := (m'.vars.number t.val.text).2 }, ?_, ⟨_, rfl⟩,
    hm.of_eq (.inl ⟨hp, hl⟩)⟩
  simp only [mask, Lexeme.masked, t.property, pureStep, maskVariable]

theorem yields_variable (t : Sign .dollarName) (h : m.Meets t.val.masked ts s blocks) :
    m.Yields (fun u => (∃ n, u.symbol = .var n) ∧ u.pos = t.val.pos) (Reading · ts s blocks) := by
  refine (yields_name t h).imp ?_ fun _ => id
  rintro _ ⟨n, rfl⟩
  exact ⟨⟨n, rfl⟩, rfl⟩

theorem yields_assignSign (t : { t : Lexeme // t.kind = .operator ∧ t.text = "=" })
    (h : m.Meets t.val.masked ts s blocks) :
    m.Yields (· = { t.val.masked with symbol := .op 0 }) (Reading · ts s blocks) := by
  refine h.yields fun m' hp hl hm => ⟨_, m', ?_, rfl, hm.withLast _⟩
  simp only [mask, Lexeme.masked, t.property.1, pureStep, maskOperator, t.property.2, if_true]

theorem yields_operator (t : Sign .operator) (h : m.Meets t.val.masked ts s blocks) :
    m.Yields (fun u => (∃ n, u.symbol = .op n ∧ (n = 0 ↔ t.val.text = "=")) ∧ u.pos = t.val.pos)
      (Reading · ts s blocks) := by
  by_cases htext : t.val.text = "="
  · refine (yields_assignSign ⟨t.val, t.property, htext⟩ h).imp ?_ fun _ => id
    rintro _ rfl
    exact ⟨⟨0, rfl, by simp [htext]⟩, rfl⟩
  · refine h.yields fun m' hp hl hm => ?_
    have hmask : mask t.val.masked m' =
        (.ok { t.val.masked with symbol := .op (m'.ops.number t.val.text).1 },
          { m' with ops := (m'.ops.number t.val.text).2 }) := by
      simp [mask, Lexeme.masked, t.property, pureStep, maskOperator, htext]
    refine ⟨_, _, hmask, ⟨⟨_, rfl, ?_⟩, rfl⟩, hm.of_eq (.inl ⟨hp, hl⟩)⟩
    have hbounds := (Names.number_bounds m'.ops t.val.text).1
    exact ⟨fun hzero => by omega, fun he => absurd he htext⟩

theorem yields_calm (ht : t.kind.isCalm = true) (hname : t.kind ≠ .dollarName)
    (hop : t.kind ≠ .operator) (h : m.Meets t.masked ts s blocks) :
    m.Yields (· = t.masked) (Reading · ts s blocks) :=
  h.yields fun m' _ _ hm => ⟨t.masked, m', mask_calm ht hname hop m', rfl, hm.withLast _⟩

theorem yields_plain (ht : t.kind.isCalm = true) (h : m.Meets t.masked ts s blocks) :
    m.Yields (Bit.IsSymbol s (.plain ⟨t, ht⟩)) (Reading · ts s blocks) := by
  by_cases hname : t.kind = .dollarName
  · refine (yields_variable ⟨t, hname⟩ h).imp ?_ fun _ => id
    rintro u ⟨⟨n, hn⟩, hpos⟩
    exact ⟨⟨t, List.mem_cons_self, hpos⟩, ⟨by rw [hn]; rfl, fun h => by rw [hn] at h; cases h⟩,
      fun _ => by rw [hn]; rfl⟩
  by_cases hop : t.kind = .operator
  · refine (yields_operator ⟨t, hop⟩ h).imp ?_ fun _ => id
    rintro u ⟨⟨n, hn, hassign⟩, hpos⟩
    refine ⟨⟨t, List.mem_cons_self, hpos⟩, ⟨by rw [hn]; rfl, fun hzero => ?_⟩, fun _ => by rw [hn]; rfl⟩
    have htext : t.text = "=" := hassign.mp (Symbol.op.inj (hn.symm.trans hzero))
    simp [Bit.isAssignment, hop, htext]
  · refine (yields_calm ht hname hop h).imp ?_ fun _ => id
    rintro _ rfl
    refine ⟨⟨t, List.mem_cons_self, rfl⟩, ⟨?_, fun h => by cases h⟩, fun hallows => ?_⟩
    · simp [Symbol.isCalm, Lexeme.masked, ht]
    · exact needsNoEnd_calm ht (by simpa [Bit.allows] using hallows)

theorem mask_word {w : Lexeme} (hw : w.kind = .word) (m : Masker) :
    mask w.masked m = maskWord w.masked m := by
  simp only [mask, Lexeme.masked, hw]

theorem yields_word (w : Sign .word) (hnext : next.kind.isLayout = false)
    (hparen : next.kind ≠ .leftParen) (h : m.Meets w.val.masked (next :: ts) s blocks) :
    m.Yields (· = w.val.masked) (Reading · (next :: ts) s blocks) := by
  refine h.yields fun m' hp hl hm => ?_
  obtain ⟨w, hw⟩ := w
  let m₁ : Masker := { m' with funcs := (m'.funcs.number w.text).2 }
  obtain ⟨l', hl', hpeek⟩ := peek_gives (m := m₁) hp hl hnext
  refine ⟨w.masked, { m₁ with lexer := l', peeked := some next }, ?_, rfl, ?_⟩
  · have hcall : callOrWord (m'.funcs.number w.text).1 w.masked m₁ =
        (.ok w.masked, { m₁ with lexer := l', peeked := some next }) := by
      rw [callOrWord, Act.bind_of_ok hpeek]
      simp [hparen]
    rwa [mask_word hw, maskWord_apply, if_neg (by simp [hm.counts.inDeclaration])]
  · exact hm.of_eq (.inr ⟨next, ts, rfl, hnext, rfl, hl'⟩)

theorem yields_call (w : Sign .word) (left : Sign .leftParen)
    (h : m.Meets w.val.masked (left.val :: ts) s blocks) :
    m.Yields (fun u => (∃ n, u.symbol = .call n) ∧ u.pos = w.val.pos)
      (Reading · ts { s with marked := s.marked + 1, inCall := true } blocks) := by
  refine h.yields fun m' hp hl hm => ?_
  obtain ⟨w, hw⟩ := w
  obtain ⟨left, hleft⟩ := left
  let m₁ : Masker := { m' with funcs := (m'.funcs.number w.text).2 }
  obtain ⟨l', hl', hpeek⟩ := peek_gives (m := m₁) hp hl (by rw [hleft]; rfl)
  let m₂ : Masker := { m₁ with lexer := l', peeked := none, parens := m₁.parens + 1, inCall := true }
  refine ⟨{ w.masked with symbol := .call (m'.funcs.number w.text).1 }, m₂, ?_, ⟨⟨_, rfl⟩, rfl⟩, ?_⟩
  · have hcall : callOrWord (m'.funcs.number w.text).1 w.masked m₁ =
        (.ok { w.masked with symbol := .call (m'.funcs.number w.text).1 }, m₂) := by
      rw [callOrWord, Act.bind_of_ok hpeek]
      simp [hleft, Act.update_bind, m₂]
    rwa [mask_word hw, maskWord_apply, if_neg (by simp [hm.counts.inDeclaration])]
  · exact ⟨.inl ⟨rfl, hl'⟩, ⟨congrArg (· + 1) hm.counts.parens, hm.counts.innerParens, rfl,
      hm.counts.inDeclaration⟩, hm.blocks, hm.blockAhead⟩

theorem mask_input (ht : t.kind = .input) {m m' : Masker}
    (h : skipOffset m = (.ok (), m')) : mask t.masked m = (.ok t.masked, m') := by
  have hmask : mask t.masked = (skipOffset >>= fun _ => pure t.masked) := by
    simp only [mask, Lexeme.masked, ht]
  rw [hmask, Act.bind_of_ok h]
  rfl

theorem yields_input (i : Sign .input) (hnext : next.kind.isLayout = false)
    (hbracket : next.kind ≠ .leftBracket) (h : m.Meets i.val.masked (next :: ts) s blocks) :
    m.Yields (· = i.val.masked) (Reading · (next :: ts) s blocks) := by
  refine h.yields fun m' hp hl hm => ?_
  obtain ⟨l', hl', hpeek⟩ := peek_gives hp hl hnext
  refine ⟨i.val.masked, { m' with lexer := l', peeked := some next }, ?_, rfl, ?_⟩
  · refine mask_input i.property ?_
    rw [skipOffset, Act.bind_of_ok hpeek]
    simp [hbracket]
  · exact hm.of_eq (.inr ⟨next, ts, rfl, hnext, rfl, hl'⟩)

theorem skipOffset_of_find {u : Option Lexeme} {l₁ l₂ : Lexer} (hpeeked : m.peeked = none)
    (hopen : m.lexer.find (fun kind => !kind.isLayout) = (.ok (some t), l₁))
    (ht : t.kind = .leftBracket) (hclose : l₁.find (fun kind => kind == .rightBracket) = (.ok u, l₂)) :
    skipOffset m = (.ok (), { m with lexer := l₂, peeked := none }) := by
  have hpeek : peek m = (.ok (some t), { m with lexer := l₁, peeked := some t }) := by
    have hskip := skipTo_of_find hpeeked hopen
    simp only [peek, skipLayout, Act.bind_apply, Act.state, hpeeked, hskip]
    rfl
  have hskip : skipTo (· == .rightBracket) { m with lexer := l₁, peeked := some t } =
      (.ok u, { m with lexer := l₂, peeked := none }) := by
    have hunwanted : (Kind.leftBracket == Kind.rightBracket) = false := by decide
    rw [skipTo_apply_some _ rfl]
    simp only [ht, hunwanted, Bool.false_eq_true, if_false, onLexer, Act.onPart, hclose]
  rw [skipOffset, Act.bind_of_ok hpeek]
  simp only [Option.map_some, ht, if_true, Act.bind_of_ok hskip, Act.pure_apply]

theorem yields_element {inside : List Lexeme} (i : Sign .input) (left : Sign .leftBracket)
    (hinside : ∀ t ∈ inside, t.kind ≠ .rightBracket) (right : Sign .rightBracket)
    (h : m.Meets i.val.masked (left.val :: (inside ++ right.val :: ts)) s blocks) :
    m.Yields (· = i.val.masked) (Reading · ts s blocks) := by
  refine h.yields fun m' hp hl hm => ?_
  obtain ⟨l₁, hopen, hl₁⟩ := hl.find_head (fun kind => !kind.isLayout)
    (fun kind hgap => by simp [Kind.isLayout_of_isGap hgap]) (by rw [left.property]; rfl)
  have hgap : ∀ kind : Kind, kind.isGap = true → (kind == .rightBracket) = false := by
    intro kind hgap
    have hne : kind ≠ .rightBracket := fun he => by rw [he] at hgap; cases hgap
    simpa using hne
  obtain ⟨l₂, hclose, hl₂⟩ := hl₁.find (fun kind => kind == .rightBracket) hgap
    (fun t ht => by simpa using hinside t ht) (by simp [right.property])
  refine ⟨i.val.masked, { m' with lexer := l₂, peeked := none }, ?_, rfl, ?_⟩
  · exact mask_input i.property (skipOffset_of_find hp hopen left.property hclose)
  · exact hm.of_eq (.inl ⟨rfl, hl₂⟩)

theorem yields_sanitizer (ht : t.kind.isSanitizer = true) (h : m.Meets t.masked ts s blocks) :
    m.Yields (fun u => u.symbol.isSanitizer = true ∧ u.pos = t.pos) (Reading · ts s blocks) := by
  refine h.yields fun m' hp hl hm => ?_
  obtain ⟨kind, text, line, pos⟩ := t
  cases kind with
  | sanitizer v => exact ⟨_, _, rfl, ⟨rfl, rfl⟩, hm.withLast _⟩
  | _ => cases ht

theorem yields_group (left : Sign .leftParen) (h : m.Meets left.val.masked ts s blocks) :
    m.Yields (· = left.val.masked) (Reading · ts (s.after (.group left)) blocks) := by
  refine h.yields fun m' hp hl hm => ?_
  let m₁ : Masker := if m'.parens = 0 then m' else { m' with innerParens := m'.innerParens + 1 }
  refine ⟨left.val.masked, m₁, ?_, rfl, ?_⟩
  · simp only [mask, Lexeme.masked, left.property]
    rfl
  · have hparens := hm.counts.parens
    by_cases hzero : s.marked = 0
    · have hm₁ : m₁ = m' := if_pos (hparens.trans hzero)
      rw [hm₁, Parens.after, if_pos hzero]
      exact hm.withLast _
    · have hm₁ : m₁ = { m' with innerParens := m'.innerParens + 1 } := if_neg (hparens ▸ hzero)
      rw [hm₁, Parens.after, if_neg hzero]
      exact ⟨.inl ⟨hp, hl⟩, ⟨hparens, congrArg (· + 1) hm.counts.innerParens, hm.counts.inCall,
        hm.counts.inDeclaration⟩, hm.blocks, hm.blockAhead⟩

theorem mask_rightParen (ht : t.kind = .rightParen) (m : Masker) :
    mask t.masked m = (.ok (m.closeParen t.masked).1, (m.closeParen t.masked).2) := by
  simp only [mask, Lexeme.masked, ht, pureStep]

theorem yields_close (right : Sign .rightParen) (h : m.Meets right.val.masked ts s blocks)
    (hblocks : s.marked ≠ 0 → s.inner = 0 → s.inCall = false → announcesBlock blocks = false) :
    m.Yields (fun u => Bit.Becomes s (.close right) u.symbol ∧ u.pos = right.val.pos)
      (Reading · ts (s.after (.close right)) blocks) := by
  refine h.yields fun m' hp hl hm => ?_
  have hmask := mask_rightParen right.property m'
  have hplain : right.val.masked.symbol = .plain .rightParen := congrArg Symbol.plain right.property
  have hparens := hm.counts.parens
  have hinner := hm.counts.innerParens
  by_cases hzero : s.marked = 0
  · rw [closeParen, if_pos (hparens.trans hzero)] at hmask
    refine ⟨_, _, hmask, ⟨?_, rfl⟩, ?_⟩
    · simp [Bit.Becomes, hzero, hplain]
    · rw [Parens.after, if_pos hzero]
      exact hm.withLast _
  · rw [closeParen, if_neg (hparens ▸ hzero)] at hmask
    by_cases hnone : s.inner = 0
    · rw [if_pos (hinner.trans hnone)] at hmask
      refine ⟨_, _, hmask, ⟨by simp [Bit.Becomes, hzero, hnone], rfl⟩, ?_⟩
      rw [Parens.after, if_neg hzero, if_pos hnone]
      have hmarked : m'.parens - 1 = s.marked - 1 := congrArg (· - 1) hparens
      cases hcall : s.inCall with
      | true =>
        have hcall' : m'.inCall = true := hm.counts.inCall.trans hcall
        simp only [hcall', if_true]
        exact ⟨.inl ⟨hp, hl⟩, ⟨hmarked, hinner, rfl, hm.counts.inDeclaration⟩, hm.blocks, hm.blockAhead⟩
      | false =>
        have hcall' : m'.inCall = false := hm.counts.inCall.trans hcall
        have hquiet : announcesBlock m'.blocks = false := by
          rw [hm.blocks]
          exact hblocks hzero hnone hcall
        simp only [hcall', hquiet, Bool.false_eq_true, if_false]
        exact ⟨.inl ⟨hp, hl⟩, ⟨hmarked, hinner, rfl, hm.counts.inDeclaration⟩, hm.blocks, hm.blockAhead⟩
    · rw [if_neg (hinner ▸ hnone)] at hmask
      refine ⟨_, _, hmask, ⟨by simp [Bit.Becomes, hnone, hplain], rfl⟩, ?_⟩
      rw [Parens.after, if_neg hzero, if_neg hnone]
      exact ⟨.inl ⟨hp, hl⟩, ⟨hparens, congrArg (· - 1) hinner, hm.counts.inCall, hm.counts.inDeclaration⟩,
        hm.blocks, hm.blockAhead⟩

theorem yields_bit (b : Bit) (h : m.Meets b.first.masked (b.later ++ next :: ts) s blocks)
    (hnext : b.allows next.kind = true)
    (hclose : ∀ right, b = .close right → s.marked ≠ 0 → s.inner = 0 → s.inCall = false →
      announcesBlock blocks = false) :
    m.Yields (b.IsSymbol s) (Reading · (next :: ts) (s.after b) blocks) := by
  cases b with
  | plain t => exact yields_plain t.property h
  | word w =>
    simp only [Bit.allows, Bool.and_eq_true, Bool.not_eq_true', bne_iff_ne] at hnext
    refine (yields_word w hnext.1 hnext.2 h).imp ?_ fun _ => id
    rintro _ rfl
    refine ⟨⟨w.val, List.mem_cons_self, rfl⟩, ⟨?_, fun he => by cases he⟩, fun hno => by cases hno⟩
    simp [Lexeme.masked, w.property, Symbol.isCalm]
  | input i =>
    simp only [Bit.allows, Bool.and_eq_true, Bool.not_eq_true', bne_iff_ne] at hnext
    refine (yields_input i hnext.1 hnext.2 h).imp ?_ fun _ => id
    rintro _ rfl
    refine ⟨⟨i.val, List.mem_cons_self, rfl⟩, ⟨?_, fun he => by cases he⟩, fun hno => by cases hno⟩
    simp [Lexeme.masked, i.property, Symbol.isCalm]
  | element i left inside right =>
    have h' : m.Meets i.val.masked (left.val :: (inside.val ++ right.val :: next :: ts)) s blocks := by
      simpa [Bit.first, Bit.later] using h
    refine (yields_element i left inside.property right h').imp ?_ fun _ => id
    rintro _ rfl
    refine ⟨⟨i.val, List.mem_cons_self, rfl⟩, ⟨?_, fun he => by cases he⟩, fun _ => ?_⟩
    · simp [Lexeme.masked, i.property, Symbol.isCalm]
    · simp [Lexeme.masked, i.property, needsNoEnd]
  | sanitizer t =>
    refine (yields_sanitizer t.property h).imp ?_ fun _ => id
    rintro u ⟨hu, hpos⟩
    exact ⟨⟨t.val, List.mem_cons_self, hpos⟩, hu, fun hno => by cases hno⟩
  | group left =>
    refine (yields_group left h).imp ?_ fun _ => id
    rintro _ rfl
    refine ⟨⟨left.val, List.mem_cons_self, rfl⟩, ⟨?_, fun he => by cases he⟩, fun _ => ?_⟩
    · simp [Lexeme.masked, left.property, Symbol.isCalm]
    · simp [Lexeme.masked, left.property, needsNoEnd]
  | call w left =>
    refine (yields_call w left h).imp ?_ fun _ => id
    rintro u ⟨⟨n, hn⟩, hpos⟩
    refine ⟨⟨w.val, List.mem_cons_self, hpos⟩, ⟨n, hn⟩, fun _ => ?_⟩
    rw [hn]
    rfl
  | close right =>
    refine (yields_close right h (hclose right rfl)).imp ?_ fun _ => id
    rintro u ⟨hu, hpos⟩
    refine ⟨⟨right.val, List.mem_cons_self, hpos⟩, hu, fun _ => ?_⟩
    simp only [Bit.Becomes] at hu
    rw [hu]
    split <;> rfl

end Masker

/-! ### Blocks -/

namespace Head

def blockKind : Head → BlockKind
  | branch _ _ _ _ _ => .branch
  | alternative _ => .alternative
  | loop _ _ => .doBlock

def marked (parens : Nat) : Head → Nat
  | loop _ _ => parens + 1
  | _ => parens

theorem announcesBlock_eq (head : Head) (single : Bool) (outer : List CodeBlock) :
    Masker.announcesBlock (⟨single, head.blockKind⟩ :: outer) = head.isStrict := by
  cases head <;> rfl

end Head

namespace Masker

theorem Stands.meetsStop (h : m.Stands (t :: ts) s blocks) (ht : t.kind.isStop = true)
    (htag : t.kind = .closeTag → m.blockAhead = false ∧ m.Unfinished) :
    m.Meets { t.masked with symbol := .plain .semicolon } ts s blocks := by
  by_cases hclose : t.kind = .closeTag
  · obtain ⟨hahead, u, hlast, hu⟩ := htag hclose
    have hkeep : sift m.last t = .keep { t.masked with symbol := .plain .semicolon } := by
      simp [sift, hclose, hlast, hu]
    cases h with
    | reading h => exact h.meets hkeep
    | brace hleft htags hblocks h | single hblocks h => exact absurd h.blockAhead (by simp [hahead])
  · have hkind : t.kind = .semicolon := by
      unfold Kind.isStop at ht
      split at ht
      · assumption
      · exact absurd ‹_› hclose
      · cases ht
    have hmasked : t.masked = { t.masked with symbol := .plain .semicolon } := by
      simp [Lexeme.masked, hkind]
    rw [← hmasked]
    exact h.meets (by rw [hkind]; rfl) (by rw [hkind]; decide)

variable {word : Lexeme}

theorem yields_deliverWord (hword : word.kind.isDeliverWord = true)
    (h : m.Meets word.masked ts s blocks) : m.Yields (· = word.masked) (Reading · ts s blocks) := by
  refine h.yields fun m' hp hl hm => ⟨word.masked, m', ?_, rfl, hm.withLast _⟩
  obtain ⟨kind, text, line, pos⟩ := word
  unfold Kind.isDeliverWord at hword
  dsimp only at hword
  split at hword
  · rfl
  · rfl
  · cases hword

theorem yields_stop (hu : u.symbol = .plain .semicolon) (h : m.Meets u ts s blocks)
    (hblocks : ∀ b ∈ blocks.head?, b.oneLiner = false) :
    m.Yields (· = u) (Reading · ts s blocks) := by
  refine h.yields fun m' hp hl hm => ⟨u, m', ?_, rfl, hm.withLast _⟩
  simp only [mask, hu, endStatement, Act.state_bind, hm.blocks]
  cases blocks with
  | nil => rfl
  | cons b outer => simp [hblocks b rfl]

theorem leaveBlock_head (head : Head) (single : Bool) (hp : m.peeked = none)
    (hl : m.lexer.Gives (head.tail ++ ts))
    (hm : m.Reading (head.tail ++ ts) (.idle parens) (⟨single, head.blockKind⟩ :: blocks)) :
    ∃ m', leaveBlock ⟨single, head.blockKind⟩ m = (.ok (), m') ∧
      m'.Reading ts (.idle (head.marked parens)) blocks := by
  have hplain : (head.blockKind == .doBlock) = false → head.tail = [] → head.marked parens = parens →
      ∃ m', leaveBlock ⟨single, head.blockKind⟩ m = (.ok (), m') ∧
        m'.Reading ts (.idle (head.marked parens)) blocks := by
    intro hkind htail hmarked
    refine ⟨{ m with blocks := m.blocks.tail }, ?_, ?_⟩
    · simp [leaveBlock, hkind, Act.update]
    · rw [htail] at hl
      rw [hmarked]
      exact ⟨.inl ⟨hp, hl⟩, hm.counts.of_eq, by simp [hm.blocks], hm.blockAhead⟩
  cases head with
  | branch word left header condition right | alternative word => exact hplain rfl rfl rfl
  | loop word last =>
    obtain ⟨l', hl', hskip⟩ := skipTo_gives (m := { m with parens := m.parens + 1 }) .whileWord
      rfl hp hl last.property
    refine ⟨{ m with parens := m.parens + 1, lexer := l', blocks := m.blocks.tail }, ?_, ?_⟩
    · simp [leaveBlock, Head.blockKind, Act.update_bind, Act.bind_of_ok hskip, Act.update]
    · exact ⟨.inl ⟨hp, hl'⟩, ⟨congrArg (· + 1) hm.counts.parens, hm.counts.innerParens, hm.counts.inCall,
        hm.counts.inDeclaration⟩, by simp [hm.blocks], hm.blockAhead⟩

theorem yields_endSingle (head : Head) (hu : u.symbol = .plain .semicolon)
    (h : m.Meets u (head.tail ++ ts) (.idle parens) (⟨true, head.blockKind⟩ :: blocks)) :
    m.Yields (· = { u with symbol := .endBlock })
      (Reading · ts (.idle (head.marked parens)) blocks) := by
  refine h.yields fun m' hp hl hm => ?_
  obtain ⟨m'', hleave, hm''⟩ := leaveBlock_head head true hp hl hm
  refine ⟨_, m'', ?_, rfl, hm''.withLast _⟩
  simp only [mask, hu, endStatement, Act.state_bind, hm.blocks, if_true]
  rw [Act.bind_of_ok hleave]
  rfl

theorem mask_rightBrace (right : Sign .rightBrace) :
    mask right.val.masked = closeBrace right.val.masked := by
  simp only [mask, Lexeme.masked, right.property]

theorem yields_endBlock (head : Head) (right : Sign .rightBrace)
    (h : m.Meets right.val.masked (head.tail ++ ts) (.idle parens) (⟨false, head.blockKind⟩ :: blocks)) :
    m.Yields (· = { right.val.masked with symbol := .endBlock })
      (Reading · ts (.idle (head.marked parens)) blocks) := by
  refine h.yields fun m' hp hl hm => ?_
  obtain ⟨m'', hleave, hm''⟩ := leaveBlock_head head false hp hl hm
  refine ⟨_, m'', ?_, rfl, hm''.withLast _⟩
  rw [mask_rightBrace]
  simp only [closeBrace, Act.state_bind, hm.blocks]
  cases head <;> simp [Head.blockKind] at hleave ⊢ <;> rw [Act.bind_of_ok hleave] <;> rfl

theorem yields_endFunction {number : Option Nat} (right : Sign .rightBrace)
    (h : m.Meets right.val.masked ts s (⟨false, .function number⟩ :: blocks)) :
    m.Yields (· = { right.val.masked with symbol := .endFunction })
      (Reading · ts s blocks) := by
  refine h.yields fun m' hp hl hm => ?_
  refine ⟨_, { m' with blocks := blocks }, ?_, rfl, ⟨.inl ⟨hp, hl⟩, hm.counts.of_eq, rfl,
    hm.blockAhead⟩⟩
  rw [mask_rightBrace]
  simp only [closeBrace, Act.state_bind, hm.blocks]
  rfl

theorem yields_branchWord (hword : word.kind.isBranchWord = true) (left : Sign .leftParen)
    (h : m.Meets word.masked (left.val :: ts) (.idle parens) blocks) : m.Yields (· = word.masked)
      (Reading · ts (.idle (parens + 1)) (⟨false, .branch⟩ :: blocks)) := by
  refine h.yields fun m' hp hl hm => ?_
  let m₁ : Masker := { m' with blocks := ⟨false, .branch⟩ :: m'.blocks, parens := m'.parens + 1 }
  obtain ⟨l', hl', hskip⟩ := skipTo_gives (m := m₁) .leftParen rfl hp hl left.property
  refine ⟨word.masked, { m₁ with lexer := l' }, ?_, rfl, ?_⟩
  · have hopen : openBranch m' = (.ok (), { m₁ with lexer := l' }) := by
      rw [openBranch, Act.update_bind, Act.bind_of_ok hskip]
      rfl
    have hmask : mask word.masked = (openBranch >>= fun _ => pure word.masked) := by
      obtain ⟨kind, text, line, pos⟩ := word
      cases kind <;> first | rfl | cases hword
    rw [hmask, Act.bind_of_ok hopen]
    rfl
  · exact ⟨.inl ⟨hp, hl'⟩, ⟨congrArg (· + 1) hm.counts.parens, hm.counts.innerParens, hm.counts.inCall,
      hm.counts.inDeclaration⟩, congrArg (_ :: ·) hm.blocks, hm.blockAhead⟩

theorem yields_endCondition (right : Sign .rightParen)
    (h : m.Meets right.val.masked ts (.idle (parens + 1)) (⟨false, .branch⟩ :: blocks)) :
    m.Yields (· = { right.val.masked with symbol := .endParens })
      (Announced · ts (.idle parens) (⟨false, .branch⟩ :: blocks)) := by
  refine h.yields fun m' hp hl hm => ?_
  have hmask := mask_rightParen right.property m'
  have hparens : m'.parens = parens + 1 := hm.counts.parens
  have hinner : m'.innerParens = 0 := hm.counts.innerParens
  have hcall : m'.inCall = false := hm.counts.inCall
  have hannounces : announcesBlock m'.blocks = true := by rw [hm.blocks]; rfl
  rw [closeParen, if_neg (by omega), if_pos hinner] at hmask
  simp only [hcall, hannounces, Bool.false_eq_true, if_false, if_true] at hmask
  refine ⟨_, _, hmask, rfl, hp, hl, ⟨?_, hinner, rfl, hm.counts.inDeclaration⟩, hm.blocks, rfl⟩
  dsimp only
  omega

theorem yields_openBlock {kind : BlockKind}
    (hword : word.kind = .elseWord ∧ kind = .alternative ∨ word.kind = .doWord ∧ kind = .doBlock)
    (h : m.Meets word.masked ts s blocks) :
    m.Yields (· = word.masked) (Announced · ts s (⟨false, kind⟩ :: blocks)) := by
  refine h.yields fun m' hp hl hm => ?_
  refine ⟨word.masked, { m' with blocks := ⟨false, kind⟩ :: m'.blocks, blockAhead := true }, ?_, rfl,
    ⟨hp, hl, hm.counts.of_eq, congrArg (_ :: ·) hm.blocks, rfl⟩⟩
  rcases hword with ⟨hword, rfl⟩ | ⟨hword, rfl⟩
  iterate 2
    · simp only [mask, Lexeme.masked, hword]
      rfl

/-! ### Functions -/

structure Declaring (m : Masker) (ts : List Lexeme) (parens : Nat) (blocks : List CodeBlock) : Prop where
  peeked : m.peeked = none
  gives : m.lexer.Gives ts
  parens : m.parens = parens
  innerParens : m.innerParens = 0
  inCall : m.inCall = false
  inDeclaration : m.inDeclaration = true
  blocks : m.blocks = ⟨false, .function none⟩ :: blocks
  blockAhead : m.blockAhead = false

theorem yields_functionWord (word : Sign .functionWord)
    (h : m.Meets word.val.masked ts (.idle parens) blocks) :
    m.Yields (· = word.val.masked) (Declaring · ts parens blocks) := by
  refine h.yields fun m' hp hl hm => ?_
  refine ⟨word.val.masked, { m' with blocks := ⟨false, .function none⟩ :: m'.blocks, inDeclaration := true },
    ?_, rfl, ⟨hp, hl, hm.counts.parens, hm.counts.innerParens, hm.counts.inCall, rfl,
      congrArg (_ :: ·) hm.blocks, hm.blockAhead⟩⟩
  simp only [mask, Lexeme.masked, word.property]
  rfl

theorem Declaring.yields (name : Sign .word) (left : Sign .leftParen)
    (h : m.Declaring (name.val :: left.val :: ts) parens blocks) :
    m.Yields (fun u => u = { name.val.masked with symbol := .func (m.funcs.number name.val.text).1 })
      fun m' => m'.funcs = (m.funcs.number name.val.text).2 ∧ m'.Reading ts (.idle (parens + 1))
        (⟨false, .function (some (m.funcs.number name.val.text).1)⟩ :: blocks) := by
  obtain ⟨name, hname⟩ := name
  have hkeep : sift m.last name = .keep name.masked := sift_keep m.last (by rw [hname]; rfl)
  obtain ⟨l₁, hl₁, hsig⟩ := significant_gives h.peeked h.gives
  rw [hkeep] at hsig
  have hmeet : upcoming m = (.ok (some name.masked), { m with lexer := l₁ }) := by
    rw [upcoming, Act.bind_of_ok hsig]
    simp [settleBlock, Act.state_bind, h.blockAhead]
  let m₁ : Masker := { m with lexer := l₁, funcs := (m.funcs.number name.text).2 }
  let m₂ : Masker :=
    { m₁ with blocks := ⟨false, .function (some (m.funcs.number name.text).1)⟩ :: blocks }
  obtain ⟨l₂, hl₂, hskip⟩ := skipTo_gives (m := m₂) .leftParen rfl h.peeked hl₁ left.property
  let m₃ : Masker := { m₂ with lexer := l₂, parens := m₂.parens + 1, inDeclaration := false }
  have hdeclare : declare (m.funcs.number name.text).1 name.masked m₁ =
      (.ok { name.masked with symbol := .func (m.funcs.number name.text).1 }, m₃) := by
    have hblocks : m₁.blocks = ⟨false, .function none⟩ :: blocks := h.blocks
    simp only [declare, Act.state_bind, hblocks, Act.update_bind]
    rw [Act.bind_of_ok hskip]
    rfl
  have hmask : mask name.masked { m with lexer := l₁ } =
      (.ok { name.masked with symbol := .func (m.funcs.number name.text).1 }, m₃) := by
    rw [mask_word hname, maskWord_apply, if_pos h.inDeclaration]
    exact hdeclare
  refine ⟨_, _, token_of_mask hmeet hmask, rfl, rfl, rfl, ?_⟩
  exact ⟨.inl ⟨h.peeked, hl₂⟩, ⟨congrArg (· + 1) h.parens, h.innerParens, h.inCall, rfl⟩, rfl, h.blockAhead⟩

theorem yields_endParams {number : Option Nat} (right : Sign .rightParen)
    (h : m.Meets right.val.masked ts (.idle (parens + 1)) (⟨false, .function number⟩ :: blocks)) :
    m.Yields (fun u => u.symbol = .endParens ∧ u.pos = right.val.pos)
      (Reading · ts (.idle parens) (⟨false, .function number⟩ :: blocks)) := by
  refine (yields_close right h fun _ _ _ => rfl).imp (fun u hu => ?_) fun m' hm' => ?_
  · exact ⟨by simpa [Bit.Becomes] using hu.1, hu.2⟩
  · simpa [Parens.after] using hm'

theorem yields_leftBrace (left : Sign .leftBrace) (h : m.Meets left.val.masked ts s blocks) :
    m.Yields (· = left.val.masked) (Reading · ts s blocks) := by
  refine h.yields fun m' hp hl hm => ⟨left.val.masked, m', ?_, rfl, hm.withLast _⟩
  simp only [mask, Lexeme.masked, left.property]
  rfl

/-! ### Tags and the end -/

theorem Reading.drop {last : Option Masked} (h : m.Reading (t :: ts) s blocks)
    (ht : t.kind.isTag = true) (hdrop : sift m.last t = .drop last) :
    ∃ m', token m = token m' ∧ m.ReadsOn m' ∧ m'.Reading ts s blocks := by
  rcases h.facing with ⟨hp, hl⟩ | ⟨t', rest, hts, hlayout, -, -⟩
  · obtain ⟨l', hl', hsig⟩ := significant_gives hp hl
    rw [hdrop] at hsig
    refine ⟨{ m with last := last, lexer := l' }, ?_, ⟨rfl, id⟩,
      h.of_eq (.inl ⟨hp, hl'⟩)⟩
    rw [token, Act.bind_apply, Act.bind_apply, hsig]
  · obtain ⟨rfl, -⟩ := List.cons.inj hts
    simp [isLayout_of_isTag ht] at hlayout

theorem Stands.tag (h : m.Stands (t :: ts) s blocks) (ht : t.kind.isTag = true)
    (hblocks : ∀ b ∈ blocks.head?, b.oneLiner = false) :
    (∃ m', token m = token m' ∧ m'.Stands ts s blocks) ∨
      m.Yields (fun u => u.symbol = .plain .semicolon ∧ u.pos = t.pos) (Reading · ts s blocks) := by
  cases h with
  | reading h =>
    have hcases : (∃ u : Masked, sift m.last t = .keep u ∧ u.symbol = .plain .semicolon ∧ u.pos = t.pos) ∨
        ∃ last, sift m.last t = .drop last := by
      unfold sift
      split
      · split
        · exact .inl ⟨_, rfl, rfl, rfl⟩
        · exact .inr ⟨_, rfl⟩
      · split
        · exact .inr ⟨_, rfl⟩
        · exact .inl ⟨_, rfl, rfl, rfl⟩
      · rw [if_pos (isLayout_of_isTag ht)]
        exact .inr ⟨_, rfl⟩
    rcases hcases with ⟨u, hkeep, hu⟩ | ⟨last, hdrop⟩
    · refine .inr ((yields_stop hu.1 (h.meets hkeep) hblocks).imp ?_ fun _ => id)
      rintro _ rfl
      exact hu
    · obtain ⟨m', htoken, -, hm'⟩ := h.drop ht hdrop
      exact .inl ⟨m', htoken, .reading hm'⟩
  | @brace left tags hleft htags hopen h =>
    have htags' : ∀ x ∈ tags ++ [t], x.kind.isTag = true := by
      intro x hx
      rcases List.mem_append.mp hx with hx | hx
      · exact htags x hx
      · exact List.mem_singleton.mp hx ▸ ht
    exact .inl ⟨m, rfl, .brace hleft htags' hopen (by simpa using h)⟩
  | @single b outer hsingle h =>
    have hno := hblocks { b with oneLiner := true } (by simp [hsingle])
    cases hno

theorem Stands.finished (h : m.Stands [] s []) : ∃ m', token m = (.ok none, m') := by
  cases h with
  | reading h =>
    rcases h.facing with ⟨hp, hl⟩ | ⟨t, rest, hts, -, -, -⟩
    · obtain ⟨l', hsift⟩ := siftLexer_gives m.last hl
      have hsig : significant m = (.ok none, { m with lexer := l' }) := by
        rw [significant_apply_none hp, siftOn, hsift]
      refine ⟨{ m with lexer := l' }, ?_⟩
      rw [token, Act.bind_of_ok hsig]
      simp [settleBlock, Act.bind_apply, Act.state, h.blockAhead]
    · cases hts
  | brace hleft htags hblocks h => exact absurd rfl hblocks
  | single hblocks h => cases hblocks

end Masker

end MaskedTaint
