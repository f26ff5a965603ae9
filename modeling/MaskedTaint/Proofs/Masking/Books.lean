import MaskedTaint.Proofs.Lexeme.Kinds
import MaskedTaint.Proofs.Masking.Names
import MaskedTaint.Proofs.Masking.Reading

/-! The books of the masker: its account of names, blocks and parentheses. Reading on in the
text leaves the books as they are, so a symbol is delivered in three steps: a lexeme is found,
it settles whether an announced block has braces, and it is masked and entered in the books. -/

namespace MaskedTaint

def Kind.opensBranch : Kind → Bool
  | ifWord | elseIfWord | whileWord | forWord | forEachWord | switchWord => true
  | _ => false

namespace Symbol

def IsListed (s : Symbol) : Prop := ∀ kind, s = plain kind → kind.IsListed

def IsLexeme (s : Symbol) : Prop := ∃ kind, s = plain kind ∧ kind.IsListed

def opensBlock : Symbol → Bool
  | plain .elseWord | plain .doWord | plain .functionWord => true
  | plain kind => kind.opensBranch
  | _ => false

end Symbol

def Watch.listed : Watch where
  kept _ := True
  found t _ := t.kind.IsListed

theorem Watch.holds_listed : Watch.listed.Holds where
  lexeme _ h := ⟨trivial, Lexer.isListed_next h⟩
  finished _ _ := ⟨trivial, trivial⟩
  failed _ _ := trivial

namespace Masker

structure Books where
  vars : Names
  ops : Names
  funcs : Names
  parens : Nat
  innerParens : Nat
  blocks : List CodeBlock
  blockAhead : Bool
  inDeclaration : Bool
  inCall : Bool

def books (m : Masker) : Books :=
  ⟨m.vars, m.ops, m.funcs, m.parens, m.innerParens, m.blocks, m.blockAhead, m.inDeclaration, m.inCall⟩

def IsListed (m : Masker) : Prop := ∀ t, m.peeked = some t → t.kind.IsListed

theorem IsListed.abides {m : Masker} (h : m.IsListed) : m.Abides Watch.listed := ⟨trivial, h⟩

def ReadsOn (m m' : Masker) : Prop := m'.books = m.books ∧ (m.IsListed → m'.IsListed)

theorem ReadsOn.refl (m : Masker) : ReadsOn m m := ⟨rfl, id⟩

theorem ReadsOn.trans {m₁ m₂ m₃ : Masker} (h : ReadsOn m₁ m₂) (h' : ReadsOn m₂ m₃) : ReadsOn m₁ m₃ :=
  ⟨h'.1.trans h.1, h'.2 ∘ h.2⟩

/-! ### Reading on -/

theorem onFind_readsOn (wanted : Kind → Bool) (m : Masker) :
    ReadsOn m (onLexer (Lexer.find wanted) m).2 := by
  unfold onLexer Act.onPart
  split <;> exact ⟨rfl, id⟩

theorem unpeek_readsOn (m : Masker) : ReadsOn m { m with peeked := none } :=
  ⟨rfl, fun _ t h => by cases h⟩

theorem skipTo_readsOn (wanted : Kind → Bool) (m : Masker) : ReadsOn m (skipTo wanted m).2 := by
  cases h : m.peeked with
  | none =>
    rw [skipTo_apply_none wanted h]
    exact onFind_readsOn wanted m
  | some t =>
    rw [skipTo_apply_some wanted h]
    split
    · exact unpeek_readsOn m
    · exact (unpeek_readsOn m).trans (onFind_readsOn wanted _)

variable {m m' : Masker} {u : Masked}

theorem skipTo_listed {wanted : Kind → Bool} {t : Lexeme} (hm : m.IsListed)
    (h : skipTo wanted m = (.ok (some t), m')) : t.kind.IsListed := by
  have hbrings := Watch.holds_listed.skipTo wanted hm.abides
  rw [h] at hbrings
  exact (hbrings.found t rfl).1

theorem peek_readsOn (m : Masker) : ReadsOn m (peek m).2 := by
  cases h : m.peeked with
  | some t =>
    simp only [peek, Act.bind_apply, Act.state, h]
    exact .refl m
  | none =>
    have hread := skipTo_readsOn (fun kind => !kind.isLayout) m
    rcases hs : skipTo (fun kind => !kind.isLayout) m with ⟨e | t, m'⟩
    · simp only [peek, skipLayout, Act.bind_apply, Act.state, h, hs]
      rwa [hs] at hread
    · simp only [peek, skipLayout, Act.bind_apply, Act.state, h, hs, Act.update]
      rw [hs] at hread
      refine ⟨hread.1, fun hm u hu => ?_⟩
      cases hu
      exact skipTo_listed hm hs

theorem siftOn_readsOn (m : Masker) : ReadsOn m (siftOn m).2 := by
  unfold siftOn
  split <;> exact ⟨rfl, id⟩

theorem significant_readsOn (m : Masker) : ReadsOn m (significant m).2 := by
  cases h : m.peeked with
  | none =>
    rw [significant_apply_none h]
    exact siftOn_readsOn m
  | some t =>
    rw [significant_apply_some h]
    split
    · exact unpeek_readsOn m
    · refine ReadsOn.trans ?_ (siftOn_readsOn _)
      exact ⟨rfl, fun _ t h => by cases h⟩

theorem sifts_isLexeme : Watch.listed.Sifts fun u _ => u.symbol.IsLexeme where
  sift ht h := by
    rcases sift_cases h with ⟨rfl, -⟩ | ⟨hs, -⟩
    · exact ⟨_, rfl, ht⟩
    · exact ⟨_, hs, by simp [Kind.IsListed]⟩
  masked ht _ := ⟨_, rfl, ht⟩

/-! ### Announced blocks -/

/-- The books before and after a lexeme has settled whether an announced block has braces. -/
inductive Settles (b : Books) : Books → Prop
  | idle (h : b.blockAhead = false) : Settles b b
  | brace (h : b.blockAhead = true) : Settles b { b with blockAhead := false }
  | oneLiner {c : CodeBlock} {cs : List CodeBlock} (h : b.blockAhead = true) (hc : b.blocks = c :: cs) :
      Settles b { b with blocks := { c with oneLiner := true } :: cs, blockAhead := false }

theorem settleBlock_settles {t u : Option Masked} (h : settleBlock t m = (.ok u, m')) :
    Settles m.books m'.books := by
  rw [settleBlock, Act.state_bind] at h
  split at h
  · rename_i hahead
    dsimp only at h
    split at h
    · have hread := skipTo_readsOn (fun kind => !kind.isLayout) m
      obtain ⟨v, m₁, hskip, h⟩ := Act.bind_eq_ok_iff.mp h
      cases h
      rw [skipLayout] at hskip
      rw [hskip] at hread
      have hbooks : ({ m₁ with blockAhead := false } : Masker).books =
          { m.books with blockAhead := false } := by
        rw [← hread.1]
        rfl
      rw [hbooks]
      exact .brace hahead
    · cases hb : m.blocks with
      | nil =>
        rw [hb] at h
        cases h
      | cons c cs =>
        rw [hb] at h
        cases h
        exact .oneLiner hahead hb
  · rename_i hahead
    cases h
    exact .idle (Bool.eq_false_iff.mpr hahead)

/-! ### Masking -/

/-- A lexeme `t` and the books before it is masked, and the symbol and the books after. -/
inductive Enters (b : Books) (t : Masked) : Masked → Books → Prop
  | name (h : t.symbol = .plain .dollarName) :
      Enters b t { t with symbol := .var (b.vars.number t.text).1 }
        { b with vars := (b.vars.number t.text).2 }
  | assign (h : t.symbol = .plain .operator) : Enters b t { t with symbol := .op 0 } b
  | operator (h : t.symbol = .plain .operator) :
      Enters b t { t with symbol := .op (b.ops.number t.text).1 }
        { b with ops := (b.ops.number t.text).2 }
  | branch {kind : Kind} (h : t.symbol = .plain kind) (hkind : kind.opensBranch = true) :
      Enters b t t { b with blocks := ⟨false, .branch⟩ :: b.blocks, parens := b.parens + 1 }
  | alternative (h : t.symbol = .plain .elseWord) :
      Enters b t t { b with blocks := ⟨false, .alternative⟩ :: b.blocks, blockAhead := true }
  | doBlock (h : t.symbol = .plain .doWord) :
      Enters b t t { b with blocks := ⟨false, .doBlock⟩ :: b.blocks, blockAhead := true }
  | function (h : t.symbol = .plain .functionWord) :
      Enters b t t { b with blocks := ⟨false, .function none⟩ :: b.blocks, inDeclaration := true }
  | innerParen (h : t.symbol = .plain .leftParen) :
      Enters b t t { b with innerParens := b.innerParens + 1 }
  | closeInner (h : t.symbol = .plain .rightParen) :
      Enters b t t { b with innerParens := b.innerParens - 1 }
  | endCall (h : t.symbol = .plain .rightParen) (hcall : b.inCall = true) :
      Enters b t { t with symbol := .endParens } { b with parens := b.parens - 1, inCall := false }
  | endParens {ahead : Bool} (h : t.symbol = .plain .rightParen) (hcall : b.inCall = false) :
      Enters b t { t with symbol := .endParens } { b with parens := b.parens - 1, blockAhead := ahead }
  | leave {c : CodeBlock} {cs : List CodeBlock} {parens : Nat}
      (h : t.symbol = .plain .semicolon ∧ c.oneLiner = true ∨
        t.symbol = .plain .rightBrace ∧ c.oneLiner = false)
      (hc : b.blocks = c :: cs) :
      Enters b t { t with symbol := .endBlock } { b with blocks := cs, parens := parens }
  | leaveFunction {c : CodeBlock} {cs : List CodeBlock} {number : Option Nat}
      (h : t.symbol = .plain .rightBrace) (hc : b.blocks = c :: cs)
      (hkind : c.kind = .function number) :
      Enters b t { t with symbol := .endFunction } { b with blocks := cs }
  | drop {c : CodeBlock} {cs : List CodeBlock} (h : t.symbol = .plain .rightBrace)
      (hc : b.blocks = c :: cs) : Enters b t t { b with blocks := cs }
  | declare {c : CodeBlock} {cs : List CodeBlock} {number : Option Nat} (h : t.symbol = .plain .word)
      (hdecl : b.inDeclaration = true) (hc : b.blocks = c :: cs) (hkind : c.kind = .function number) :
      Enters b t { t with symbol := .func (b.funcs.number t.text).1 }
        { b with
          funcs := (b.funcs.number t.text).2
          blocks := { c with kind := .function (some (b.funcs.number t.text).1) } :: cs
          parens := b.parens + 1
          inDeclaration := false }
  | call (h : t.symbol = .plain .word) (hdecl : b.inDeclaration = false) :
      Enters b t { t with symbol := .call (b.funcs.number t.text).1 }
        { b with funcs := (b.funcs.number t.text).2, parens := b.parens + 1, inCall := true }
  | word (h : t.symbol = .plain .word) (hdecl : b.inDeclaration = false) :
      Enters b t t { b with funcs := (b.funcs.number t.text).2 }
  | other (h : t.symbol.opensBlock = false) : Enters b t t b

section

variable {m m' : Masker} {t u : Masked}

theorem openBranch_enters {kind : Kind} (ht : t.symbol = .plain kind)
    (hkind : kind.opensBranch = true)
    (h : (openBranch >>= fun _ => pure t : Masking Masked) m = (.ok u, m')) :
    Enters m.books t u m'.books := by
  obtain ⟨_, m₁, hopen, hpure⟩ := Act.bind_eq_ok_iff.mp h
  cases hpure
  rw [openBranch, Act.update_bind] at hopen
  obtain ⟨_, m₂, hskip, hpure⟩ := Act.bind_eq_ok_iff.mp hopen
  cases hpure
  have hread := skipTo_readsOn (· == .leftParen)
    { m with blocks := ⟨false, .branch⟩ :: m.blocks, parens := m.parens + 1 }
  rw [hskip] at hread
  rw [hread.1]
  exact .branch ht hkind

theorem leaveBlock_books {b : CodeBlock} (h : leaveBlock b m = (.ok (), m')) :
    ∃ parens, m'.books = { m.books with blocks := m.blocks.tail, parens := parens } := by
  by_cases hdo : (b.kind == .doBlock) = true
  · simp only [leaveBlock, hdo, if_true, Act.update_bind] at h
    obtain ⟨_, m₁, hskip, htail⟩ := Act.bind_eq_ok_iff.mp h
    cases htail
    have hread := skipTo_readsOn (· == .whileWord) { m with parens := m.parens + 1 }
    rw [hskip] at hread
    have hbooks : ({ m₁ with blocks := m₁.blocks.tail } : Masker).books =
        { m₁.books with blocks := m₁.books.blocks.tail } := rfl
    rw [hbooks, hread.1]
    exact ⟨m.parens + 1, rfl⟩
  · simp only [leaveBlock, hdo] at h
    cases h
    exact ⟨m.parens, rfl⟩

theorem leaveBlock_enters {c : CodeBlock} {cs : List CodeBlock} (hb : m.blocks = c :: cs)
    (ht : t.symbol = .plain .semicolon ∧ c.oneLiner = true ∨
      t.symbol = .plain .rightBrace ∧ c.oneLiner = false)
    (h : (leaveBlock c >>= fun _ => pure { t with symbol := .endBlock } : Masking Masked) m =
      (.ok u, m')) : Enters m.books t u m'.books := by
  obtain ⟨_, m₁, hleave, hpure⟩ := Act.bind_eq_ok_iff.mp h
  cases hpure
  obtain ⟨parens, hbooks⟩ := leaveBlock_books hleave
  rw [hbooks, hb, List.tail_cons]
  exact .leave ht hb

theorem endStatement_enters (ht : t.symbol = .plain .semicolon)
    (h : endStatement t m = (.ok u, m')) : Enters m.books t u m'.books := by
  have hother : Enters m.books t t m.books :=
    .other (by simp [ht, Symbol.opensBlock, Kind.opensBranch])
  rw [endStatement, Act.state_bind] at h
  cases hb : m.blocks with
  | nil =>
    rw [hb] at h
    cases h
    exact hother
  | cons c cs =>
    simp only [hb] at h
    split at h
    · rename_i hone
      exact leaveBlock_enters hb (.inl ⟨ht, hone⟩) h
    · cases h
      exact hother

theorem closeBrace_enters (ht : t.symbol = .plain .rightBrace)
    (h : closeBrace t m = (.ok u, m')) : Enters m.books t u m'.books := by
  rw [closeBrace, Act.state_bind] at h
  cases hb : m.blocks with
  | nil =>
    rw [hb] at h
    cases h
    exact .other (by simp [ht, Symbol.opensBlock, Kind.opensBranch])
  | cons c cs =>
    simp only [hb] at h
    by_cases hkind : ∃ number, c.kind = .function number
    · obtain ⟨number, hkind⟩ := hkind
      simp only [hkind] at h
      cases h
      exact .leaveFunction ht hb hkind
    · have hblock : (if c.oneLiner = true then
          ((Act.update fun m => { m with blocks := cs }) >>= fun _ => pure t : Masking Masked) m
          else (leaveBlock c >>= fun _ => pure { t with symbol := .endBlock } : Masking Masked) m) =
          (.ok u, m') := by
        cases hk : c.kind with
        | function number => exact absurd ⟨number, hk⟩ hkind
        | branch | alternative | doBlock => rw [← h, hk]; split <;> rfl
      split at hblock
      · cases hblock
        exact .drop ht hb
      · rename_i hone
        exact leaveBlock_enters hb (.inr ⟨ht, Bool.eq_false_iff.mpr hone⟩) hblock

theorem closeParen_enters (ht : t.symbol = .plain .rightParen) :
    Enters m.books t (m.closeParen t).1 (m.closeParen t).2.books := by
  unfold closeParen
  split
  · exact .other (by simp [ht, Symbol.opensBlock, Kind.opensBranch])
  · split
    · dsimp only
      split
      · rename_i hcall
        exact .endCall ht hcall
      · rename_i hcall
        split
        iterate 2 exact .endParens ht (Bool.eq_false_iff.mpr hcall)
    · exact .closeInner ht

theorem declare_enters (ht : t.symbol = .plain .word) (hdecl : m.inDeclaration = true)
    (h : declare (m.funcs.number t.text).1 t { m with funcs := (m.funcs.number t.text).2 } =
      (.ok u, m')) : Enters m.books t u m'.books := by
  rw [declare, Act.state_bind] at h
  cases hb : m.blocks with
  | nil =>
    simp only [hb] at h
    cases h
  | cons c cs =>
    simp only [hb] at h
    cases hkind : c.kind with
    | function number =>
      simp only [hkind, Act.update_bind] at h
      obtain ⟨_, m₁, hskip, hrest⟩ := Act.bind_eq_ok_iff.mp h
      rw [Act.update_bind] at hrest
      cases hrest
      have hread := skipTo_readsOn (· == .leftParen)
        { m with
          funcs := (m.funcs.number t.text).2
          blocks := { c with kind := .function (some (m.funcs.number t.text).1) } :: cs }
      rw [hskip] at hread
      have hbooks : ({ m₁ with parens := m₁.parens + 1, inDeclaration := false } : Masker).books =
          { m₁.books with parens := m₁.books.parens + 1, inDeclaration := false } := rfl
      rw [hbooks, hread.1]
      exact .declare ht hdecl hb hkind
    | branch | alternative | doBlock => simp only [hkind] at h; cases h

theorem callOrWord_enters (ht : t.symbol = .plain .word) (hdecl : m.inDeclaration = false)
    (h : callOrWord (m.funcs.number t.text).1 t { m with funcs := (m.funcs.number t.text).2 } =
      (.ok u, m')) : Enters m.books t u m'.books := by
  obtain ⟨next, m₁, hpeek, h⟩ := Act.bind_eq_ok_iff.mp h
  have hread := peek_readsOn { m with funcs := (m.funcs.number t.text).2 }
  rw [hpeek] at hread
  by_cases hnext : next.map Lexeme.kind = some .leftParen
  · rw [if_pos hnext, Act.update_bind] at h
    cases h
    have hbooks : ({ m₁ with peeked := none, parens := m₁.parens + 1, inCall := true } : Masker).books =
        { m₁.books with parens := m₁.books.parens + 1, inCall := true } := rfl
    rw [hbooks, hread.1]
    exact .call ht hdecl
  · rw [if_neg hnext] at h
    cases h
    rw [hread.1]
    exact .word ht hdecl

theorem maskWord_enters (ht : t.symbol = .plain .word) (h : maskWord t m = (.ok u, m')) :
    Enters m.books t u m'.books := by
  simp only [maskWord, Act.state_bind, Act.update_bind] at h
  split at h
  · exact declare_enters ht ‹_› h
  · rename_i hdecl
    exact callOrWord_enters ht (Bool.eq_false_iff.mpr hdecl) h

theorem skipOffset_readsOn (m : Masker) : ReadsOn m (skipOffset m).2 := by
  have hpeek := peek_readsOn m
  rw [skipOffset, Act.bind_apply]
  rcases hp : peek m with ⟨e | next, m₁⟩
  · rwa [hp] at hpeek
  · rw [hp] at hpeek
    dsimp only
    split
    · have hskip := skipTo_readsOn (· == .rightBracket) m₁
      rw [Act.bind_apply]
      rcases hs : skipTo (· == .rightBracket) m₁ with ⟨e | v, m₂⟩
      iterate 2
        · rw [hs] at hskip
          exact hpeek.trans hskip
    · exact hpeek

def EntersAs (t : Masked) (x : Masking Masked) : Prop :=
  ∀ m u m', x m = (.ok u, m') → Enters m.books t u m'.books

theorem mask_enters (t : Masked) : EntersAs t (mask t) := by
  unfold mask
  split
  · rename_i ht
    rintro m u m' ⟨⟩
    exact .name ht
  · rename_i ht
    intro m u m' h
    simp only [pureStep, maskOperator] at h
    split at h
    · cases h
      exact .assign ht
    · cases h
      exact .operator ht
  iterate 6 exact fun m u m' => openBranch_enters ‹_› rfl
  · rintro m u m' ⟨⟩
    exact .alternative ‹_›
  · rintro m u m' ⟨⟩
    exact .doBlock ‹_›
  · rename_i ht
    intro m u m' h
    rw [Act.update_bind] at h
    by_cases hparens : m.parens = 0
    · simp only [hparens, if_true] at h
      cases h
      exact .other (by simp [ht, Symbol.opensBlock, Kind.opensBranch])
    · simp only [hparens, if_false] at h
      cases h
      exact .innerParen ht
  · rintro m u m' ⟨⟩
    exact closeParen_enters ‹_›
  · exact fun m u m' => endStatement_enters ‹_›
  · exact fun m u m' => closeBrace_enters ‹_›
  · rintro m u m' ⟨⟩
    exact .function ‹_›
  · exact fun m u m' => maskWord_enters ‹_›
  · rename_i ht
    intro m u m' h
    have hread := skipOffset_readsOn m
    obtain ⟨_, m₁, hskip, hpure⟩ := Act.bind_eq_ok_iff.mp h
    cases hpure
    rw [hskip] at hread
    rw [hread.1]
    exact .other (by simp [ht, Symbol.opensBlock, Kind.opensBranch])
  · rintro m u m' ⟨⟩
    refine .other ?_
    unfold Symbol.opensBlock Kind.opensBranch
    split <;> simp_all

/-! ### Symbols -/

theorem upcoming_settles {t : Option Masked} (h : upcoming m = (.ok t, m')) :
    Settles m.books m'.books := by
  obtain ⟨v, m₁, hsig, hsettle⟩ := Act.bind_eq_ok_iff.mp h
  have hread := significant_readsOn m
  rw [hsig] at hread
  exact hread.1 ▸ settleBlock_settles hsettle

theorem upcoming_isLexeme (hm : m.IsListed) (h : upcoming m = (.ok (some t), m')) :
    t.symbol.IsLexeme := by
  have hbrings := Watch.holds_listed.upcoming sifts_isLexeme hm.abides
  rw [h] at hbrings
  exact hbrings.found t rfl

section

variable (hm : m.IsListed) (h : token m = (.ok (some u), m'))

include hm h

theorem token_masks :
    ∃ t m₁ m₂, t.symbol.IsLexeme ∧ Settles m.books m₁.books ∧ mask t m₁ = (.ok u, m₂) ∧
      m'.books = m₂.books := by
  obtain ⟨t, m₁, m₂, hup, hmask, rfl⟩ := upcoming_of_token h
  exact ⟨t, m₁, m₂, upcoming_isLexeme hm hup, upcoming_settles hup, hmask, rfl⟩

theorem token_enters : ∃ t b, t.symbol.IsLexeme ∧ Settles m.books b ∧ Enters b t u m'.books := by
  obtain ⟨t, m₁, m₂, hlexeme, hsettles, hmask, hbooks⟩ := token_masks hm h
  exact ⟨t, m₁.books, hlexeme, hsettles, hbooks ▸ mask_enters t m₁ u m₂ hmask⟩

theorem token_vars : u.symbol = .var (m.vars.number u.text).1 ∧ m'.vars = (m.vars.number u.text).2 ∨
      (∀ n, u.symbol ≠ .var n) ∧ m'.vars = m.vars := by
  obtain ⟨t, b, ⟨kind, hkind, -⟩, hsettles, henters⟩ := token_enters hm h
  have hvars : b.vars = m.vars := by cases hsettles <;> rfl
  have hplain : ∀ n, t.symbol ≠ .var n := fun n hn => by cases hkind.symm.trans hn
  have hbooks : m'.vars = m'.books.vars := rfl
  rw [hbooks, ← hvars]
  generalize m'.books = b' at henters
  cases henters with
  | name => exact .inl ⟨rfl, rfl⟩
  | assign | operator | endCall | endParens | leave | leaveFunction | declare | call =>
    exact .inr ⟨fun n => Symbol.noConfusion, rfl⟩
  | _ => exact .inr ⟨hplain, rfl⟩

/-! ### Growing tables -/

end

def names (m : Masker) : Names × Names × Names := (m.vars, m.ops, m.funcs)

structure Grows (m m' : Masker) : Prop where
  vars : m.vars.Grown m'.vars
  ops : m.ops.Grown m'.ops
  funcs : m.funcs.Grown m'.funcs
  listed : m.IsListed → m'.IsListed

theorem Grows.of_names (h : m'.names = m.names) (hlisted : m.IsListed → m'.IsListed) :
    Grows m m' := by
  simp only [names, Prod.mk.injEq] at h
  obtain ⟨hvars, hops, hfuncs⟩ := h
  exact ⟨hvars ▸ .refl _, hops ▸ .refl _, hfuncs ▸ .refl _, hlisted⟩

theorem Grows.refl (m : Masker) : Grows m m := .of_names rfl id

theorem Grows.trans (m₁ m₂ m₃ : Masker) (h : Grows m₁ m₂) (h' : Grows m₂ m₃) : Grows m₁ m₃ :=
  ⟨h.vars.trans h'.vars, h.ops.trans h'.ops, h.funcs.trans h'.funcs, h'.listed ∘ h.listed⟩

theorem ReadsOn.grows (h : ReadsOn m m') : Grows m m' :=
  .of_names (congrArg (fun b : Books => (b.vars, b.ops, b.funcs)) h.1) h.2

abbrev Growing {α : Type} (x : Masking α) : Prop := Act.Leads Grows x

theorem steady_grows : SteadyAhead Grows where
  trans := Grows.trans
  same _ hpeeked hvars hops hfuncs :=
    .of_names (by rw [names, names, hvars, hops, hfuncs]) fun hm t ht => hm t (hpeeked ▸ ht)
  unpeeked _ := .of_names rfl fun _ _ ht => by cases ht
  vars m text := ⟨m.vars.grown_number text, .refl _, .refl _, id⟩
  ops m text := ⟨.refl _, m.ops.grown_number text, .refl _, id⟩
  funcs m text := ⟨.refl _, .refl _, m.funcs.grown_number text, id⟩
  skipTo wanted m := (skipTo_readsOn wanted m).grows
  peek m := (peek_readsOn m).grows

theorem maskWord_apply (m : Masker) (t : Masked) :
    maskWord t m = (if m.inDeclaration then declare (m.funcs.number t.text).1 t
      else callOrWord (m.funcs.number t.text).1 t) { m with funcs := (m.funcs.number t.text).2 } := rfl

theorem token_growing : Growing token := steady_grows.token fun m => (significant_readsOn m).grows

end

end Masker

end MaskedTaint
