import MaskedTaint.Proofs.Masking.Books

/-! Texts that can be read. Where the lexer alone comes to the end of a text, the masker does so
too, unless it meets a word that it takes for the name of a function although the innermost block
is not that of a function: the word `function` makes it expect a name until one is given. -/

namespace MaskedTaint

namespace Lexer

variable {l l' : Lexer} {t : Lexeme}

def Readable (l : Lexer) : Prop := l.scan.2.1 = none

instance (l : Lexer) : Decidable l.Readable := inferInstanceAs (Decidable (_ = _))

theorem Readable.lexeme (h : l.Readable) (hn : l.next = .lexeme t l') : l'.Readable := by
  rwa [Readable, scan_of_lexeme hn] at h

theorem Readable.not_failed (h : l.Readable) {e : LexError} (hn : l.next = .failed e l') : False := by
  rw [Readable, scan_of_failed hn] at h
  cases h

theorem readable_of_finished (hn : l.next = .finished l') : l'.Readable := (scan_finished hn).2

theorem Readable.find (h : l.Readable) (wanted : Kind → Bool) :
    ∃ o l', l.find wanted = (.ok o, l') ∧ l'.Readable := by
  fun_induction Lexer.find wanted l with
  | case1 l t l' hn _ => exact ⟨_, _, rfl, h.lexeme hn⟩
  | case2 l t l' hn _ ih => exact ih (h.lexeme hn)
  | case3 l l' hn => exact ⟨_, _, rfl, readable_of_finished hn⟩
  | case4 l e l' hn => exact (h.not_failed hn).elim

end Lexer

namespace Masker

open Act (Ensures)

variable {α : Type} {P : Books → Prop}

theorem siftLexer_readable (last : Option Masked) {l : Lexer} (h : l.Readable) :
    ∃ o last' l', siftLexer last l = (.ok o, last', l') ∧ l'.Readable := by
  fun_induction siftLexer last l with
  | case1 last l t l' hn u hkeep => exact ⟨_, _, _, rfl, h.lexeme hn⟩
  | case2 last l t l' hn last' hdrop ih => exact ih (h.lexeme hn)
  | case3 last l l' hn => exact ⟨_, _, _, rfl, Lexer.readable_of_finished hn⟩
  | case4 last l e l' hn => exact (h.not_failed hn).elim

structure Holding (P : Books → Prop) (m : Masker) : Prop where
  readable : m.lexer.Readable
  books : P m.books

abbrev Sure (P Q : Books → Prop) (x : Masking α) : Prop :=
  Ensures (Holding P) (Holding Q) (fun _ => False) (fun _ => True) x

theorem onFind_sure (wanted : Kind → Bool) : Sure P P (onLexer (Lexer.find wanted)) := by
  intro m hm
  obtain ⟨o, l, hfind, hl⟩ := hm.readable.find wanted
  have hrun : onLexer (Lexer.find wanted) m = (.ok o, { m with lexer := l }) := by
    simp only [onLexer, Act.onPart, hfind]
  rw [hrun]
  exact .ok ⟨hl, hm.books⟩ trivial

theorem skipTo_sure (wanted : Kind → Bool) : Sure P P (skipTo wanted) := by
  intro m hm
  cases hp : m.peeked with
  | none =>
    rw [skipTo_apply_none wanted hp]
    exact onFind_sure wanted m hm
  | some t =>
    have hun : Holding P { m with peeked := none } := ⟨hm.readable, hm.books⟩
    rw [skipTo_apply_some wanted hp]
    split
    · exact .ok hun trivial
    · exact onFind_sure wanted _ hun

theorem peek_sure : Sure P P peek := by
  refine .look fun m hm => ?_
  split
  · exact fun m' hm' => hm' ▸ .ok hm trivial
  · refine Ensures.weaken ?_ (fun m' hm' => hm' ▸ hm)
    exact (skipTo_sure _).bind fun t _ =>
      .after (J := Holding P) (fun _ hm => ⟨hm.readable, hm.books⟩) (.pure trivial)

theorem significant_sure : Sure P P significant := by
  have hsift : ∀ m : Masker, Holding P m → Act.Lands (Holding P) (fun _ => False) (fun _ => True) (siftOn m) := by
    intro m hm
    obtain ⟨o, last, l, hrun, hl⟩ := siftLexer_readable m.last hm.readable
    have hsift : siftOn m = (.ok o, { m with last := last, lexer := l }) := by
      simp only [siftOn, hrun]
    rw [hsift]
    exact .ok ⟨hl, hm.books⟩ trivial
  intro m hm
  cases hp : m.peeked with
  | none =>
    rw [significant_apply_none hp]
    exact hsift m hm
  | some t =>
    rw [significant_apply_some hp]
    split
    · exact .ok ⟨hm.readable, hm.books⟩ trivial
    · exact hsift _ ⟨hm.readable, hm.books⟩

def Books.Announced (b : Books) : Prop := b.blockAhead = true → b.blocks ≠ []

def Books.Settled (b : Books) : Prop := b.blockAhead = false

theorem settleBlock_sure (t : Option Masked) : Sure Books.Announced Books.Settled (settleBlock t) := by
  refine .look fun m hm => ?_
  split
  · rename_i hahead
    dsimp only
    split
    · refine Ensures.weaken ?_ (fun m' hm' => hm' ▸ hm)
      exact (skipTo_sure _).bind fun _ _ =>
        .after (J := Holding Books.Settled) (fun _ hm => ⟨hm.readable, rfl⟩) (.pure trivial)
    · split
      · rename_i hnil
        exact absurd hnil (hm.books hahead)
      · exact .after (J := Holding Books.Settled) (fun m' hm' => ⟨hm' ▸ hm.readable, rfl⟩) (.pure trivial)
  · rename_i hahead
    exact fun m' hm' => hm' ▸ .ok ⟨hm.readable, Bool.eq_false_iff.mpr hahead⟩ trivial

/-! ### Masking -/

variable {m m' : Masker} {t : Masked}

theorem Holding.announced (h : Holding Books.Settled m) : Holding Books.Announced m :=
  ⟨h.readable, fun hahead => by simp [show m.books.blockAhead = false from h.books] at hahead⟩

theorem settled_after {f : Masker → Masker} {x : Unit → Masking α} {Q : Books → Prop}
    (hlexer : ∀ m, (f m).lexer = m.lexer) (hahead : ∀ m, (f m).blockAhead = m.blockAhead)
    (hx : Sure Books.Settled Q (x ())) : Sure Books.Settled Q (Act.update f >>= x) :=
  .after (J := Holding Books.Settled)
    (fun m hm => ⟨(hlexer m).symm ▸ hm.readable, (hahead m).trans hm.books⟩) hx

theorem leaveBlock_sure (b : CodeBlock) : Sure Books.Settled Books.Settled (leaveBlock b) := by
  have hleave : Sure Books.Settled Books.Settled
      (Act.update fun m => { m with blocks := m.blocks.tail } : Masking Unit) :=
    Ensures.update fun m hm => ⟨hm.readable, hm.books⟩
  unfold leaveBlock
  split
  · exact settled_after (fun _ => rfl) (fun _ => rfl) ((skipTo_sure _).bind fun _ _ => hleave)
  · exact hleave

theorem endStatement_sure (t : Masked) : Sure Books.Settled Books.Settled (endStatement t) := by
  refine .look fun m hm => .weaken (I := Holding Books.Settled) ?_ (fun m' hm' => hm' ▸ hm)
  split
  · split
    · exact (leaveBlock_sure _).bind fun _ _ => .pure trivial
    · exact .pure trivial
  · exact .pure trivial

theorem closeBrace_sure (t : Masked) : Sure Books.Settled Books.Settled (closeBrace t) := by
  refine .look fun m hm => .weaken (I := Holding Books.Settled) ?_ (fun m' hm' => hm' ▸ hm)
  split
  · split
    · exact settled_after (fun _ => rfl) (fun _ => rfl) (.pure trivial)
    · split
      · exact settled_after (fun _ => rfl) (fun _ => rfl) (.pure trivial)
      · exact (leaveBlock_sure _).bind fun _ _ => .pure trivial
  · exact .pure trivial

theorem callOrWord_sure (number : Nat) (t : Masked) :
    Sure Books.Settled Books.Settled (callOrWord number t) := by
  refine peek_sure.bind fun next _ => ?_
  split
  · exact settled_after (fun _ => rfl) (fun _ => rfl) (.pure trivial)
  · exact .pure trivial

/-- Why a lexeme cannot be masked: it is taken for the name of a function, but the innermost
block is not that of a function. -/
def misnamed (m : Masker) (t : Masked) : Option MaskError :=
  if t.symbol = .plain .word ∧ m.inDeclaration = true then
    match m.blocks with
    | [] => some .noBlock
    | b :: _ =>
      match b.kind with
      | .function _ => none
      | _ => some .notFunction
  else none

theorem mask_of_misnamed {e : MaskError} (h : m.misnamed t = some e) :
    ∃ m', mask t m = (.error e, m') := by
  unfold misnamed at h
  split at h
  · rename_i hword
    have hmask : mask t m = maskWord t m := by
      unfold mask
      simp only [hword.1]
    rw [hmask, maskWord_apply, if_pos hword.2]
    unfold declare
    rw [Act.state_bind]
    dsimp only
    split at h
    · rename_i hnil
      cases h
      simp only [hnil]
      exact ⟨_, rfl⟩
    · rename_i b bs hcons
      simp only [hcons]
      split at h
      · cases h
      · rename_i hkind
        cases h
        cases hk : b.kind with
        | function number => exact (hkind number hk).elim
        | branch | alternative | doBlock => exact ⟨_, rfl⟩
  · cases h

theorem declare_sure (hm : Holding Books.Settled m)
    (hword : t.symbol = .plain .word) (hdecl : m.inDeclaration = true) (h : m.misnamed t = none)
    (number : Nat) (funcs : Names) :
    Act.Lands (Holding Books.Settled) (fun _ => False) (fun _ => True)
      (declare number t { m with funcs := funcs }) := by
  unfold misnamed at h
  rw [if_pos ⟨hword, hdecl⟩] at h
  unfold declare
  rw [Act.state_bind]
  dsimp only
  split at h
  · cases h
  · rename_i b bs hcons
    simp only [hcons]
    split at h
    · rename_i number' hkind
      simp only [hkind]
      have hrest : Sure Books.Settled Books.Settled (do
          Act.update fun m => { m with blocks := { b with kind := .function (some number) } :: bs }
          let _ ← skipTo (· == .leftParen)
          Act.update fun m => { m with parens := m.parens + 1, inDeclaration := false }
          return { t with symbol := .func number }) :=
        settled_after (fun _ => rfl) (fun _ => rfl) ((skipTo_sure _).bind fun _ _ =>
          settled_after (fun _ => rfl) (fun _ => rfl) (.pure trivial))
      exact hrest _ ⟨hm.readable, hm.books⟩
    · cases h

theorem maskWord_sure (hm : Holding Books.Settled m)
    (hword : t.symbol = .plain .word) (h : m.misnamed t = none) :
    Act.Lands (Holding Books.Settled) (fun _ => False) (fun _ => True) (maskWord t m) := by
  rw [maskWord_apply]
  by_cases hdecl : m.inDeclaration = true
  · rw [if_pos hdecl]
    exact declare_sure hm hword hdecl h _ _
  · rw [if_neg hdecl]
    exact callOrWord_sure _ t _ ⟨hm.readable, hm.books⟩

theorem closeParen_announced (hm : Holding Books.Settled m) (t : Masked) :
    Holding Books.Announced (m.closeParen t).2 := by
  unfold closeParen
  dsimp only
  split
  · exact hm.announced
  · split
    · split
      · exact ⟨hm.readable, hm.announced.books⟩
      · split
        · rename_i hblocks
          refine ⟨hm.readable, fun _ hnil => ?_⟩
          have hnil : m.blocks = [] := hnil
          simp [hnil, announcesBlock] at hblocks
        · exact ⟨hm.readable, hm.announced.books⟩
    · exact ⟨hm.readable, hm.announced.books⟩

theorem skipOffset_sure : Sure P P skipOffset := by
  refine peek_sure.bind fun next _ => ?_
  split
  · exact (skipTo_sure _).bind fun _ _ => .pure trivial
  · exact .pure trivial

theorem mask_sure (t : Masked) :
    Ensures (fun m => Holding Books.Settled m ∧ m.misnamed t = none) (Holding Books.Announced)
      (fun _ => False) (fun _ => True) (mask t) := by
  have hsettled : ∀ {x : Masking Masked}, Sure Books.Settled Books.Settled x →
      Ensures (fun m => Holding Books.Settled m ∧ m.misnamed t = none) (Holding Books.Announced)
        (fun _ => False) (fun _ => True) x := fun hx =>
    (hx.weaken fun _ hm => hm.1).imp (fun _ hm => hm.announced) fun _ _ => trivial
  have hbranch : Sure Books.Settled Books.Settled (openBranch >>= fun _ => pure t) :=
    Ensures.bind (J := Holding Books.Settled) (Q := fun _ => True)
      (settled_after (fun _ => rfl) (fun _ => rfl) ((skipTo_sure _).bind fun _ _ => .pure trivial))
      fun _ _ => .pure trivial
  unfold mask
  split
  · exact fun m hm => .ok ⟨hm.1.readable, hm.1.announced.books⟩ trivial
  · refine fun m hm => .ok ?_ trivial
    unfold maskOperator
    split <;> exact ⟨hm.1.readable, hm.1.announced.books⟩
  iterate 6 exact hsettled hbranch
  iterate 2 exact fun m hm => .ok ⟨hm.1.readable, fun _ => List.cons_ne_nil _ _⟩ trivial
  · refine hsettled (settled_after (fun m => ?_) (fun m => ?_) (.pure trivial)) <;> split <;> rfl
  · exact fun m hm => .ok (closeParen_announced hm.1 t) trivial
  · exact hsettled (endStatement_sure t)
  · exact hsettled (closeBrace_sure t)
  · exact fun m hm => .ok ⟨hm.1.readable, fun _ => List.cons_ne_nil _ _⟩ trivial
  · rename_i hword
    intro m hm
    have hland := maskWord_sure hm.1 hword hm.2
    revert hland
    generalize maskWord t m = run
    rintro (⟨hs, -⟩ | he)
    · exact .ok hs.announced trivial
    · exact he.elim
  · exact hsettled (skipOffset_sure.bind fun _ _ => .pure trivial)
  · exact hsettled (.pure trivial)

/-! ### Symbols -/

abbrev Fit (m : Masker) : Prop := Holding Books.Announced m

theorem upcoming_sure (hm : m.Fit) :
    ∃ o m', upcoming m = (.ok o, m') ∧ Holding Books.Settled m' := by
  have hland : Sure Books.Announced Books.Settled upcoming :=
    significant_sure.bind fun t _ => settleBlock_sure t
  have hland := hland m hm
  revert hland
  generalize upcoming m = run
  rintro (⟨hs, -⟩ | he)
  · exact ⟨_, _, rfl, hs⟩
  · exact he.elim

theorem token_misnamed {e : MaskError}
    (h : upcoming m = (.ok (some t), m')) (he : m'.misnamed t = some e) :
    ∃ m'', token m = (.error e, m'') := by
  obtain ⟨m'', hmask⟩ := mask_of_misnamed he
  rw [token_of_upcoming h]
  exact ⟨m'', Act.bind_of_error hmask _⟩

theorem token_named (h : upcoming m = (.ok (some t), m'))
    (hm' : Holding Books.Settled m') (hnone : m'.misnamed t = none) :
    ∃ u m'', token m = (.ok (some u), m'') ∧ m''.Fit := by
  have hland := mask_sure t m' ⟨hm', hnone⟩
  rw [token_of_upcoming h]
  rcases hrun : mask t m' with ⟨e | u, m''⟩
  · rw [hrun] at hland
    cases hland with
    | error he => exact he.elim
  · rw [hrun] at hland
    cases hland with
    | ok hs _ => exact ⟨u, _, Act.bind_of_ok hrun _, hs.readable, hs.books⟩

end Masker

end MaskedTaint
