import MaskedTaint.Masking.Masker

/-! Progress of the masker: every symbol uses up text. What lies ahead is measured by
the text, counted twice, and the lexeme read ahead; no step makes it longer, and a step
that delivers something makes it shorter. -/

namespace MaskedTaint

namespace Masker

variable {α β : Type}

def size (m : Masker) : Nat := 2 * m.lexer.rest.length + (if m.peeked.isSome then 1 else 0)

def Shrinks (x : Masking α) : Prop := Act.Leads (fun m m' => m'.size ≤ m.size) x

def Takes (x : Masking (Option α)) : Prop :=
  ∀ m t, (x m).1 = .ok (some t) → (x m).2.size < m.size

theorem Shrinks.pure (a : α) : Shrinks (pure a) := fun _ => Nat.le_refl _

theorem Shrinks.state : Shrinks Act.state := fun _ => Nat.le_refl _

theorem Shrinks.update {f : Masker → Masker} (h : ∀ m, (f m).size ≤ m.size) :
    Shrinks (Act.update f) := h

theorem Shrinks.bind {x : Masking α} {f : α → Masking β} (hx : Shrinks x)
    (hf : ∀ a, Shrinks (f a)) : Shrinks (x >>= f) := by
  refine Act.Leads.bind ?_ hx hf
  intro s t u h h'
  exact Nat.le_trans h' h

theorem Takes.bind {x : Masking α} {f : α → Masking (Option β)} (hx : Shrinks x)
    (hf : ∀ a, Takes (f a)) : Takes (x >>= f) := by
  intro m t h
  have hm := hx m
  rw [Act.bind_apply] at h ⊢
  revert h
  cases hxm : x m with
  | mk r m' =>
    rw [hxm] at hm
    cases r with
    | ok a => exact fun h => Nat.lt_of_lt_of_le (hf a m' t h) hm
    | error e => intro h; cases h

theorem Takes.bind_shrinks {x : Masking (Option α)} {f : Option α → Masking (Option β)}
    (hx : Takes x) (hs : Shrinks x) (hsome : ∀ a, Shrinks (f (some a))) (hnone : Takes (f none)) :
    Takes (x >>= f) := by
  intro m t h
  have hm := hx m
  have hle := hs m
  rw [Act.bind_apply] at h ⊢
  revert h
  cases hxm : x m with
  | mk r m' =>
    rw [hxm] at hm hle
    cases r with
    | ok a =>
      cases a with
      | some a => exact fun _ => Nat.lt_of_le_of_lt (hsome a m') (hm a rfl)
      | none => exact fun h => Nat.lt_of_lt_of_le (hnone m' t h) hle
    | error e => intro h; cases h

theorem Takes.none : Takes (pure none : Masking (Option α)) := fun _ _ h => by cases h

theorem size_unpeeked_le (m : Masker) : ({ m with peeked := none } : Masker).size ≤ m.size := by
  simp [size]

theorem onFind_shrinks (wanted : Kind → Bool) : Shrinks (onLexer (Lexer.find wanted)) := by
  intro m
  have h := Lexer.find_rest_le wanted m.lexer
  unfold onLexer Act.onPart size
  cases hf : Lexer.find wanted m.lexer with
  | mk r l =>
    rw [hf] at h
    dsimp only at h
    cases r <;> dsimp only <;> omega

theorem onFind_takes (wanted : Kind → Bool) : Takes (onLexer (Lexer.find wanted)) := by
  intro m t ht
  have h := Lexer.find_rest_lt wanted m.lexer
  revert ht
  unfold onLexer Act.onPart size
  cases hf : Lexer.find wanted m.lexer with
  | mk r l =>
    rw [hf] at h
    cases r with
    | ok a =>
      intro ht
      cases ht
      have := h t rfl
      simp only at this ⊢
      omega
    | error e => intro ht; cases ht

variable {m : Masker}

theorem size_lt_of_peeked {t : Lexeme} (h : m.peeked = some t) :
    ({ m with peeked := none } : Masker).size < m.size := by
  simp [size, h]

theorem skipTo_apply_some {t : Lexeme} (wanted : Kind → Bool) (h : m.peeked = some t) :
    skipTo wanted m = if wanted t.kind then (.ok (some t), { m with peeked := none })
      else onLexer (Lexer.find wanted) { m with peeked := none } := by
  simp only [skipTo, Act.bind_apply, Act.state, h, Act.update]
  split <;> rfl

theorem skipTo_apply_none (wanted : Kind → Bool) (h : m.peeked = none) :
    skipTo wanted m = onLexer (Lexer.find wanted) m := by
  simp only [skipTo, Act.bind_apply, Act.state, h]

theorem skipTo_shrinks (wanted : Kind → Bool) : Shrinks (skipTo wanted) := by
  intro m
  cases h : m.peeked with
  | none =>
    rw [skipTo_apply_none wanted h]
    exact onFind_shrinks wanted m
  | some t =>
    rw [skipTo_apply_some wanted h]
    split
    · exact size_unpeeked_le m
    · exact Nat.le_trans (onFind_shrinks wanted _) (size_unpeeked_le m)

theorem skipTo_takes (wanted : Kind → Bool) : Takes (skipTo wanted) := by
  intro m t ht
  cases h : m.peeked with
  | none =>
    rw [skipTo_apply_none wanted h] at ht ⊢
    exact onFind_takes wanted m t ht
  | some u =>
    rw [skipTo_apply_some wanted h] at ht ⊢
    split
    · exact size_lt_of_peeked h
    · exact Nat.lt_of_le_of_lt (onFind_shrinks wanted _) (size_lt_of_peeked h)

theorem peek_shrinks : Shrinks peek := by
  intro m
  cases h : m.peeked with
  | some t => simp [peek, Act.bind_apply, Act.state, h]
  | none =>
    have hle := onFind_shrinks (fun kind => !kind.isLayout) m
    have hlt := onFind_takes (fun kind => !kind.isLayout) m
    have hp : (onLexer (Lexer.find fun kind => !kind.isLayout) m).2.peeked = none := by
      unfold onLexer Act.onPart
      split <;> exact h
    simp only [peek, Act.bind_apply, Act.state, h, skipLayout, skipTo_apply_none _ h]
    cases hf : onLexer (Lexer.find fun kind => !kind.isLayout) m with
    | mk r m' =>
      rw [hf] at hle hlt hp
      dsimp only at hp
      cases r with
      | error e => exact hle
      | ok t =>
        cases t with
        | none => simpa [Act.update, size, h, hp] using hle
        | some t =>
          have := hlt t rfl
          simp [Act.update, size, h, hp] at this ⊢
          omega

theorem siftLexer_rest_le (last : Option Masked) (l : Lexer) :
    (siftLexer last l).2.2.rest.length ≤ l.rest.length := by
  fun_induction siftLexer last l with
  | case1 last l t l' h t' _ => exact Nat.le_of_lt (Lexer.next_rest_lt h)
  | case2 last l t l' h last' _ ih => exact Nat.le_trans ih (Nat.le_of_lt (Lexer.next_rest_lt h))
  | case3 last l l' h => exact Nat.le_of_eq (by rw [Lexer.next_finished_rest h])
  | case4 last l e l' h => exact Lexer.next_failed_rest_le h

theorem siftLexer_rest_lt (last : Option Masked) (l : Lexer) (t : Masked)
    (h : (siftLexer last l).1 = .ok (some t)) :
    (siftLexer last l).2.2.rest.length < l.rest.length := by
  fun_induction siftLexer last l with
  | case1 last l t l' hn t' _ => exact Lexer.next_rest_lt hn
  | case2 last l t l' hn last' _ ih => exact Nat.lt_trans (ih h) (Lexer.next_rest_lt hn)
  | case3 last l l' hn => cases h
  | case4 last l e l' hn => cases h

theorem siftOn_shrinks : Shrinks siftOn := by
  intro m
  have h := siftLexer_rest_le m.last m.lexer
  unfold siftOn size
  split <;> rename_i hs <;> rw [hs] at h <;> simp only at h ⊢ <;> omega

theorem siftOn_takes : Takes siftOn := by
  intro m t ht
  have h := siftLexer_rest_lt m.last m.lexer
  revert ht
  unfold siftOn size
  split <;> rename_i hs <;> rw [hs] at h <;> intro ht
  · cases ht
    have := h t rfl
    simp only at this ⊢
    omega
  · cases ht

theorem significant_apply_some {t : Lexeme} (h : m.peeked = some t) :
    significant m = match sift m.last t with
      | .keep t => (.ok (some t), { m with peeked := none })
      | .drop last => siftOn { m with peeked := none, last := last } := by
  simp only [significant, Act.bind_apply, Act.state, h, Act.update]
  cases sift m.last t <;> rfl

theorem significant_apply_none (h : m.peeked = none) : significant m = siftOn m := by
  simp only [significant, Act.bind_apply, Act.state, h]

theorem significant_shrinks : Shrinks significant := by
  intro m
  cases h : m.peeked with
  | none =>
    rw [significant_apply_none h]
    exact siftOn_shrinks m
  | some t =>
    rw [significant_apply_some h]
    split
    · exact size_unpeeked_le m
    · exact Nat.le_trans (siftOn_shrinks _) (size_unpeeked_le m)

theorem significant_takes : Takes significant := by
  intro m t ht
  cases h : m.peeked with
  | none =>
    rw [significant_apply_none h] at ht ⊢
    exact siftOn_takes m t ht
  | some u =>
    rw [significant_apply_some h] at ht ⊢
    split
    · exact size_lt_of_peeked h
    · exact Nat.lt_of_le_of_lt (siftOn_shrinks _) (size_lt_of_peeked h)

/-- A relation between maskers that holds after reading on and after a change to what is known
about the blocks and parentheses. -/
structure Quiet (R : Masker → Masker → Prop) : Prop where
  trans : ∀ m₁ m₂ m₃, R m₁ m₂ → R m₂ m₃ → R m₁ m₃
  same : ∀ {m m' : Masker}, m'.lexer = m.lexer → m'.peeked = m.peeked → m'.vars = m.vars →
    m'.ops = m.ops → m'.funcs = m.funcs → R m m'
  skipTo : ∀ wanted, Act.Leads R (skipTo wanted)

/-- A relation that also holds when a lexeme is read ahead and when it is given up. -/
structure QuietAhead (R : Masker → Masker → Prop) : Prop extends Quiet R where
  unpeeked : ∀ m : Masker, R m { m with peeked := none }
  peek : Act.Leads R peek

/-- A relation between maskers that the acts respect: it also holds after a name is numbered. -/
structure Steady (R : Masker → Masker → Prop) : Prop extends Quiet R where
  vars : ∀ (m : Masker) (text : String), R m { m with vars := (m.vars.number text).2 }
  ops : ∀ (m : Masker) (text : String), R m { m with ops := (m.ops.number text).2 }
  funcs : ∀ (m : Masker) (text : String), R m { m with funcs := (m.funcs.number text).2 }

structure SteadyAhead (R : Masker → Masker → Prop) : Prop extends Steady R, QuietAhead R

namespace Quiet

variable {R : Masker → Masker → Prop} (h : Quiet R)

include h

theorem refl (m : Masker) : R m m := h.same rfl rfl rfl rfl rfl

theorem pure (a : α) : Act.Leads R (pure a : Masking α) := Act.Leads.pure h.refl a

theorem fail (e : MaskError) : Act.Leads R (Act.fail e : Masking α) := h.refl

theorem state : Act.Leads R (Act.state : Masking Masker) := h.refl

theorem bind {x : Masking α} {f : α → Masking β} (hx : Act.Leads R x) (hf : ∀ a, Act.Leads R (f a)) :
    Act.Leads R (x >>= f) := Act.Leads.bind h.trans hx hf

theorem set {f : Masker → Masker} {a : α} (hf : ∀ m, R m (f m)) :
    Act.Leads R (Act.update f >>= fun _ => Pure.pure a : Masking α) :=
  h.bind hf fun _ => h.pure a

theorem settleBlock (t : Option Masked) : Act.Leads R (settleBlock t) := by
  refine h.bind h.state fun m => ?_
  split
  · dsimp only
    split
    · exact h.bind (h.skipTo _) fun _ => h.set fun _ => h.same rfl rfl rfl rfl rfl
    · split
      · exact h.fail _
      · exact h.set fun _ => h.same rfl rfl rfl rfl rfl
  · exact h.pure _

theorem openBranch : Act.Leads R openBranch :=
  h.bind (fun _ => h.same rfl rfl rfl rfl rfl) fun _ => h.bind (h.skipTo _) fun _ => h.pure _

theorem leaveBlock (b : CodeBlock) : Act.Leads R (leaveBlock b) := by
  unfold Masker.leaveBlock
  split
  · exact h.bind (fun _ => h.same rfl rfl rfl rfl rfl) fun _ =>
      h.bind (h.skipTo _) fun _ _ => h.same rfl rfl rfl rfl rfl
  · exact fun _ => h.same rfl rfl rfl rfl rfl

theorem endStatement (t : Masked) : Act.Leads R (endStatement t) := by
  refine h.bind h.state fun m => ?_
  split
  · split
    · exact h.bind (h.leaveBlock _) fun _ => h.pure _
    · exact h.pure _
  · exact h.pure _

theorem closeBrace (t : Masked) : Act.Leads R (closeBrace t) := by
  refine h.bind h.state fun m => ?_
  split
  · split
    · exact h.set fun _ => h.same rfl rfl rfl rfl rfl
    · split
      · exact h.set fun _ => h.same rfl rfl rfl rfl rfl
      · exact h.bind (h.leaveBlock _) fun _ => h.pure _
  · exact h.pure _

theorem declare (number : Nat) (t : Masked) : Act.Leads R (declare number t) := by
  refine h.bind h.state fun m => ?_
  split
  · exact h.fail _
  · split
    · exact h.bind (fun _ => h.same rfl rfl rfl rfl rfl) fun _ => h.bind (h.skipTo _) fun _ =>
        h.set fun _ => h.same rfl rfl rfl rfl rfl
    · exact h.fail _

theorem closeParen (m : Masker) (t : Masked) : R m (m.closeParen t).2 := by
  unfold Masker.closeParen
  split
  · exact h.refl m
  · split
    · dsimp only
      split
      · exact h.same rfl rfl rfl rfl rfl
      · split <;> exact h.same rfl rfl rfl rfl rfl
    · exact h.same rfl rfl rfl rfl rfl

theorem mask_of_other {t : Masked} (hname : t.symbol ≠ .plain .dollarName)
    (hoperator : t.symbol ≠ .plain .operator) (hword : t.symbol ≠ .plain .word)
    (hinput : t.symbol ≠ .plain .input) : Act.Leads R (mask t) := by
  have hbranch : Act.Leads R (Masker.openBranch >>= fun _ => Pure.pure t : Masking Masked) :=
    h.bind h.openBranch fun _ => h.pure _
  unfold Masker.mask
  split
  · exact absurd ‹_› hname
  · exact absurd ‹_› hoperator
  iterate 6 exact hbranch
  iterate 2 exact h.set fun _ => h.same rfl rfl rfl rfl rfl
  · refine h.set fun m => ?_
    split
    · exact h.refl m
    · exact h.same rfl rfl rfl rfl rfl
  · exact fun m => h.closeParen m t
  · exact h.endStatement t
  · exact h.closeBrace t
  · exact h.set fun _ => h.same rfl rfl rfl rfl rfl
  · exact absurd ‹_› hword
  · exact absurd ‹_› hinput
  · exact h.pure _

end Quiet

namespace QuietAhead

variable {R : Masker → Masker → Prop} (h : QuietAhead R)

include h

theorem callOrWord (number : Nat) (t : Masked) : Act.Leads R (callOrWord number t) := by
  refine h.bind h.peek fun next => ?_
  split
  · exact h.set fun m => h.trans _ _ _ (h.unpeeked m) (h.same rfl rfl rfl rfl rfl)
  · exact h.pure _

theorem skipOffset : Act.Leads R skipOffset := by
  refine h.bind h.peek fun next => ?_
  split
  · exact h.bind (h.skipTo _) fun _ => h.pure _
  · exact h.pure _

end QuietAhead

theorem Steady.mask_of_ne {R : Masker → Masker → Prop} (h : Steady R) {t : Masked}
    (hword : t.symbol ≠ .plain .word) (hinput : t.symbol ≠ .plain .input) :
    Act.Leads R (mask t) := by
  by_cases hname : t.symbol = .plain .dollarName
  · simp only [mask, hname]
    exact fun m => h.vars m t.text
  by_cases hoperator : t.symbol = .plain .operator
  · intro m
    simp only [mask, hoperator, pureStep, maskOperator]
    split
    · exact h.refl m
    · exact h.ops m t.text
  · exact h.mask_of_other hname hoperator hword hinput

namespace SteadyAhead

variable {R : Masker → Masker → Prop} (h : SteadyAhead R)

include h

theorem maskWord (t : Masked) : Act.Leads R (maskWord t) := by
  intro m
  refine h.trans _ _ _ (h.funcs m t.text) ?_
  simp only [Masker.maskWord, Act.bind_apply, Act.state, Act.update]
  split
  · exact h.declare _ t _
  · exact h.callOrWord _ t _

theorem mask (t : Masked) : Act.Leads R (mask t) := by
  by_cases hword : t.symbol = .plain .word
  · simp only [Masker.mask, hword]
    exact h.maskWord t
  by_cases hinput : t.symbol = .plain .input
  · simp only [Masker.mask, hinput]
    exact h.bind h.skipOffset fun _ => h.pure _
  · exact h.mask_of_ne hword hinput

theorem token (hsignificant : Act.Leads R significant) : Act.Leads R token := by
  refine h.bind hsignificant fun t => h.bind (h.settleBlock t) fun t => ?_
  split
  · exact h.pure _
  · exact h.bind (h.mask _) fun _ => h.set fun _ => h.same rfl rfl rfl rfl rfl

end SteadyAhead

theorem steady_size : SteadyAhead fun m m' => m'.size ≤ m.size where
  trans _ _ _ h h' := Nat.le_trans h' h
  same hlexer hpeeked _ _ _ := by simp [size, hlexer, hpeeked]
  unpeeked := size_unpeeked_le
  vars m _ := Nat.le_refl m.size
  ops m _ := Nat.le_refl m.size
  funcs m _ := Nat.le_refl m.size
  skipTo := skipTo_shrinks
  peek := peek_shrinks

theorem settleBlock_none_takes : Takes (settleBlock none) := by
  unfold settleBlock
  refine Takes.bind Shrinks.state fun m => ?_
  split
  · exact Takes.bind_shrinks (skipTo_takes _) (skipTo_shrinks _)
      (fun _ => Shrinks.bind (Shrinks.update fun m => Nat.le_refl m.size) fun _ => Shrinks.pure _)
      (Takes.bind (Shrinks.update fun _ => Nat.le_refl _) fun _ => Takes.none)
  · exact Takes.none

theorem token_takes : Takes token := by
  have hmask : ∀ t, Shrinks (mask t >>= fun t =>
      (Act.update fun m => { m with last := some t }) >>= fun _ => pure (some t)) := fun t =>
    steady_size.bind (steady_size.mask t) fun _ => steady_size.set fun m => Nat.le_refl m.size
  unfold token
  refine Takes.bind_shrinks significant_takes significant_shrinks (fun t => ?_) ?_
  · refine Shrinks.bind (steady_size.settleBlock _) fun t => ?_
    cases t with
    | none => exact Shrinks.pure _
    | some t => exact hmask t
  · exact Takes.bind_shrinks settleBlock_none_takes (steady_size.settleBlock _) hmask Takes.none

theorem size_lt_of_token {m m' : Masker} {t : Masked} (h : token m = (.ok (some t), m')) :
    m'.size < m.size := by
  have ht := token_takes m t (by rw [h])
  rwa [h] at ht

end Masker

/-- All symbols ahead, each with the masker after it, and how the reading ended. -/
structure Reading where
  symbols : List (Masked × Masker)
  failure : Option MaskError
  /-- The masker after the end or the failure was met. -/
  last : Masker

namespace Masker

def readAll (m : Masker) : Reading :=
  match _h : token m with
  | (.ok (some t), m') =>
    let later := readAll m'
    { later with symbols := (t, m') :: later.symbols }
  | (.ok none, m') => ⟨[], none, m'⟩
  | (.error e, m') => ⟨[], some e, m'⟩
termination_by m.size
decreasing_by exact size_lt_of_token _h

end Masker

end MaskedTaint
