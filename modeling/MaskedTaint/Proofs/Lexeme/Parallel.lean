import Mathlib.Data.List.Forall2
import MaskedTaint.Proofs.Lexeme.Modes

/-! Two texts read side by side. Lexers in the same mode with the same stack, whose texts give
lexemes of the same kinds and lead to the same modes, keep the same stack, although a step shows
the mode only: the kind of a lexeme and the mode after it tell what was pushed or popped. -/

namespace MaskedTaint

/-! ### What a kind tells of the stack -/

namespace Shift

def keepsStack : Shift → Bool
  | stay | enter _ => true
  | _ => false

def leadsTo (m : Mode) : Shift → Option Mode
  | stay => some m
  | enter n | push n => some n
  | _ => none

theorem differ {m : Mode} {kind : Kind} : ∀ s₁ ∈ m.shiftsFor kind, ∀ s₂ ∈ m.shiftsFor kind,
    s₁ ≠ s₂ → s₁.keepsStack = true ∧ s₂.keepsStack = true ∨
      (s₁.leadsTo m).isSome = true ∧ (s₂.leadsTo m).isSome = true ∧ s₁.leadsTo m ≠ s₂.leadsTo m := by
  unfold Mode.shiftsFor
  split <;> decide

end Shift

namespace Lexer

variable {l l' l₁ l₂ : Lexer} {s : Shift}

theorem stack_shift (h : s.keepsStack = true) : (l.shift s).2.stack = l.stack := by
  cases s <;> first | rfl | cases h

theorem mode_shift (h : (s.leadsTo l.mode).isSome = true) :
    s.leadsTo l.mode = some (l.shift s).2.mode := by
  cases s <;> first | rfl | cases h

theorem shift_congr (s : Shift) (hmode : l₁.mode = l₂.mode) (hstack : l₁.stack = l₂.stack) :
    (l₁.shift s).2.mode = (l₂.shift s).2.mode ∧ (l₁.shift s).2.stack = (l₂.shift s).2.stack := by
  have hpop : ∀ {l₁ l₂ : Lexer}, l₁.mode = l₂.mode → l₁.stack = l₂.stack →
      l₁.pop.2.mode = l₂.pop.2.mode ∧ l₁.pop.2.stack = l₂.pop.2.stack ∧
        l₁.pop.1 = l₂.pop.1 := by
    intro l₁ l₂ hmode hstack
    unfold pop
    rw [hstack]
    cases hs : l₂.stack with
    | nil => exact ⟨hmode, by simp only [hstack, hs], rfl⟩
    | cons m stack => exact ⟨rfl, rfl, rfl⟩
  cases s with
  | stay => exact ⟨hmode, hstack⟩
  | enter m => exact ⟨rfl, hstack⟩
  | push m => exact ⟨rfl, by simp only [shift, hmode, hstack]⟩
  | pop => exact ⟨(hpop hmode hstack).1, (hpop hmode hstack).2.1⟩
  | popTwice =>
    obtain ⟨hm, hs, ho⟩ := hpop hmode hstack
    rcases h₁ : l₁.pop with ⟨o₁, l₁'⟩
    rcases h₂ : l₂.pop with ⟨o₂, l₂'⟩
    rw [h₁, h₂] at hm hs ho
    dsimp only at hm hs ho
    subst ho
    simp only [shift, h₁, h₂]
    cases o₁ with
    | error e => exact ⟨hm, hs⟩
    | ok u => exact ⟨(hpop hm hs).1, (hpop hm hs).2.1⟩

theorem stack_shift_eq {kind : Kind} {s₁ s₂ : Shift} (hmode : l₁.mode = l₂.mode)
    (hstack : l₁.stack = l₂.stack) (h₁ : s₁ ∈ l₁.mode.shiftsFor kind)
    (h₂ : s₂ ∈ l₂.mode.shiftsFor kind) (hafter : (l₁.shift s₁).2.mode = (l₂.shift s₂).2.mode) :
    (l₁.shift s₁).2.stack = (l₂.shift s₂).2.stack := by
  by_cases hs : s₁ = s₂
  · subst hs
    exact (shift_congr s₁ hmode hstack).2
  · rw [← hmode] at h₂
    rcases Shift.differ s₁ h₁ s₂ h₂ hs with ⟨hk₁, hk₂⟩ | ⟨hl₁, hl₂, hne⟩
    · rw [stack_shift hk₁, stack_shift hk₂, hstack]
    · have hm₁ := mode_shift hl₁
      have hm₂ := mode_shift (l := l₂) (hmode ▸ hl₂)
      rw [← hmode, ← hafter, ← hm₁] at hm₂
      exact absurd hm₂.symm hne

end Lexer

/-! ### Steps side by side -/

namespace Lexer

variable {l l' l₁ l₂ l₁' l₂' : Lexer} {t t₁ t₂ : Lexeme}

theorem Disciplined.exists_shift (h : l.Disciplined) (hn : l.next = .lexeme t l') :
    ∃ width shift, shift ∈ l.mode.shiftsFor t.kind ∧ l' = ((l.advance width).shift shift).2 ∧
      (t.kind.joins = true → l'.pos = t.pos + 1) := by
  have htakes := takes_of_next hn
  cases does_next hn with
  | @lexeme rule width kind _ hloaded hrest hmatch hact =>
    obtain ⟨kind', shift, haction, hmem, -, hwidth⟩ := Mode.moves_of_firstMatch h.mode_mem hmatch
      l.before.head? l.rest (l.rest.take width) (l.rest.drop width).head?
    rw [haction] at hact
    have hkind : ((l.advance width).shift shift).1.map (fun _ => kind') = .ok kind :=
      congrArg Prod.fst hact
    obtain rfl : kind' = kind := by
      cases hshift : ((l.advance width).shift shift).1 with
      | error e => rw [hshift] at hkind; cases hkind
      | ok u => rw [hshift] at hkind; exact Except.ok.inj hkind
    refine ⟨width, shift, hmem, (congrArg Prod.snd hact).symm, fun hjoins => ?_⟩
    have hone := hwidth hjoins
    rw [(firstMatch_spec hmatch).2] at hone
    have hafter := htakes.pos_after
    have hmoved := (next_pos hn).2
    simp only [String.toList_ofList, List.length_take] at hafter
    dsimp only
    omega

def labels (l : Lexer) : Option String × Option String := (l.heredoc, l.nowdoc)

theorem labels_shift (l : Lexer) (s : Shift) : (l.shift s).2.labels = l.labels := by
  have hpop : ∀ l : Lexer, l.pop.2.labels = l.labels := by
    intro l
    unfold pop
    split <;> rfl
  cases s with
  | popTwice =>
    have hfirst := hpop l
    simp only [shift]
    split
    · rename_i l' heq
      rw [heq] at hfirst
      exact (hpop l').trans hfirst
    · exact hfirst
  | pop => exact hpop l
  | _ => rfl

theorem Disciplined.failed {e : LexError} (h : l.Disciplined) (hn : l.next = .failed e l') :
    l'.mode = l.mode ∧ l'.stack = l.stack ∧ l'.labels = l.labels := by
  cases does_next hn with
  | unloaded hloaded | stuck hloaded hrest hmatch => exact ⟨rfl, rfl, rfl⟩
  | @failed rule width _ _ hloaded hrest hmatch hact =>
    obtain ⟨kind, s, haction, hs, -⟩ :=
      Mode.shifts_of_firstMatch h.mode_mem hmatch (l.rest.take width) (l.rest.drop width).head?
    rw [haction] at hact
    have hadvance : (l.advance width).Disciplined := h.of_eq rfl rfl
    obtain ⟨hmode, hstack, rfl⟩ := hadvance.shift_error hs (map_eq_error (congrArg Prod.fst hact))
    have hafter : (l.advance width).pop.2 = l' := congrArg Prod.snd hact
    rw [← hafter, Lexer.pop, hstack]
    exact ⟨rfl, rfl, rfl⟩

structure Level (l₁ l₂ : Lexer) : Prop where
  mode : l₁.mode = l₂.mode
  stack : l₁.stack = l₂.stack
  labels : l₁.labels = l₂.labels
  disciplined : l₁.Disciplined

/-- From here on the lexers give related lexemes, each followed by the same mode in both, and
end alike. -/
structure Resembles (T : Lexeme → Lexeme → Prop) (E : LexError → LexError → Prop)
    (l₁ l₂ : Lexer) : Prop where
  lexemes : List.Forall₂ (fun x₁ x₂ => T x₁.1 x₂.1 ∧ x₁.2 = x₂.2) l₁.scan.1 l₂.scan.1
  ending : Option.Rel E l₁.scan.2.1 l₂.scan.2.1

instance {E : LexError → LexError → Prop} [DecidableRel E] : DecidableRel (Option.Rel E)
  | none, none => isTrue .none
  | none, some _ => isFalse nofun
  | some _, none => isFalse nofun
  | some e₁, some e₂ => decidable_of_iff (E e₁ e₂) ⟨.some, fun | .some h => h⟩

instance {T : Lexeme → Lexeme → Prop} {E : LexError → LexError → Prop} [DecidableRel T]
    [DecidableRel E] {l₁ l₂ : Lexer} : Decidable (Resembles T E l₁ l₂) :=
  decidable_of_iff
    (List.Forall₂ (fun x₁ x₂ => T x₁.1 x₂.1 ∧ x₁.2 = x₂.2) l₁.scan.1 l₂.scan.1 ∧
      Option.Rel E l₁.scan.2.1 l₂.scan.2.1)
    ⟨fun ⟨hlexemes, hending⟩ => ⟨hlexemes, hending⟩,
      fun ⟨hlexemes, hending⟩ => ⟨hlexemes, hending⟩⟩

structure Parallel (T : Lexeme → Lexeme → Prop) (E : LexError → LexError → Prop)
    (l₁ l₂ : Lexer) : Prop where
  level : Level l₁ l₂
  resembles : Resembles T E l₁ l₂

/-- Both steps end alike, in lexers related by `R`, or by `W` if the steps fail. -/
inductive Step.Alike (R W : Lexer → Lexer → Prop) (T : Lexeme → Lexeme → Prop)
    (E : LexError → LexError → Prop) : Step → Step → Prop
  | lexeme {t₁ t₂ : Lexeme} {l₁ l₂ : Lexer} (ht : T t₁ t₂) (hl : R l₁ l₂) :
      Alike R W T E (.lexeme t₁ l₁) (.lexeme t₂ l₂)
  | finished {l₁ l₂ : Lexer} (hl : R l₁ l₂) : Alike R W T E (.finished l₁) (.finished l₂)
  | failed {e₁ e₂ : LexError} {l₁ l₂ : Lexer} (he : E e₁ e₂) (hl : W l₁ l₂) :
      Alike R W T E (.failed e₁ l₁) (.failed e₂ l₂)

variable {T : Lexeme → Lexeme → Prop} {E : LexError → LexError → Prop}

theorem Level.disciplined_right (h : Level l₁ l₂) : l₂.Disciplined :=
  h.disciplined.of_eq h.mode.symm h.stack.symm

theorem Level.lexeme (h : Level l₁ l₂) (hn₁ : l₁.next = .lexeme t₁ l₁')
    (hn₂ : l₂.next = .lexeme t₂ l₂') (hkind : t₁.kind = t₂.kind) (hmode : l₁'.mode = l₂'.mode) :
    Level l₁' l₂' := by
  have hafter := h.disciplined.next
  rw [hn₁] at hafter
  obtain ⟨width₁, s₁, hs₁, rfl, -⟩ := h.disciplined.exists_shift hn₁
  obtain ⟨width₂, s₂, hs₂, rfl, -⟩ := h.disciplined_right.exists_shift hn₂
  rw [← hkind] at hs₂
  refine ⟨hmode, stack_shift_eq h.mode h.stack hs₁ hs₂ hmode, ?_, hafter⟩
  rw [labels_shift, labels_shift]
  exact h.labels

theorem resembles_of_finished (hn₁ : l₁.next = .finished l₁') (hn₂ : l₂.next = .finished l₂') :
    Resembles T E l₁' l₂' := by
  exact ⟨by rw [(scan_finished hn₁).1, (scan_finished hn₂).1]; exact .nil,
    by rw [(scan_finished hn₁).2, (scan_finished hn₂).2]; exact .none⟩

theorem Parallel.next (hT : ∀ t₁ t₂, T t₁ t₂ → t₁.kind = t₂.kind) (h : Parallel T E l₁ l₂) :
    Step.Alike (Parallel T E) Level T E l₁.next l₂.next := by
  obtain ⟨hlevel, hlexemes, hending⟩ := h
  cases hn₁ : l₁.next with
  | lexeme t₁ l₁' =>
    rw [scan_of_lexeme hn₁] at hlexemes hending
    cases hn₂ : l₂.next with
    | lexeme t₂ l₂' =>
      rw [scan_of_lexeme hn₂] at hlexemes hending
      cases hlexemes with
      | cons hfirst hrest =>
        exact .lexeme hfirst.1
          ⟨hlevel.lexeme hn₁ hn₂ (hT t₁ t₂ hfirst.1) hfirst.2, hrest, hending⟩
    | finished l₂' => rw [scan_of_finished hn₂] at hlexemes; cases hlexemes
    | failed e₂ l₂' => rw [scan_of_failed hn₂] at hlexemes; cases hlexemes
  | finished l₁' =>
    rw [scan_of_finished hn₁] at hlexemes hending
    cases hn₂ : l₂.next with
    | lexeme t₂ l₂' => rw [scan_of_lexeme hn₂] at hlexemes; cases hlexemes
    | finished l₂' =>
      refine .finished ⟨?_, resembles_of_finished hn₁ hn₂⟩
      cases does_next hn₁
      cases does_next hn₂
      exact ⟨hlevel.mode, hlevel.stack, hlevel.labels, hlevel.disciplined.of_eq rfl rfl⟩
    | failed e₂ l₂' => rw [scan_of_failed hn₂] at hending; cases hending
  | failed e₁ l₁' =>
    rw [scan_of_failed hn₁] at hlexemes hending
    cases hn₂ : l₂.next with
    | lexeme t₂ l₂' => rw [scan_of_lexeme hn₂] at hlexemes; cases hlexemes
    | finished l₂' => rw [scan_of_finished hn₂] at hending; cases hending
    | failed e₂ l₂' =>
      rw [scan_of_failed hn₂] at hending
      obtain ⟨hm₁, hs₁, hb₁⟩ := hlevel.disciplined.failed hn₁
      obtain ⟨hm₂, hs₂, hb₂⟩ := hlevel.disciplined_right.failed hn₂
      cases hending with
      | some he =>
        exact .failed he ⟨by rw [hm₁, hm₂, hlevel.mode], by rw [hs₁, hs₂, hlevel.stack],
          by rw [hb₁, hb₂, hlevel.labels], hlevel.disciplined.of_eq hm₁ hs₁⟩

end Lexer

end MaskedTaint
