import MaskedTaint.Masking.Progress
import MaskedTaint.Proofs.Acts

/-! Reading on. Whatever a masker finds it has from its lexer, now or read ahead before. So what
the lexer keeps from lexeme to lexeme the masker keeps too, and what holds of every lexeme that
the lexer gives holds of what the masker finds. -/

namespace MaskedTaint

structure Watch where
  kept : Lexer → Prop
  /-- What holds of a lexeme and of the lexer behind it. -/
  found : Lexeme → Lexer → Prop
  ended : Lexer → Prop := fun _ => True

namespace Watch

structure Holds (R : Watch) : Prop where
  lexeme : ∀ {l l' : Lexer} {t : Lexeme}, R.kept l → l.next = .lexeme t l' → R.kept l' ∧ R.found t l'
  finished : ∀ {l l' : Lexer}, R.kept l → l.next = .finished l' → R.kept l' ∧ R.ended l'
  failed : ∀ {l l' : Lexer} {e : LexError}, R.kept l → l.next = .failed e l' → R.kept l'

/-- What was found, if anything, has the property `G`. -/
structure Gives {ε α : Type} (R : Watch) (G : α → Lexer → Prop) (o : Except ε (Option α))
    (l : Lexer) : Prop where
  kept : R.kept l
  found : ∀ a, o = .ok (some a) → G a l
  ended : o = .ok none → R.ended l

variable {R : Watch} {l : Lexer} {G : Masked → Lexer → Prop}

namespace Gives

variable {ε α : Type} {F : α → Lexer → Prop} {a : α} {e : ε}

theorem some (hl : R.kept l) (ha : F a l) : R.Gives F (.ok (some a) : Except ε _) l where
  kept := hl
  found b hb := by
    cases hb
    exact ha
  ended h := by cases h

theorem none (hl : R.kept l ∧ R.ended l) : R.Gives F (.ok none : Except ε _) l where
  kept := hl.1
  found b hb := by cases hb
  ended _ := hl.2

theorem error (hl : R.kept l) : R.Gives F (.error e) l where
  kept := hl
  found b hb := by cases hb
  ended h := by cases h

end Gives

abbrev Wanted (R : Watch) (wanted : Kind → Bool) (t : Lexeme) (l : Lexer) : Prop :=
  R.found t l ∧ wanted t.kind = true

theorem Holds.find (h : R.Holds) (wanted : Kind → Bool) (hl : R.kept l) :
    R.Gives (R.Wanted wanted) (l.find wanted).1 (l.find wanted).2 := by
  fun_induction Lexer.find wanted l with
  | case1 l t l' hn hwanted =>
    obtain ⟨hkept, hfound⟩ := h.lexeme hl hn
    exact .some hkept ⟨hfound, hwanted⟩
  | case2 l t l' hn _ ih => exact ih (h.lexeme hl hn).1
  | case3 l l' hn => exact .none (h.finished hl hn)
  | case4 l e l' hn => exact .error (h.failed hl hn)

/-- The property comes through: it holds of what is made of a lexeme on the way to a symbol. -/
structure Sifts (R : Watch) (G : Masked → Lexer → Prop) : Prop where
  sift : ∀ {last : Option Masked} {t : Lexeme} {u : Masked} {l : Lexer}, R.found t l →
    Masker.sift last t = .keep u → G u l
  masked : ∀ {t : Lexeme} {l : Lexer}, R.found t l → t.kind.isLayout = false → G t.masked l

theorem Holds.siftLexer (h : R.Holds) (hG : R.Sifts G) (last : Option Masked) (hl : R.kept l) :
    R.Gives G (Masker.siftLexer last l).1 (Masker.siftLexer last l).2.2 := by
  fun_induction Masker.siftLexer last l with
  | case1 last l t l' hn u hkeep =>
    obtain ⟨hkept, hfound⟩ := h.lexeme hl hn
    exact .some hkept (hG.sift hfound hkeep)
  | case2 last l t l' hn last' hdrop ih => exact ih (h.lexeme hl hn).1
  | case3 last l l' hn => exact .none (h.finished hl hn)
  | case4 last l e l' hn => exact .error (h.failed hl hn)

end Watch

namespace Masker

structure Abides (R : Watch) (m : Masker) : Prop where
  lexer : R.kept m.lexer
  peeked : ∀ t, m.peeked = some t → R.found t m.lexer

structure Brings {α : Type} (R : Watch) (G : α → Lexer → Prop)
    (run : Except MaskError (Option α) × Masker) : Prop extends R.Gives G run.1 run.2.lexer where
  peeked : run.2.peeked = none

variable {α : Type} {R : Watch} {F : α → Lexer → Prop} {G : Masked → Lexer → Prop} {m m' : Masker}

theorem abides_of_none (hl : R.kept m.lexer) (hp : m.peeked = none) : m.Abides R :=
  ⟨hl, fun t ht => by simp [hp] at ht⟩

theorem Brings.abides {run : Except MaskError (Option α) × Masker} (h : Brings R F run) :
    run.2.Abides R := abides_of_none h.kept h.peeked

theorem brings_error {e : MaskError} (hl : R.kept m.lexer) (hp : m.peeked = none) :
    Brings R F (.error e, m) := ⟨.error hl, hp⟩

theorem sift_cases {last : Option Masked} {t : Lexeme} {u : Masked} (h : sift last t = .keep u) :
    u = t.masked ∧ t.kind ≠ .openTag ∨ u.symbol = .plain .semicolon ∧ u.pos = t.pos := by
  unfold sift at h
  split at h
  iterate 2
    · split at h <;> cases h
      exact .inr ⟨rfl, rfl⟩
  · split at h <;> cases h
    exact .inl ⟨rfl, ‹_›⟩

/-- What is masked next. -/
def upcoming : Masking (Option Masked) := significant >>= settleBlock

theorem token_eq_upcoming : token = (upcoming >>= fun t => match t with
    | none => pure none
    | some t => mask t >>= fun t => do
      Act.update fun m => { m with last := some t }
      return some t) := by
  funext m
  rcases hs : significant m with ⟨e | t, m'⟩
  · rw [token, upcoming, Act.bind_of_error hs, Act.bind_of_error (Act.bind_of_error hs _)]
  · rw [token, Act.bind_of_ok hs, Act.bind_apply upcoming, upcoming, Act.bind_of_ok hs]
    rfl

theorem token_of_upcoming {t : Masked} (h : upcoming m = (.ok (some t), m')) :
    token m = (mask t >>= fun t => do
      Act.update fun m => { m with last := some t }
      return some t) m' := by
  rw [token_eq_upcoming, Act.bind_of_ok h]

theorem token_end (h : upcoming m = (.ok none, m')) : token m = (.ok none, m') := by
  rw [token_eq_upcoming, Act.bind_of_ok h]
  rfl

theorem upcoming_of_end (h : token m = (.ok none, m')) : upcoming m = (.ok none, m') := by
  rw [token_eq_upcoming] at h
  obtain ⟨t, m₁, hup, h⟩ := Act.bind_eq_ok_iff.mp h
  cases t with
  | none =>
    cases h
    exact hup
  | some t =>
    obtain ⟨u, m₂, -, h⟩ := Act.bind_eq_ok_iff.mp h
    cases h

theorem upcoming_of_token {u : Masked} (h : token m = (.ok (some u), m')) :
    ∃ t m₁ m₂, upcoming m = (.ok (some t), m₁) ∧ mask t m₁ = (.ok u, m₂) ∧
      m' = { m₂ with last := some u } := by
  rw [token_eq_upcoming] at h
  obtain ⟨t, m₁, hup, h⟩ := Act.bind_eq_ok_iff.mp h
  cases t with
  | none => cases h
  | some t =>
    obtain ⟨v, m₂, hmask, h⟩ := Act.bind_eq_ok_iff.mp h
    cases h
    exact ⟨t, m₁, m₂, hup, hmask, rfl⟩

end Masker

open Masker

namespace Watch.Holds

variable {R : Watch} {G : Masked → Lexer → Prop} {m m' : Masker} (h : R.Holds)

include h

theorem onFind (wanted : Kind → Bool) (hl : R.kept m.lexer) (hp : m.peeked = none) :
    Brings R (R.Wanted wanted) (onLexer (Lexer.find wanted) m) := by
  have hfind := h.find wanted hl
  unfold onLexer Act.onPart
  rcases hf : m.lexer.find wanted with ⟨e | o, l⟩
  · rw [hf] at hfind
    exact brings_error hfind.kept hp
  · rw [hf] at hfind
    exact ⟨⟨hfind.kept, fun t ht => hfind.found t (congrArg Except.ok (Except.ok.inj ht)),
      fun ho => hfind.ended (congrArg Except.ok (Except.ok.inj ho))⟩, hp⟩

theorem skipTo (wanted : Kind → Bool) (hm : m.Abides R) :
    Brings R (R.Wanted wanted) (skipTo wanted m) := by
  cases hp : m.peeked with
  | none =>
    rw [skipTo_apply_none wanted hp]
    exact h.onFind wanted hm.lexer hp
  | some t =>
    rw [skipTo_apply_some wanted hp]
    split
    · rename_i hwanted
      exact ⟨.some hm.lexer ⟨hm.peeked t hp, hwanted⟩, rfl⟩
    · exact h.onFind (m := { m with peeked := none }) wanted hm.lexer rfl

theorem peek (hm : m.Abides R) : (peek m).2.Abides R := by
  unfold Masker.peek
  rw [Act.state_bind]
  cases hp : m.peeked with
  | some t => exact hm
  | none =>
    have hskip := h.skipTo (fun kind => !kind.isLayout) hm
    dsimp only [skipLayout]
    rcases hs : Masker.skipTo (fun kind => !kind.isLayout) m with ⟨e | t, m'⟩
    · rw [hs] at hskip
      rw [Act.bind_of_error hs]
      exact hskip.abides
    · rw [hs] at hskip
      rw [Act.bind_of_ok hs, Act.update_bind]
      exact ⟨hskip.kept, fun u hu => (hskip.found u (congrArg Except.ok hu)).1⟩

theorem steady : SteadyAhead fun m m' => m.Abides R → m'.Abides R where
  trans _ _ _ h₁ h₂ := h₂ ∘ h₁
  same hlexer hpeeked _ _ _ hm := ⟨hlexer ▸ hm.lexer, fun t ht => hlexer ▸ hm.peeked t (hpeeked ▸ ht)⟩
  unpeeked _ hm := abides_of_none hm.lexer rfl
  vars _ _ hm := ⟨hm.lexer, hm.peeked⟩
  ops _ _ hm := ⟨hm.lexer, hm.peeked⟩
  funcs _ _ hm := ⟨hm.lexer, hm.peeked⟩
  skipTo wanted _ hm := (h.skipTo wanted hm).abides
  peek _ hm := h.peek hm

variable (hG : R.Sifts G)

include hG

theorem siftOn (hl : R.kept m.lexer) (hp : m.peeked = none) : Brings R G (siftOn m) := by
  have hsift := h.siftLexer hG m.last hl
  unfold Masker.siftOn
  rcases hs : Masker.siftLexer m.last m.lexer with ⟨e | o, last, l⟩
  · rw [hs] at hsift
    exact brings_error hsift.kept hp
  · rw [hs] at hsift
    exact ⟨⟨hsift.kept, fun t ht => hsift.found t (congrArg Except.ok (Except.ok.inj ht)),
      fun ho => hsift.ended (congrArg Except.ok (Except.ok.inj ho))⟩, hp⟩

theorem significant (hm : m.Abides R) : Brings R G (significant m) := by
  cases hp : m.peeked with
  | none =>
    rw [significant_apply_none hp]
    exact h.siftOn hG hm.lexer hp
  | some t =>
    rw [significant_apply_some hp]
    cases hs : sift m.last t with
    | keep u => exact ⟨.some hm.lexer (hG.sift (hm.peeked t hp) hs), rfl⟩
    | drop last => exact h.siftOn (m := { m with peeked := none, last := last }) hG hm.lexer rfl

theorem settleBlock {t : Option Masked} (hm : Brings R G (.ok t, m)) : Brings R G (settleBlock t m) := by
  unfold Masker.settleBlock
  rw [Act.state_bind]
  split
  · dsimp only
    split
    · have hskip := h.skipTo (fun kind => !kind.isLayout) hm.abides
      rw [skipLayout]
      rcases hs : Masker.skipTo (fun kind => !kind.isLayout) m with ⟨e | v, m'⟩
      · rw [hs] at hskip
        rw [Act.bind_of_error hs]
        exact brings_error hskip.kept hskip.peeked
      · rw [hs] at hskip
        rw [Act.bind_of_ok hs, Act.update_bind]
        refine ⟨⟨hskip.kept, fun u hu => ?_, fun ho => hskip.ended ?_⟩, hskip.peeked⟩
        · obtain ⟨w, rfl, rfl⟩ := Option.map_eq_some_iff.mp (Except.ok.inj hu)
          obtain ⟨hfound, hwanted⟩ := hskip.found w rfl
          exact hG.masked hfound (by simpa using hwanted)
        · rw [Option.map_eq_none_iff.mp (Except.ok.inj ho)]
    · cases m.blocks with
      | nil => exact brings_error hm.kept hm.peeked
      | cons b bs =>
        exact ⟨⟨hm.kept, fun u hu => hm.found u (congrArg Except.ok (Except.ok.inj hu)),
          fun ho => hm.ended (congrArg Except.ok (Except.ok.inj ho))⟩, hm.peeked⟩
  · exact hm

theorem upcoming (hm : m.Abides R) : Brings R G (upcoming m) := by
  have hread := h.significant hG hm
  rcases hs : Masker.significant m with ⟨e | t, m'⟩
  · rw [hs] at hread
    rw [Masker.upcoming, Act.bind_of_error hs]
    exact brings_error hread.kept hread.peeked
  · rw [hs] at hread
    rw [Masker.upcoming, Act.bind_of_ok hs]
    exact h.settleBlock hG hread

/-- What a symbol is made of, and where the masker stands when it is made. -/
theorem of_token {u : Masked} (hm : m.Abides R) (ht : token m = (.ok (some u), m')) :
    ∃ (v : Masked) (m₁ m₂ : Masker), R.kept m₁.lexer ∧ m₁.peeked = none ∧ G v m₁.lexer ∧
      mask v m₁ = (.ok u, m₂) ∧ m' = { m₂ with last := some u } := by
  obtain ⟨v, m₁, m₂, hup, hmask, rfl⟩ := upcoming_of_token ht
  have hbrings := h.upcoming hG hm
  rw [hup] at hbrings
  exact ⟨v, m₁, m₂, hbrings.kept, hbrings.peeked, hbrings.found v rfl, hmask, rfl⟩

theorem token (hm : m.Abides R) : (token m).2.Abides R :=
  h.steady.token (fun _ hm => (h.significant hG hm).abides) m hm

end Watch.Holds

end MaskedTaint
