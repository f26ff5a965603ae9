import MaskedTaint.Proofs.Masking.Beside

/-! Two maskers on the same text. They differ in the names they have met, and so in the numbers
they give; all else they keep account of is the same. -/

namespace MaskedTaint

theorem MaskError.Alike.eq {e₁ e₂ : MaskError} (h : Alike Eq e₁ e₂) : e₁ = e₂ := by
  cases h with
  | lex h => rw [h]
  | _ => rfl

namespace Masker

/-- The tables of the first masker are beginnings of those of the second. -/
structure Within (m F : Masker) : Prop where
  vars : m.vars <+: F.vars
  ops : m.ops <+: F.ops
  funcs : m.funcs <+: F.funcs

theorem Grows.within {m F : Masker} (h : Grows m F) : m.Within F :=
  ⟨h.vars.kept, h.ops.kept, h.funcs.kept⟩

theorem Within.trans {m₁ m₂ m₃ : Masker} (h : m₁.Within m₂) (h' : m₂.Within m₃) : m₁.Within m₃ :=
  ⟨h.vars.trans h'.vars, h.ops.trans h'.ops, h.funcs.trans h'.funcs⟩

def between (F₁ F₂ : Masker) : Renaming :=
  ⟨Names.convert F₁.vars F₂.vars, Names.convert F₁.ops F₂.ops, Names.convert F₁.funcs F₂.funcs⟩

def mirrored (ρ : Renaming) : Pairing where
  lexer := Eq
  last _ _ := True
  vars _ _ := True
  ops _ _ := True
  funcs _ _ := True
  numbers := ρ
  reading := Eq
  lexeme := Eq
  error := Eq
  masked u₁ u₂ := u₁ = ρ.masked u₂
  next {l₁ l₂} h := by
    subst h
    cases l₁.next with
    | lexeme t l => exact .lexeme rfl rfl
    | finished l => exact .finished rfl
    | failed e l => exact .failed rfl rfl
  level h := h
  kind h := congrArg Lexeme.kind h
  plain h := by subst h; rfl
  closing h := by subst h; rfl
  opening h := by subst h; rfl
  mark h _ := by subst h; rfl
  delivered _ := trivial

abbrev Mirrors (ρ : Renaming) : Masker → Masker → Prop := Beside (mirrored ρ)

variable {ρ : Renaming} {m m' m₁ m₂ F F₁ F₂ : Masker} {u u₁ u₂ : Masked}

theorem Mirrors.lexer_eq (h : Mirrors ρ m₁ m₂) : m₁.lexer = m₂.lexer := h.lexer

theorem Mirrors.peeked_eq (h : Mirrors ρ m₁ m₂) : m₁.peeked = m₂.peeked :=
  match m₁.peeked, m₂.peeked, h.peeked with
  | _, _, .none => rfl
  | _, _, .some rfl => rfl

theorem endsAlike_map (ρ : Renaming) (last : Option Masked) : EndsAlike (last.map ρ.masked) last := by
  cases last with
  | none => exact ⟨.rfl, rfl⟩
  | some u =>
    rcases u with ⟨symbol, text, line, pos⟩
    cases symbol <;> simp [EndsAlike, Renaming.masked, Renaming.symbol, needsNoEnd]

theorem last_of_token (h : token m = (.ok (some u), m')) : m'.last = some u := by
  obtain ⟨t, n₁, n₂, -, -, rfl⟩ := upcoming_of_token h
  rfl

theorem Within.mask (hup : upcoming m = (.ok (some u), m')) (h : (token m).2.Within F) :
    (mask u m').2.Within F := by
  rw [token_of_upcoming hup] at h
  rcases hmask : Masker.mask u m' with ⟨e | v, n⟩
  · rwa [Act.bind_of_error hmask] at h
  · rw [Act.bind_of_ok hmask] at h
    exact ⟨h.vars, h.ops, h.funcs⟩

theorem vars_mask (hu : u.symbol = .plain .dollarName) (m : Masker) :
    (m.vars.number u.text).2 <+: (mask u m).2.vars := by
  rw [Masker.mask, hu]
  exact List.prefix_rfl

theorem ops_mask (hu : u.symbol = .plain .operator) (hne : u.text ≠ "=") (m : Masker) :
    (m.ops.number u.text).2 <+: (mask u m).2.ops := by
  simp [Masker.mask, hu, pureStep, maskOperator, hne]

theorem funcs_mask (hu : u.symbol = .plain .word) (m : Masker) :
    (m.funcs.number u.text).2 <+: (mask u m).2.funcs := by
  rw [Masker.mask, hu]
  dsimp only
  rw [maskWord_apply]
  split
  · exact (steady_grows.declare _ u { m with funcs := (m.funcs.number u.text).2 }).funcs.kept
  · exact (steady_grows.callOrWord _ u { m with funcs := (m.funcs.number u.text).2 }).funcs.kept

theorem Within.numbers (hread : (mirrored (between F₁ F₂)).Read u₁ u₂)
    (h₁ : (Masker.mask u₁ m₁).2.Within F₁) (h₂ : (Masker.mask u₂ m₂).2.Within F₂) :
    (mirrored (between F₁ F₂)).Numbers u₁ u₂ m₁ m₂ := by
  obtain rfl : u₁ = (between F₁ F₂).masked u₂ := hread.masked
  have hsymbol := hread.symbol
  refine ⟨fun hs => ⟨?_, trivial⟩, fun _ => .rfl, fun hs hne => ⟨?_, trivial⟩, rfl, fun hs => ⟨?_, trivial⟩⟩
  · exact (Names.convert_number ((vars_mask hs m₁).trans h₁.vars)
      ((vars_mask (u := u₂) (hsymbol.symm.trans hs) m₂).trans h₂.vars)).symm
  · exact (Names.convert_number ((ops_mask hs hne m₁).trans h₁.ops)
      ((ops_mask (u := u₂) (hsymbol.symm.trans hs) hne m₂).trans h₂.ops)).symm
  · exact (Names.convert_number ((funcs_mask hs m₁).trans h₁.funcs)
      ((funcs_mask (u := u₂) (hsymbol.symm.trans hs) m₂).trans h₂.funcs)).symm

theorem token_mirrors (hρ : ρ = between F₁ F₂)
    (hsig : Together (mirrored ρ) (Option.Rel (mirrored ρ).Read) significant significant m₁ m₂)
    (h₁ : (token m₁).2.Within F₁) (h₂ : (token m₂).2.Within F₂) :
    Together (mirrored ρ) (Option.Rel (mirrored ρ).masked) token token m₁ m₂ := by
  subst hρ
  exact token_together (upcoming_together hsig) fun u₁ u₂ n₁ n₂ hup₁ hup₂ hread _ =>
    Within.numbers hread (h₁.mask hup₁) (h₂.mask hup₂)

end Masker

end MaskedTaint
