import MaskedTaint.Proofs.Masking.Beside

/-! Two texts masked side by side. If one comes from the other by giving variables, words and
operators other names, and other values to all else, the maskers number alike whatever they
meet, and deliver the same symbols. Only the spelling of quoted text shows through. -/

namespace MaskedTaint

/-! ### Other spellings -/

structure Respelling where
  vars : String → String
  words : String → String
  ops : String → String

namespace Respelling

/-- Different names stay different, and the assignment sign is what it was. -/
structure Faithful (σ : Respelling) : Prop where
  vars : Function.Injective σ.vars
  words : Function.Injective σ.words
  ops : Function.Injective σ.ops
  assign : σ.ops "=" = "="

/-- Lexemes of the same kind at the same place. Names are spelled anew, quoted text at the places
`kept` stays as it is, and all else may have any value. -/
structure Matches (σ : Respelling) (kept : Int → Prop) (t₁ t₂ : Lexeme) : Prop where
  kind : t₁.kind = t₂.kind
  line : t₁.line = t₂.line
  pos : t₁.pos = t₂.pos
  dollarName : t₁.kind = .dollarName → t₂.text = σ.vars t₁.text
  word : t₁.kind = .word → t₂.text = σ.words t₁.text
  operator : t₁.kind = .operator → t₂.text = σ.ops t₁.text
  quoted : t₁.kind = .constantText ∨ t₁.kind = .encapsedText → kept t₁.pos → t₁.text = t₂.text

instance {σ : Respelling} {kept : Int → Prop} [DecidablePred kept] :
    DecidableRel (σ.Matches kept) := fun t₁ t₂ =>
  decidable_of_iff (t₁.kind = t₂.kind ∧ t₁.line = t₂.line ∧ t₁.pos = t₂.pos ∧
    (t₁.kind = .dollarName → t₂.text = σ.vars t₁.text) ∧
    (t₁.kind = .word → t₂.text = σ.words t₁.text) ∧
    (t₁.kind = .operator → t₂.text = σ.ops t₁.text) ∧
    (t₁.text ≠ t₂.text → t₁.kind = .constantText ∨ t₁.kind = .encapsedText → ¬kept t₁.pos))
    ⟨fun ⟨hk, hl, hp, hv, hw, ho, hq⟩ => ⟨hk, hl, hp, hv, hw, ho, fun h h' =>
        Decidable.byContradiction fun hne => hq hne h h'⟩,
      fun ⟨hk, hl, hp, hv, hw, ho, hq⟩ => ⟨hk, hl, hp, hv, hw, ho, fun hne h h' =>
        hne (hq h h')⟩⟩

structure Relates (σ : Respelling) (kept : Int → Prop) (u₁ u₂ : Masked) : Prop where
  symbol : u₁.symbol = u₂.symbol
  line : u₁.line = u₂.line
  pos : u₁.pos = u₂.pos
  dollarName : u₁.symbol = .plain .dollarName → u₂.text = σ.vars u₁.text
  word : u₁.symbol = .plain .word → u₂.text = σ.words u₁.text
  operator : u₁.symbol = .plain .operator → u₂.text = σ.ops u₁.text
  quoted : u₁.symbol = .plain .constantText ∨ u₁.symbol = .plain .encapsedText → kept u₁.pos →
    u₁.text = u₂.text

variable {σ : Respelling} {kept : Int → Prop} {t₁ t₂ : Lexeme} {u₁ u₂ : Masked}

theorem Matches.masked (h : σ.Matches kept t₁ t₂) : σ.Relates kept t₁.masked t₂.masked where
  symbol := congrArg Symbol.plain h.kind
  line := h.line
  pos := h.pos
  dollarName hs := h.dollarName (Symbol.plain.inj hs)
  word hs := h.word (Symbol.plain.inj hs)
  operator hs := h.operator (Symbol.plain.inj hs)
  quoted hs := h.quoted (hs.imp Symbol.plain.inj Symbol.plain.inj)

theorem Relates.become (h : σ.Relates kept u₁ u₂) {s : Symbol} (text₁ text₂ : String)
    (hs : ∀ kind ∈ [Kind.dollarName, .word, .operator, .constantText, .encapsedText], s ≠ .plain kind) :
    σ.Relates kept { u₁ with symbol := s, text := text₁ } { u₂ with symbol := s, text := text₂ } where
  symbol := rfl
  line := h.line
  pos := h.pos
  dollarName hv := absurd hv (hs _ (by simp))
  word hv := absurd hv (hs _ (by simp))
  operator hv := absurd hv (hs _ (by simp))
  quoted hv := hv.elim (fun hv => absurd hv (hs _ (by simp))) fun hv => absurd hv (hs _ (by simp))

end Respelling

theorem Names.number_map {f : String → String} (hf : Function.Injective f) (ns : Names) (x : String) :
    Names.number (ns.map f) (f x) = ((ns.number x).1, (ns.number x).2.map f) := by
  have hsame : ((fun y => y == f x) ∘ f) = fun y => y == x := by
    funext y
    simp [hf.eq_iff]
  unfold number
  rw [List.findIdx?_map, hsame]
  cases List.findIdx? (fun y => y == x) ns <;> simp

namespace Masker

theorem numbersAlike_map {f : String → String} (hf : Function.Injective f) (ns : Names) (x : String) :
    NumbersAlike id (fun N₁ N₂ => N₂ = N₁.map f) (ns.number x) (Names.number (ns.map f) (f x)) := by
  rw [Names.number_map hf]
  exact ⟨rfl, rfl⟩

/-- The maskers have met the same names, spelled in two ways. -/
def spelled (σ : Respelling) : Ledgers where
  lexer := Lexer.Level
  last last₁ last₂ := last₁.map Masked.symbol = last₂.map Masked.symbol
  vars N₁ N₂ := N₂ = N₁.map σ.vars
  ops N₁ N₂ := N₂ = N₁.map σ.ops
  funcs N₁ N₂ := N₂ = N₁.map σ.words
  numbers := ⟨id, id, id⟩

def respelled (σ : Respelling) (kept : Int → Prop) (E : LexError → LexError → Prop) : Pairing where
  toLedgers := spelled σ
  reading := Lexer.Parallel (σ.Matches kept) E
  lexeme := σ.Matches kept
  error := E
  masked := σ.Relates kept
  next h := h.next fun _ _ ht => ht.kind
  level h := h.level
  kind h := h.kind
  plain h := h.masked
  closing {t₁ t₂} h := h.masked.become t₁.text t₂.text (by decide)
  opening h := h.masked.become ";" ";" (by decide)
  mark {u₁ u₂ s} h hs := by
    have hsame : (spelled σ).numbers.symbol s = s := by cases s <;> rfl
    rw [hsame]
    exact h.become u₁.text u₂.text fun kind _ => hs kind
  delivered h := congrArg some h.symbol

abbrev Parallel (σ : Respelling) (kept : Int → Prop) (E : LexError → LexError → Prop) :
    Masker → Masker → Prop := Beside (respelled σ kept E)

variable {σ : Respelling} {kept : Int → Prop} {E : LexError → LexError → Prop} {m₁ m₂ : Masker}
  {u₁ u₂ : Masked}

theorem Level.numbers (hσ : σ.Faithful) (h : Level (spelled σ) m₁ m₂) (hu : σ.Relates kept u₁ u₂) :
    (respelled σ kept E).Numbers u₁ u₂ m₁ m₂ := by
  have hvars : m₂.vars = m₁.vars.map σ.vars := h.vars
  have hops : m₂.ops = m₁.ops.map σ.ops := h.ops
  have hfuncs : m₂.funcs = m₁.funcs.map σ.words := h.funcs
  refine ⟨fun hs => ?_, fun hs => ?_, fun hs _ => ?_, rfl, fun hs => ?_⟩
  · rw [hu.dollarName hs, hvars]
    exact numbersAlike_map hσ.vars _ _
  · rw [hu.operator hs]
    exact ⟨fun he => by rw [he, hσ.assign], fun he => hσ.ops (he.trans hσ.assign.symm)⟩
  · rw [hu.operator hs, hops]
    exact numbersAlike_map hσ.ops _ _
  · rw [hu.word hs, hfuncs]
    exact numbersAlike_map hσ.words _ _

theorem Parallel.token (hσ : σ.Faithful) (h : Parallel σ kept E m₁ m₂) :
    Together (respelled σ kept E) (Option.Rel (σ.Relates kept)) token token m₁ m₂ :=
  token_together (upcoming_together (h.significant (endsAlike_of_symbol h.last)))
    fun _ _ _ _ _ _ hread hn => hn.numbers hσ hread.masked

end Masker

end MaskedTaint
