import MaskedTaint.Proofs.Lexeme.Lines

/-! The kinds that lexemes can have. A reserved word that is known by its name only has one
of the names of the vocabulary, whatever the text and the mode it is read in. -/

namespace MaskedTaint

def reservedNames : List String := otherReserved ++ renamedWords.map Prod.snd

namespace Kind

def IsListed (kind : Kind) : Prop := ∀ name, kind = reserved name → name ∈ reservedNames

theorem isListed_of_structural {word : String} {kind : Kind}
    (h : structuralWords.lookup word = some kind) : kind.IsListed := by
  have hall : ∀ e ∈ structuralWords, e.2.IsListed := by
    simp [structuralWords, IsListed]
  obtain ⟨l₁, l₂, hsplit, -⟩ := List.lookup_eq_some_iff.mp h
  exact hall (word, kind) (by simp [hsplit])

theorem isListed_ofUpper (word : String) : (ofUpper word).IsListed := by
  unfold ofUpper
  split
  · rename_i kind h
    exact isListed_of_structural h
  · split
    · rename_i h
      rintro name ⟨⟩
      exact List.mem_append_left _ (List.contains_iff_mem.mp h)
    · split
      · rename_i name h
        obtain ⟨l₁, l₂, hsplit, -⟩ := List.lookup_eq_some_iff.mp h
        rintro name ⟨⟩
        exact List.mem_append_right _ (List.mem_map.mpr ⟨(word, name), by simp [hsplit], rfl⟩)
      · repeat' split
        all_goals simp [IsListed]

def isControl : Kind → Bool
  | ifWord | elseIfWord | elseWord | whileWord | forWord | forEachWord | switchWord | caseWord
  | doWord => true
  | _ => false

theorem isListed_ofVariable (cs : List Char) : (ofVariable cs).IsListed := by
  unfold ofVariable
  split <;> simp [IsListed]

/-- Such a kind does not come from the spelling of a word or of a variable. -/
def isFixed : Kind → Bool
  | reserved _ | input => false
  | kind => !kind.isControl

/-- A lexeme of this text may have such a kind. -/
def Suits (text : List Char) (kind : Kind) : Prop :=
  kind = ofWord text ∨ kind = ofVariable text ∨ kind.isFixed = true

end Kind

namespace Rule

def Emits (r : Rule) : Prop :=
  ∀ text next kind shift, r.action text next = .emit kind shift → kind.Suits text

@[simp] theorem emits_simple (width : List Char → Nat) {kind : Kind} (shift : Shift)
    (h : kind.isFixed = true) : (simple width kind shift).Emits := by
  intro text next kind' shift' he
  cases he
  exact .inr (.inr h)

@[simp] theorem emits_counting (r : Rule) : r.counting.Emits ↔ r.Emits := Iff.rfl

@[simp] theorem emits_openTag : openTag.Emits := by
  intro text next kind shift he
  cases he
  dsimp only
  split <;> exact .inr (.inr rfl)

@[simp] theorem emits_word : word.Emits := by
  intro text next kind shift he
  cases he
  exact .inl rfl

@[simp] theorem emits_dollarName : dollarName.Emits := by
  intro text next kind shift he
  cases he
  exact .inr (.inl rfl)

@[simp] theorem emits_arrow : arrow.Emits := by
  intro text next kind shift he
  cases he
  exact .inr (.inr rfl)

@[simp] theorem emits_dollarBrace (shift : Mode → Shift) : (dollarBrace shift).Emits := by
  intro text next kind shift he
  cases he
  exact .inr (.inr rfl)

theorem emits_label : ∀ r ∈ [startHeredoc, startNowdoc, endHeredoc, endNowdoc], r.Emits := by
  intro r hr text next kind shift he
  simp only [List.mem_cons, List.not_mem_nil, or_false] at hr
  rcases hr with rfl | rfl | rfl | rfl <;> cases he

end Rule

theorem Mode.emits_rules (m : Mode) : ∀ r ∈ m.rules, r.Emits := by
  have hlabel := Rule.emits_label
  simp only [List.forall_mem_cons, List.not_mem_nil, false_imp_iff, implies_true, and_true] at hlabel
  cases m <;> simp [rules, Rule.whitespace, Rule.leftBracket, Rule.rightBracket, Rule.leftBrace,
    Rule.rightBrace, Rule.docComment, Rule.comment, Rule.operator, Rule.closeTag, Rule.html,
    Rule.importWord, Rule.decimal, Rule.integer, Rule.constantText, Rule.openQuote,
    Rule.openBacktick, Rule.concat, Rule.cast, Rule.sign, Rule.quotedName, Rule.curlyOpen,
    Rule.encapsed, Rule.heredocText, Rule.nowdocLine, Rule.offsetStart, Rule.propertyStart, Kind.isFixed,
    Kind.isControl, hlabel]

namespace Lexer

def labelKinds : List Kind := [.startHeredoc, .startNowdoc, .endHeredoc, .endNowdoc, .encapsedText]

variable {l l' : Lexer} {t : Lexeme}

theorem kind_of_close {cleared : Lexer} {label : Option String} {missing : LexError}
    {text : String} {kind kind' : Kind} (hkind : kind ∈ labelKinds)
    (h : l.close cleared label missing text kind = (.ok kind', l')) : kind' ∈ labelKinds := by
  unfold close at h
  split at h
  · cases h
  · split at h
    · obtain ⟨hok, -⟩ := Prod.mk.inj h
      cases hpop : cleared.pop.1 with
      | error e => simp [hpop, Except.map] at hok
      | ok u =>
        simp only [hpop, Except.map, Except.ok.injEq] at hok
        exact hok ▸ hkind
    · cases h
      simp [labelKinds]

theorem kind_of_next (h : l.next = .lexeme t l') : t.kind.Suits t.text.toList := by
  have hlabel : ∀ kind ∈ labelKinds, kind.isFixed = true := by decide
  cases does_next h with
  | @lexeme rule width kind _ _ _ hmatch hact =>
    rw [String.toList_ofList]
    cases haction : rule.action (l.rest.take width) (l.rest.drop width).head? with
    | emit kind' shift =>
      rw [haction] at hact
      obtain ⟨hok, -⟩ := Prod.mk.inj hact
      cases hshift : ((l.advance width).shift shift).1 with
      | error e => simp [hshift, Except.map] at hok
      | ok u =>
        simp only [hshift, Except.map, Except.ok.injEq] at hok
        exact Mode.emits_rules l.mode rule (firstMatch_spec hmatch).1 _ _ _ shift (hok ▸ haction)
    | openHeredoc label | openNowdoc label =>
      rw [haction] at hact
      cases hact
      exact .inr (.inr rfl)
    | closeHeredoc | closeNowdoc =>
      rw [haction] at hact
      exact .inr (.inr (hlabel _ (kind_of_close (by simp [labelKinds]) hact)))

theorem isListed_next (h : l.next = .lexeme t l') : t.kind.IsListed := by
  rcases kind_of_next h with hword | hvariable | hfixed
  · rw [hword]
    exact Kind.isListed_ofUpper _
  · rw [hvariable]
    exact Kind.isListed_ofVariable _
  · intro name hname
    rw [hname] at hfixed
    cases hfixed

end Lexer

end MaskedTaint
