import MaskedTaint.Proofs.Code.Syntax
import MaskedTaint.Proofs.Script.Syntax

/-! The lexemes of scripts. A text that reads as a script gives the lexemes of the script, its
operands at their places. -/

namespace MaskedTaint

abbrev Named (v : Variable) := { t : Lexeme // t.kind = .dollarName ∧ t.text = v.name }

namespace Script

inductive Denotes (place : Position) : Operand → List Lexeme → Prop
  | copy (v : Variable) : Denotes place (.copy v) [⟨.dollarName, v.name, place.line, place.pos⟩]
  | literal (text : String) : Denotes place .literal [⟨.constantText, text, place.line, place.pos⟩]
  | input (left : Sign .leftBracket) (key : Sign .constantText) (right : Sign .rightBracket) :
      Denotes place .input [⟨.input, "$_GET", place.line, place.pos⟩, left, key, right]

structure Opening (c : Variable) where
  word : Sign .ifWord
  left : Sign .leftParen
  condition : Named c
  right : Sign .rightParen
  first : Sign .leftBrace

def Opening.lexemes {c : Variable} (o : Opening c) : List Lexeme :=
  [o.word, o.left, o.condition, o.right, o.first]

inductive Lexed : Script → List Lexeme → Prop
  | done : Lexed .done []
  | assign {target : Variable} {value : Operand} {place : Position} {rest : Script} {vs ts : List Lexeme}
      (name : Named target) (sign : { t : Lexeme // t.kind = .operator ∧ t.text = "=" })
      (hvalue : Denotes place value vs) (stop : Sign .semicolon) (hrest : Lexed rest ts) :
      Lexed (.assign target value place rest) (name.val :: sign.val :: (vs ++ stop.val :: ts))
  | echo {source : Variable} {place : Position} {rest : Script} {ts : List Lexeme}
      (word : Sign (.sink .xss)) (stop : Sign .semicolon) (hrest : Lexed rest ts) :
      Lexed (.echo source place rest)
        (word.val :: ⟨.dollarName, source.name, place.line, place.pos⟩ :: stop.val :: ts)
  | branch {c : Variable} {yes rest : Script} {us ts : List Lexeme} (o : Opening c)
      (hyes : Lexed yes us) (last : Sign .rightBrace) (hrest : Lexed rest ts) :
      Lexed (.branch c yes .done rest) (o.lexemes ++ (us ++ last.val :: ts))
  | branchElse {c : Variable} {yes no rest : Script} {us vs ts : List Lexeme} (o : Opening c)
      (hyes : Lexed yes us) (last : Sign .rightBrace) (word : Sign .elseWord) (first : Sign .leftBrace)
      (hno : Lexed no vs) (last' : Sign .rightBrace) (hrest : Lexed rest ts) :
      Lexed (.branch c yes no rest)
        (o.lexemes ++ (us ++ last.val :: word.val :: first.val :: (vs ++ last'.val :: ts)))

end Script

/-! ### Lexing -/

namespace Lexer

variable {l l' l'' : Lexer} {stack stack' : List Mode} {piece more : List Char} {place : Position}
  {kind : Kind} {move : Shift} {ts us : List Lexeme}

/-- The lexemes stand between the lexers, apart from gaps. -/
def Leads (l : Lexer) (ts : List Lexeme) (l' : Lexer) : Prop := ∀ us, l'.Gives us → l.Gives (ts ++ us)

theorem Leads.trans (h : l.Leads ts l') (h' : l'.Leads us l'') : l.Leads (ts ++ us) l'' := by
  intro vs hvs
  rw [List.append_assoc]
  exact h _ (h' _ hvs)

section

variable (h : l.At stack (piece ++ more) place) (hl : Lexes piece more kind move)
  (hpiece : ∃ c r, piece = c :: r ∧ Pattern.isBlank c = false) (hmove : move.Moves stack stack')
  (hkind : kind.isGap = false)

include h hl hpiece hmove hkind

theorem At.next : ∃ l', l'.At stack' more (place.after piece) ∧
      l.Leads [⟨kind, String.ofList piece, place.line, place.pos⟩] l' := by
  obtain ⟨c, r, rfl, hc⟩ := hpiece
  obtain ⟨l₀, hat, hrest, rfl, hl₀⟩ := h.settle (by simpa using hc)
  obtain ⟨l', hnext, -, hat'⟩ := exists_next_of_lexes hat.mode hat.loaded hat.stack hrest (by simp)
    hl hmove
  refine ⟨l', hat', fun us hus => ?_⟩
  have hgives := (gives_lexeme hnext hkind).mpr ⟨us, rfl, hus⟩
  rcases hl₀ with rfl | ⟨t, ht, hwhite⟩
  · exact hgives
  · exact (gives_gap ht (by rw [hwhite]; rfl)).mpr hgives

theorem At.sign :
    ∃ (t : Sign kind) (l' : Lexer), l'.At stack' more (place.after piece) ∧ l.Leads [t.val] l' := by
  obtain ⟨l', hat, hleads⟩ := h.next hl hpiece hmove hkind
  exact ⟨⟨_, rfl⟩, l', hat, hleads⟩

end

theorem At.char {c : Char} (h : l.At stack (c :: more) place) (hl : Lexes [c] more kind move)
    (hmove : move.Moves stack stack') (hc : Pattern.isBlank c = false := by decide)
    (hkind : kind.isGap = false := by rfl) :
    ∃ (t : Sign kind) (l' : Lexer), l'.At stack' more (place.after [c]) ∧ l.Leads [t.val] l' :=
  (show l.At stack ([c] ++ more) place from h).sign hl ⟨c, [], rfl, hc⟩ hmove hkind

theorem At.word {c : Char} {r : List Char} (h : l.At stack ((c :: r) ++ more) place)
    (hmore : ∀ x ∈ more.head?, isWordChar x = false)
    (hc : (Pattern.isBlank c = false ∧ c ∉ ['-', '[', ']', '{', '}', '/', '#']) ∧
      (∀ op ∈ Pattern.operators, op.toList.head? ≠ some c) ∧ c ∉ ['?', '%'] := by decide)
    (hstart : isNameStart c = true := by decide) (hr : r.all isWordChar = true := by decide)
    (himport : Pattern.importWords.contains (String.ofList (c :: r)) = false := by decide)
    (hkind : (Kind.ofWord (c :: r)).isGap = false := by rfl) :
    ∃ (t : Sign (Kind.ofWord (c :: r))) (l' : Lexer), l'.At stack more (place.after (c :: r)) ∧
      l.Leads [t.val] l' :=
  h.sign (Lexes.word hc hstart (List.all_eq_true.mp hr) hmore himport) ⟨c, r, rfl, hc.1.1⟩ (.stay _) hkind

theorem At.gives_nil (h : l.At stack [] place) : l.Gives [] := by
  obtain ⟨l₀, hat, hrest, -, hl₀⟩ := h.settle (by simp)
  have hnext : l₀.next = .finished { l₀ with pos := l₀.pos + 1 } := by
    simp [Lexer.next, hat.loaded, hrest]
  rcases hl₀ with rfl | ⟨t, ht, hwhite⟩
  · exact (gives_finished hnext).mpr rfl
  · exact (gives_gap ht (by rw [hwhite]; rfl)).mpr ((gives_finished hnext).mpr rfl)

end Lexer

namespace Script

variable {gap text cs more : List Char}

theorem head_not_word (hgap : Blank gap) (htext : ∀ x ∈ text.head?, isWordChar x = false) :
    ∀ x ∈ (gap ++ text).head?, isWordChar x = false := by
  cases gap with
  | nil => exact htext
  | cons c gap =>
    intro x hx
    cases hx
    have hc := hgap c List.mem_cons_self
    simp only [Pattern.isBlank, Bool.or_eq_true, beq_iff_eq] at hc
    rcases hc with ((rfl | rfl) | rfl) | rfl <;> decide

theorem head_not_word_cons {c : Char} (hgap : Blank gap) (hc : isWordChar c = false) :
    ∀ x ∈ (gap ++ c :: text).head?, isWordChar x = false :=
  head_not_word hgap (by simpa using hc)

theorem no_type_after (hgap : Blank gap)
    (htext : ∃ c r, text = c :: r ∧ Pattern.isSpaceOrTab c = false ∧ isAsciiLetter c = false) :
    ((gap ++ text).drop (Pattern.run Pattern.isSpaceOrTab (gap ++ text))).takeWhile
      isAsciiLetter = [] := by
  induction gap with
  | nil =>
    obtain ⟨c, r, rfl, hc, hletter⟩ := htext
    simp [Pattern.run, hc, hletter]
  | cons c gap ih =>
    have hrest := ih fun x hx => hgap x (List.mem_cons_of_mem _ hx)
    by_cases hc : Pattern.isSpaceOrTab c = true
    · simpa [Pattern.run, hc] using hrest
    · have hblank := hgap c List.mem_cons_self
      simp only [Pattern.isBlank, Bool.or_eq_true, beq_iff_eq] at hblank
      have hletter : isAsciiLetter c = false := by
        rcases hblank with ((rfl | rfl) | rfl) | rfl <;> decide
      simp [Pattern.run, hc, hletter]

variable {value : Operand} {start place : Position}

theorem Spells.head (h : Spells value cs) : ∃ c r, cs = c :: r ∧ (c = '$' ∨ c = '\'') := by
  cases h with
  | copy v =>
    obtain ⟨c, r, hv, -⟩ := v.isName
    exact ⟨'$', c :: r, hv, .inl rfl⟩
  | literal h => exact ⟨'\'', _, rfl, .inr rfl⟩
  | input h₁ h₂ h₃ hkey => exact ⟨'$', _, rfl, .inl rfl⟩

theorem Spells.head_ne (h : Spells value cs)
    (hgap : Blank gap) : ∀ c ∈ (gap ++ (cs ++ more)).head?, c ≠ '=' ∧ c ≠ '>' := by
  intro c hc
  cases gap with
  | nil =>
    obtain ⟨d, r, rfl, hd⟩ := h.head
    cases hc
    rcases hd with rfl | rfl <;> decide
  | cons d gap =>
    cases hc
    have hblank := hgap c List.mem_cons_self
    simp only [Pattern.isBlank, Bool.or_eq_true, beq_iff_eq] at hblank
    rcases hblank with ((rfl | rfl) | rfl) | rfl <;> decide

variable {l : Lexer} {stack : List Mode}

theorem Spells.leads (h : Spells value cs) (hl : l.At stack (cs ++ more) place)
    (hmore : ∀ x ∈ more.head?, isWordChar x = false) :
    ∃ vs l', Denotes place value vs ∧ l'.At stack more (place.after cs) ∧ l.Leads vs l' := by
  cases h with
  | copy v =>
    obtain ⟨l', hl', hleads⟩ := hl.next (v.lexes hmore) v.exists_cons (.stay stack) rfl
    exact ⟨_, l', .copy v, hl', hleads⟩
  | literal h =>
    obtain ⟨l', hl', hleads⟩ := hl.next (Lexes.constantText h more) ⟨'\'', _, rfl, by decide⟩
      (.stay stack) rfl
    exact ⟨_, l', .literal _, hl', hleads⟩
  | @input gap₁ gap₂ gap₃ key h₁ h₂ h₃ hkey =>
    have hat : l.At stack (['$', '_', 'G', 'E', 'T'] ++ (gap₁ ++ '[' :: (gap₂ ++
        ('\'' :: key ++ ['\''] ++ (gap₃ ++ ']' :: more))))) place := by simpa using hl
    obtain ⟨l₁, hl₁, hleads₁⟩ := hat.next (Lexes.name (by decide) (List.all_eq_true.mp (by decide))
      (head_not_word_cons h₁ (by decide))) ⟨'$', _, rfl, by decide⟩ (.stay stack) rfl
    obtain ⟨left, l₂, hl₂, hleads₂⟩ := (hl₁.skip h₁).char (Lexes.leftBracket _) (.push stack)
    obtain ⟨key, l₃, hl₃, hleads₃⟩ := (hl₂.skip h₂).sign (Lexes.constantText hkey _)
      ⟨'\'', _, rfl, by decide⟩ (.stay _) rfl
    obtain ⟨right, l₄, hl₄, hleads₄⟩ := (hl₃.skip h₃).char (Lexes.rightBracket _) (.pop stack)
    refine ⟨_, l₄, .input left key right, ?_, hleads₁.trans (hleads₂.trans (hleads₃.trans hleads₄))⟩
    simpa only [← Position.after_append, List.cons_append, List.nil_append, List.append_assoc] using hl₄

theorem opening_leads {c : Variable} {gap₁ gap₂ gap₃ gap₄ : List Char} (h₁ : Blank gap₁)
    (h₂ : Blank gap₂) (h₃ : Blank gap₃) (h₄ : Blank gap₄)
    (hl : l.At stack (opening c gap₁ gap₂ gap₃ gap₄ ++ more) start) :
    ∃ (o : Opening c) (l' : Lexer), l.Leads o.lexemes l' ∧
      l'.At (.code :: stack) more (start.after (opening c gap₁ gap₂ gap₃ gap₄)) := by
  have hdollar : ∃ x r, c.text ++ (gap₃ ++ (')' :: (gap₄ ++ '{' :: more))) = x :: r ∧
      Pattern.isSpaceOrTab x = false ∧ isAsciiLetter x = false := by
    obtain ⟨x, r, hv, -⟩ := c.isName
    exact ⟨'$', _, by rw [hv]; rfl, by decide, by decide⟩
  have hat : l.At stack (['i', 'f'] ++ (gap₁ ++ '(' :: (gap₂ ++ (c.text ++ (gap₃ ++ (')' :: (gap₄ ++
    '{' :: more))))))) start := by simpa [opening] using hl
  obtain ⟨word, l₁, hl₁, hleads₁⟩ := Lexer.At.word hat (head_not_word_cons h₁ (by decide))
  obtain ⟨left, l₂, hl₂, hleads₂⟩ := (hl₁.skip h₁).char (Lexes.leftParen (no_type_after h₂ hdollar)) (.stay _)
  obtain ⟨l₃, hl₃, hleads₃⟩ := (hl₂.skip h₂).next (c.lexes (head_not_word_cons h₃ (by decide)))
    c.exists_cons (.stay _) rfl
  obtain ⟨right, l₄, hl₄, hleads₄⟩ := (hl₃.skip h₃).char (Lexes.rightParen _) (.stay _)
  obtain ⟨first, l₅, hl₅, hleads₅⟩ := (hl₄.skip h₄).char (Lexes.leftBrace _) (.push stack)
  refine ⟨⟨word, left, ⟨_, rfl, rfl⟩, right, first⟩, l₅,
    hleads₁.trans (hleads₂.trans (hleads₃.trans (hleads₄.trans hleads₅))), ?_⟩
  simpa only [opening, ← Position.after_append, List.cons_append, List.nil_append, List.append_assoc]
    using hl₅

theorem Reads.leads {s : Script} (h : Reads start s text) (hl : l.At stack (text ++ more) start) :
    ∃ ts l', Lexed s ts ∧ l'.At stack more (start.after text) ∧ l.Leads ts l' := by
  induction h generalizing l stack more with
  | done hgap => exact ⟨[], l, .done, hl.skip hgap, fun us hus => hus⟩
  | @assign start place target value rest gap₁ gap₂ gap₃ gap₄ cs text h₁ h₂ h₃ h₄ hvalue hplace
      hrest ih =>
    simp only [List.append_assoc, List.cons_append] at hl
    obtain ⟨l₁, hl₁, hleads₁⟩ := (hl.skip h₁).next (target.lexes (head_not_word_cons h₂ (by decide)))
      target.exists_cons (.stay _) rfl
    obtain ⟨l₂, hl₂, hleads₂⟩ := Lexer.At.next (hl₁.skip h₂ : l₁.At stack (['='] ++ _) _)
      (Lexes.assign (hvalue.head_ne h₃)) ⟨'=', [], rfl, by decide⟩ (.stay _) rfl
    have hat := hl₂.skip h₃
    simp only [← Position.after_append, List.append_assoc, List.singleton_append, ← hplace] at hat
    obtain ⟨vs, l₃, hvs, hl₃, hleads₃⟩ := hvalue.leads hat (head_not_word_cons h₄ (by decide))
    obtain ⟨stop, l₄, hl₄, hleads₄⟩ := (hl₃.skip h₄).char (Lexes.semicolon _) (.stay _)
    rw [← Position.after_append, ← Position.after_append] at hl₄
    obtain ⟨ts, l₅, hts, hl₅, hleads₅⟩ := ih hl₄
    refine ⟨_, l₅, .assign ⟨_, rfl, rfl⟩ ⟨_, rfl, rfl⟩ hvs stop hts, ?_,
      hleads₁.trans (hleads₂.trans (hleads₃.trans (hleads₄.trans hleads₅)))⟩
    simpa [hplace, ← Position.after_append] using hl₅
  | @echo start place source rest gap₁ gap₂ gap₃ text h₁ h₂ h₃ hplace hrest ih =>
    simp only [List.append_assoc, List.cons_append, List.nil_append] at hl
    have hdollar : ∀ x ∈ (source.text ++ (gap₃ ++ ';' :: (text ++ more))).head?, isWordChar x = false := by
      obtain ⟨c, r, hv, -⟩ := source.isName
      simpa [hv] using (by decide : isWordChar '$' = false)
    obtain ⟨word, l₁, hl₁, hleads₁⟩ := Lexer.At.word (c := 'e') (r := ['c', 'h', 'o']) (hl.skip h₁)
      (head_not_word h₂ hdollar)
    have hat := hl₁.skip h₂
    simp only [← Position.after_append, List.append_assoc, ← hplace] at hat
    obtain ⟨l₂, hl₂, hleads₂⟩ := hat.next (source.lexes (head_not_word_cons h₃ (by decide)))
      source.exists_cons (.stay _) rfl
    obtain ⟨stop, l₃, hl₃, hleads₃⟩ := (hl₂.skip h₃).char (Lexes.semicolon _) (.stay _)
    rw [← Position.after_append, ← Position.after_append] at hl₃
    obtain ⟨ts, l₄, hts, hl₄, hleads₄⟩ := ih hl₃
    refine ⟨_, l₄, .echo word stop hts, ?_, hleads₁.trans (hleads₂.trans (hleads₃.trans hleads₄))⟩
    simpa [hplace, ← Position.after_append] using hl₄
  | branch h h₁ h₂ h₃ h₄ hyes hrest ihyes ihrest =>
    simp only [List.append_assoc, List.cons_append] at hl
    obtain ⟨o, l₁, hleads₁, hl₁⟩ := opening_leads h₁ h₂ h₃ h₄ (hl.skip h)
    rw [← Position.after_append] at hl₁
    obtain ⟨us, l₂, hus, hl₂, hleads₂⟩ := ihyes hl₁
    obtain ⟨last, l₃, hl₃, hleads₃⟩ := hl₂.char (Lexes.rightBrace _) (.pop _)
    simp only [← Position.after_append, List.append_assoc] at hl₃
    obtain ⟨ts, l₄, hts, hl₄, hleads₄⟩ := ihrest hl₃
    refine ⟨_, l₄, .branch o hus last hts, ?_, hleads₁.trans (hleads₂.trans (hleads₃.trans hleads₄))⟩
    simpa [← Position.after_append] using hl₄
  | branchElse h h₁ h₂ h₃ h₄ h₅ h₆ hyes hno hrest ihyes ihno ihrest =>
    simp only [List.append_assoc, List.cons_append, List.nil_append] at hl
    obtain ⟨o, l₁, hleads₁, hl₁⟩ := opening_leads h₁ h₂ h₃ h₄ (hl.skip h)
    rw [← Position.after_append] at hl₁
    obtain ⟨us, l₂, hus, hl₂, hleads₂⟩ := ihyes hl₁
    obtain ⟨last, l₃, hl₃, hleads₃⟩ := hl₂.char (Lexes.rightBrace _) (.pop _)
    obtain ⟨word, l₄, hl₄, hleads₄⟩ := Lexer.At.word (c := 'e') (r := ['l', 's', 'e'])
      (hl₃.skip h₅) (head_not_word_cons h₆ (by decide))
    obtain ⟨first, l₅, hl₅, hleads₅⟩ := (hl₄.skip h₆).char (Lexes.leftBrace _) (.push _)
    simp only [← Position.after_append, List.append_assoc, List.singleton_append] at hl₅
    obtain ⟨vs, l₆, hvs, hl₆, hleads₆⟩ := ihno hl₅
    obtain ⟨last', l₇, hl₇, hleads₇⟩ := hl₆.char (Lexes.rightBrace _) (.pop _)
    simp only [← Position.after_append, List.append_assoc, List.cons_append, List.nil_append] at hl₇
    obtain ⟨ts, l₈, hts, hl₈, hleads₈⟩ := ihrest hl₇
    refine ⟨_, l₈, .branchElse o hus last word first hvs last' hts, ?_,
      hleads₁.trans (hleads₂.trans (hleads₃.trans (hleads₄.trans (hleads₅.trans
        (hleads₆.trans (hleads₇.trans hleads₈))))))⟩
    simpa [← Position.after_append] using hl₈

end Script

end MaskedTaint
