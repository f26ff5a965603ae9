import MaskedTaint.Proofs.Lexeme.Kinds
import MaskedTaint.Proofs.Lexeme.Pieces
import MaskedTaint.Proofs.Lexeme.Scanning

/-! The modes and their stack. A lexer that begins outside code with an empty stack keeps to a
discipline: every mode stands on one that it can have been entered from. Heredocs are never
entered, since the operators take their angle brackets, and only a closing bracket or brace in
code can find the stack empty. -/

namespace MaskedTaint

namespace Kind

def opensText : Kind → Bool
  | startHeredoc | startNowdoc => true
  | _ => false

def isMark : Kind → Bool
  | leftBracket | rightBracket | leftBrace | rightBrace | arrow | closeTag | quote | backtick
  | concat | startHeredoc | startNowdoc => true
  | _ => false

def joins : Kind → Bool
  | concat | quote => true
  | _ => false

theorem isMark_ofUpper (word : String) : (ofUpper word).isMark = false := by
  unfold ofUpper
  split
  · rename_i kind h
    have hall : ∀ e ∈ structuralWords, e.2.isMark = false := by decide
    obtain ⟨l₁, l₂, hsplit, -⟩ := List.lookup_eq_some_iff.mp h
    exact hall (word, kind) (by simp [hsplit])
  · split
    · rfl
    · split
      · rfl
      · repeat' split
        all_goals rfl

theorem isMark_ofVariable (cs : List Char) : (ofVariable cs).isMark = false := by
  unfold ofVariable
  split <;> rfl

theorem of_isMark {kind : Kind} (h : kind.isMark = false) :
    kind.joins = false ∧ kind.opensText = false := by
  cases kind <;> simp_all [isMark, joins, opensText]

theorem IsListed.name_ne {kind : Kind} (h : kind.IsListed) (hopens : kind.opensText = false) :
    kind.name ≠ "START_HEREDOC" ∧ kind.name ≠ "START_NOWDOC" := by
  cases kind with
  | reserved name =>
    have hnames : ∀ n ∈ reservedNames, n ≠ "START_HEREDOC" ∧ n ≠ "START_NOWDOC" := by decide
    exact hnames name (h name rfl)
  | startHeredoc => cases hopens
  | startNowdoc => cases hopens
  | cast c => cases c <;> decide
  | sink v => cases v <;> decide
  | sanitizer v => cases v <;> decide
  | _ => decide

end Kind

namespace Mode

def shifts : Mode → List Shift
  | html => [.enter code, .stay]
  | code =>
    [.stay, .push property, .push code, .pop, .enter html, .push quoted, .push backticked]
  | quoted => [.pop, .stay, .push quotedVar, .push code, .push varName]
  | backticked => [.pop, .stay, .push backtickedVar, .push code, .push varName]
  | quotedVar | backtickedVar =>
    [.stay, .popTwice, .enter offset, .enter property, .pop, .enter code, .enter varName]
  | varName => [.push code, .pop, .stay]
  | offset => [.pop, .stay]
  | property => [.pop]
  | heredoc | heredocVar | nowdoc => []

def shiftsFor : Mode → Kind → List Shift
  | html, _ => [.stay, .enter code]
  | code, .leftBracket | code, .leftBrace => [.push code]
  | code, .rightBracket | code, .rightBrace => [.pop]
  | code, .arrow => [.stay, .push property]
  | code, .closeTag => [.enter html]
  | code, .quote => [.push quoted]
  | code, .backtick => [.push backticked]
  | code, _ => [.stay]
  | quoted, .quote | backticked, .backtick => [.pop]
  | quoted, .dollarName => [.push quotedVar]
  | backticked, .dollarName => [.push backtickedVar]
  | quoted, .curlyOpen | backticked, .curlyOpen => [.push code]
  | quoted, .dollarBrace | backticked, .dollarBrace => [.push varName, .push code]
  | quoted, _ | backticked, _ => [.stay]
  | quotedVar, .quote | backtickedVar, .backtick => [.popTwice]
  | quotedVar, .encapsedText | backtickedVar, .encapsedText => [.pop]
  | quotedVar, _ | backtickedVar, _ =>
    [.stay, .enter offset, .enter property, .enter code, .enter varName]
  | varName, .leftBracket => [.push code]
  | varName, .rightBrace => [.pop]
  | varName, _ => [.stay]
  | offset, .rightBracket => [.pop]
  | offset, _ => [.stay]
  | property, _ => [.pop]
  | heredoc, _ | heredocVar, _ | nowdoc, _ => []

theorem shiftsFor_code {kind : Kind} (h : kind.isMark = false) : code.shiftsFor kind = [.stay] := by
  cases kind <;> simp_all [shiftsFor, Kind.isMark]

theorem mem_shifts {m : Mode} {kind : Kind} {s : Shift} (h : s ∈ m.shiftsFor kind) : s ∈ m.shifts := by
  revert s
  unfold shiftsFor
  split <;> simp [shifts]

end Mode

/-! ### What the rules do -/

theorem Pattern.char_le (c : Char) (cs : List Char) : char c cs ≤ 1 := by
  unfold char
  split
  · split <;> omega
  · omega

theorem Pattern.concat_le (cs : List Char) : concat cs ≤ 1 := by
  unfold concat
  split
  · split <;> omega
  · omega
  · omega

def Rule.Moves (m : Mode) (r : Rule) : Prop :=
  ∀ previous cs text next, ∃ kind shift, r.action text next = .emit kind shift ∧
    shift ∈ m.shiftsFor kind ∧ kind.opensText = false ∧ (kind.joins = true → r.width previous cs ≤ 1)

namespace Rule

variable {m : Mode}

@[simp] theorem moves_simple {width : List Char → Nat} {kind : Kind} {shift : Shift} :
    (simple width kind shift).Moves m ↔
      shift ∈ m.shiftsFor kind ∧ kind.opensText = false ∧ (kind.joins = true → ∀ cs, width cs ≤ 1) := by
  constructor
  · intro h
    obtain ⟨_, _, haction, hmem, hopens, -⟩ := h none [] [] none
    cases haction
    refine ⟨hmem, hopens, fun hjoins cs => ?_⟩
    obtain ⟨_, _, haction, -, -, hwidth⟩ := h none cs [] none
    cases haction
    exact hwidth hjoins
  · rintro ⟨hmem, hopens, hwidth⟩ previous cs text next
    exact ⟨kind, shift, rfl, hmem, hopens, fun hjoins => hwidth hjoins cs⟩

@[simp] theorem moves_counting {r : Rule} : r.counting.Moves m ↔ r.Moves m := Iff.rfl

theorem moves_spelled {width : List Char → Nat} {kind : List Char → Kind} {shift : Shift}
    (hkind : ∀ text, shift ∈ m.shiftsFor (kind text) ∧ (kind text).isMark = false) :
    (spelled width kind shift).Moves m := by
  intro previous cs text next
  obtain ⟨hjoins, hopens⟩ := Kind.of_isMark (hkind text).2
  exact ⟨kind text, shift, rfl, (hkind text).1, hopens, fun h => by simp [hjoins] at h⟩

theorem moves_openTag : openTag.Moves .html :=
  moves_spelled fun text => ⟨by simp [Mode.shiftsFor], by split <;> rfl⟩

theorem moves_word : word.Moves .code :=
  moves_spelled fun text => by
    have hmark := Kind.isMark_ofUpper (String.ofList (upperCase text))
    exact ⟨by rw [Kind.ofWord, Mode.shiftsFor_code hmark]; simp, hmark⟩

theorem moves_dollarName (h : ∀ text, Shift.stay ∈ m.shiftsFor (Kind.ofVariable text)) :
    dollarName.Moves m :=
  moves_spelled fun text => ⟨h text, Kind.isMark_ofVariable text⟩

theorem moves_arrow : arrow.Moves .code := by
  intro previous cs text next
  refine ⟨_, _, rfl, ?_, rfl, fun hjoins => by cases hjoins⟩
  split <;> simp [Mode.shiftsFor]

theorem moves_dollarBrace {shift : Mode → Shift} (hname : shift .varName ∈ m.shiftsFor .dollarBrace)
    (hcode : shift .code ∈ m.shiftsFor .dollarBrace) : (dollarBrace shift).Moves m := by
  intro previous cs text next
  refine ⟨_, _, rfl, ?_, rfl, fun hjoins => by cases hjoins⟩
  split
  · exact hname
  · exact hcode

end Rule

/-! ### Heredocs are never opened -/

namespace Pattern

theorem operator_pos_of_angles (r : List Char) : 0 < operator ('<' :: '<' :: '<' :: r) := by
  have hmem : "<<" ∈ operators := by decide
  have hlength : ∀ op ∈ operators, 0 < op.length := by decide
  unfold operator
  cases hfind : operators.find? (fun op => op.toList.isPrefixOf ('<' :: '<' :: '<' :: r)) with
  | none =>
    have hno := List.find?_eq_none.mp hfind "<<" hmem
    simp [List.isPrefixOf] at hno
  | some op => exact hlength op (List.mem_of_find?_eq_some hfind)

variable {cs : List Char}

theorem operator_pos_of_heredocStart (h : 0 < heredocStart cs) : 0 < operator cs := by
  unfold heredocStart at h
  split at h
  · exact operator_pos_of_angles _
  · cases h

theorem operator_pos_of_nowdocStart (h : 0 < nowdocStart cs) : 0 < operator cs := by
  unfold nowdocStart at h
  split at h
  · exact operator_pos_of_angles _
  · cases h

theorem head?_of_char_pos {c : Char} (h : 0 < char c cs) : cs.head? = some c := by
  cases cs with
  | nil => cases h
  | cons d r =>
    by_cases hd : d = c
    · rw [hd, List.head?_cons]
    · simp [char, hd] at h

end Pattern

theorem firstMatch_mem_of_append {rules more : List Rule} {previous : Option Char} {cs : List Char}
    {rule : Rule} {width : Nat} (h : firstMatch (rules ++ more) previous cs = some (rule, width))
    {x : Rule} (hx : x ∈ rules) (hwidth : 0 < x.width previous cs) : rule ∈ rules := by
  rw [firstMatch, List.findSome?_append] at h
  cases hfirst : firstMatch rules previous cs with
  | none =>
    have hnone := List.findSome?_eq_none_iff.mp hfirst x hx
    simp [hwidth] at hnone
  | some found =>
    rw [firstMatch] at hfirst
    rw [hfirst] at h
    obtain rfl := Option.some.inj h
    exact (firstMatch_spec hfirst).1

namespace Rule

def earlyRules : List Rule :=
  layoutRules ++ nameRules ++ [dollarName, decimal, integer, constantText, openQuote]

def lateRules : List Rule := openBacktick :: castRules ++ signRules

theorem code_rules_split :
    Mode.code.rules = earlyRules ++ ([startHeredoc, startNowdoc] ++ lateRules) := rfl

theorem mem_of_firstMatch_code {previous : Option Char} {cs : List Char} {rule : Rule} {width : Nat}
    (h : firstMatch Mode.code.rules previous cs = some (rule, width)) :
    rule ∈ earlyRules ++ lateRules := by
  obtain ⟨hmem, hwidth⟩ := firstMatch_spec h
  have hfound : 0 < rule.width previous cs := hwidth ▸ firstMatch_width_pos h
  rw [code_rules_split] at h hmem
  by_cases hop : 0 < Pattern.operator cs
  · have hoperator : operator ∈ earlyRules := by simp [earlyRules, nameRules]
    exact List.mem_append_left _ (firstMatch_mem_of_append h hoperator hop)
  · rw [List.mem_append, List.mem_append] at hmem
    rcases hmem with hmem | hmem | hmem
    · exact List.mem_append_left _ hmem
    · simp only [List.mem_cons, List.not_mem_nil, or_false] at hmem
      rcases hmem with rfl | rfl
      · exact absurd (Pattern.operator_pos_of_heredocStart hfound) hop
      · exact absurd (Pattern.operator_pos_of_nowdocStart hfound) hop
    · exact List.mem_append_right _ hmem

theorem moves_codeRules : ∀ r ∈ earlyRules ++ lateRules, r.Moves .code := by
  have hvariable : dollarName.Moves .code := moves_dollarName fun text => by
    rw [Mode.shiftsFor_code (Kind.isMark_ofVariable text)]
    simp
  simp [earlyRules, lateRules, layoutRules, nameRules, castRules, signRules, whitespace,
    leftBracket, rightBracket, leftBrace, rightBrace, docComment, comment, operator, closeTag,
    importWord, decimal, integer, constantText, openQuote, openBacktick, cast, concat, sign,
    moves_arrow, moves_word, hvariable, Mode.shiftsFor, Kind.joins, Kind.opensText, Pattern.char_le,
    Pattern.concat_le]

def Pops (r : Rule) : Prop := ∃ text next kind, r.action text next = .emit kind .pop

@[simp] theorem pops_simple {width : List Char → Nat} {kind : Kind} {shift : Shift} :
    (simple width kind shift).Pops ↔ shift = .pop := by
  constructor
  · rintro ⟨text, next, kind', haction⟩
    cases haction
    rfl
  · rintro rfl
    exact ⟨[], none, kind, rfl⟩

@[simp] theorem pops_counting {r : Rule} : r.counting.Pops ↔ r.Pops := Iff.rfl

theorem not_pops_arrow : ¬ arrow.Pops := by
  rintro ⟨text, next, kind, haction⟩
  simp only [arrow, Action.emit.injEq] at haction
  split at haction <;> cases haction.2

theorem not_pops_word : ¬ word.Pops := by
  rintro ⟨text, next, kind, haction⟩
  cases haction

theorem not_pops_dollarName : ¬ dollarName.Pops := by
  rintro ⟨text, next, kind, haction⟩
  cases haction

theorem eq_of_pops {r : Rule} (hr : r ∈ earlyRules ++ lateRules) (hpops : r.Pops) :
    r = rightBracket ∨ r = rightBrace := by
  have hall : ∀ r ∈ earlyRules ++ lateRules, r.Pops → r = rightBracket ∨ r = rightBrace := by
    simp [earlyRules, lateRules, layoutRules, nameRules, castRules, signRules, whitespace,
      leftBracket, leftBrace, docComment, comment, operator, closeTag, importWord, decimal,
      integer, constantText, openQuote, openBacktick, cast, concat, sign, not_pops_arrow,
      not_pops_word, not_pops_dollarName]
  exact hall r hr hpops

end Rule

open Rule in
theorem Mode.moves_rules {m : Mode} (hm : m ∉ [code, heredoc, heredocVar, nowdoc]) :
    ∀ r ∈ m.rules, r.Moves m := by
  have hquoted : Rule.dollarName.Moves .quotedVar := moves_dollarName fun text => by
    unfold Kind.ofVariable
    split <;> simp [shiftsFor]
  have hbackticked : Rule.dollarName.Moves .backtickedVar := moves_dollarName fun text => by
    unfold Kind.ofVariable
    split <;> simp [shiftsFor]
  have hoffset : Rule.dollarName.Moves .offset := moves_dollarName fun text => by
    unfold Kind.ofVariable
    split <;> simp [shiftsFor]
  have hbrace : ∀ {m : Mode} {shift : Mode → Shift}, shift .varName ∈ m.shiftsFor .dollarBrace ∧
      shift .code ∈ m.shiftsFor .dollarBrace → (dollarBrace shift).Moves m :=
    fun h => moves_dollarBrace h.1 h.2
  have hpush : (dollarBrace .push).Moves .quoted ∧ (dollarBrace .push).Moves .backticked ∧
      (dollarBrace .enter).Moves .quotedVar ∧ (dollarBrace .enter).Moves .backtickedVar :=
    ⟨hbrace (by decide), hbrace (by decide), hbrace (by decide), hbrace (by decide)⟩
  cases m <;> simp_all [rules, moves_openTag, Rule.html, encapsed, quotedName, curlyOpen,
    offsetStart, propertyStart, leftBracket, rightBrace, rightBracket, shiftsFor, Kind.joins,
    Kind.opensText, Pattern.char_le]

section

variable {m : Mode} (hm : m ∉ [heredoc, heredocVar, nowdoc]) {previous : Option Char}
  {cs : List Char} {rule : Rule} {width : Nat}
  (h : firstMatch m.rules previous cs = some (rule, width))

include hm h

theorem Mode.moves_of_firstMatch : rule.Moves m := by
  by_cases hcode : m = .code
  · subst hcode
    exact Rule.moves_codeRules rule (Rule.mem_of_firstMatch_code h)
  · exact moves_rules (by simpa [hcode] using hm) rule (firstMatch_spec h).1

theorem Mode.shifts_of_firstMatch (text : List Char) (next : Option Char) :
    ∃ kind shift, rule.action text next = .emit kind shift ∧ shift ∈ m.shifts ∧ kind.opensText = false := by
  obtain ⟨kind, shift, haction, hshift, hopens, -⟩ := moves_of_firstMatch hm h previous cs text next
  exact ⟨kind, shift, haction, mem_shifts hshift, hopens⟩

/-! ### The discipline -/

end

def Mode.StandsOn : Mode → List Mode → Prop
  | .html, _ | .code, _ => True
  | .quoted, stack | .backticked, stack => stack.head? = some .code
  | .quotedVar, stack => stack.head? = some .quoted
  | .backtickedVar, stack => stack.head? = some .backticked
  | .varName, stack | .offset, stack =>
    stack.head? = some .quoted ∨ stack.head? = some .backticked
  | .property, stack => stack ≠ []
  | .heredoc, _ | .heredocVar, _ | .nowdoc, _ => False

def Mode.frames : List Mode := [.code, .quoted, .backticked, .varName]

inductive Stacked : List Mode → Prop
  | nil : Stacked []
  | cons {m : Mode} {stack : List Mode} (hm : m ∈ Mode.frames) (hon : m.StandsOn stack)
      (h : Stacked stack) : Stacked (m :: stack)

namespace Mode

variable {m n : Mode} {stack : List Mode}

theorem StandsOn.enter (h : m.StandsOn stack) (hshift : Shift.enter n ∈ m.shifts) :
    n.StandsOn stack := by
  cases m <;> cases n <;> simp_all [shifts, StandsOn]
  all_goals
    rintro rfl
    simp at h

theorem StandsOn.push (hshift : Shift.push n ∈ m.shifts) :
    m ∈ frames ∧ n.StandsOn (m :: stack) := by
  cases m <;> cases n <;> simp_all [shifts, StandsOn, frames]

theorem StandsOn.eq_code (h : m.StandsOn []) (hshift : Shift.pop ∈ m.shifts) : m = code := by
  cases m <;> simp_all [shifts, StandsOn]

theorem StandsOn.exists_two (h : m.StandsOn stack) (hm : m = quotedVar ∨ m = backtickedVar)
    (hstack : Stacked stack) : ∃ a rest, stack = a :: code :: rest := by
  cases hstack with
  | nil => rcases hm with rfl | rfl <;> simp [StandsOn] at h
  | @cons a rest ha hon hrest =>
    have hbelow : rest.head? = some code := by
      rcases hm with rfl | rfl
      · obtain rfl : a = quoted := by simpa [StandsOn] using h
        exact hon
      · obtain rfl : a = backticked := by simpa [StandsOn] using h
        exact hon
    obtain ⟨rest', rfl⟩ := List.head?_eq_some_iff.mp hbelow
    exact ⟨a, rest', rfl⟩

theorem eq_of_popTwice (hshift : Shift.popTwice ∈ m.shifts) :
    m = quotedVar ∨ m = backtickedVar := by
  cases m <;> simp_all [shifts]

end Mode

namespace Lexer

def Step.after : Step → Lexer
  | lexeme _ l => l
  | finished l => l
  | failed _ l => l

structure Disciplined (l : Lexer) : Prop where
  mode : l.mode.StandsOn l.stack
  stack : Stacked l.stack

variable {l l' : Lexer}

section

variable (h : l.Disciplined)

include h

theorem Disciplined.mode_mem : l.mode ∉ [.heredoc, .heredocVar, .nowdoc] := by
  have hmode := h.mode
  intro hmem
  simp only [List.mem_cons, List.not_mem_nil, or_false] at hmem
  rcases hmem with hm | hm | hm <;> simp [hm, Mode.StandsOn] at hmode

theorem Disciplined.pop : l.pop.2.Disciplined := by
  unfold Lexer.pop
  split
  · exact h
  · rename_i m stack hstack
    have hs := h.stack
    rw [hstack] at hs
    cases hs with
    | cons hm hon hs => exact ⟨hon, hs⟩

theorem Disciplined.of_eq (hmode : l'.mode = l.mode)
    (hstack : l'.stack = l.stack) : l'.Disciplined :=
  ⟨by rw [hmode, hstack]; exact h.mode, by rw [hstack]; exact h.stack⟩

theorem Disciplined.shift {s : Shift} (hs : s ∈ l.mode.shifts) : (l.shift s).2.Disciplined := by
  cases s with
  | stay => exact h
  | enter m => exact ⟨h.mode.enter hs, h.stack⟩
  | push m =>
    obtain ⟨hframe, hon⟩ := Mode.StandsOn.push hs
    exact ⟨hon, .cons hframe h.mode h.stack⟩
  | pop => exact h.pop
  | popTwice =>
    have hpop := h.pop
    simp only [Lexer.shift]
    split
    · rename_i l' heq
      rw [heq] at hpop
      exact hpop.pop
    · exact hpop

theorem Disciplined.shift_error {s : Shift} (hs : s ∈ l.mode.shifts)
    {e : LexError} (he : (l.shift s).1 = .error e) : l.mode = .code ∧ l.stack = [] ∧ s = .pop := by
  cases s with
  | stay => cases he
  | enter m => cases he
  | push m => cases he
  | pop =>
    obtain ⟨-, hstack⟩ := pop_error he
    have hmode := h.mode
    rw [hstack] at hmode
    exact ⟨hmode.eq_code hs, hstack, rfl⟩
  | popTwice =>
    obtain ⟨a, rest, hstack⟩ := h.mode.exists_two (Mode.eq_of_popTwice hs) h.stack
    simp [Lexer.shift, Lexer.pop, hstack] at he

theorem Disciplined.act {rule : Rule} {width : Nat}
    (hmatch : firstMatch l.mode.rules l.before.head? l.rest = some (rule, width)) (text : String) :
    ((l.advance width).act text
      (rule.action (l.rest.take width) (l.rest.drop width).head?)).2.Disciplined := by
  obtain ⟨kind, s, haction, hs, -⟩ :=
    Mode.shifts_of_firstMatch h.mode_mem hmatch (l.rest.take width) (l.rest.drop width).head?
  have hadvance : (l.advance width).Disciplined := h.of_eq rfl rfl
  rw [haction]
  exact hadvance.shift hs

theorem Disciplined.next : l.next.after.Disciplined := by
  generalize hstep : l.next = step
  cases does_next hstep with
  | unloaded hloaded | finished hloaded hrest => exact h.of_eq rfl rfl
  | stuck hloaded hrest hmatch => exact h
  | @lexeme rule width kind l' hloaded hrest hmatch hact
  | @failed rule width e l' hloaded hrest hmatch hact =>
    have hafter := h.act hmatch (String.ofList (l.rest.take width))
    rw [hact] at hafter
    exact hafter

theorem Disciplined.opensText {t : Lexeme} (hn : l.next = .lexeme t l') :
    t.kind.opensText = false := by
  cases does_next hn with
  | @lexeme rule width kind _ hloaded hrest hmatch hact =>
    obtain ⟨kind', s, haction, hs, hopens⟩ :=
      Mode.shifts_of_firstMatch h.mode_mem hmatch (l.rest.take width) (l.rest.drop width).head?
    rw [haction] at hact
    have hok : ((l.advance width).shift s).1.map (fun _ => kind') = .ok kind :=
      congrArg Prod.fst hact
    cases hshift : ((l.advance width).shift s).1 with
    | error e => rw [hshift] at hok; cases hok
    | ok u =>
      rw [hshift] at hok
      exact Except.ok.inj hok ▸ hopens

theorem Disciplined.emptyStack (hn : l.next = .failed .emptyStack l') :
    l.mode = .code ∧ l.stack = [] ∧ (l.rest.head? = some ']' ∨ l.rest.head? = some '}') := by
  cases does_next hn with
  | @failed rule width _ _ hloaded hrest hmatch hact =>
    obtain ⟨kind, s, haction, hs, -⟩ :=
      Mode.shifts_of_firstMatch h.mode_mem hmatch (l.rest.take width) (l.rest.drop width).head?
    rw [haction] at hact
    have hadvance : (l.advance width).Disciplined := h.of_eq rfl rfl
    obtain ⟨hmode, hstack, rfl⟩ := hadvance.shift_error hs (map_eq_error (congrArg Prod.fst hact))
    have hmode : l.mode = .code := hmode
    refine ⟨hmode, hstack, ?_⟩
    rw [hmode] at hmatch
    have hfound := (firstMatch_spec hmatch).2 ▸ firstMatch_width_pos hmatch
    rcases Rule.eq_of_pops (Rule.mem_of_firstMatch_code hmatch) ⟨_, _, _, haction⟩ with rfl | rfl
    · exact .inl (Pattern.head?_of_char_pos hfound)
    · exact .inr (Pattern.head?_of_char_pos hfound)

end

/-- The lexers one comes to from a lexer outside code with an empty stack: by new texts, places
and line numbers, and by steps, also by those that fail. -/
inductive Reached : Lexer → Prop
  | start {l : Lexer} (hmode : l.mode = .html) (hstack : l.stack = []) : Reached l
  | load {l : Lexer} (h : Reached l) (text : List Char) : Reached (l.load text)
  | seek {l : Lexer} (h : Reached l) (pos : Int) : Reached (l.seek pos)
  | renumber {l : Lexer} (h : Reached l) (line : Int) : Reached { l with line := line }
  | step {l : Lexer} (h : Reached l) : Reached l.next.after

theorem Reached.disciplined (h : l.Reached) : l.Disciplined := by
  induction h with
  | start hmode hstack => exact ⟨by rw [hmode]; trivial, by rw [hstack]; exact .nil⟩
  | load h text ih | seek h pos ih | renumber h line ih => exact ih.of_eq rfl rfl
  | step h ih => exact ih.next

end Lexer

namespace Stacked

variable {stack : List Mode}

theorem mem_frames (h : Stacked stack) : ∀ m ∈ stack, m ∈ Mode.frames := by
  induction h with
  | nil => simp
  | cons hm hon h ih => exact List.forall_mem_cons.mpr ⟨hm, ih⟩

theorem getLast_eq (h : Stacked stack) : ∀ m ∈ stack.getLast?, m = .code := by
  induction h with
  | nil => simp
  | @cons m stack hm hon h ih =>
    cases stack with
    | nil =>
      simp only [Mode.frames, List.mem_cons, List.not_mem_nil, or_false] at hm
      rcases hm with rfl | rfl | rfl | rfl <;> simp_all [Mode.StandsOn]
    | cons a rest => simpa [List.getLast?_cons_cons] using ih

theorem standsOn (h : Stacked stack) {above below : List Mode} {m : Mode}
    (hsplit : stack = above ++ m :: below) : m.StandsOn below := by
  induction h generalizing above with
  | nil => simp at hsplit
  | cons hm hon h ih =>
    cases above with
    | nil =>
      obtain ⟨rfl, rfl⟩ := List.cons.inj hsplit
      exact hon
    | cons a above => exact ih (List.cons.inj hsplit).2

end Stacked

namespace Lexer

variable {l : Lexer}

/-- Whatever texts a lexer is given that begins outside code with an empty stack, also behind a
failure, its modes and its stack keep to the discipline: heredocs are never entered; the stack
holds code, quoted and backticked text and names only, code at its bottom, quoted and
backticked text on code, names on quoted or backticked text; and what the current mode came
from is on top. So nothing to come back to is missed except by a closing bracket or brace of
code outside all others. -/
theorem disciplined_of_reached (h : l.Reached) :
    l.mode ∈ [.html, .code, .quoted, .quotedVar, .varName, .offset, .property, .backticked,
      .backtickedVar] ∧
    (∀ m ∈ l.stack, m ∈ [.code, .quoted, .backticked, .varName]) ∧
    (∀ m ∈ l.stack.getLast?, m = .code) ∧
    (∀ above m below, l.stack = above ++ m :: below →
      (m = .quoted ∨ m = .backticked → below.head? = some .code) ∧
      (m = .varName → below.head? = some .quoted ∨ below.head? = some .backticked)) ∧
    (l.mode = .quoted ∨ l.mode = .backticked → l.stack.head? = some .code) ∧
    (l.mode = .quotedVar → l.stack.head? = some .quoted) ∧
    (l.mode = .backtickedVar → l.stack.head? = some .backticked) ∧
    (l.mode = .varName ∨ l.mode = .offset →
      l.stack.head? = some .quoted ∨ l.stack.head? = some .backticked) ∧
    (l.mode = .property → l.stack ≠ []) ∧
    (∀ t l', l.next = .lexeme t l' →
      t.kind.name ≠ "START_HEREDOC" ∧ t.kind.name ≠ "START_NOWDOC") ∧
    (∀ l', l.next = .failed .emptyStack l' → l.mode = .code ∧ l.stack = [] ∧
      (l.rest.head? = some ']' ∨ l.rest.head? = some '}')) ∧
    (l.mode = .quotedVar ∨ l.mode = .backtickedVar → 2 ≤ l.stack.length) := by
  have hd := h.disciplined
  have hon := hd.mode
  refine ⟨?_, hd.stack.mem_frames, hd.stack.getLast_eq, fun above m below hsplit => ?_, ?_, ?_, ?_,
    ?_, ?_, fun t l' hn => (isListed_next hn).name_ne (hd.opensText hn),
    fun l' => hd.emptyStack, fun hmode => ?_⟩
  · cases hmode : l.mode <;> simp_all [Mode.StandsOn]
  · have hm := hd.stack.standsOn hsplit
    exact ⟨by rintro (rfl | rfl) <;> exact hm, by rintro rfl; exact hm⟩
  · rintro (hmode | hmode) <;> simpa [hmode, Mode.StandsOn] using hon
  iterate 2
    · intro hmode
      simpa [hmode, Mode.StandsOn] using hon
  · rintro (hmode | hmode) <;> simpa [hmode, Mode.StandsOn] using hon
  · intro hmode
    simpa [hmode, Mode.StandsOn] using hon
  · obtain ⟨a, rest, hstack⟩ := hon.exists_two hmode hd.stack
    simp [hstack]

def interpolated : Lexer :=
  (({} : Lexer).load "<?php \"$a".toList).next.after.next.after.next.after

theorem disciplined_of_reached_interpolated : interpolated.Reached ∧
    interpolated.mode = .quotedVar ∧ interpolated.stack.head? = some .quoted ∧
    2 ≤ interpolated.stack.length := by
  have hreached : interpolated.Reached := ((Reached.start rfl rfl).load _).step.step.step
  have hmode : interpolated.mode = .quotedVar := by decide +kernel
  obtain ⟨-, -, -, -, -, hquoted, -, -, -, -, -, htwo⟩ := disciplined_of_reached hreached
  exact ⟨hreached, hmode, hquoted hmode, htwo (.inl hmode)⟩

end Lexer

end MaskedTaint
