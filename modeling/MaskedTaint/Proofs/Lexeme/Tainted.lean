import MaskedTaint.Proofs.Lexeme.Modes

/-! Variables that carry input. The rule for variables tells them from the others by their text, and
it is the only rule that does. Right inside quotes and backticks another rule takes the variables,
and there they are variables like all others. -/

namespace MaskedTaint

theorem tainted_cons {text : List Char} (h : String.ofList text ∈ taintedVariables) :
    ∃ c r, text = '$' :: c :: r ∧ isNameStart c = true := by
  have hall : ∀ s ∈ taintedVariables, s.toList.head? = some '$' ∧
      (s.toList.tail.head?.map isNameStart).getD false = true := by decide
  obtain ⟨hdollar, hname⟩ := hall _ h
  rw [String.toList_ofList] at hdollar hname
  obtain ⟨tail, rfl⟩ := List.head?_eq_some_iff.mp hdollar
  cases tail with
  | nil => simp at hname
  | cons c r => exact ⟨c, r, rfl, by simpa using hname⟩

/-! ### What is called input -/

theorem Kind.ofUpper_ne_input (word : String) : ofUpper word ≠ input := by
  unfold ofUpper
  split
  · rename_i kind h
    have hall : ∀ e ∈ structuralWords, e.2 ≠ input := by decide
    obtain ⟨l₁, l₂, hsplit, -⟩ := List.lookup_eq_some_iff.mp h
    exact hall (word, kind) (by simp [hsplit])
  · repeat' split
    all_goals simp

theorem Lexer.mem_of_input {l l' : Lexer} {t : Lexeme} (hn : l.next = .lexeme t l')
    (h : t.kind = .input) : t.text ∈ taintedVariables := by
  have hsuits := kind_of_next hn
  rw [h] at hsuits
  rcases hsuits with hword | hvariable | hfixed
  · exact absurd hword.symm (Kind.ofUpper_ne_input _)
  · by_cases hmem : t.text ∈ taintedVariables
    · exact hmem
    · simp [Kind.ofVariable, hmem] at hvariable
  · cases hfixed

/-! ### Which rule takes a variable -/

namespace Rule

variable {c : Char} {r : List Char}

theorem width_dollarName (hc : isNameStart c = true) :
    Pattern.dollarName ('$' :: c :: r) = 2 + Pattern.run isWordChar r := by
  simp [Pattern.dollarName, Pattern.name, Pattern.behind, hc]
  omega

theorem width_encapsed (quote : Char) (hc : isNameStart c = true) (previous : Option Char)
    (shift : Shift) : (encapsed quote shift).width previous ('$' :: c :: r) = 0 := by
  have hstarts : Pattern.startsVariable (c :: r) = true := by simp [Pattern.startsVariable, hc]
  simp [encapsed, simple, Pattern.encapsed, hstarts]

theorem width_dollarBrace (hc : isNameStart c = true) (previous : Option Char)
    (shift : Mode → Shift) : (dollarBrace shift).width previous ('$' :: c :: r) = 0 := by
  have hbrace : c ≠ '{' := by
    rintro rfl
    exact absurd hc (by decide)
  simp [dollarBrace, Pattern.dollarBrace, hbrace]

theorem width_curlyOpen (previous : Option Char) (shift : Mode → Shift) (r : List Char) :
    (curlyOpen shift).width previous ('$' :: r) = 0 := by
  simp [curlyOpen, simple, Pattern.curlyOpen]

/-- The rules before this one take nothing, so it is the one that takes the variable. -/
theorem firstMatch_dollar {before : List Rule} (after : List Rule) {rule : Rule} {previous : Option Char}
    (hbefore : ∀ x ∈ before, x.width previous ('$' :: c :: r) = 0)
    (hrule : rule.width previous ('$' :: c :: r) = Pattern.dollarName ('$' :: c :: r))
    (hc : isNameStart c = true) : ∃ width,
    firstMatch (before ++ rule :: after) previous ('$' :: c :: r) = some (rule, width) := by
  refine ⟨Pattern.dollarName ('$' :: c :: r), ?_⟩
  rw [firstMatch_append hbefore]
  refine firstMatch_cons hrule ?_ after
  rw [width_dollarName hc]
  omega

end Rule

/-- Modes of their own inside quotes and backticks, where what follows is text. -/
def Mode.isText (m : Mode) : Bool := m == .quoted || m == .backticked

open Rule in
theorem Mode.rule_of_dollar {m : Mode} (hm : m ∉ [html, heredoc, heredocVar, nowdoc]) {c : Char}
    {r : List Char} {previous : Option Char} (hc : isNameStart c = true) {rule : Rule} {width : Nat}
    (h : firstMatch m.rules previous ('$' :: c :: r) = some (rule, width)) :
    if m.isText then ∃ inside, rule = quotedName inside else rule = dollarName := by
  have hidle : ∀ x : Rule, x.Idle '$' → x.width previous ('$' :: c :: r) = 0 :=
    fun x hx => hx previous _
  have hname : ∀ kind shift, (simple Pattern.name kind shift).Idle '$' := by
    intro kind shift previous r
    simp [simple, Pattern.name, show isNameStart '$' = false by decide]
  have hfirst : ∀ (before : List Rule) {after : List Rule} {rule' : Rule},
      m.rules = before ++ rule' :: after →
      (∀ x ∈ before, x.width previous ('$' :: c :: r) = 0) →
      rule'.width previous ('$' :: c :: r) = Pattern.dollarName ('$' :: c :: r) → rule = rule' := by
    intro before after rule' hrules hbefore hrule
    obtain ⟨width', hmatch⟩ := firstMatch_dollar after hbefore hrule hc
    rw [hrules, hmatch] at h
    exact (Prod.mk.inj (Option.some.inj h)).1.symm
  have hnone : (∀ x ∈ m.rules, x.Idle '$') → rule = dollarName := by
    intro hall
    obtain ⟨hmem, hwidth⟩ := firstMatch_spec h
    have hpos := firstMatch_width_pos h
    rw [← hwidth, hidle rule (hall rule hmem)] at hpos
    cases hpos
  cases m with
  | code =>
    refine hfirst (layoutRules ++ nameRules) rfl (fun x hx => ?_) rfl
    rcases List.mem_append.mp hx with hx | hx
    · exact hidle x (idle_layoutRules (by decide) x hx)
    · exact hidle x (idle_nameRules (by decide) x hx)
  | quoted =>
    refine ⟨.quotedVar, hfirst [simple (Pattern.char '"') .quote .pop, encapsed '"' .stay]
      rfl ?_ rfl⟩
    simpa using ⟨hidle _ (idle_char _ _ (by decide)), width_encapsed _ hc _ _⟩
  | backticked =>
    refine ⟨.backtickedVar, hfirst [curlyOpen .push, dollarBrace .push,
      encapsed (Char.ofNat 96) .stay] rfl ?_ rfl⟩
    simpa using ⟨width_curlyOpen _ _ _, width_dollarBrace hc _ _, width_encapsed _ hc _ _⟩
  | quotedVar | backtickedVar => exact hfirst [] rfl (by simp) rfl
  | offset =>
    refine hfirst [rightBracket] rfl (List.forall_mem_singleton.mpr ?_) rfl
    exact hidle _ (idle_char _ _ (by decide))
  | varName =>
    refine hnone (List.forall_mem_cons.mpr ⟨idle_char _ _ (by decide), ?_⟩)
    exact List.forall_mem_cons.mpr ⟨idle_char _ _ (by decide), List.forall_mem_singleton.mpr (hname _ _)⟩
  | property => exact hnone (List.forall_mem_singleton.mpr (hname _ _))
  | _ => simp at hm

namespace Lexer

variable {l l' : Lexer} {t : Lexeme}

/-- Whatever texts a lexer is given that begins outside code, only variables that carry input are
called input, and outside html each of them is, unless it is read right inside quotes or backticks:
there it is called a variable like the others. -/
theorem kind_of_tainted (h : l.Reached) (hn : l.next = .lexeme t l') :
    (t.kind = .input → t.text ∈ taintedVariables) ∧
      (l.mode ≠ .html → t.text ∈ taintedVariables →
        t.kind = if l.mode.isText then .dollarName else .input) := by
  refine ⟨mem_of_input hn, fun hmode htext => ?_⟩
  cases does_next hn with
  | @lexeme rule width kind _ hloaded hrest hmatch hact =>
    obtain ⟨c, r, htake, hc⟩ := tainted_cons htext
    have hsplit : l.rest = '$' :: c :: (r ++ l.rest.drop width) := by
      rw [← List.cons_append, ← List.cons_append, ← htake, List.take_append_drop]
    have hmem := h.disciplined.mode_mem
    rw [hsplit] at hmatch
    have hrule := Mode.rule_of_dollar (List.not_mem_cons_of_ne_of_not_mem hmode hmem) hc hmatch
    cases hinside : l.mode.isText with
    | true =>
      rw [hinside] at hrule
      obtain ⟨inside, rfl⟩ := hrule
      exact (Except.ok.inj (congrArg Prod.fst hact)).symm
    | false =>
      rw [hinside] at hrule
      obtain rfl := hrule
      have hkind : Kind.ofVariable (l.rest.take width) = kind :=
        Except.ok.inj (congrArg Prod.fst hact)
      rw [← hkind, Kind.ofVariable, if_pos (List.contains_iff_mem.mpr htext)]
      rfl

def offsetInQuotes : Lexer :=
  (({} : Lexer).load "<?php \"$a[$_GET]".toList).next.after.next.after.next.after.next.after

theorem kind_of_tainted_offset : offsetInQuotes.Reached ∧
    ∃ t l', offsetInQuotes.next = .lexeme t l' ∧ t.text = "$_GET" ∧ t.kind = .input := by
  have hreached : offsetInQuotes.Reached := ((Reached.start rfl rfl).load _).step.step.step.step
  have hmode : offsetInQuotes.mode = .offset := by decide +kernel
  have htext : (match offsetInQuotes.next with | .lexeme t _ => t.text | _ => "") = "$_GET" := by
    decide +kernel
  cases hn : offsetInQuotes.next with
  | lexeme t l' =>
    rw [hn] at htext
    have hkind := (kind_of_tainted hreached hn).2 (by simp [hmode])
      (by rw [show t.text = "$_GET" from htext]; decide)
    exact ⟨hreached, t, l', rfl, htext, by rw [hkind, hmode]; rfl⟩
  | finished l' => simp [hn] at htext
  | failed e l' => simp [hn] at htext

/-- Between quotes, as in `"$_GET"`, the variable is not called input. -/
theorem tainted_in_quotes_is_plain : ¬ ∀ l : Lexer, l.Reached → l.mode ≠ .html →
    ∀ t l', l.next = .lexeme t l' → t.text ∈ taintedVariables → t.kind = .input := by
  intro h
  let l : Lexer := (({} : Lexer).load "<?php \"$_GET\"".toList).next.after.next.after
  have hreached : l.Reached := ((Reached.start rfl rfl).load _).step.step
  have hnext : (match l.next with
      | .lexeme t _ => decide (t.text ∈ taintedVariables ∧ t.kind ≠ .input)
      | _ => false) = true := by decide +kernel
  cases hn : l.next with
  | lexeme t l' =>
    rw [hn] at hnext
    obtain ⟨htext, hkind⟩ := of_decide_eq_true hnext
    exact hkind (h l hreached (by decide +kernel) t l' hn htext)
  | finished l' => simp [hn] at hnext
  | failed e l' => simp [hn] at hnext

end Lexer

end MaskedTaint
