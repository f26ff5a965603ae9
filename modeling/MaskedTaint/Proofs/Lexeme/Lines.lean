import MaskedTaint.Lexeme.Lexer

/-! Line ends in lexemes. Every rule either counts the line ends of what it takes, or takes
nothing that has one. So the line of the lexer is always right, though each rule counts for
itself. -/

namespace MaskedTaint

namespace Pattern

def StaysInLine (width : List Char → Nat) : Prop := ∀ cs : List Char, '\n' ∉ cs.take (width cs)

theorem take_run (p : Char → Bool) (cs : List Char) : cs.take (run p cs) = cs.takeWhile p := by
  induction cs with
  | nil => rfl
  | cons c r ih =>
    by_cases hc : p c = true
    · simpa [run, hc] using ih
    · simp [run, hc]

variable {cs : List Char} {n k : Nat}

theorem not_mem_take_add (hn : '\n' ∉ cs.take n)
    (hk : '\n' ∉ (cs.drop n).take k) : '\n' ∉ cs.take (n + k) := by
  rw [List.take_add, List.mem_append]
  exact fun h => h.elim hn hk

theorem take_part {rest : List Char} (hn : '\n' ∉ cs.take n)
    (hrest : cs.drop n = rest) (hk : '\n' ∉ rest.take k) :
    '\n' ∉ cs.take (n + k) ∧ cs.drop (n + k) = rest.drop k := by
  subst hrest
  exact ⟨not_mem_take_add hn hk, List.drop_drop.symm⟩

theorem not_mem_take_behind (hn : '\n' ∉ cs.take n)
    (hk : '\n' ∉ (cs.drop n).take k) : '\n' ∉ cs.take (behind n k) := by
  unfold behind
  split
  · simp
  · exact not_mem_take_add hn hk

theorem staysInLine_run {p : Char → Bool} (h : p '\n' = false) : StaysInLine (run p) := by
  intro cs hmem
  rw [take_run] at hmem
  have hp := List.all_eq_true.mp List.all_takeWhile _ hmem
  rw [h] at hp
  cases hp

theorem staysInLine_char {c : Char} (h : c ≠ '\n') : StaysInLine (char c) := by
  intro cs
  unfold char
  split
  · rename_i d r
    by_cases hd : d = c
    · simpa [hd] using h.symm
    · simp [hd]
  · simp

theorem staysInLine_literal {text : List Char} (h : '\n' ∉ text) : StaysInLine (literal text) := by
  intro cs
  unfold literal
  split
  · rename_i hprefix
    rwa [← List.prefix_iff_eq_take.mp (List.isPrefixOf_iff_prefix.mp hprefix)]
  · simp

theorem staysInLine_name : StaysInLine name := by
  intro cs
  unfold name
  split
  · rename_i c r
    by_cases hc : isNameStart c = true
    · have hne : c ≠ '\n' := by
        rintro rfl
        exact absurd hc (by decide)
      rw [if_pos hc]
      exact not_mem_take_add (by simpa using hne.symm) (staysInLine_run (by decide) r)
    · simp [hc]
  · simp

theorem staysInLine_dollarName : StaysInLine dollarName := by
  intro cs
  unfold dollarName
  split
  · exact not_mem_take_behind (by simp) (staysInLine_name _)
  · simp

theorem staysInLine_digits : StaysInLine digits := staysInLine_run (by decide)

theorem staysInLine_operator : StaysInLine operator := by
  intro cs
  unfold operator
  split
  · rename_i op hop
    have hprefix := List.find?_some hop
    have hclean : ∀ op ∈ operators, '\n' ∉ op.toList := by decide
    rw [← String.length_toList, ← List.prefix_iff_eq_take.mp (List.isPrefixOf_iff_prefix.mp hprefix)]
    exact hclean op (List.mem_of_find?_eq_some hop)
  · simp

theorem staysInLine_importWord : StaysInLine importWord := by
  intro cs
  unfold importWord
  dsimp only
  split
  · exact staysInLine_run (by decide) cs
  · simp

theorem staysInLine_exponent : StaysInLine exponent := by
  intro cs
  unfold exponent
  split
  · rename_i e r
    split
    · rename_i he
      have hne : '\n' ≠ e := by
        rintro rfl
        simp at he
      split
      · rename_i s t
        split
        · rename_i hs
          have hns : '\n' ≠ s := by
            rintro rfl
            simp at hs
          exact not_mem_take_behind (by simp [hne, hns]) (staysInLine_digits t)
        · exact not_mem_take_behind (by simpa using hne) (staysInLine_digits _)
      · simp
    · simp
  · simp

theorem staysInLine_decimal : StaysInLine decimal := by
  intro cs
  have hwhole := staysInLine_digits cs
  unfold decimal
  dsimp only
  split
  · rename_i r hdrop
    split
    · simp
    · obtain ⟨hpoint, hbehind⟩ := take_part (k := 1) hwhole hdrop (by simp)
      obtain ⟨hfraction, hrest⟩ := take_part hpoint hbehind (staysInLine_digits r)
      exact (take_part hfraction hrest (staysInLine_exponent _)).1
  · split
    · simp
    · exact not_mem_take_behind hwhole (staysInLine_exponent _)

theorem staysInLine_integer : StaysInLine integer := by
  intro cs
  unfold integer
  split
  iterate 2
    · split
      · exact staysInLine_digits _
      · exact not_mem_take_add (by simp) (staysInLine_run (by decide) _)
  · exact staysInLine_digits cs

theorem staysInLine_label (previous : Option Char) : StaysInLine (label previous) := by
  intro cs
  unfold label
  split
  · exact staysInLine_name cs
  · simp

theorem staysInLine_curlyOpen : StaysInLine curlyOpen := by
  intro cs
  unfold curlyOpen
  split <;> simp

theorem staysInLine_dollarBrace : StaysInLine dollarBrace := by
  intro cs
  unfold dollarBrace
  split <;> simp

theorem staysInLine_concat : StaysInLine concat := by
  intro cs
  unfold concat
  split
  · split <;> simp
  · simp
  · simp

theorem staysInLine_arrowToLetter : StaysInLine arrowToLetter := by
  intro cs
  unfold arrowToLetter
  split
  · split <;> simp
  · simp

theorem staysInLine_cast (names : List String) : StaysInLine (cast names) := by
  intro cs
  unfold cast
  split
  · rename_i r
    dsimp only
    split
    · let left := run isSpaceOrTab r
      let word := run isAsciiLetter (r.drop left)
      obtain ⟨hleft, dleft⟩ : '\n' ∉ ('(' :: r).take (1 + left) ∧
          ('(' :: r).drop (1 + left) = r.drop left :=
        take_part (by simp) rfl (staysInLine_run (by decide) r)
      obtain ⟨hword, dword⟩ : '\n' ∉ ('(' :: r).take (1 + left + word) ∧
          ('(' :: r).drop (1 + left + word) = r.drop (left + word) := by
        rw [← List.drop_drop (j := left)]
        exact take_part hleft dleft (staysInLine_run (by decide) _)
      obtain ⟨hright, dright⟩ := take_part hword dword
        (staysInLine_run (p := isSpaceOrTab) (by decide) _)
      exact not_mem_take_behind hright (dright ▸ staysInLine_char (by decide) _)
    · simp
  · simp

end Pattern

namespace Rule

def IsExact (r : Rule) : Prop :=
  r.countsLines = true ∨ ∀ previous, Pattern.StaysInLine (r.width previous)

theorem isExact_counting (r : Rule) : r.counting.IsExact := .inl rfl

theorem isExact_simple {width : List Char → Nat} (h : Pattern.StaysInLine width) (kind : Kind)
    (shift : Shift) : (simple width kind shift).IsExact := .inr fun _ => h

theorem isExact_spelled {width : List Char → Nat} (h : Pattern.StaysInLine width)
    (kind : List Char → Kind) (shift : Shift) : (spelled width kind shift).IsExact := .inr fun _ => h

theorem isExact_char {c : Char} (h : c ≠ '\n') (kind : Kind) (shift : Shift) :
    (simple (Pattern.char c) kind shift).IsExact := isExact_simple (Pattern.staysInLine_char h) _ _

theorem isExact_arrow : arrow.IsExact := .inr fun _ => Pattern.staysInLine_literal (by decide)

theorem isExact_dollarName : dollarName.IsExact := isExact_spelled Pattern.staysInLine_dollarName _ _

theorem isExact_quotedName (inside : Mode) : (quotedName inside).IsExact :=
  isExact_simple Pattern.staysInLine_dollarName _ _

theorem isExact_name (kind : Kind) (shift : Shift) : (simple Pattern.name kind shift).IsExact :=
  isExact_simple Pattern.staysInLine_name _ _

theorem isExact_cast (c : Cast) (names : List String) : (cast c names).IsExact :=
  isExact_simple (Pattern.staysInLine_cast names) _ _

theorem isExact_curlyOpen (shift : Mode → Shift) : (curlyOpen shift).IsExact :=
  isExact_simple Pattern.staysInLine_curlyOpen _ _

theorem isExact_dollarBrace (shift : Mode → Shift) : (dollarBrace shift).IsExact :=
  .inr fun _ => Pattern.staysInLine_dollarBrace

theorem isExact_propertyStart : propertyStart.IsExact :=
  isExact_simple Pattern.staysInLine_arrowToLetter _ _

end Rule

open Rule in
theorem Mode.isExact_rules (m : Mode) : ∀ r ∈ m.rules, r.IsExact := by
  cases m <;> simp only [rules, List.forall_mem_cons, List.not_mem_nil, false_implies, implies_true,
    and_true]
  case html => exact ⟨isExact_counting _, isExact_counting _⟩
  case code =>
    exact ⟨isExact_counting _, isExact_arrow, isExact_char (by decide) _ _,
      isExact_char (by decide) _ _, isExact_char (by decide) _ _, isExact_char (by decide) _ _,
      isExact_counting _, isExact_counting _, isExact_simple Pattern.staysInLine_operator _ _,
      isExact_counting _, isExact_simple Pattern.staysInLine_importWord _ _,
      isExact_spelled Pattern.staysInLine_name _ _, isExact_dollarName,
      isExact_simple Pattern.staysInLine_decimal _ _, isExact_simple Pattern.staysInLine_integer _ _,
      isExact_counting _, isExact_char (by decide) _ _, .inl rfl, .inl rfl,
      isExact_char (by decide) _ _, isExact_cast _ _, isExact_cast _ _, isExact_cast _ _,
      isExact_cast _ _, isExact_cast _ _, isExact_cast _ _, isExact_cast _ _, isExact_cast _ _,
      isExact_simple Pattern.staysInLine_concat _ _, isExact_char (by decide) _ _,
      isExact_char (by decide) _ _, isExact_char (by decide) _ _, isExact_char (by decide) _ _,
      isExact_char (by decide) _ _, isExact_char (by decide) _ _, isExact_char (by decide) _ _,
      isExact_char (by decide) _ _, isExact_char (by decide) _ _⟩
  case quoted =>
    exact ⟨isExact_char (by decide) _ _, isExact_counting _, isExact_quotedName _,
      isExact_curlyOpen _, isExact_dollarBrace _⟩
  case quotedVar =>
    exact ⟨isExact_dollarName, isExact_char (by decide) _ _, isExact_char (by decide) _ _,
      isExact_propertyStart, isExact_counting _, isExact_curlyOpen _, isExact_dollarBrace _⟩
  case varName =>
    exact ⟨isExact_char (by decide) _ _, isExact_char (by decide) _ _, isExact_name _ _⟩
  case offset =>
    exact ⟨isExact_char (by decide) _ _, isExact_dollarName, isExact_name _ _,
      isExact_simple Pattern.staysInLine_digits _ _⟩
  case property => exact isExact_name _ _
  case heredoc =>
    exact ⟨isExact_curlyOpen _, isExact_dollarBrace _, .inr Pattern.staysInLine_label,
      isExact_counting _, isExact_quotedName _⟩
  case heredocVar =>
    exact ⟨isExact_dollarName, isExact_char (by decide) _ _, isExact_propertyStart,
      isExact_curlyOpen _, isExact_dollarBrace _, isExact_counting _⟩
  case nowdoc => exact ⟨.inr Pattern.staysInLine_label, isExact_counting _⟩
  case backticked =>
    exact ⟨isExact_curlyOpen _, isExact_dollarBrace _, isExact_counting _, isExact_quotedName _,
      isExact_char (by decide) _ _⟩
  case backtickedVar =>
    exact ⟨isExact_dollarName, isExact_char (by decide) _ _, isExact_propertyStart,
      isExact_curlyOpen _, isExact_dollarBrace _, isExact_char (by decide) _ _, isExact_counting _⟩

theorem firstMatch_spec {rules : List Rule} {previous : Option Char} {cs : List Char} {rule : Rule}
    {width : Nat} (h : firstMatch rules previous cs = some (rule, width)) :
    rule ∈ rules ∧ rule.width previous cs = width := by
  obtain ⟨r, hr, hfound⟩ := List.exists_of_findSome?_eq_some h
  dsimp only at hfound
  split at hfound
  · obtain ⟨rfl, rfl⟩ := Prod.mk.inj (Option.some.inj hfound)
    exact ⟨hr, rfl⟩
  · cases hfound

namespace Lexer

theorem moveOver_eq {l : Lexer} {rule : Rule} {width : Nat}
    (h : firstMatch l.mode.rules l.before.head? l.rest = some (rule, width)) :
    l.moveOver rule width = l.advance width := by
  obtain ⟨hrule, hwidth⟩ := firstMatch_spec h
  rcases Mode.isExact_rules l.mode rule hrule with hcounts | hline
  · rw [moveOver, if_pos hcounts]
  · have hnone : (l.rest.take width).count '\n' = 0 :=
      List.count_eq_zero.mpr (hwidth ▸ hline l.before.head? l.rest)
    unfold moveOver
    split
    · rfl
    · simp [advance, hnone]

inductive Does (l : Lexer) : Step → Prop
  | unloaded (hloaded : l.loaded = false) : Does l (.failed .noInput { l with pos := l.pos + 1 })
  | finished (hloaded : l.loaded = true) (hrest : l.rest = []) :
      Does l (.finished { l with pos := l.pos + 1 })
  | stuck (hloaded : l.loaded = true) (hrest : l.rest ≠ [])
      (hmatch : firstMatch l.mode.rules l.before.head? l.rest = none) :
      Does l (.failed (.illegalCharacter l.line (String.ofList l.rest)) l)
  | lexeme {rule : Rule} {width : Nat} {kind : Kind} {l' : Lexer} (hloaded : l.loaded = true)
      (hrest : l.rest ≠ [])
      (hmatch : firstMatch l.mode.rules l.before.head? l.rest = some (rule, width))
      (hact : (l.advance width).act (String.ofList (l.rest.take width))
        (rule.action (l.rest.take width) (l.rest.drop width).head?) = (.ok kind, l')) :
      Does l (.lexeme ⟨kind, String.ofList (l.rest.take width), l.line, l.pos⟩ l')
  | failed {rule : Rule} {width : Nat} {e : LexError} {l' : Lexer} (hloaded : l.loaded = true)
      (hrest : l.rest ≠ [])
      (hmatch : firstMatch l.mode.rules l.before.head? l.rest = some (rule, width))
      (hact : (l.advance width).act (String.ofList (l.rest.take width))
        (rule.action (l.rest.take width) (l.rest.drop width).head?) = (.error e, l')) :
      Does l (.failed e l')

theorem does_next {l : Lexer} {step : Step} (h : l.next = step) : l.Does step := by
  subst h
  unfold next
  split
  · rename_i hloaded
    exact .unloaded (by simpa using hloaded)
  · rename_i hloaded
    have hloaded : l.loaded = true := by simpa using hloaded
    split
    · rename_i hrest
      exact .finished hloaded (by simpa using hrest)
    · rename_i hrest
      have hrest : l.rest ≠ [] := by simpa using hrest
      split
      · rename_i hmatch
        exact .stuck hloaded hrest hmatch
      · rename_i rule width hmatch
        rw [moveOver_eq hmatch]
        dsimp only
        split
        · rename_i kind l' hact
          exact .lexeme hloaded hrest hmatch hact
        · rename_i e l' hact
          exact .failed hloaded hrest hmatch hact

/-! ### Scanning step by step -/

section Scan

variable {l l' : Lexer}

theorem scan_of_lexeme {t : Lexeme} (h : l.next = .lexeme t l') :
    l.scan = ((t, l'.mode) :: l'.scan.1, l'.scan.2) := by
  rw [scan]
  split <;> simp_all

theorem scan_of_finished (h : l.next = .finished l') : l.scan = ([], none, l') := by
  rw [scan]
  split <;> simp_all

theorem scan_of_failed {e : LexError} (h : l.next = .failed e l') : l.scan = ([], some e, l') := by
  rw [scan]
  split <;> simp_all

theorem rest_of_finished (h : l.next = .finished l') : l.rest = [] := by
  cases does_next h with
  | finished hloaded hrest => exact hrest

theorem scan_finished (h : l.next = .finished l') : l'.scan.1 = [] ∧ l'.scan.2.1 = none := by
  cases does_next h with
  | finished hloaded hrest =>
    have hagain : ({ l with pos := l.pos + 1 } : Lexer).next =
        .finished { l with pos := l.pos + 1 + 1 } := by
      simp [next, hloaded, hrest]
    rw [scan_of_finished hagain]
    exact ⟨rfl, rfl⟩

end Scan

theorem next_of_match {l : Lexer} {rule : Rule} {width : Nat} (hloaded : l.loaded = true)
    (hrest : l.rest ≠ [])
    (hmatch : firstMatch l.mode.rules l.before.head? l.rest = some (rule, width)) :
    l.next = match (l.advance width).act (String.ofList (l.rest.take width))
        (rule.action (l.rest.take width) (l.rest.drop width).head?) with
      | (.ok kind, l') => .lexeme ⟨kind, String.ofList (l.rest.take width), l.line, l.pos⟩ l'
      | (.error e, l') => .failed e l' := by
  have hne : l.rest.isEmpty = false := by simpa using hrest
  simp only [next, hloaded, hne, hmatch, moveOver_eq hmatch, Bool.not_true, Bool.false_eq_true,
    if_false]
  rfl

end Lexer

end MaskedTaint
