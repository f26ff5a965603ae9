import MaskedTaint.Lexeme.Lexer

/-! Pieces of code. A piece is judged with the text behind it, since a name goes on as long
as it can. Which rule takes a piece is mostly told by its first character: a rule is idle at a
character if nothing that begins with it belongs to the rule. -/

namespace MaskedTaint

namespace Rule

def Idle (rule : Rule) (c : Char) : Prop := ∀ previous r, rule.width previous (c :: r) = 0

variable {c : Char}

theorem idle_char {x : Char} (kind : Kind) (shift : Shift) (h : c ≠ x) :
    (simple (Pattern.char x) kind shift).Idle c := by
  intro previous r
  simp [simple, Pattern.char, h]

theorem idle_whitespace (h : Pattern.isBlank c = false) : whitespace.Idle c := by
  intro previous r
  simp [whitespace, simple, Pattern.blanks, Pattern.run, h]

theorem idle_arrow (h : c ≠ '-') : arrow.Idle c := by
  intro previous r
  simp [arrow, Pattern.literal, List.isPrefixOf, Ne.symm h]

theorem idle_docComment (h : c ≠ '/') : docComment.Idle c := by
  intro previous r
  simp only [docComment, counting_width, simple]
  unfold Pattern.docComment
  split
  · simp_all
  · rfl

theorem idle_comment (h : c ≠ '/' ∧ c ≠ '#') : comment.Idle c := by
  intro previous r
  simp only [comment, counting_width, simple]
  unfold Pattern.comment
  split <;> simp_all

theorem idle_operator (h : ∀ op ∈ Pattern.operators, op.toList.head? ≠ some c) :
    operator.Idle c := by
  intro previous r
  have hnone : ∀ op ∈ Pattern.operators, op.toList.isPrefixOf (c :: r) = false := by
    intro op hop
    have hne : op.toList ≠ [] := by
      have hall : ∀ op ∈ Pattern.operators, op.toList ≠ [] := by decide
      exact hall op hop
    obtain ⟨d, ds, hds⟩ := List.exists_cons_of_ne_nil hne
    have hd := h op hop
    rw [hds] at hd ⊢
    have hcd : d ≠ c := by simpa using hd
    simp [List.isPrefixOf, hcd]
  have hfind : Pattern.operators.find? (fun op => op.toList.isPrefixOf (c :: r)) = none := by
    refine List.find?_eq_none.mpr fun op hop => ?_
    simp only [hnone op hop, Bool.false_eq_true, not_false_eq_true]
  simp [operator, simple, Pattern.operator, hfind]

theorem idle_closeTag (h : c ≠ '?' ∧ c ≠ '%') : closeTag.Idle c := by
  intro previous r
  simp only [closeTag, counting_width, simple]
  unfold Pattern.closeTag
  split <;> simp_all

theorem idle_importWord (h : isWordChar c = false) : importWord.Idle c := by
  intro previous r
  simp [importWord, simple, Pattern.importWord, h]

theorem idle_word (h : isNameStart c = false) : word.Idle c := by
  intro previous r
  simp [word, spelled, Pattern.name, h]

theorem idle_dollarName (h : c ≠ '$') : dollarName.Idle c := by
  intro previous r
  simp only [dollarName, spelled]
  unfold Pattern.dollarName
  split <;> simp_all

theorem idle_decimal (h : isDecimal c = false ∧ c ≠ '.') : decimal.Idle c := by
  intro previous r
  have hdigits : Pattern.digits (c :: r) = 0 := by simp [Pattern.digits, Pattern.run, h.1]
  simp only [decimal, simple]
  unfold Pattern.decimal
  simp only [hdigits, List.drop_zero]
  split <;> simp_all

theorem idle_integer (h : isDecimal c = false) : integer.Idle c := by
  intro previous r
  have hdigits : Pattern.digits (c :: r) = 0 := by simp [Pattern.digits, Pattern.run, h]
  have hzero : c ≠ '0' := by
    rintro rfl
    exact absurd h (by decide)
  simp only [integer, simple]
  unfold Pattern.integer
  split <;> simp_all

theorem idle_constantText (h : c ≠ '\'') : constantText.Idle c := by
  intro previous r
  simp only [constantText, counting_width, simple]
  unfold Pattern.constantText
  split <;> simp_all

theorem idle_startHeredoc (h : c ≠ '<') : startHeredoc.Idle c := by
  intro previous r
  simp only [startHeredoc]
  unfold Pattern.heredocStart
  split <;> simp_all

theorem idle_startNowdoc (h : c ≠ '<') : startNowdoc.Idle c := by
  intro previous r
  simp only [startNowdoc]
  unfold Pattern.nowdocStart
  split <;> simp_all

theorem idle_cast (k : Cast) (names : List String) (h : c ≠ '(') : (cast k names).Idle c := by
  intro previous r
  simp only [cast, simple]
  unfold Pattern.cast
  split <;> simp_all

theorem idle_concat (h : c ≠ '.') : concat.Idle c := by
  intro previous r
  simp only [concat, simple]
  unfold Pattern.concat
  split <;> simp_all

/-! ### The rules of code, group by group -/

def layoutRules : List Rule :=
  [whitespace, arrow, leftBracket, rightBracket, leftBrace, rightBrace, docComment, comment]

def nameRules : List Rule := [operator, closeTag, importWord, word]

def valueRules : List Rule :=
  [dollarName, decimal, integer, constantText, openQuote, startHeredoc, startNowdoc, openBacktick]

def castRules : List Rule :=
  [cast .double ["real", "double", "float"], cast .bool ["bool", "boolean"],
    cast .int ["int", "integer"], cast .binary ["binary"], cast .object ["object"],
    cast .string ["string"], cast .array ["array"], cast .unset ["unset"]]

def signRules : List Rule :=
  [concat, sign '$' .dollar, sign '(' .leftParen, sign '\\' .namespaceSeparator,
    sign '?' .question, sign ')' .rightParen, sign '@' .atSign, sign ':' .colon, sign ',' .comma,
    sign ';' .semicolon]

theorem code_rules_eq : Mode.code.rules =
    layoutRules ++ (nameRules ++ (valueRules ++ (castRules ++ signRules))) := rfl

theorem idle_layoutRules (h : Pattern.isBlank c = false ∧ c ∉ ['-', '[', ']', '{', '}', '/', '#']) :
    ∀ x ∈ layoutRules, x.Idle c := by
  simp only [List.mem_cons, List.not_mem_nil, or_false, not_or] at h
  obtain ⟨hblank, hminus, hlb, hrb, hlc, hrc, hslash, hhash⟩ := h
  simp only [layoutRules, List.forall_mem_cons, List.not_mem_nil, false_implies, implies_true,
    and_true]
  exact ⟨idle_whitespace hblank, idle_arrow hminus, idle_char _ _ hlb, idle_char _ _ hrb,
    idle_char _ _ hlc, idle_char _ _ hrc, idle_docComment hslash, idle_comment ⟨hslash, hhash⟩⟩

theorem idle_nameRules (h : (∀ op ∈ Pattern.operators, op.toList.head? ≠ some c) ∧
    c ∉ ['?', '%'] ∧ isWordChar c = false ∧ isNameStart c = false) : ∀ x ∈ nameRules, x.Idle c := by
  simp only [List.mem_cons, List.not_mem_nil, or_false, not_or] at h
  simp only [nameRules, List.forall_mem_cons, List.not_mem_nil, false_implies, implies_true,
    and_true]
  exact ⟨idle_operator h.1, idle_closeTag h.2.1, idle_importWord h.2.2.1, idle_word h.2.2.2⟩

theorem idle_valueRules (h : isDecimal c = false ∧
    c ∉ ['$', '.', '\'', '"', '<', Char.ofNat 96]) : ∀ x ∈ valueRules, x.Idle c := by
  simp only [List.mem_cons, List.not_mem_nil, or_false, not_or] at h
  obtain ⟨hdecimal, hdollar, hpoint, hsingle, hdouble, hangle, hback⟩ := h
  simp only [valueRules, List.forall_mem_cons, List.not_mem_nil, false_implies, implies_true,
    and_true]
  exact ⟨idle_dollarName hdollar, idle_decimal ⟨hdecimal, hpoint⟩, idle_integer hdecimal,
    idle_constantText hsingle, idle_char _ _ hdouble, idle_startHeredoc hangle,
    idle_startNowdoc hangle, idle_char _ _ hback⟩

theorem idle_castRules (h : c ≠ '(') : ∀ x ∈ castRules, x.Idle c := by
  simp only [castRules, List.forall_mem_cons, List.not_mem_nil, false_implies, implies_true,
    and_true]
  exact ⟨idle_cast _ _ h, idle_cast _ _ h, idle_cast _ _ h, idle_cast _ _ h, idle_cast _ _ h,
    idle_cast _ _ h, idle_cast _ _ h, idle_cast _ _ h⟩

theorem firstMatch_append {rules : List Rule} {previous : Option Char} {cs : List Char}
    (h : ∀ x ∈ rules, x.width previous cs = 0) (more : List Rule) :
    firstMatch (rules ++ more) previous cs = firstMatch more previous cs := by
  induction rules with
  | nil => rfl
  | cons x rules ih =>
    have hx := h x List.mem_cons_self
    have hrest := ih fun y hy => h y (List.mem_cons_of_mem _ hy)
    simpa [firstMatch, hx] using hrest

theorem firstMatch_cons {rule : Rule} {previous : Option Char} {cs : List Char} {width : Nat}
    (h : rule.width previous cs = width) (hpos : 0 < width) (more : List Rule) :
    firstMatch (rule :: more) previous cs = some (rule, width) := by
  simp [firstMatch, h, hpos]

end Rule

def Lexes (piece more : List Char) (kind : Kind) (shift : Shift) : Prop :=
  ∀ previous, ∃ rule, firstMatch Mode.code.rules previous (piece ++ more) =
    some (rule, piece.length) ∧ rule.action piece more.head? = .emit kind shift

namespace Lexes

open Rule

variable {more r : List Char} {kind : Kind} {c : Char}

theorem of_split {piece : List Char} {shift : Shift} (before : List Rule)
    (rule : Rule) (after : List Rule) (hrules : Mode.code.rules = before ++ rule :: after)
    (hzero : ∀ x ∈ before, ∀ previous, x.width previous (piece ++ more) = 0)
    (hwidth : ∀ previous, rule.width previous (piece ++ more) = piece.length)
    (hpiece : piece ≠ []) (haction : rule.action piece more.head? = .emit kind shift) :
    Lexes piece more kind shift := by
  intro previous
  refine ⟨rule, ?_, haction⟩
  rw [hrules, firstMatch_append fun x hx => hzero x hx previous]
  exact firstMatch_cons (hwidth previous) (List.length_pos_iff.mpr hpiece) _

theorem of_char {shift : Shift} (more : List Char) (before after : List Rule)
    (hrules : Mode.code.rules = before ++ simple (Pattern.char c) kind shift :: after)
    (hidle : ∀ x ∈ before, x.Idle c) : Lexes [c] more kind shift :=
  of_split before _ after hrules (fun x hx previous => hidle x hx previous more)
    (fun _ => by simp [simple, Pattern.char]) (by simp) rfl

theorem takeWhile_eq_nil {p : Char → Bool}
    (hmore : ∀ c ∈ more.head?, p c = false) : more.takeWhile p = [] := by
  cases more with
  | nil => rfl
  | cons c r => simp [hmore c rfl]

theorem run_append {p : Char → Bool} (hr : ∀ c ∈ r, p c = true)
    (hmore : ∀ c ∈ more.head?, p c = false) : Pattern.run p (r ++ more) = r.length := by
  simp [Pattern.run, List.takeWhile_append_of_pos hr, takeWhile_eq_nil hmore]

theorem blanks {gap : List Char} (hgap : ∀ c ∈ gap, Pattern.isBlank c = true) (hne : gap ≠ [])
    (hmore : ∀ c ∈ more.head?, Pattern.isBlank c = false) : Lexes gap more .whitespace .stay := by
  refine of_split [] whitespace _ rfl (by simp) (fun _ => ?_) hne rfl
  simp [whitespace, simple, Pattern.blanks, run_append hgap hmore]

theorem leftBracket (more : List Char) : Lexes ['['] more .leftBracket (.push .code) := by
  refine of_char more [whitespace, arrow] _ rfl ?_
  simp [idle_whitespace, idle_arrow, Pattern.isBlank]

theorem rightBracket (more : List Char) : Lexes [']'] more .rightBracket .pop := by
  refine of_char more [whitespace, arrow, Rule.leftBracket] _ rfl ?_
  simp [idle_whitespace, idle_arrow, Pattern.isBlank, Rule.leftBracket, idle_char]

theorem leftBrace (more : List Char) : Lexes ['{'] more .leftBrace (.push .code) := by
  refine of_char more [whitespace, arrow, Rule.leftBracket, Rule.rightBracket] _ rfl ?_
  simp [idle_whitespace, idle_arrow, Pattern.isBlank, Rule.leftBracket, Rule.rightBracket, idle_char]

theorem rightBrace (more : List Char) : Lexes ['}'] more .rightBrace .pop := by
  refine of_char more [whitespace, arrow, Rule.leftBracket, Rule.rightBracket, Rule.leftBrace] _
    rfl ?_
  simp [idle_whitespace, idle_arrow, Pattern.isBlank, Rule.leftBracket, Rule.rightBracket,
    Rule.leftBrace, idle_char]

theorem of_sign (more : List Char) (before after : List Rule)
    (hsigns : signRules = before ++ sign c kind :: after)
    (hlayout : Pattern.isBlank c = false ∧ c ∉ ['-', '[', ']', '{', '}', '/', '#'])
    (hname : (∀ op ∈ Pattern.operators, op.toList.head? ≠ some c) ∧ c ∉ ['?', '%'] ∧
      isWordChar c = false ∧ isNameStart c = false)
    (hvalue : isDecimal c = false ∧ c ∉ ['$', '.', '\'', '"', '<', Char.ofNat 96])
    (hcast : ∀ x ∈ castRules, ∀ previous, x.width previous (c :: more) = 0)
    (hbefore : ∀ x ∈ before, x.Idle c) : Lexes [c] more kind .stay := by
  have hrules : Mode.code.rules =
      (layoutRules ++ nameRules ++ valueRules ++ castRules ++ before) ++ sign c kind :: after := by
    rw [code_rules_eq, hsigns]
    simp
  refine of_split _ _ _ hrules (fun x hx previous => ?_) (fun _ => by
    simp [sign, simple, Pattern.char]) (by simp) rfl
  simp only [List.mem_append] at hx
  rcases hx with (((hx | hx) | hx) | hx) | hx
  · exact idle_layoutRules hlayout x hx previous more
  · exact idle_nameRules hname x hx previous more
  · exact idle_valueRules hvalue x hx previous more
  · exact hcast x hx previous
  · exact hbefore x hx previous more

theorem semicolon (more : List Char) : Lexes [';'] more .semicolon .stay := by
  refine of_sign more (signRules.take 9) [] rfl (by decide) (by decide) (by decide)
    (fun x hx previous => idle_castRules (by decide) x hx previous more) ?_
  simp [signRules, sign, idle_char, idle_concat]

theorem rightParen (more : List Char) : Lexes [')'] more .rightParen .stay := by
  refine of_sign more (signRules.take 5) _ rfl (by decide) (by decide) (by decide)
    (fun x hx previous => idle_castRules (by decide) x hx previous more) ?_
  simp [signRules, sign, idle_char, idle_concat]

theorem cast_eq_zero {names : List String} (hnames : names.contains "" = false)
    (hmore : (more.drop (Pattern.run Pattern.isSpaceOrTab more)).takeWhile isAsciiLetter = []) :
    Pattern.cast names ('(' :: more) = 0 := by
  have hempty : String.ofList [] ∉ names := by simpa using hnames
  simp [Pattern.cast, hmore, hempty]

theorem leftParen
    (hmore : (more.drop (Pattern.run Pattern.isSpaceOrTab more)).takeWhile isAsciiLetter = []) :
    Lexes ['('] more .leftParen .stay := by
  refine of_sign more (signRules.take 2) _ rfl (by decide) (by decide) (by decide) ?_ ?_
  · simp [castRules, Rule.cast, simple, cast_eq_zero, hmore]
  · simp [signRules, sign, idle_char, idle_concat]

theorem assign (hmore : ∀ c ∈ more.head?, c ≠ '=' ∧ c ≠ '>') :
    Lexes ['='] more .operator .stay := by
  refine of_split layoutRules operator _ rfl
    (fun x hx previous => idle_layoutRules (by decide) x hx previous more) (fun _ => ?_) (by simp) rfl
  have hfind : Pattern.operators.find? (fun op => op.toList.isPrefixOf ('=' :: more)) = some "=" := by
    cases more with
    | nil => rfl
    | cons c r =>
      obtain ⟨heq, hgt⟩ := hmore c rfl
      simp [Pattern.operators, List.isPrefixOf, Ne.symm heq, Ne.symm hgt]
  have hlist : ['='] ++ more = '=' :: more := rfl
  simp only [operator, simple, Pattern.operator, hlist, hfind]
  rfl

theorem isWordChar_of_isNameStart (h : isNameStart c = true) : isWordChar c = true := by
  have hascii : c.toNat < 128 := by
    simp only [isNameStart, isAsciiLetter, Bool.or_eq_true, Bool.and_eq_true, decide_eq_true_eq,
      beq_iff_eq, Char.le_def, UInt32.le_iff_toNat_le] at h
    rcases h with (⟨-, h⟩ | ⟨-, h⟩) | rfl
    iterate 2 exact Nat.lt_of_le_of_lt h (by decide)
    · decide
  simp [isWordChar, hascii, h]

theorem word (hc : (Pattern.isBlank c = false ∧ c ∉ ['-', '[', ']', '{', '}', '/', '#']) ∧
      (∀ op ∈ Pattern.operators, op.toList.head? ≠ some c) ∧ c ∉ ['?', '%'])
    (hstart : isNameStart c = true) (hr : ∀ x ∈ r, isWordChar x = true)
    (hmore : ∀ x ∈ more.head?, isWordChar x = false)
    (himport : Pattern.importWords.contains (String.ofList (c :: r)) = false) :
    Lexes (c :: r) more (Kind.ofWord (c :: r)) .stay := by
  have hword := isWordChar_of_isNameStart hstart
  refine of_split (layoutRules ++ [operator, closeTag, importWord]) Rule.word _ rfl
    (fun x hx previous => ?_) (fun _ => ?_) (by simp) rfl
  · rcases List.mem_append.mp hx with hx | hx
    · exact idle_layoutRules hc.1 x hx previous _
    · have himports : Pattern.importWord (c :: r ++ more) = 0 := by
        have hall : ∀ x ∈ c :: r, isWordChar x = true := by simpa [hword] using hr
        have htake : (c :: r ++ more).takeWhile isWordChar = c :: r := by
          have hnone := takeWhile_eq_nil hmore
          rw [List.takeWhile_append_of_pos hall, hnone, List.append_nil]
        have hno : String.ofList (c :: r) ∉ Pattern.importWords := by simpa using himport
        simp only [Pattern.importWord, htake, List.contains_eq_mem, hno, decide_false,
          Bool.false_eq_true, if_false]
      simp only [List.mem_cons, List.not_mem_nil, or_false] at hx
      rcases hx with rfl | rfl | rfl
      · exact idle_operator hc.2.1 previous _
      · exact idle_closeTag (by simpa using hc.2.2) previous _
      · exact himports
  · simp [Rule.word, spelled, Pattern.name, hstart, run_append hr hmore, Nat.add_comm]

theorem name (hstart : isNameStart c = true)
    (hr : ∀ x ∈ r, isWordChar x = true) (hmore : ∀ x ∈ more.head?, isWordChar x = false) :
    Lexes ('$' :: c :: r) more (Kind.ofVariable ('$' :: c :: r)) .stay := by
  refine of_split (layoutRules ++ nameRules) dollarName _ rfl (fun x hx previous => ?_)
    (fun _ => ?_) (by simp) rfl
  · rcases List.mem_append.mp hx with hx | hx
    · exact idle_layoutRules (by decide) x hx previous _
    · exact idle_nameRules (by decide) x hx previous _
  · simp [dollarName, spelled, Pattern.dollarName, Pattern.name, Pattern.behind, hstart,
      run_append hr hmore]
    omega

/-- What may stand between single quotes: a quote or a backslash only behind a backslash. -/
inductive QuotedText : List Char → Prop
  | nil : QuotedText []
  | plain {c : Char} {cs : List Char} (h : c ≠ '\'' ∧ c ≠ '\\') (hcs : QuotedText cs) :
      QuotedText (c :: cs)
  | escaped {c : Char} {cs : List Char} (hcs : QuotedText cs) : QuotedText ('\\' :: c :: cs)

theorem QuotedText.constantRest {cs : List Char} (h : QuotedText cs) (more : List Char) :
    Pattern.constantRest (cs ++ '\'' :: more) = cs.length + 1 := by
  induction h with
  | nil => rfl
  | @plain c cs h _ ih =>
    rw [List.cons_append]
    unfold Pattern.constantRest
    split <;> simp_all [Pattern.behind]
    omega
  | escaped _ ih => simp [Pattern.constantRest, ih, Pattern.behind]; omega

theorem constantText {cs : List Char} (h : QuotedText cs) (more : List Char) :
    Lexes ('\'' :: cs ++ ['\'']) more .constantText .stay := by
  refine of_split (layoutRules ++ nameRules ++ valueRules.take 3) Rule.constantText _ rfl
    (fun x hx previous => ?_) (fun _ => ?_) (by simp) rfl
  · rcases List.mem_append.mp hx with hx | hx
    · rcases List.mem_append.mp hx with hx | hx
      · exact idle_layoutRules (by decide) x hx previous _
      · exact idle_nameRules (by decide) x hx previous _
    · have hidle : ∀ x ∈ valueRules.take 3, x.Idle '\'' := by
        simp only [valueRules, List.take_succ_cons, List.take_zero, List.forall_mem_cons,
          List.not_mem_nil, false_implies, implies_true, and_true]
        exact ⟨idle_dollarName (by decide), idle_decimal (by decide), idle_integer (by decide)⟩
      exact hidle x hx previous _
  · have hrest := h.constantRest more
    simp [Rule.constantText, simple, Pattern.constantText, Pattern.behind, hrest]
    omega

end Lexes

/-- A variable by its text, with the dollar sign; those that carry input are none. -/
structure Variable where
  text : List Char
  isName : ∃ c r, text = '$' :: c :: r ∧ isNameStart c = true ∧ ∀ x ∈ r, isWordChar x = true
  isOwn : String.ofList text ∉ taintedVariables

def Variable.name (v : Variable) : String := String.ofList v.text

theorem Variable.lexes (v : Variable) {more : List Char}
    (hmore : ∀ x ∈ more.head?, isWordChar x = false) : Lexes v.text more .dollarName .stay := by
  obtain ⟨text, ⟨c, r, rfl, hstart, hr⟩, hown⟩ := v
  have hkind : Kind.ofVariable ('$' :: c :: r) = .dollarName := by
    rw [Kind.ofVariable, if_neg]
    simpa only [List.contains_eq_mem, decide_eq_true_eq] using hown
  exact hkind ▸ Lexes.name hstart hr hmore

theorem Variable.exists_cons (v : Variable) :
    ∃ c r, v.text = c :: r ∧ Pattern.isBlank c = false := by
  obtain ⟨c, r, h, -⟩ := v.isName
  exact ⟨'$', c :: r, h, by decide⟩

end MaskedTaint
