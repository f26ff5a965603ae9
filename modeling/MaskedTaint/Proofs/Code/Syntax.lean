import MaskedTaint.Proofs.Lexeme.Streams

/-! The syntax of code. Trees have lexemes at their leaves. The places of a tree say for each
lexeme how many control structures are around it, and in which scope it is. -/

namespace MaskedTaint

abbrev Sign (kind : Kind) := { t : Lexeme // t.kind = kind }

namespace Kind

def isCalm : Kind → Bool
  | operator | arrow | dollarName | leftBracket | rightBracket | dollar | concat | question | colon
  | atSign | namespaceSeparator | quote | cast _ | integer | decimal | offsetNumber | constantText
  | encapsedText | dollarBrace | curlyOpen | variableName | startHeredoc | endHeredoc | startNowdoc
  | endNowdoc | varWord
  | reserved _ => true
  | _ => false

def isSanitizer : Kind → Bool
  | sanitizer _ => true
  | _ => false

def isBranchWord : Kind → Bool
  | ifWord | elseIfWord | whileWord | forWord | forEachWord => true
  | _ => false

def isDeliverWord : Kind → Bool
  | sink .xss | returnWord => true
  | _ => false

def isStop : Kind → Bool
  | semicolon | closeTag => true
  | _ => false

end Kind

/-! ### Expressions -/

inductive Bit
  | plain (t : { t : Lexeme // t.kind.isCalm = true })
  /-- A word that is no call. -/
  | word (t : Sign .word)
  | input (t : Sign .input)
  /-- An input and what is taken from it. -/
  | element (t : Sign .input) (left : Sign .leftBracket)
      (inside : { ts : List Lexeme // ∀ t ∈ ts, t.kind ≠ .rightBracket }) (right : Sign .rightBracket)
  | sanitizer (t : { t : Lexeme // t.kind.isSanitizer = true })
  | group (left : Sign .leftParen)
  | call (name : Sign .word) (left : Sign .leftParen)
  | close (right : Sign .rightParen)

namespace Bit

def first : Bit → Lexeme
  | plain t => t
  | word t => t
  | input t => t
  | element t _ _ _ => t
  | sanitizer t => t
  | group left => left
  | call name _ => name
  | close right => right

def later : Bit → List Lexeme
  | element _ left inside right => left.val :: inside.val ++ [right.val]
  | call _ left => [left.val]
  | _ => []

def lexemes (b : Bit) : List Lexeme := b.first :: b.later

/-- Whether a lexeme of this kind may follow. A closing tag is passed over while it is looked
for a parenthesis or bracket, and it ends no statement behind a colon. -/
def allows (next : Kind) : Bit → Bool
  | plain t => !(t.val.kind == .colon && next == .closeTag)
  | word _ => !next.isLayout && next != .leftParen
  | input _ => !next.isLayout && next != .leftBracket
  | sanitizer _ => next == .leftParen
  | element _ _ _ _ | group _ | call _ _ | close _ => true

def isAssignment : Bit → Bool
  | plain t => t.val.kind == .operator && t.val.text == "="
  | _ => false

def isCall : Bit → Bool
  | call _ _ => true
  | _ => false

def firstKind (next : Kind) : List Bit → Kind
  | [] => next
  | b :: _ => b.first.kind

/-- Parentheses are balanced, of which `n` are open, and each piece allows what follows. In a
strict expression an outermost pair of parentheses has at most one call, which may be its own;
it is busy once that has come. -/
def Fits (strict : Bool) (next : Kind) : Nat → Bool → List Bit → Bool
  | n, _, [] => n == 0
  | n, busy, b :: bs => b.allows (firstKind next bs) &&
    match b with
    | group _ => Fits strict next (n + 1) busy bs
    | call _ _ => !(strict && busy) && Fits strict next (n + 1) true bs
    | close _ => n != 0 && Fits strict next (n - 1) (busy && n != 1) bs
    | _ => Fits strict next n busy bs

end Bit

/-! ### Statements -/

inductive Statement
  | assign (target : Sign .dollarName) (sign : { t : Lexeme // t.kind = .operator ∧ t.text = "=" })
      (value : List Bit) (stop : { t : Lexeme // t.kind.isStop = true })
  | deliver (word : { t : Lexeme // t.kind.isDeliverWord = true }) (value : List Bit)
      (stop : { t : Lexeme // t.kind.isStop = true })
  | plain (value : List Bit) (stop : { t : Lexeme // t.kind.isStop = true })

namespace Statement

def lexemes : Statement → List Lexeme
  | assign target sign value stop => target.val :: sign.val :: value.flatMap Bit.lexemes ++ [stop.val]
  | deliver word value stop => word.val :: value.flatMap Bit.lexemes ++ [stop.val]
  | plain value stop => value.flatMap Bit.lexemes ++ [stop.val]

def fits (strict : Bool) : Statement → Bool
  | assign _ _ value stop => Bit.Fits strict stop.val.kind 0 false value
  | deliver _ value stop => Bit.Fits strict stop.val.kind 0 false value
  | plain value stop => Bit.Fits strict stop.val.kind 0 false value && value.all (!·.isAssignment) &&
      (!value.isEmpty || stop.val.kind == .semicolon)

end Statement

/-! ### Code -/

inductive Head
  /-- The header of a loop may have statements before its condition. -/
  | branch (word : { t : Lexeme // t.kind.isBranchWord = true }) (left : Sign .leftParen)
      (header : List Statement) (condition : List Bit) (right : Sign .rightParen)
  | alternative (word : Sign .elseWord)
  | loop (word : Sign .doWord) (last : Sign .whileWord)

namespace Head

def word : Head → Lexeme
  | branch word _ _ _ _ => word
  | alternative word => word
  | loop word _ => word

def inside : Head → List Lexeme
  | branch _ left header condition right =>
    left.val :: header.flatMap Statement.lexemes ++ (condition.flatMap Bit.lexemes ++ [right.val])
  | _ => []

def lexemes (head : Head) : List Lexeme := head.word :: head.inside

def tail : Head → List Lexeme
  | loop _ last => [last.val]
  | _ => []

def isStrict : Head → Bool
  | loop _ _ => false
  | _ => true

def fits : Head → Bool
  | branch _ _ header condition _ => header.all (Statement.fits true) &&
      Bit.Fits true .rightParen 0 false condition && condition.all (!·.isAssignment)
  | _ => true

end Head

inductive Code
  | done
  | tag (t : { t : Lexeme // t.kind.isTag = true }) (rest : Code)
  | statement (s : Statement) (rest : Code)
  | block (head : Head) (left : Sign .leftBrace) (body : Code) (right : Sign .rightBrace) (rest : Code)
  /-- A control structure whose body is a single statement. -/
  | single (head : Head) (s : Statement) (rest : Code)
  | function (word : Sign .functionWord) (name : Sign .word) (left : Sign .leftParen)
      (params : List Bit) (right : Sign .rightParen) (first : Sign .leftBrace) (body : Code)
      (last : Sign .rightBrace) (rest : Code)

/-- The place of a lexeme: how many control structures are around it, and in which scope. -/
structure Spot where
  pos : Int
  depth : Int
  scope : String
deriving DecidableEq

def placesOf (depth : Int) (scope : String) (ts : List Lexeme) : List Spot :=
  ts.map (⟨·.pos, depth, scope⟩)

@[simp] theorem map_pos_placesOf (depth : Int) (scope : String) (ts : List Lexeme) :
    (placesOf depth scope ts).map Spot.pos = ts.map Lexeme.pos := by
  simp [placesOf, Function.comp_def]

namespace Code

def lexemes : Code → List Lexeme
  | done => []
  | tag t rest => t.val :: rest.lexemes
  | statement s rest => s.lexemes ++ rest.lexemes
  | block head left body right rest =>
    head.lexemes ++ left.val :: (body.lexemes ++ right.val :: (head.tail ++ rest.lexemes))
  | single head s rest => head.lexemes ++ (s.lexemes ++ (head.tail ++ rest.lexemes))
  | function word name left params right first body last rest =>
    word.val :: name.val :: left.val :: (params.flatMap Bit.lexemes ++
      right.val :: first.val :: (body.lexemes ++ last.val :: rest.lexemes))

/-- Bodies are statements or have braces, and where a block could be taken for announced, calls
are not nested. -/
def fits : Bool → Code → Bool
  | _, done => true
  | strict, tag _ rest => rest.fits strict
  | strict, statement s rest => s.fits strict && rest.fits strict
  | strict, block head _ body _ rest => head.fits && body.fits head.isStrict && rest.fits strict
  | strict, single head s rest => head.fits && s.fits head.isStrict && rest.fits strict
  | strict, function _ _ _ params _ _ body _ rest =>
    Bit.Fits true .rightParen 0 false params && params.all (!·.isCall) && body.fits false && rest.fits strict

/-- The places of all lexemes. The condition of a control structure counts as inside it, the word
before that does not. Functions have the scope that `scopeOf` gives them. -/
def places (scopeOf : String → String) : Int → String → Code → List Spot
  | _, _, done => []
  | depth, scope, tag t rest => placesOf depth scope [t.val] ++ rest.places scopeOf depth scope
  | depth, scope, statement s rest => placesOf depth scope s.lexemes ++ rest.places scopeOf depth scope
  | depth, scope, block head left body right rest =>
    placesOf depth scope [head.word] ++ placesOf (depth + 1) scope head.inside ++
      (placesOf (depth + 1) scope [left.val] ++ body.places scopeOf (depth + 1) scope ++
        placesOf (depth + 1) scope [right.val]) ++
      (placesOf depth scope head.tail ++ rest.places scopeOf depth scope)
  | depth, scope, single head s rest =>
    placesOf depth scope [head.word] ++ placesOf (depth + 1) scope head.inside ++
      placesOf (depth + 1) scope s.lexemes ++
      (placesOf depth scope head.tail ++ rest.places scopeOf depth scope)
  | depth, scope, function word name left params right first body last rest =>
    placesOf depth scope (word.val :: name.val :: left.val :: params.flatMap Bit.lexemes ++ [right.val]) ++
      (placesOf depth (scopeOf name.val.text) [first.val] ++
        body.places scopeOf depth (scopeOf name.val.text) ++
        placesOf depth (scopeOf name.val.text) [last.val]) ++
      rest.places scopeOf depth scope

theorem map_pos_places (scopeOf : String → String) (depth : Int) (scope : String) (c : Code) :
    (c.places scopeOf depth scope).map Spot.pos = c.lexemes.map Lexeme.pos := by
  induction c generalizing depth scope with
  | done => rfl
  | tag t rest ih | statement s rest ih => simp [places, lexemes, ih]
  | block head left body right rest ihbody ih => simp [places, lexemes, Head.lexemes, ihbody, ih]
  | single head s rest ih => simp [places, lexemes, Head.lexemes, ih]
  | function word name left params right first body last rest ihbody ih =>
    simp [places, lexemes, ihbody, ih]

end Code

end MaskedTaint
