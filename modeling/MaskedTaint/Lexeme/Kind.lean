/-! Kinds of lexemes and the modes in which text is read. A PHP file is HTML with
code between tags; inside code, quoted text has its own rules, and so have the
variables, offsets and properties that stand in quoted text. -/

namespace MaskedTaint

/-- How the text at the current position is to be read. -/
inductive Mode
  | html
  | code
  | quoted
  | quotedVar
  | varName
  | offset
  | property
  | heredoc
  | heredocVar
  | nowdoc
  | backticked
  | backtickedVar
deriving DecidableEq, Repr, Inhabited

def Mode.name : Mode → String
  | html => "INITIAL"
  | code => "php"
  | quoted => "quoted"
  | quotedVar => "quotedvar"
  | varName => "varname"
  | offset => "offset"
  | property => "property"
  | heredoc => "heredoc"
  | heredocVar => "heredocvar"
  | nowdoc => "nowdoc"
  | backticked => "backticked"
  | backtickedVar => "backtickedvar"

def Mode.all : List Mode :=
  [html, code, quoted, quotedVar, varName, offset, property, heredoc, heredocVar, nowdoc,
    backticked, backtickedVar]

def Mode.ofName? (name : String) : Option Mode :=
  Mode.all.find? (·.name == name)

/-- The vulnerabilities that can be looked for. -/
inductive Vulnerability
  | xss
  | sqli
deriving DecidableEq, Repr, Inhabited

def Vulnerability.name : Vulnerability → String
  | xss => "XSS"
  | sqli => "SQLI"

def Vulnerability.ofName? (name : String) : Option Vulnerability :=
  [xss, sqli].find? (·.name == name)

inductive Cast
  | array
  | binary
  | bool
  | double
  | int
  | object
  | string
  | unset
deriving DecidableEq, Repr, Inhabited

def Cast.name : Cast → String
  | array => "ARRAY_CAST"
  | binary => "BINARY_CAST"
  | bool => "BOOL_CAST"
  | double => "DOUBLE_CAST"
  | int => "INT_CAST"
  | object => "OBJECT_CAST"
  | string => "STRING_CAST"
  | unset => "UNSET_CAST"

/-- What a lexeme is. Words that the analysis treats alike are `reserved`, told
apart by their name only. -/
inductive Kind
  | whitespace
  | openTag
  | closeTag
  | comment
  | docComment
  | comma
  | inlineHtml
  | backtick
  | operator
  | arrow
  | dollarName
  | input
  | leftParen
  | rightParen
  | leftBracket
  | rightBracket
  | leftBrace
  | rightBrace
  | dollar
  | concat
  | question
  | colon
  | semicolon
  | atSign
  | namespaceSeparator
  | quote
  | cast (c : Cast)
  | word
  | integer
  | decimal
  | offsetNumber
  | constantText
  | encapsedText
  | dollarBrace
  | curlyOpen
  | variableName
  | startHeredoc
  | endHeredoc
  | startNowdoc
  | endNowdoc
  | importWord
  | sink (v : Vulnerability)
  | sanitizer (v : Vulnerability)
  | ifWord
  | elseIfWord
  | elseWord
  | whileWord
  | forWord
  | forEachWord
  | switchWord
  | caseWord
  | doWord
  | functionWord
  | returnWord
  | varWord
  | reserved (name : String)
deriving DecidableEq, Repr, Inhabited

def Kind.name : Kind → String
  | whitespace => "WHITESPACE"
  | openTag => "OPEN_TAG"
  | closeTag => "CLOSE_TAG"
  | comment => "COMMENT"
  | docComment => "DOC_COMMENT"
  | comma => "COMMA"
  | inlineHtml => "INLINE_HTML"
  | backtick => "BACKTICK"
  | operator => "OPERATOR"
  | arrow => "OBJECT_OPERATOR"
  | dollarName => "VARIABLE"
  | input => "INPUT"
  | leftParen => "LPAREN"
  | rightParen => "RPAREN"
  | leftBracket => "LBRACKET"
  | rightBracket => "RBRACKET"
  | leftBrace => "LBRACE"
  | rightBrace => "RBRACE"
  | dollar => "DOLLAR"
  | concat => "CONCAT"
  | question => "QUESTION"
  | colon => "COLON"
  | semicolon => "SEMI"
  | atSign => "AT"
  | namespaceSeparator => "NS_SEPARATOR"
  | quote => "QUOTE"
  | cast c => c.name
  | word => "STRING"
  | integer => "LNUMBER"
  | decimal => "DNUMBER"
  | offsetNumber => "NUM_STRING"
  | constantText => "CONSTANT_ENCAPSED_STRING"
  | encapsedText => "ENCAPSED_AND_WHITESPACE"
  | dollarBrace => "DOLLAR_OPEN_CURLY_BRACES"
  | curlyOpen => "CURLY_OPEN"
  | variableName => "STRING_VARNAME"
  | startHeredoc => "START_HEREDOC"
  | endHeredoc => "END_HEREDOC"
  | startNowdoc => "START_NOWDOC"
  | endNowdoc => "END_NOWDOC"
  | importWord => "IMPORT"
  | sink v => v.name ++ "_SENS"
  | sanitizer v => v.name ++ "_SANF"
  | ifWord => "IF"
  | elseIfWord => "ELSEIF"
  | elseWord => "ELSE"
  | whileWord => "WHILE"
  | forWord => "FOR"
  | forEachWord => "FOREACH"
  | switchWord => "SWITCH"
  | caseWord => "CASE"
  | doWord => "DO"
  | functionWord => "FUNCTION"
  | returnWord => "RETURN"
  | varWord => "VAR"
  | reserved name => name

def Kind.isLayout : Kind → Bool
  | whitespace | openTag | closeTag | comment | docComment | comma | inlineHtml | backtick => true
  | _ => false

end MaskedTaint
