import MaskedTaint.Lexeme.Kind
import MaskedTaint.Text.Word

/-! The words the analysis knows: variables that carry user input, functions that
are sinks or sanitizers of a vulnerability, and the reserved words of PHP. -/

namespace MaskedTaint

def taintedVariables : List String :=
  ["$_SERVER", "$_GET", "$_POST", "$_COOKIE", "$_REQUEST", "$_FILES", "$_ENV", "$_SESSION",
    "$_php_errormsg"]

def Vulnerability.sinks : Vulnerability → List String
  | xss => ["ECHO"]
  | sqli =>
    ["MYSQL_QUERY", "MYSQL_UNBUFFERED_QUERY", "MYSQL_DB_QUERY", "MYSQLI_QUERY",
      "MYSQLI_REAL_QUERY", "MYSQLI_MASTER_QUERY", "MYSQLI_MULTI_QUERY", "MYSQLI_STMT_EXECUTE",
      "MYSQLI_EXECUTE"]

def Vulnerability.sanitizers : Vulnerability → List String
  | xss => ["ENCODEFORHTML", "HTMLENTITIES", "HTMLSPECIALCHARS", "STRIP_TAGS", "URLENCODE"]
  | sqli =>
    ["MYSQL_ESCAPE_STRING", "MYSQL_REAL_ESCAPE_STRING", "MYSQLI_ESCAPE_STRING",
      "MYSQLI_REAL_ESCAPE_STRING", "MYSQLI_STMT_BIND_PARAM"]

def structuralWords : List (String × Kind) :=
  [("IF", .ifWord), ("ELSEIF", .elseIfWord), ("ELSE", .elseWord), ("WHILE", .whileWord),
    ("FOR", .forWord), ("FOREACH", .forEachWord), ("SWITCH", .switchWord), ("CASE", .caseWord),
    ("DO", .doWord), ("FUNCTION", .functionWord), ("RETURN", .returnWord), ("VAR", .varWord)]

def otherReserved : List String :=
  ["ARRAY", "AS", "BREAK", "CLASS", "CONST", "CONTINUE", "DECLARE", "DEFAULT", "DIE", "EMPTY",
    "ENDDECLARE", "ENDFOR", "ENDFOREACH", "ENDIF", "ENDSWITCH", "ENDWHILE", "EVAL", "EXIT",
    "EXTENDS", "GLOBAL", "INCLUDE", "INCLUDE_ONCE", "INSTANCEOF", "ISSET", "LIST", "NEW", "PRINT",
    "REQUIRE", "REQUIRE_ONCE", "STATIC", "UNSET", "USE", "FINAL", "INTERFACE", "IMPLEMENTS",
    "PUBLIC", "PRIVATE", "PROTECTED", "ABSTRACT", "CLONE", "TRY", "CATCH", "THROW", "NAMESPACE",
    "FINALLY", "TRAIT", "YIELD"]

def renamedWords : List (String × String) :=
  [("__DIR__", "DIR"), ("__FILE__", "FILE"), ("__LINE__", "LINE"), ("__FUNCTION__", "FUNC_C"),
    ("__CLASS__", "CLASS_C"), ("__METHOD__", "METHOD_C"), ("__NAMESPACE__", "NS_C"),
    ("AND", "LOGICAL_AND"), ("OR", "LOGICAL_OR"), ("XOR", "LOGICAL_XOR"),
    ("__HALT_COMPILER", "HALT_COMPILER")]

def Kind.ofUpper (word : String) : Kind :=
  match structuralWords.lookup word with
  | some kind => kind
  | none =>
    if otherReserved.contains word then .reserved word
    else match renamedWords.lookup word with
    | some name => .reserved name
    | none =>
      if Vulnerability.xss.sinks.contains word then .sink .xss
      else if Vulnerability.xss.sanitizers.contains word then .sanitizer .xss
      else if Vulnerability.sqli.sinks.contains word then .sink .sqli
      else if Vulnerability.sqli.sanitizers.contains word then .sanitizer .sqli
      else .word

def Kind.ofWord (cs : List Char) : Kind :=
  Kind.ofUpper (String.ofList (upperCase cs))

def Kind.ofVariable (cs : List Char) : Kind :=
  if taintedVariables.contains (String.ofList cs) then .input else .dollarName

end MaskedTaint
