import MaskedTaint.Flow.Token

/-! Findings: what is reported of a token on a vulnerable path. -/

namespace MaskedTaint

inductive Finding
  | mk (kind : String) (line : Label) (pos : Int) (file : String) (target : Option String)
      (args : Option (List Finding))
deriving Repr, Inhabited

namespace Finding

mutual

def ofToken : Token → Finding
  | .site _ m => mk m.kind m.line m.pos m.file none none
  | .jump _ m target [] => mk m.kind m.line m.pos m.file (some target) none
  | .jump _ m target (a :: args) =>
    mk m.kind m.line m.pos m.file (some target) (some (ofToken a :: ofTokens args))

def ofTokens : List Token → List Finding
  | [] => []
  | t :: ts => ofToken t :: ofTokens ts

end

mutual

def text : Finding → String
  | mk kind line pos file target args =>
    let head := "type: " ++ kind ++ ", line: " ++ line.render ++ ", position: " ++ toString pos ++
      ", file: " ++ file
    let target := target.getD ""
    if target.isEmpty then head
    else
      let head := head ++ ", change_to: " ++ target
      match args with
      | none | some [] => head
      | some (a :: args) => head ++ ", arguments: ( " ++ text a ++ texts args ++ ")"

def texts : List Finding → String
  | [] => ""
  | f :: fs => " " ++ text f ++ texts fs

end

end Finding

end MaskedTaint
