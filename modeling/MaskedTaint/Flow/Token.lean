/-! Tokens: the places of the program that data flows through. A site is a plain
place; a jump leads to another scope, into a function or an included file. -/

namespace MaskedTaint

/-- A field that holds a number, or a text once it is sealed. -/
inductive Label
  | number (n : Int)
  | text (s : String)
deriving DecidableEq, Repr, Inhabited

def Label.render : Label → String
  | number n => toString n
  | text s => s

structure Mark where
  kind : String
  line : Label
  pos : Int
  /-- How many control structures enclose the place. -/
  depth : Int
  /-- Which control structure of that depth it is in. -/
  order : Int
  /-- Which branch of that control structure it is in. -/
  flow : Int
  /-- Common to the operands of one joined text. -/
  split : Label
  scope : String
  file : String
deriving DecidableEq, Repr, Inhabited

/-- Every token occurrence has a number of its own. -/
inductive Token
  | site (id : Nat) (mark : Mark)
  | jump (id : Nat) (mark : Mark) (target : String) (args : List Token)
deriving Repr, Inhabited

namespace Token

def id : Token → Nat
  | site id _ => id
  | jump id _ _ _ => id

def mark : Token → Mark
  | site _ mark => mark
  | jump _ mark _ _ => mark

def kind (t : Token) : String := t.mark.kind

def pos (t : Token) : Int := t.mark.pos

def scope (t : Token) : String := t.mark.scope

def split (t : Token) : Label := t.mark.split

def setSplit (split : Label) : Token → Token
  | site id mark => site id { mark with split := split }
  | jump id mark target args => jump id { mark with split := split } target args

def fields (t : Token) : List String :=
  [t.mark.kind, t.mark.line.render, toString t.mark.pos, toString t.mark.depth,
    toString t.mark.order, toString t.mark.flow, t.mark.split.render, t.mark.scope]

/-- The text by which tokens are compared. The arguments of a jump count by their
numbers: two calls with arguments are alike only if these are the same occurrences. -/
def signature : Token → String
  | site id mark =>
    "AbsToken(" ++ ", ".intercalate ((site id mark).fields ++ [mark.file]) ++ ")"
  | jump id mark target args =>
    let numbers := args.map fun a => "#" ++ toString a.id
    "ScopeChangeToken(" ++ ", ".intercalate ((jump id mark target args).fields ++
      [target, "[" ++ ", ".intercalate numbers ++ "]", mark.file]) ++ ")"

def same (a b : Token) : Bool := a.signature == b.signature

theorem same_refl (a : Token) : a.same a = true := by simp [same]

theorem same_symm {a b : Token} (h : a.same b = true) : b.same a = true := by
  simp_all [same]

theorem same_trans {a b c : Token} (h : a.same b = true) (h' : b.same c = true) :
    a.same c = true := by
  simp_all [same]

end Token

def Token.isIn (t : Token) (ts : List Token) : Bool := ts.any t.same

end MaskedTaint
