import MaskedTaint.Act
import MaskedTaint.Search.Path

/-! The explorer: follows the flows of a structure backwards from a sink. Lists may
grow while they are walked, since the arguments of a call are added to the lists of the
parameters; so a walk asks for its next token by place, and its length is bounded. -/

namespace MaskedTaint

/-- How the names in tokens become names of scopes and keys, and how the special kinds
are spelled. -/
structure Lexicon where
  key : String → String
  word : Special → String

namespace Lexicon

def plain : Lexicon := ⟨fun s => s, Special.name⟩

def place (lex : Lexicon) (s : Special) : String := lex.key (lex.word s)

def saysCall (lex : Lexicon) (t : Token) : Bool := t.kind == lex.word .call

def filesCall (lex : Lexicon) (t : Token) : Bool := lex.key t.kind == lex.place .call

end Lexicon

inductive SearchError
  /-- There is no such entry; the name is known before and after it became a key. -/
  | missing (name key : String)
  /-- A path was to be dropped that is not there. -/
  | absent
  /-- A plain token stands where a jump is needed. -/
  | notAJump
  | unending
deriving DecidableEq, Repr

def SearchError.message : SearchError → String
  | missing _ key => key
  | absent => "list.remove(x): x not in list"
  | notAJump => "'AbsToken' object has no attribute 'scope_name'"
  | unending => "maximum recursion depth exceeded"

/-- Bounds on the depth of the search and on the length of a walk. -/
structure Limit where
  depth : Nat
  width : Nat

structure Search where
  flows : Structure
  /-- Calls that have been looked into. -/
  analysed : List Token := []
  /-- Tokens on the way to the current one. -/
  visited : List Token := []
  /-- Paths recorded for the current sink. -/
  paths : List Path := []

abbrev Searching := Act Search SearchError

/-- A scope as seen from a call: parameters without a list of their own have one here. Imports
that are among these lists are sorted, like those of a scope when they are asked for. -/
structure View where
  name : String
  own : Scope := Table.empty

/-- A list to walk through: one of the structure, or one that stays as it is. -/
inductive Source
  | stored (scope key : String)
  | fixed (ts : List Token)

namespace Search

def read (s : Search) : Source → List Token
  | .stored scope key => (s.flows.tokens? scope key).getD []
  | .fixed ts => ts

def source? (s : Search) (v : View) (key : String) : Option Source :=
  if (s.flows.tokens? v.name key).isSome then some (.stored v.name key)
  else (v.own.get? key).map .fixed

def hasList (s : Search) (scope key : String) : Bool := (s.flows.tokens? scope key).isSome

def sortImports (ts : List Token) : List Token := ts.mergeSort fun a b => b.pos ≤ a.pos

variable (lex : Lexicon) (limit : Limit)

def importsOf (v : View) : Searching Source := do
  let s ← Act.state
  match s.source? v (lex.place .imports) with
  | some (.stored scope key) =>
    let sorted := sortImports (s.read (.stored scope key))
    Act.update fun s => { s with flows := s.flows.putTokens scope key sorted }
    return .stored scope key
  | some (.fixed ts) => return .fixed ts
  | none => return .fixed []

/-- The mark of an argument under a parameter: where it comes from is the argument's,
where it counts is the parameter's. -/
def boundMark (param arg : Mark) : Mark :=
  { arg with depth := param.depth, order := param.order, flow := param.flow, split := param.split }

def bound (isCall : Token → Bool) (param arg : Token) : Except SearchError Token :=
  let mark := boundMark param.mark arg.mark
  if isCall arg then
    match arg with
    | .jump id _ target args => .ok (.jump id mark target args)
    | .site _ _ => .error .notAJump
  else .ok (.site arg.id mark)

def addTo (v : View) (key : String) (t : Token) : Searching View := do
  let s ← Act.state
  if s.hasList v.name key then
    Act.update fun s => { s with flows := s.flows.append v.name key [t] }
    return v
  else return { v with own := v.own.put key (((v.own.get? key).getD []) ++ [t]) }

def bindFrom (isCall : Token → Bool) (v : View) : Nat → List Token → Searching View
  | _, [] => return v
  | i, arg :: args => do
    let s ← Act.state
    match (s.read (.stored v.name (lex.place .params)))[i]? with
    | none => return v
    | some param =>
      match bound isCall param arg with
      | .error e => Act.fail e
      | .ok t =>
        let v ← addTo v (lex.key param.kind) t
        bindFrom isCall v (i + 1) args

def sortOwn (v : View) : View :=
  { v with own := v.own.map fun e => (e.1, if e.1 = lex.place .imports then sortImports e.2 else e.2) }

def callee (isCall : Token → Bool) (scope : String) (args : List Token) : Searching View := do
  let s ← Act.state
  if s.hasList scope (lex.place .params) then
    return sortOwn lex (← bindFrom lex isCall { name := scope } 0 args)
  else Act.fail (.missing (lex.word .params) (lex.place .params))

def enterCall (isCall : Token → Bool) (t : Token) : Searching (Option View) := do
  Act.update fun s => { s with analysed := s.analysed ++ [t] }
  match t with
  | .site _ _ => Act.fail .notAJump
  | .jump _ _ target args =>
    let s ← Act.state
    if s.flows.has (lex.key target) then return some (← callee lex isCall (lex.key target) args)
    else return none

def findImport (wanted : Token → Bool) (key : String) (imports : Source) :
    Searching (Option String) := fun s => go s (s.read imports)
where
  go (s : Search) : List Token → Except SearchError (Option String) × Search
    | [] => (.ok none, s)
    | t :: ts =>
      if wanted t then
        match t with
        | .site _ _ => (.error .notAJump, s)
        | .jump _ _ target _ =>
          if s.hasList (lex.key target) key then (.ok (some (lex.key target)), s) else go s ts
      else go s ts

def walk (source : Source) (body : Source → Token → Searching Source) :
    Nat → Nat → Source → Searching Source
  | 0, _, _ => Act.fail .unending
  | width + 1, i, imports => do
    let s ← Act.state
    match (s.read source)[i]? with
    | none => return imports
    | some t =>
      let imports ← body imports t
      walk source body width (i + 1) imports

def conclude (path : Path) : Searching Unit := do
  let s ← Act.state
  match path.conclude? s.paths with
  | some paths => Act.update fun s => { s with paths := paths }
  | none => Act.fail .absent

def unvisit (t : Token) : List Token → List Token
  | [] => []
  | u :: us => if u.same t then us else u :: unvisit t us

def visit (t : Token) : Searching Unit :=
  Act.update fun s => { s with visited := s.visited ++ [t] }

def leave (t : Token) : Searching Unit :=
  Act.update fun s => { s with visited := unvisit t s.visited }

/-- A token that data can have come from: not on the way already, and earlier in its scope. -/
def canFollow (s : Search) (current t : Token) : Bool :=
  !t.isIn s.visited && (current.scope != t.scope || t.pos < current.pos)

def visiting (t : Token) (step : Searching Unit) : Searching Unit := do
  visit t
  step
  leave t

/-- Follows a token if it can be followed. -/
def followIf (go : View → Source → Token → Searching Unit) (v : View) (current : Token)
    (imports : Source) (t : Token) : Searching Source := do
  let s ← Act.state
  if s.canFollow current t then visiting t (go v imports t)
  return imports

/-- Follows a token that can be followed, unless an import between it and the current one has
a list for the key; then the tokens of that list. -/
def followStep (go : View → Source → Token → Searching Unit) (v : View) (key : String)
    (current : Token) (imports : Source) (t : Token) : Searching Source := do
  let s ← Act.state
  if !s.canFollow current t then return imports
  visit t
  match ← findImport lex (fun i => t.pos < i.pos && i.pos < current.pos) key imports with
  | some scope =>
    let imports ← importsOf lex { name := scope }
    let _ ← walk (.stored scope key) (followIf go { name := scope } current) limit.width 0 imports
    return imports
  | none =>
    go v imports t
    leave t
    return imports

def followList (go : View → Source → Token → Searching Unit) (v : View) (key : String)
    (current : Token) (source imports : Source) : Searching Unit := do
  let _ ← walk source (followStep lex limit go v key current) limit.width 0 imports

def followAll (go : View → Source → Token → Searching Unit) (v : View)
    (source imports : Source) : Searching Unit := do
  let _ ← walk source (fun imports t => do
    visiting t (go v imports t)
    return imports) limit.width 0 imports

/-- Follows the flows into a token. `scope` is the view in which it was found. -/
def explore : Nat → Path → View → Source → Token → Searching Unit
  | 0, _, _, _, _ => Act.fail .unending
  | depth + 1, path, v, imports, current => do
    let path := path ++ [current]
    let go := explore depth path
    let key := lex.key current.kind
    let s ← Act.state
    if current.kind = lex.word .call then
      if current.isIn s.analysed then return ()
      match ← enterCall lex lex.saysCall current with
      | none => return ()
      | some v =>
        let imports ← importsOf lex v
        let s ← Act.state
        match s.source? v (lex.place .result) with
        | none => conclude path
        | some source => followAll limit go v source imports
    else
      match s.source? v key with
      | some source => followList lex limit go v key current source imports
      | none =>
        if current.kind = lex.word .input then conclude path
        else if lex.key current.scope ≠ v.name then
          let scope := lex.key current.scope
          if !s.flows.has scope then Act.fail (.missing current.scope scope)
          else
            let imports ← importsOf lex { name := scope }
            if s.hasList scope key then
              followList lex limit go { name := scope } key current (.stored scope key) imports
            else conclude path
        else
          match ← findImport lex (fun i => i.pos ≤ current.pos) key imports with
          | none => conclude path
          | some scope =>
            let imports ← importsOf lex { name := scope }
            followAll limit go { name := scope } (.stored scope key) imports

end Search

end MaskedTaint
