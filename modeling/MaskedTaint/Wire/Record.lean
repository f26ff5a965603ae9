import MaskedTaint.Flow.Finding
import MaskedTaint.Flow.Structure
import MaskedTaint.Wire.Value

/-! Tokens, findings and whole structures as JSON data, and back. -/

namespace MaskedTaint

def Label.toJson : Label → Json
  | number n => .number n
  | text s => .text s

def Label.ofValue? : Value → Option Label
  | .number n => some (number n)
  | .text s => some (text s)
  | _ => none

namespace Value

def text? : Value → Option String
  | text s => some s
  | _ => none

def number? : Value → Option Int
  | number n => some n
  | _ => none

end Value

namespace Token

def markValues (m : Mark) : List Json :=
  [.text m.kind, m.line.toJson, .number m.pos, .number m.depth, .number m.order, .number m.flow,
    m.split.toJson, .text m.scope, .text m.file]

mutual

def toJson : Token → Json
  | site _ m => .object (Form.site.fields.zip (markValues m))
  | jump _ m target args =>
    .object (Form.jump.fields.zip (markValues m ++ [.text target, .list (listToJson args)]))

def listToJson : List Token → List Json
  | [] => []
  | t :: ts => toJson t :: listToJson ts

end

def markOf? : List Value → Option Mark
  | [kind, line, pos, depth, order, flow, split, scope, file] => do
    return ⟨← kind.text?, ← Label.ofValue? line, ← pos.number?, ← depth.number?, ← order.number?,
      ← flow.number?, ← Label.ofValue? split, ← scope.text?, ← file.text?⟩
  | _ => none

mutual

def ofValue? : Value → Option Token
  | .record id .site fields => (markOf? fields).map (site id)
  | .record id .jump [kind, line, pos, depth, order, flow, split, scope, file, target, .list args] => do
    let mark ← markOf? [kind, line, pos, depth, order, flow, split, scope, file]
    return jump id mark (← target.text?) (← listOfValues? args)
  | _ => none

def listOfValues? : List Value → Option (List Token)
  | [] => some []
  | v :: vs => do return (← ofValue? v) :: (← listOfValues? vs)

end

end Token

namespace Structure

def toJson (d : Structure) : Json :=
  .object (d.entries.map fun (name, s) =>
    (name, .object (s.entries.map fun (key, ts) => (key, .list (Token.listToJson ts)))))

def toText (d : Structure) : String := d.toJson.render (some 4)

def scopeOfValue : Value → Except WireError Scope
  | .dict entries => do
    let lists ← entries.mapM fun (key, v) =>
      match v with
      | .list items =>
        match Token.listOfValues? items with
        | some ts => .ok (key, ts)
        | none => .error .malformed
      | _ => .error .malformed
    return Table.ofEntries lists
  | _ => .error .malformed

def ofValue : Value → Except WireError Structure
  | .dict entries => do
    let scopes ← entries.mapM fun (name, v) => do return (name, ← scopeOfValue v)
    return Table.ofEntries scopes
  | v => .error (.noPart v.kindName "items")

def ofText (s : String) : Except WireError Structure := do
  ofValue (← Value.read .tokens s)

end Structure

namespace Finding

mutual

def toJson : Finding → Json
  | mk kind line pos file target args =>
    let args := match args with
      | none => .null
      | some args => .list (listToJson args)
    let target := match target with
      | none => .null
      | some s => .text s
    .object (Form.finding.fields.zip
      [.text kind, line.toJson, .number pos, .text file, target, args])

def listToJson : List Finding → List Json
  | [] => []
  | f :: fs => toJson f :: listToJson fs

end

mutual

def ofValue? : Value → Option Finding
  | .record _ .finding [kind, line, pos, file, target, args] => do
    let args ← match args with
      | .null => some none
      | .list args => (listOfValues? args).map some
      | _ => none
    let target ← match target with
      | .null => some none
      | .text s => some (some s)
      | _ => none
    return mk (← kind.text?) (← Label.ofValue? line) (← pos.number?) (← file.text?) target args
  | _ => none

def listOfValues? : List Value → Option (List Finding)
  | [] => some []
  | v :: vs => do return (← ofValue? v) :: (← listOfValues? vs)

end

def pathsText (paths : List (List Finding)) : String :=
  (Json.list (paths.map fun p => .list (listToJson p))).render (some 4)

def pathsOfValue : Value → Except WireError (List (List Finding))
  | .list paths => paths.mapM fun v =>
    match v with
    | .list items =>
      match listOfValues? items with
      | some fs => .ok fs
      | none => .error .malformed
    | _ => .error .malformed
  | _ => .error .malformed

def pathsOfText (s : String) : Except WireError (List (List Finding)) := do
  pathsOfValue (← Value.read .findings s)

end Finding

def Token.pathsText (paths : List (List Token)) : String :=
  (Json.list (paths.map fun p => .list (Token.listToJson p))).render (some 4)

end MaskedTaint
