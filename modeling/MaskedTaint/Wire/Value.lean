import MaskedTaint.Text.Quoted
import MaskedTaint.Wire.Reading

/-! Values as they are exchanged: JSON data in which the objects that describe tokens
and findings have become records. The fields of a record may hold any value. -/

namespace MaskedTaint

inductive Form
  | site
  | jump
  | finding
deriving DecidableEq, Repr

namespace Form

def name : Form → String
  | site => "AbsToken"
  | jump => "ScopeChangeToken"
  | finding => "ResultToken"

def siteFields : List String :=
  ["token_type", "line_num", "token_pos", "depth", "order", "flow_type", "split", "scope"]

def fields : Form → List String
  | site => siteFields ++ ["file_path"]
  | jump => siteFields ++ ["file_path", "scope_name", "arguments"]
  | finding => ["token_type", "line_num", "token_pos", "file_path", "scope_name", "arguments"]

def shownFields : Form → List String
  | jump => siteFields ++ ["scope_name", "arguments", "file_path"]
  | form => form.fields

end Form

inductive Value
  | null
  | bool (b : Bool)
  | number (n : Int)
  | text (s : String)
  | list (items : List Value)
  | dict (entries : List (String × Value))
  /-- Every record has a number of its own; the fields are in written order. -/
  | record (id : Nat) (form : Form) (fields : List Value)
deriving Repr, Inhabited

inductive WireError
  /-- An object lacks a field. -/
  | missing (field : String)
  /-- A record of this form cannot be written here. -/
  | unwritable (form : Form)
  | noPart (kind part : String)
  | malformed
deriving DecidableEq, Repr

def WireError.message : WireError → String
  | missing field => field
  | unwritable form => s!"Object of type {form.name} is not JSON serializable"
  | noPart kind part => s!"'{kind}' object has no attribute '{part}'"
  | malformed => "Expecting value: line 1 column 1 (char 0)"

namespace Value

def kindName : Value → String
  | null => "NoneType"
  | bool _ => "bool"
  | number _ => "int"
  | text _ => "str"
  | list _ => "list"
  | dict _ => "dict"
  | record _ form _ => form.name

def isTruthy : Value → Bool
  | null => false
  | bool b => b
  | number n => n != 0
  | text s => !s.isEmpty
  | list items => !items.isEmpty
  | dict entries => !entries.isEmpty
  | record _ _ _ => true

def field? (form : Form) (fields : List Value) (name : String) : Option Value :=
  (form.fields.zip fields).lookup name

/-! ### Reading -/

/-- Which objects become records. -/
inductive Hook
  | tokens
  | findings
deriving DecidableEq, Repr

/-- The fields of an object that has them all; the first missing one is reported. -/
def require (entries : List (String × Value)) : List String → Except WireError Unit
  | [] => .ok ()
  | name :: names =>
    if (entries.lookup name).isSome then require entries names else .error (.missing name)

def recordOf (id : Nat) (form : Form) (entries : List (String × Value)) : Value :=
  record id form (form.fields.map fun name => (entries.lookup name).getD null)

/-- What an object turns into. An object with a target is a jump, one with a kind is a
site; where findings are read, every object must be one. -/
def Hook.apply (hook : Hook) (id : Nat) (entries : List (String × Value)) :
    Except WireError Value := do
  let has := fun name => (entries.lookup name).isSome
  match hook with
  | .tokens =>
    if has "scope_name" then
      require entries Form.jump.shownFields
      return recordOf id .jump entries
    else if has "token_type" then
      require entries Form.site.shownFields
      return recordOf id .site entries
    else return dict entries
  | .findings =>
    require entries ["token_type", "line_num", "token_pos", "file_path"]
    if has "arguments" then require entries ["scope_name"]
    return recordOf id .finding entries

mutual

/-- Turns JSON data into values, inner objects first; `id` is the next free number. -/
def decode (hook : Hook) (id : Nat) : Json → Except WireError (Value × Nat)
  | .null => .ok (null, id)
  | .bool b => .ok (bool b, id)
  | .number n => .ok (number n, id)
  | .text s => .ok (text s, id)
  | .list items => do
    let (items, id) ← decodeItems hook id items
    return (list items, id)
  | .object fields => do
    let (entries, id) ← decodeFields hook id fields
    let v ← hook.apply id entries
    return (v, id + 1)

def decodeItems (hook : Hook) (id : Nat) : List Json → Except WireError (List Value × Nat)
  | [] => .ok ([], id)
  | j :: js => do
    let (v, id) ← decode hook id j
    let (vs, id) ← decodeItems hook id js
    return (v :: vs, id)

def decodeFields (hook : Hook) (id : Nat) :
    List (String × Json) → Except WireError (List (String × Value) × Nat)
  | [] => .ok ([], id)
  | (name, j) :: fs => do
    let (v, id) ← decode hook id j
    let (es, id) ← decodeFields hook id fs
    return ((name, v) :: es, id)

end

def read (hook : Hook) (s : String) : Except WireError Value :=
  match Json.parse? s with
  | none => .error .malformed
  | some j => (decode hook 0 j).map Prod.fst

/-! ### Writing -/

mutual

/-- Turns values into JSON data; only records of the given forms can be written. -/
def encode (forms : List Form) : Value → Except WireError Json
  | null => .ok .null
  | bool b => .ok (.bool b)
  | number n => .ok (.number n)
  | text s => .ok (.text s)
  | list items => do return .list (← encodeItems forms items)
  | dict entries => do return .object (← encodeEntries forms entries)
  | record _ form fields =>
    if forms.contains form then do
      return .object (form.fields.zip (← encodeItems forms fields))
    else .error (.unwritable form)

def encodeItems (forms : List Form) : List Value → Except WireError (List Json)
  | [] => .ok []
  | v :: vs => do
    let j ← encode forms v
    let js ← encodeItems forms vs
    return j :: js

def encodeEntries (forms : List Form) :
    List (String × Value) → Except WireError (List (String × Json))
  | [] => .ok []
  | (name, v) :: es => do
    let j ← encode forms v
    let js ← encodeEntries forms es
    return (name, j) :: js

end

/-! ### Showing -/

/-- How records inside a list are told apart in a text. -/
inductive Identity
  | hidden
  | shown
deriving DecidableEq, Repr

def objectText (identity : Identity) (id : Nat) (form : Form) : String :=
  let place := match identity with
    | .hidden => ""
    | .shown => s!" at {id}"
  s!"<utils.token_utils.{form.name} object{place}>"

mutual

def inner (identity : Identity) : Value → String
  | null => "None"
  | bool b => if b then "True" else "False"
  | number n => toString n
  | text s => Quoted.render s
  | list items => "[" ++ ", ".intercalate (innerItems identity items) ++ "]"
  | dict entries => "\x7b" ++ ", ".intercalate (innerEntries identity entries) ++ "\x7d"
  | record id form _ => objectText identity id form

def innerItems (identity : Identity) : List Value → List String
  | [] => []
  | v :: vs => inner identity v :: innerItems identity vs

def innerEntries (identity : Identity) : List (String × Value) → List String
  | [] => []
  | (name, v) :: es => (Quoted.render name ++ ": " ++ inner identity v) :: innerEntries identity es

end

def plain (identity : Identity) : Value → String
  | text s => s
  | v => inner identity v

def tokenText (identity : Identity) (form : Form) (fields : List Value) : String :=
  let shown := form.shownFields.map fun name =>
    plain identity ((field? form fields name).getD null)
  form.name ++ "(" ++ ", ".intercalate shown ++ ")"

def findingHead (kind line pos file : Value) : String :=
  "type: " ++ kind.plain .hidden ++ ", line: " ++ line.plain .hidden ++
    ", position: " ++ pos.plain .hidden ++ ", file: " ++ file.plain .hidden

def part (v : Value) (name : String) : Except WireError Value :=
  match v with
  | record _ form fields =>
    match field? form fields name with
    | some v => .ok v
    | none => .error (.noPart v.kindName name)
  | v => .error (.noPart v.kindName name)

/-- The text of a finding. Arguments are shown only for one with a target; `fuel` bounds
how deeply arguments are nested. -/
def findingText : Nat → Value → Except WireError String
  | 0, _ => .ok ""
  | fuel + 1, v => do
    let kind ← v.part "token_type"
    let line ← v.part "line_num"
    let pos ← v.part "token_pos"
    let file ← v.part "file_path"
    let target ← v.part "scope_name"
    let args ← v.part "arguments"
    let head := findingHead kind line pos file
    if !target.isTruthy then return head
    let head := head ++ ", change_to: " ++ target.plain .hidden
    match args with
    | list [] => return head
    | list items =>
      let texts ← items.mapM (findingText fuel)
      return head ++ ", arguments: (" ++ String.join (texts.map (" " ++ ·)) ++ ")"
    | _ => return head

mutual

def depth : Value → Nat
  | list items => depthItems items + 1
  | dict entries => depthEntries entries + 1
  | record _ _ fields => depthItems fields + 1
  | _ => 1

def depthItems : List Value → Nat
  | [] => 0
  | v :: vs => max (depth v) (depthItems vs)

def depthEntries : List (String × Value) → Nat
  | [] => 0
  | (_, v) :: es => max (depth v) (depthEntries es)

end

def describe (identity : Identity) (v : Value) : Except WireError String :=
  match v with
  | record _ .finding _ => findingText v.depth v
  | record _ form fields => .ok (tokenText identity form fields)
  | v => .ok (v.plain identity)

/-- Findings are equal only to themselves; other records are compared by their texts. -/
def equal (a b : Value) : Except WireError Bool :=
  match a, b with
  | record i .finding _, record j .finding _ => .ok (i == j)
  | a, b => do return (← a.describe .shown) == (← b.describe .shown)

end Value

end MaskedTaint
