/-! Command lines: options with long and short spellings. A long option may be cut
short as long as it stays clear which one is meant, and a value may follow an option, be
joined to a short one, or stand behind an equals sign. -/

namespace MaskedTaint

structure OptionRule where
  name : String
  spellings : List String
  takesValue : Bool := true
  choices : List String := []
  required : Bool := false

namespace Options

/-- What an argument itself says of the value of its option. -/
inductive Given
  | absent
  /-- Behind an equals sign. -/
  | joined (s : String)
  /-- Right behind the letter of the option. -/
  | attached (s : String)

/-- An argument and what it is taken for. -/
inductive Argument
  | value (s : String)
  /-- Behind this mark there are no options. -/
  | mark
  | option (rule : OptionRule) (given : Given)
  | unknown
  | unclear

def helpRule : OptionRule :=
  { name := "help", spellings := ["-h", "--help"], takesValue := false }

def isNegativeNumber (s : String) : Bool :=
  match s.toList with
  | '-' :: cs =>
    let digits := fun (cs : List Char) => !cs.isEmpty && cs.all Char.isDigit
    digits cs ||
      match cs.dropWhile Char.isDigit with
      | '.' :: rest => digits rest
      | _ => false
  | _ => false

def spelled (rules : List OptionRule) : List (String × OptionRule) :=
  (helpRule :: rules).flatMap fun r => r.spellings.map fun s => (s, r)

def splitEquals (s : String) : Option (String × String) :=
  let cs := s.toList
  let before := cs.takeWhile (· != '=')
  match cs.dropWhile (· != '=') with
  | _ :: behind => some (String.ofList before, String.ofList behind)
  | [] => none

def guesses (rules : List OptionRule) (s : String) : List (OptionRule × Given) :=
  if s.startsWith "--" then
    let (start, given) := match splitEquals s with
      | some (before, behind) => (before, Given.joined behind)
      | none => (s, .absent)
    (spelled rules).filterMap fun (spelling, r) =>
      if spelling.startsWith start then some (r, given) else none
  else
    let short := String.ofList (s.toList.take 2)
    (spelled rules).filterMap fun (spelling, r) =>
      if spelling == short then some (r, .attached (String.ofList (s.toList.drop 2)))
      else if spelling.startsWith s then some (r, .absent)
      else none

def classify (rules : List OptionRule) (s : String) : Argument :=
  if s == "--" then .mark
  else if !s.startsWith "-" then .value s
  else
    match (spelled rules).lookup s with
    | some r => .option r .absent
    | none =>
      if s.length == 1 then .value s
      else
        let joined := (splitEquals s).bind fun (before, behind) =>
          ((spelled rules).lookup before).map fun r => (r, behind)
        match joined with
        | some (r, behind) => .option r (.joined behind)
        | none =>
          match guesses rules s with
          | [(r, given)] => .option r given
          | _ :: _ :: _ => .unclear
          | [] => if isNegativeNumber s || s.toList.contains ' ' then .value s else .unknown

def classifyAll (rules : List OptionRule) : List String → List Argument
  | [] => []
  | s :: ss =>
    match classify rules s with
    | .mark => .mark :: ss.map .value
    | a => a :: classifyAll rules ss

inductive Failure
  | usage
  | help
deriving DecidableEq, Repr

abbrev Values := List (String × String)

def isAllowed (r : OptionRule) (value : String) : Bool :=
  r.choices.isEmpty || r.choices.contains value

/-- Letters behind the one that asks for help are options too; one that needs a value
must get it. -/
def helpWith (rules : List OptionRule) (next : Option Argument) : List Char → Failure
  | [] => .help
  | c :: cs =>
    match (spelled rules).lookup (String.ofList ['-', c]) with
    | none => .help
    | some r =>
      if !r.takesValue then helpWith rules next cs
      else if !cs.isEmpty then .help
      else
        match next with
        | some (.value _) => .help
        | _ => .usage

def flag (rules : List OptionRule) (r : OptionRule) (given : Given) (next : Option Argument) :
    Except Failure (String × String) :=
  match given with
  | .joined _ => .error .usage
  | .attached s => .error (helpWith rules next s.toList)
  | .absent => if r.name == helpRule.name then .error .help else .ok (r.name, "")

def consume (rules : List OptionRule) : Bool → Values → List Argument → Except Failure Values
  | spare, vs, [] => if spare then .error .usage else .ok vs
  | spare, vs, .option r given :: rest =>
    if r.takesValue then
      match given, rest with
      | .joined v, rest | .attached v, rest =>
        if isAllowed r v then consume rules spare ((r.name, v) :: vs) rest else .error .usage
      | .absent, .value v :: rest =>
        if isAllowed r v then consume rules spare ((r.name, v) :: vs) rest else .error .usage
      | .absent, _ => .error .usage
    else
      match flag rules r given rest.head? with
      | .ok v => consume rules spare (v :: vs) rest
      | .error e => .error e
  | _, vs, _ :: rest => consume rules true vs rest

def parse (rules : List OptionRule) (args : List String) : Except Failure Values :=
  let arguments := classifyAll rules args
  if arguments.any fun a => match a with | .unclear => true | _ => false then .error .usage
  else do
    let vs ← consume rules false [] arguments
    if rules.all fun r => !r.required || (vs.lookup r.name).isSome then return vs
    else .error .usage

end Options

end MaskedTaint
