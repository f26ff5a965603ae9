import MaskedTaint.Flow.Structure
import MaskedTaint.Masking.Progress

/-! The recorder: reads the symbols of a file one by one and records which tokens
flow where. What it is in the middle of stands on two stacks: the open blocks, and
in the innermost block the tasks, since an argument may be a call with arguments of
its own. Each symbol, and each time the end is met, goes to the innermost task. -/

namespace MaskedTaint

inductive RecordError
  | mask (e : MaskError)
  /-- The text ends inside a joined text. -/
  | openText
  /-- The text ends before the name of a function. -/
  | openDeclaration
  /-- The text ends inside the arguments of a call. -/
  | openCall
deriving DecidableEq, Repr

def RecordError.message : RecordError → String
  | mask e => e.message
  | openText => "'NoneType' object has no attribute 'split'"
  | openDeclaration => "'NoneType' object has no attribute 'token_type'"
  | openCall => "'NoneType' object has no attribute 'line_num'"

/-- How the operands of a statement are taken. -/
inductive Manner
  | value
  /-- Behind a joining dot or a quote; all operands get the same split mark. -/
  | joined (split : Int)
  | printed
deriving DecidableEq, Repr

inductive Task
  /-- Takes the operands of an assignment, a result or an output. While the key has no
  list yet, they wait until the statement ends. -/
  | collect (key : String) (manner : Manner) (waiting : List Token)
  | arguments (callee : Nat) (args : List Token)
  | query (waiting : List Token)
  | skip (stop : Symbol)
  /-- Passes over the rest of a statement. -/
  | drain
  | declaration
  | parameters (scope : String)
  | imports

/-- An open block: the file, a function, or a control structure. -/
structure Block where
  scope : String
  nested : Bool := false
  depth : Int := 0
  order : Int := 0
  flow : Int := 0
  /-- Control structures met so far. -/
  counter : Int := 0
  /-- The counters of the blocks inside, for when one of them is entered again. -/
  deeper : List Int := []
  /-- Branches of the current control structure. -/
  branches : Int := 0
  last : Option Symbol := none
  tasks : List Task := []

structure Recorder where
  file : String
  flows : Structure
  /-- The functions met in the file, with their parameters. -/
  functions : Table (List Token) := Table.empty
  /-- The number of the next token. -/
  fresh : Nat
  /-- Open blocks, the innermost first; none are open when the recorder has stopped. -/
  blocks : List Block := []
  /-- Control structures on the outermost level. -/
  counter : Int := 0

abbrev Recording := Act Recorder RecordError

namespace Symbol

def isOperand : Symbol → Bool
  | plain .encapsedText | plain .constantText | plain .integer | plain .decimal
  | plain .input => true
  | s => s.isVariable

def endsBlock (s : Symbol) : Bool := s == endBlock || s == endFunction

end Symbol

namespace Recorder

def openScope (r : Recorder) (scope : String) : Recorder :=
  let params := (r.functions.get? scope).getD []
  let known := (r.flows.tokens? scope Special.params.name).getD []
  let known := params.foldl (fun ts t => if t.isIn ts then ts else ts ++ [t]) known
  { r with
    functions := r.functions.put scope params
    flows := r.flows.putTokens scope Special.params.name known }

def markOf (r : Recorder) (b : Block) (t : Masked) (kind : String) : Mark :=
  ⟨kind, .number t.line, t.pos, b.depth, b.order, b.flow, .number 0, b.scope, r.file⟩

def site (r : Recorder) (b : Block) (t : Masked) : Token × Recorder :=
  (.site r.fresh (r.markOf b t t.symbol.name), { r with fresh := r.fresh + 1 })

def jump (r : Recorder) (b : Block) (t : Masked) (kind target : String) (args : List Token) :
    Token × Recorder :=
  (.jump r.fresh (r.markOf b t kind) target args, { r with fresh := r.fresh + 1 })

def record (r : Recorder) (b : Block) (key : String) (t : Token) : Recorder :=
  { r with flows := r.flows.append b.scope key [t] }

/-- Leaves a block; a control structure hands its counters to the block around it. -/
def leave (r : Recorder) (b : Block) : List Block → Recorder
  | [] => { r with blocks := [], counter := b.counter }
  | outer :: rest =>
    { r with
      blocks :=
        (if b.nested then { outer with deeper := b.counter :: b.deeper } else outer) :: rest }

def finish (r : Recorder) (b : Block) (outer : List Block) (last : Option Symbol) : Recorder :=
  let b := { b with tasks := [], last := last }
  if (last.map Symbol.endsBlock).getD false then r.leave b outer
  else { r with blocks := b :: outer }

def proceed (r : Recorder) (b : Block) (outer : List Block) (tasks : List Task) : Recorder :=
  { r with blocks := { b with tasks := tasks } :: outer }

def enter (r : Recorder) (b : Block) (outer : List Block) (t : Masked) (flow : Int) : Recorder :=
  let inner : Block :=
    { scope := b.scope, nested := true, depth := b.depth + 1, order := b.counter, flow := flow
      counter := b.deeper.head?.getD 0, deeper := b.deeper.tail, last := b.last }
  { r with blocks := inner :: { b with last := some t.symbol } :: outer }

def enterFunction (r : Recorder) (b : Block) (outer : List Block) (last : Option Symbol)
    (scope : String) : Recorder :=
  let r := r.openScope scope
  { r with
    blocks := { scope := scope, depth := b.depth } :: { b with tasks := [], last := last } :: outer }

def start (r : Recorder) (b : Block) (outer : List Block) (t : Masked) : Recorder :=
  match t.symbol with
  | .op 0 =>
    match b.last with
    | some target =>
      if target.isVariable then r.proceed b outer [.collect target.name .value []]
      else r.finish b outer t.symbol
    | none => r.finish b outer t.symbol
  | .plain .ifWord => r.enter { b with counter := b.counter + 1, branches := 1 } outer t 1
  | .plain .elseWord => r.enter b outer t (-1)
  | .plain .elseIfWord | .plain .caseWord =>
    r.enter { b with branches := b.branches + 1 } outer t (b.branches + 1)
  | .plain .whileWord | .plain .forWord | .plain .forEachWord | .plain .switchWord
  | .plain .doWord => r.enter { b with counter := b.counter + 1 } outer t 1
  | .plain .functionWord => r.proceed b outer [.declaration]
  | .call n => r.proceed b outer [.arguments n []]
  | .plain .returnWord => r.proceed b outer [.collect Special.result.name .value []]
  | .plain .importWord => r.proceed b outer [.imports]
  | .plain (.sink .xss) => r.proceed b outer [.collect (Special.sink .xss).name .printed []]
  | .plain (.sink .sqli) => r.proceed b outer [.query []]
  | _ => r.finish b outer t.symbol

/-- Adds a token to the list of a key, if there is one, or else to those waiting. -/
def gather (r : Recorder) (b : Block) (key : String) (waiting : List Token) (t : Token) :
    List Token × Recorder :=
  if (r.flows.tokens? b.scope key).isSome then (waiting, r.record b key t)
  else (waiting ++ [t], r)

def store (r : Recorder) (b : Block) (key : String) (waiting : List Token) : Recorder :=
  if (r.flows.tokens? b.scope key).isSome then r
  else { r with flows := r.flows.putTokens b.scope key waiting }

def storeSome (r : Recorder) (b : Block) (key : String) (waiting : List Token) : Recorder :=
  if waiting.isEmpty then r else r.store b key waiting

def lastOperand (r : Recorder) (b : Block) (key : String) (waiting : List Token) : Option Token :=
  ((r.flows.tokens? b.scope key).getD waiting).getLast?

def takeOperand (r : Recorder) (b : Block) (t : Masked) (key : String) (manner : Manner)
    (waiting : List Token) : List Token × Recorder :=
  let (token, r) := r.site b t
  let token := match manner with
    | .joined split => token.setSplit (.number split)
    | _ => token
  r.gather b key waiting token

def collect (r : Recorder) (b : Block) (outer : List Block) (t : Masked) (place : Int)
    (key : String) (manner : Manner) (waiting : List Token) : Recorder :=
  if t.symbol.endsStatement then (r.storeSome b key waiting).finish b outer t.symbol
  else if t.symbol.isOperand then
    let (waiting, r) := r.takeOperand b t key manner waiting
    r.proceed b outer [.collect key manner waiting]
  else if t.symbol.isSanitizer then
    let (waiting, r) := r.takeOperand b t key manner waiting
    r.proceed b outer [.skip (.plain .rightParen), .collect key manner waiting]
  else
    match t.symbol, manner with
    | .call n, _ => r.proceed b outer [.arguments n [], .collect key manner waiting]
    | .plain .concat, .value =>
      match r.lastOperand b key waiting with
      | none => r.proceed b outer [.drain]
      | some token =>
        let split : Label := .number place
        let waiting := waiting.map fun t => if t.id = token.id then t.setSplit split else t
        let r := { r with flows := r.flows.setSplit b.scope token.id split }
        r.proceed b outer [.collect key (.joined place) waiting]
    | .plain .quote, .value => r.proceed b outer [.collect key (.joined place) waiting]
    | .plain (.sink .sqli), .value =>
      let (waiting, r) := r.takeOperand b t key manner waiting
      r.proceed b outer [.query [], .collect key manner waiting]
    | _, _ => r.proceed b outer [.collect key manner waiting]

def takeArgument (r : Recorder) (b : Block) (outer : List Block) (t : Masked) (callee : Nat)
    (args : List Token) (tasks : List Task) : Recorder :=
  if t.symbol.isOperand || t.symbol == .plain .word then
    let (token, r) := r.site b t
    r.proceed b outer (.arguments callee (args ++ [token]) :: tasks)
  else if t.symbol.isSanitizer then
    let (token, r) := r.site b t
    r.proceed b outer (.skip (.plain .rightParen) :: .arguments callee (args ++ [token]) :: tasks)
  else
    match t.symbol with
    | .call n => r.proceed b outer (.arguments n [] :: .arguments callee args :: tasks)
    | .plain (.sink .sqli) =>
      let (token, r) := r.site b t
      r.proceed b outer (.query [] :: .arguments callee (args ++ [token]) :: tasks)
    | _ => r.proceed b outer (.arguments callee args :: tasks)

def endCall (r : Recorder) (b : Block) (outer : List Block) (t : Masked) (callee : Nat)
    (args : List Token) (tasks : List Task) : Recorder :=
  let (token, r) := r.jump b t Special.call.name (Symbol.funcName callee) args
  match tasks with
  | .collect key manner waiting :: tasks =>
    let (waiting, r) := r.gather b key waiting token
    (r.record b Special.call.name token).proceed b outer (.collect key manner waiting :: tasks)
  | .arguments callee args :: tasks =>
    (r.record b Special.call.name token).proceed b outer
      (.arguments callee (args ++ [token]) :: tasks)
  | _ => (r.record b Special.call.name token).finish b outer t.symbol

def endQuery (r : Recorder) (b : Block) (outer : List Block) (last : Option Symbol)
    (waiting : List Token) (tasks : List Task) : Recorder :=
  let r := r.store b (Special.sink .sqli).name waiting
  match tasks with
  | [] => r.finish b outer last
  | tasks => r.proceed b outer tasks

def query (r : Recorder) (b : Block) (outer : List Block) (t : Masked) (waiting : List Token)
    (tasks : List Task) : Recorder :=
  match t.symbol with
  | .plain .rightParen => r.endQuery b outer t.symbol waiting tasks
  | .plain (.sanitizer .sqli) =>
    r.proceed b outer (.skip (.plain .rightParen) :: .query waiting :: tasks)
  | .call _ => r.proceed b outer (.skip .endParens :: .query waiting :: tasks)
  | _ =>
    let (token, r) := r.site b t
    let (waiting, r) := r.gather b (Special.sink .sqli).name waiting token
    r.proceed b outer (.query waiting :: tasks)

def takeParameter (r : Recorder) (b : Block) (outer : List Block) (t : Masked)
    (scope : String) : Recorder :=
  if t.symbol == .endParens then r.enterFunction b outer t.symbol scope
  else if t.symbol.isVariable then
    let (token, r) := r.site { b with scope := scope } t
    let params := (r.functions.get? scope).getD []
    ({ r with functions := r.functions.put scope (params ++ [token]) }).proceed b outer
      [.parameters scope]
  else r.proceed b outer [.parameters scope]

def takeImport (r : Recorder) (b : Block) (outer : List Block) (t : Masked) : Recorder :=
  match t.symbol with
  | .plain .semicolon => r.finish b outer (some (.plain .importWord))
  | .plain .constantText | .plain .encapsedText =>
    let (token, r) := r.jump b t Kind.importWord.name t.text []
    (r.record b Special.imports.name token).proceed b outer [.imports]
  | _ => r.proceed b outer [.imports]

def take (r : Recorder) (t : Masked) (place : Int) : Recorder :=
  match r.blocks with
  | [] => r
  | b :: outer =>
    match b.tasks with
    | [] => r.start b outer t
    | .collect key manner waiting :: _ => r.collect b outer t place key manner waiting
    | .arguments callee args :: tasks =>
      if t.symbol == .endParens then r.endCall b outer t callee args tasks
      else r.takeArgument b outer t callee args tasks
    | .query waiting :: tasks => r.query b outer t waiting tasks
    | .skip stop :: tasks =>
      if t.symbol == stop then r.proceed b outer tasks else r
    | .drain :: _ => if t.symbol.endsStatement then r.finish b outer t.symbol else r
    | .declaration :: _ =>
      let scope := t.symbol.name
      ({ r with functions := r.functions.put scope [] }).proceed b outer [.parameters scope]
    | .parameters scope :: _ => r.takeParameter b outer t scope
    | .imports :: _ => r.takeImport b outer t

/-- Meets the end of the text. Each time only the innermost task or block ends. -/
def takeEnd : Recording Unit := do
  let r ← Act.state
  match r.blocks with
  | [] => return ()
  | b :: outer =>
    match b.tasks with
    | [] => Act.update fun _ => r.leave b outer
    | .collect key manner waiting :: _ =>
      match manner with
      | .joined _ => Act.fail .openText
      | _ => Act.update fun _ => (r.storeSome b key waiting).finish b outer none
    | .arguments _ _ :: tasks =>
      -- A call that is a statement of its own has its list opened first.
      if tasks.isEmpty then
        Act.update fun _ => { r with flows := r.flows.append b.scope Special.call.name [] }
      Act.fail .openCall
    | .query waiting :: tasks => Act.update fun _ => r.endQuery b outer none waiting tasks
    | .skip _ :: tasks => Act.update fun _ => r.proceed b outer tasks
    | .drain :: _ => Act.update fun _ => r.finish b outer none
    | .declaration :: _ => Act.fail .openDeclaration
    | .parameters scope :: _ => Act.update fun _ => r.enterFunction b outer none scope
    | .imports :: _ => Act.update fun _ => r.finish b outer (some (.plain .importWord))

def patience (r : Recorder) : Nat := r.blocks.length + 2 * (r.blocks.flatMap (·.tasks)).length

end Recorder

/-- What came of a file: the recorder and the masker, and a failure if there was one. -/
structure Recorded where
  recorder : Recorder
  masker : Masker
  failure : Option RecordError

namespace Recorder

def close (r : Recorder) (m : Masker) : Nat → Recorded
  | 0 => ⟨r, m, none⟩
  | patience + 1 =>
    match takeEnd r with
    | (.error e, r) => ⟨r, m, some e⟩
    | (.ok _, r) => if r.blocks.isEmpty then ⟨r, m, none⟩ else close r (Masker.token m).2 patience

def takeAll (r : Recorder) (m : Masker) (failure : Option MaskError) (last : Masker) :
    List (Masked × Masker) → Recorded
  | [] =>
    if r.blocks.isEmpty then ⟨r, m, none⟩
    else
      match failure with
      | some e => ⟨r, last, some (.mask e)⟩
      | none => r.close last r.patience
  | (t, m') :: later =>
    if r.blocks.isEmpty then ⟨r, m, none⟩
    else (r.take t m'.lexer.pos).takeAll m' failure last later

end Recorder

/-- A project under way: one masker, and one structure for all its files. -/
structure Project where
  masker : Masker := {}
  flows : Structure := Table.empty
  fresh : Nat := 0

namespace Project

def recordFile (p : Project) (name : String) (code : List Char) : Recorded :=
  let reading := (p.masker.loadFile code).readAll
  let r : Recorder := { file := name, flows := p.flows, fresh := p.fresh }
  let r := { r.openScope name with blocks := [{ scope := name }] }
  r.takeAll (p.masker.loadFile code) reading.failure reading.last reading.symbols

def after (r : Recorded) : Project :=
  ⟨r.masker, r.recorder.flows, r.recorder.fresh⟩

end Project

end MaskedTaint
