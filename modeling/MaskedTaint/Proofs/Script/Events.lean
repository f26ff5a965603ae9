import MaskedTaint.Proofs.Masking.Names
import MaskedTaint.Proofs.Script.Syntax

/-! What a script lets flow, in source order: each operand is recorded under the variable that
it is assigned to, or among the outputs. Control structures are numbered depth by depth. -/

namespace MaskedTaint

/-- Where the tokens of a block count, and the control structures met so far: in the block
itself, and in the blocks inside. -/
structure Level where
  depth : Int := 0
  order : Int := 0
  flow : Int := 0
  counter : Int := 0
  deeper : List Int := []

namespace Level

def next (l : Level) : Level := { l with counter := l.counter + 1 }

def enter (l : Level) (flow : Int) : Level :=
  ⟨l.depth + 1, l.counter, flow, l.deeper.head?.getD 0, l.deeper.tail⟩

def leave (l inner : Level) : Level := { l with deeper := inner.counter :: inner.deeper }

def mark (l : Level) (file : String) (place : Position) (kind : String) : Mark :=
  ⟨kind, .number place.line, place.pos, l.depth, l.order, l.flow, .number 0, file, file⟩

end Level

abbrev Event := String × Token

namespace Script

def size : Script → Nat
  | done => 0
  | assign _ _ _ rest => rest.size + 1
  | echo _ _ rest => rest.size + 1
  | branch _ yes no rest => yes.size + no.size + rest.size

def level : Script → Level → Level
  | done, l => l
  | assign _ _ _ rest, l => rest.level l
  | echo _ _ rest, l => rest.level l
  | branch _ yes no rest, l =>
    let l₁ := l.next.leave (yes.level (l.next.enter 1))
    let l₂ := l₁.leave (no.level (l₁.enter (-1)))
    rest.level l₂

variable (kindOf : Variable → String) (file : String)

def operandKind : Operand → String
  | .copy v => kindOf v
  | .literal => Kind.constantText.name
  | .input => Special.input.name

def events : Script → Level → Nat → List Event
  | done, _, _ => []
  | assign target value place rest, l, n =>
    (kindOf target, .site n (l.mark file place (operandKind kindOf value))) ::
      rest.events l (n + 1)
  | echo source place rest, l, n =>
    ((Special.sink .xss).name, .site n (l.mark file place (kindOf source))) ::
      rest.events l (n + 1)
  | branch _ yes no rest, l, n =>
    let l₁ := l.next.leave (yes.level (l.next.enter 1))
    let l₂ := l₁.leave (no.level (l₁.enter (-1)))
    yes.events (l.next.enter 1) n ++ (no.events (l₁.enter (-1)) (n + yes.size) ++
      rest.events l₂ (n + yes.size + no.size))

def recorded (d : Structure) (es : List Event) : Structure :=
  es.foldl (fun d e => d.append file e.1 [e.2]) d

/-! ### Names -/

def operandNames (ns : Names) : Operand → Names
  | .copy v => (ns.number v.name).2
  | .literal | .input => ns

def names : Script → Names → Names
  | done, ns => ns
  | assign target value _ rest, ns => rest.names (operandNames (ns.number target.name).2 value)
  | echo source _ rest, ns => rest.names (ns.number source.name).2
  | branch c yes no rest, ns => rest.names (no.names (yes.names (ns.number c.name).2))

end Script

end MaskedTaint
