import MaskedTaint.Flow.Structure
import MaskedTaint.Masking.Symbol
import MaskedTaint.Proofs.Lexeme.Reading

/-! Scripts: assignments, outputs and branches. A script knows the places of its operands; a
text that reads as the script puts them there. What runs of a script print is told by whether
it comes from the input, and which branches are taken is left open. -/

namespace MaskedTaint

def Masker.openTag (blank : Char) : List Char := ['<', '?', 'p', 'h', 'p', blank]

inductive Operand
  | copy (source : Variable)
  | literal
  | input

inductive Script
  | done
  | assign (target : Variable) (value : Operand) (place : Position) (rest : Script)
  | echo (source : Variable) (place : Position) (rest : Script)
  | branch (condition : Variable) (yes no rest : Script)

namespace Script

/-! ### Texts -/

inductive Spells : Operand → List Char → Prop
  | copy (v : Variable) : Spells (.copy v) v.text
  | literal {cs : List Char} (h : Lexes.QuotedText cs) : Spells .literal ('\'' :: cs ++ ['\''])
  | input {gap₁ gap₂ gap₃ key : List Char} (h₁ : Blank gap₁) (h₂ : Blank gap₂) (h₃ : Blank gap₃)
      (hkey : Lexes.QuotedText key) :
      Spells .input (['$', '_', 'G', 'E', 'T'] ++ (gap₁ ++ '[' :: (gap₂ ++
        ('\'' :: key ++ ['\''] ++ (gap₃ ++ [']'])))))

def opening (c : Variable) (gap₁ gap₂ gap₃ gap₄ : List Char) : List Char :=
  ['i', 'f'] ++ (gap₁ ++ '(' :: (gap₂ ++ (c.text ++ (gap₃ ++ ')' :: (gap₄ ++ ['{'])))))

/-- The text, which begins at `start`, reads as the script. -/
inductive Reads : Position → Script → List Char → Prop
  | done {start : Position} {gap : List Char} (h : Blank gap) : Reads start .done gap
  | assign {start place : Position} {target : Variable} {value : Operand} {rest : Script}
      {gap₁ gap₂ gap₃ gap₄ cs text : List Char} (h₁ : Blank gap₁) (h₂ : Blank gap₂)
      (h₃ : Blank gap₃) (h₄ : Blank gap₄) (hvalue : Spells value cs)
      (hplace : place = start.after (gap₁ ++ (target.text ++ (gap₂ ++ '=' :: gap₃))))
      (hrest : Reads (place.after (cs ++ (gap₄ ++ [';']))) rest text) :
      Reads start (.assign target value place rest)
        (gap₁ ++ (target.text ++ (gap₂ ++ '=' :: (gap₃ ++ (cs ++ (gap₄ ++ ';' :: text))))))
  | echo {start place : Position} {source : Variable} {rest : Script}
      {gap₁ gap₂ gap₃ text : List Char} (h₁ : Blank gap₁) (h₂ : Blank gap₂) (h₃ : Blank gap₃)
      (hplace : place = start.after (gap₁ ++ (['e', 'c', 'h', 'o'] ++ gap₂)))
      (hrest : Reads (place.after (source.text ++ (gap₃ ++ [';']))) rest text) :
      Reads start (.echo source place rest)
        (gap₁ ++ (['e', 'c', 'h', 'o'] ++ (gap₂ ++ (source.text ++ (gap₃ ++ ';' :: text)))))
  | branch {start : Position} {c : Variable} {yes rest : Script}
      {gap gap₁ gap₂ gap₃ gap₄ body text : List Char} (h : Blank gap) (h₁ : Blank gap₁)
      (h₂ : Blank gap₂) (h₃ : Blank gap₃) (h₄ : Blank gap₄)
      (hyes : Reads (start.after (gap ++ opening c gap₁ gap₂ gap₃ gap₄)) yes body)
      (hrest : Reads (start.after (gap ++ (opening c gap₁ gap₂ gap₃ gap₄ ++ (body ++ ['}'])))) rest
        text) :
      Reads start (.branch c yes .done rest)
        (gap ++ (opening c gap₁ gap₂ gap₃ gap₄ ++ (body ++ '}' :: text)))
  | branchElse {start : Position} {c : Variable} {yes no rest : Script}
      {gap gap₁ gap₂ gap₃ gap₄ body gap₅ gap₆ other text : List Char} (h : Blank gap)
      (h₁ : Blank gap₁) (h₂ : Blank gap₂) (h₃ : Blank gap₃) (h₄ : Blank gap₄) (h₅ : Blank gap₅)
      (h₆ : Blank gap₆)
      (hyes : Reads (start.after (gap ++ opening c gap₁ gap₂ gap₃ gap₄)) yes body)
      (hno : Reads (start.after (gap ++ (opening c gap₁ gap₂ gap₃ gap₄ ++ (body ++ '}' :: (gap₅ ++
        (['e', 'l', 's', 'e'] ++ (gap₆ ++ ['{']))))))) no other)
      (hrest : Reads (start.after (gap ++ (opening c gap₁ gap₂ gap₃ gap₄ ++ (body ++ '}' :: (gap₅ ++
        (['e', 'l', 's', 'e'] ++ (gap₆ ++ '{' :: (other ++ ['}'])))))))) rest text) :
      Reads start (.branch c yes no rest)
        (gap ++ (opening c gap₁ gap₂ gap₃ gap₄ ++ (body ++ '}' :: (gap₅ ++
          (['e', 'l', 's', 'e'] ++ (gap₆ ++ '{' :: (other ++ '}' :: text)))))))

/-! ### Runs -/

abbrev Env := String → Bool

def Env.assign (e : Env) (v : Variable) (tainted : Bool) : Env :=
  fun x => if x = v.name then tainted else e x

def tainted (e : Env) : Operand → Bool
  | .copy v => e v.name
  | .literal => false
  | .input => true

/-- A run from one environment to another. What it prints is given by the place of the operand
and by whether the value comes from the input. -/
inductive Run : Script → Env → List (Position × Bool) → Env → Prop
  | done {e : Env} : Run .done e [] e
  | assign {target : Variable} {value : Operand} {place : Position} {rest : Script} {e e' : Env}
      {out : List (Position × Bool)} (h : Run rest (e.assign target (tainted e value)) out e') :
      Run (.assign target value place rest) e out e'
  | echo {source : Variable} {place : Position} {rest : Script} {e e' : Env}
      {out : List (Position × Bool)} (h : Run rest e out e') :
      Run (.echo source place rest) e ((place, e source.name) :: out) e'
  | yes {c : Variable} {yes no rest : Script} {e₁ e₂ e₃ : Env} {out₁ out₂ : List (Position × Bool)}
      (hyes : Run yes e₁ out₁ e₂) (hrest : Run rest e₂ out₂ e₃) :
      Run (.branch c yes no rest) e₁ (out₁ ++ out₂) e₃
  | no {c : Variable} {yes no rest : Script} {e₁ e₂ e₃ : Env} {out₁ out₂ : List (Position × Bool)}
      (hno : Run no e₁ out₁ e₂) (hrest : Run rest e₂ out₂ e₃) :
      Run (.branch c yes no rest) e₁ (out₁ ++ out₂) e₃

/-- For some choice of the branches a value from the input is printed at the place. -/
def PrintsInput (s : Script) (place : Position) : Prop :=
  ∃ out e, Run s (fun _ => false) out e ∧ (place, true) ∈ out

end Script

end MaskedTaint
