import MaskedTaint.Flow.Table
import MaskedTaint.Lexeme.Kind
import MaskedTaint.Flow.Token

/-! The structure of a project: for every scope, under the name of a variable or
of a special place, the tokens whose data flows there, in source order. -/

namespace MaskedTaint

/-- The special places of a scope and the special kinds of tokens. -/
inductive Special
  | input
  | sink (v : Vulnerability)
  | sanitizer (v : Vulnerability)
  | call
  | result
  | params
  | imports
deriving DecidableEq, Repr

namespace Special

def name : Special → String
  | input => "INPUT"
  | sink v => v.name ++ "_SENS"
  | sanitizer v => v.name ++ "_SANF"
  | call => "FUNC_CALL"
  | result => "RETURN"
  | params => "ARGS"
  | imports => "IMPORTS"

def all : List Special :=
  [input, sink .xss, sanitizer .xss, sink .sqli, sanitizer .sqli, call, result, params, imports]

def isName (name : String) : Bool := all.any fun s => s.name == name

end Special

abbrev Scope := Table (List Token)

abbrev Structure := Table Scope

namespace Structure

def tokens? (d : Structure) (scope key : String) : Option (List Token) :=
  (d.get? scope).bind fun s => s.get? key

def putTokens (d : Structure) (scope key : String) (ts : List Token) : Structure :=
  d.put scope (((d.get? scope).getD Table.empty).put key ts)

theorem tokens?_putTokens_self (d : Structure) (scope key : String) (ts : List Token) :
    (d.putTokens scope key ts).tokens? scope key = some ts := by
  simp [tokens?, putTokens, Table.get?_put_self]

theorem tokens?_putTokens_of_ne (d : Structure) {scope key scope' key' : String} (ts : List Token)
    (h : ¬ (scope' = scope ∧ key' = key)) :
    (d.putTokens scope key ts).tokens? scope' key' = d.tokens? scope' key' := by
  unfold tokens? putTokens
  by_cases hs : scope' = scope
  · have hk : key' ≠ key := fun hk => h ⟨hs, hk⟩
    rw [hs, Table.get?_put_self, Option.bind_some, Table.get?_put_of_ne _ _ hk]
    cases d.get? scope <;> rfl
  · rw [Table.get?_put_of_ne _ _ hs]

def append (d : Structure) (scope key : String) (ts : List Token) : Structure :=
  d.putTokens scope key (((d.tokens? scope key).getD []) ++ ts)

def rekeyed (key : String → String) (d : Structure) : Structure :=
  Table.ofEntries (d.entries.map fun (name, s) =>
    (key name, Table.ofEntries (s.entries.map fun (name, ts) => (key name, ts))))

/-- Gives the occurrence with this number a new split mark, wherever it stands in the scope. -/
def setSplit (d : Structure) (scope : String) (id : Nat) (split : Label) : Structure :=
  match d.get? scope with
  | none => d
  | some s =>
    d.put scope (s.mapValues fun ts => ts.map fun t => if t.id = id then t.setSplit split else t)

end Structure

end MaskedTaint
