import MaskedTaint.Search.Detect
import MaskedTaint.Sealing.Report

/-! Analyses: a structure is written, read again and searched, in clear or sealed. -/

namespace MaskedTaint

inductive AuditError
  | cipher (e : CipherError)
  | wire (e : WireError)
  | search (e : SearchError)
deriving DecidableEq, Repr

def AuditError.message : AuditError → String
  | cipher e => e.message
  | wire e => e.message
  | search e => e.message

namespace Audit

def ofCipher {α : Type} : Except CipherError α → Except AuditError α
  | .ok a => .ok a
  | .error e => .error (.cipher e)

def ofWire {α : Type} : Except WireError α → Except AuditError α
  | .ok a => .ok a
  | .error e => .error (.wire e)

def search (lex : Lexicon) (vulnerability : String) (d : Structure) :
    Except AuditError (List Path) :=
  match (Search.detectNamed lex Search.usualLimit vulnerability { flows := d }).1 with
  | .ok paths => .ok paths
  | .error e => .error (.search e)

def plainPaths (vulnerability written : String) : Except AuditError (List Path) := do
  let d ← ofWire (Structure.ofText written)
  search .plain vulnerability d

/-- The vulnerable paths in the file with a sealed structure, for whoever knows the labels and
can open whole texts. -/
def sealedPaths (label : String → String) (openText : String → Except CipherError String)
    (vulnerability file : String) : Except AuditError (List Path) := do
  let text ← ofCipher (openText file)
  let d ← ofWire (Structure.ofText text)
  search (.hiddenBy label) vulnerability d

def plainFindings (written : String) : Except AuditError (List (List Finding)) :=
  ofWire (Finding.pathsOfText written)

def sealedFindings (openText : String → Except CipherError String) (file : String) :
    Except AuditError (List (List Finding)) := do
  let text ← ofCipher (openText file)
  ofWire (Finding.pathsOfText text)

def openPaths (s : Suite) (paths : List (List Finding)) :
    Except AuditError (List (List Finding)) :=
  ofCipher (paths.mapM (Finding.openedAll s))

def sealing {α : Type} (x : Sealing α) (n : Nat) : Except AuditError (α × Nat) :=
  match x n with
  | (.ok a, n) => .ok (a, n)
  | (.error e, _) => .error (.cipher e)

def plain (written vulnerability : String) :
    Except AuditError (List Path × List (List Finding)) := do
  let paths ← plainPaths vulnerability written
  let findings ← plainFindings (Token.pathsText paths)
  return (paths, findings)

/-- The findings in the file with a sealed structure, reported and opened. -/
def hidden (nonces : Nat → Bytes) (s : Suite) (file vulnerability : String) (n : Nat) :
    Except AuditError (List (List Finding)) := do
  let paths ← sealedPaths s.label s.openText vulnerability file
  let (report, _) ← sealing (Sealing.reportFile nonces s.sealText paths) n
  let findings ← sealedFindings s.openText report
  openPaths s findings

end Audit

end MaskedTaint
