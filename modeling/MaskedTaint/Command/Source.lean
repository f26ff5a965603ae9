import MaskedTaint.Command.Disk
import MaskedTaint.Flow.Recorder

/-! The PHP files of a project: where they are found and how they are recorded. -/

namespace MaskedTaint

namespace Project

def recordAll : Project → List (String × List Char) → Except RecordError Project
  | p, [] => .ok p
  | p, (name, code) :: files =>
    let r := p.recordFile name code
    match r.failure with
    | some e => .error e
    | none => recordAll (after r) files

end Project

namespace Disk

variable {m : Type → Type} [Monad m] [Disk m]

def isSource (name : String) : Bool := name.endsWith ".php"

/-- The PHP files below a directory: its own, then those of the directories in it. Below
the given depth nothing is looked for. -/
def sources : Nat → String → m (List String)
  | 0, _ => return []
  | depth + 1, directory => do
    let inside ← children directory
    let files := inside.filter fun e => e.2 == .file && isSource e.1
    let directories := inside.filter fun e => e.2 == .directory
    let below ← directories.mapM fun e => sources depth (join directory e.1)
    return files.map (fun e => join directory e.1) ++ below.flatten

def deepest : Nat := 4096

def readSources : List String → m (Except DiskError (List (String × List Char)))
  | [] => return .ok []
  | path :: paths => do
    match ← read path with
    | .error e => return .error e
    | .ok bytes =>
      let rest ← readSources paths
      return rest.map fun files => (path, byteText bytes) :: files

end Disk

end MaskedTaint
