import MaskedTaint.Cipher.Bytes
import MaskedTaint.Text.Quoted

/-! What commands need of their surroundings: files, a place to print to, and nonces.
The commands are written against this interface; a file tree in memory is one
instance. -/

namespace MaskedTaint

inductive Entry
  | file
  | directory
deriving DecidableEq, Repr

inductive DiskError
  | noEntry (path : String)
  | notADirectory (path : String)
  | isADirectory (path : String)
deriving DecidableEq, Repr

def DiskError.message : DiskError → String
  | noEntry path => "[Errno 2] No such file or directory: " ++ Quoted.render path
  | notADirectory path => "[Errno 20] Not a directory: " ++ Quoted.render path
  | isADirectory path => "[Errno 21] Is a directory: " ++ Quoted.render path

class Disk (m : Type → Type) where
  entry? : String → m (Option Entry)
  /-- What is in a directory, sorted by name. -/
  children : String → m (List (String × Entry))
  read : String → m (Except DiskError Bytes)
  write : String → String → m (Except DiskError Unit)
  remove : String → m Unit
  print : String → m Unit
  nonces : m (Nat → Bytes)

namespace Disk

def join (directory name : String) : String :=
  if name.startsWith "/" then name
  else if directory.isEmpty || directory.endsWith "/" then directory ++ name
  else directory ++ "/" ++ name

def plainLines : List Char → List Char
  | '\r' :: '\n' :: cs => '\n' :: plainLines cs
  | '\r' :: cs => '\n' :: plainLines cs
  | c :: cs => c :: plainLines cs
  | [] => []

def byteText (bs : Bytes) : List Char := plainLines (bs.map fun b => Char.ofNat b.toNat)

end Disk

/-! ### Files in memory -/

abbrev Place := List String

/-- Files have contents, directories have none. The root is always there. -/
structure FileTree where
  entries : List (Place × Option Bytes) := []

namespace FileTree

def entryAt? (t : FileTree) (p : Place) : Option Entry :=
  if p.isEmpty then some .directory
  else
    match t.entries.find? fun e => e.1 == p with
    | some (_, some _) => some .file
    | some (_, none) => some .directory
    | none => none

def contents? (t : FileTree) (p : Place) : Option Bytes :=
  (t.entries.find? fun e => e.1 == p).bind Prod.snd

def put (t : FileTree) (p : Place) (c : Option Bytes) : FileTree :=
  ⟨(t.entries.filter fun e => e.1 != p) ++ [(p, c)]⟩

def erase (t : FileTree) (p : Place) : FileTree := ⟨t.entries.filter fun e => e.1 != p⟩

def makeDirectory (t : FileTree) (p : Place) : FileTree :=
  (List.range p.length).foldl (fun t i =>
    let above := p.take (i + 1)
    if (t.entryAt? above).isSome then t else t.put above none) t

def makeFile (t : FileTree) (p : Place) (c : Bytes) : FileTree :=
  (t.makeDirectory p.dropLast).put p (some c)

inductive Step
  | found (p : Place)
  | missing
  | blocked

/-- Follows the parts of a path; every part but the last must be a directory. -/
def follow (t : FileTree) : Place → List String → Step
  | p, [] => .found p
  | p, part :: parts =>
    match t.entryAt? p with
    | some .directory =>
      if part.isEmpty || part == "." then follow t p parts
      else if part == ".." then
        if p.isEmpty then .missing else follow t p.dropLast parts
      else follow t (p ++ [part]) parts
    | some .file => .blocked
    | none => .missing

def parts (path : String) : List String := (path.toList.splitOn '/').map String.ofList

def place (t : FileTree) (path : String) : Step :=
  if path.isEmpty || path.startsWith "/" then .missing else t.follow [] (parts path)

def entry? (t : FileTree) (path : String) : Option Entry :=
  match t.place path with
  | .found p => t.entryAt? p
  | _ => none

def isBefore (a b : String × Entry) : Bool := a.1 ≤ b.1

def children (t : FileTree) (path : String) : List (String × Entry) :=
  match t.place path with
  | .found p =>
    let inside := t.entries.filterMap fun (q, c) =>
      match q.getLast? with
      | some name =>
        if q.dropLast == p then some (name, if c.isSome then Entry.file else .directory) else none
      | none => none
    inside.mergeSort isBefore
  | _ => []

def read (t : FileTree) (path : String) : Except DiskError Bytes :=
  match t.place path with
  | .found p =>
    match t.entryAt? p with
    | some .directory => .error (.isADirectory path)
    | some .file => .ok ((t.contents? p).getD [])
    | none => .error (.noEntry path)
  | .blocked => .error (.notADirectory path)
  | .missing => .error (.noEntry path)

def write (t : FileTree) (path text : String) : Except DiskError FileTree :=
  match t.place path with
  | .found p =>
    match t.entryAt? p, t.entryAt? p.dropLast with
    | some .directory, _ => .error (.isADirectory path)
    | _, some .directory => .ok (t.put p (some (Bytes.ofText text)))
    | _, some .file => .error (.notADirectory path)
    | _, none => .error (.noEntry path)
  | .blocked => .error (.notADirectory path)
  | .missing => .error (.noEntry path)

def remove (t : FileTree) (path : String) : FileTree :=
  match t.place path with
  | .found p => t.erase p
  | _ => t

def files (t : FileTree) : List String :=
  (t.entries.filterMap fun (p, c) => if c.isSome then some ("/".intercalate p) else none).mergeSort
    fun a b => a ≤ b

end FileTree

/-- A file tree, the text printed so far, and the nonces used up. -/
structure Desk where
  tree : FileTree := {}
  printed : String := ""
  used : Nat := 0

/-- Nonces are counted, so that no two are alike; runs are kept apart by a wide margin. -/
def Desk.nonces (used n : Nat) : Bytes := Bytes.ofNat 16 ((used <<< 32) + n + 1)

instance : Disk (StateM Desk) where
  entry? path := do return (← get).tree.entry? path
  children path := do return (← get).tree.children path
  read path := do return (← get).tree.read path
  write path text := do
    match (← get).tree.write path text with
    | .ok tree =>
      modify fun d => { d with tree := tree }
      return .ok ()
    | .error e => return .error e
  remove path := modify fun d => { d with tree := d.tree.remove path }
  print text := modify fun d => { d with printed := d.printed ++ text ++ "\n" }
  nonces := do
    let d ← get
    set { d with used := d.used + 1 }
    return Desk.nonces d.used

end MaskedTaint
