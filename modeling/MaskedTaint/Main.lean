import MaskedTaint.Cipher.Sha256
import MaskedTaint.Command.Request

/-! The command line: the commands on the files of the computer. -/

namespace MaskedTaint

def entryOnDisk (path : String) : IO (Option Entry) := do
  if path.isEmpty then return none
  let place := (← IO.currentDir) / path
  if !(← place.pathExists) then return none
  return some (if ← place.isDir then .directory else .file)

def childrenOnDisk (path : String) : IO (List (String × Entry)) := do
  let place := (← IO.currentDir) / path
  if !(← place.isDir) then return []
  let entries ← place.readDir
  let named ← entries.toList.mapM fun e => do
    return (e.fileName, if ← e.path.isDir then Entry.directory else .file)
  return named.mergeSort FileTree.isBefore

def causeOnDisk (path : String) (e : IO.Error) : IO DiskError := do
  if (← entryOnDisk path) == some .directory then return .isADirectory path
  match e with
  | .noFileOrDirectory .. => return .noEntry path
  | _ => return .notADirectory path

def randomNonces : IO (Nat → Bytes) := do
  let drawn := (← IO.getRandomBytes 32).toList
  return fun n => (Sha256.digest (drawn ++ Bytes.ofNat 8 n)).take 16

instance : Disk IO where
  entry? := entryOnDisk
  children := childrenOnDisk
  read path := do
    try return .ok (← IO.FS.readBinFile path).toList
    catch e => return .error (← causeOnDisk path e)
  write path text := do
    try
      IO.FS.writeFile path text
      return .ok ()
    catch e => return .error (← causeOnDisk path e)
  remove path := IO.FS.removeFile path
  print text := IO.println text
  nonces := randomNonces

end MaskedTaint

def main (args : List String) : IO UInt32 := do
  match args with
  | [] =>
    IO.eprintln "usage: (client | auditor | decrypt | all) [options]"
    return 2
  | command :: rest =>
    match MaskedTaint.CommandName.ofText? command with
    | some name => return (← (MaskedTaint.Command.run name rest : IO Nat)).toUInt32
    | none =>
      IO.eprintln ("unknown command " ++ command)
      return 2
