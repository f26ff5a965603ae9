import MaskedTaint.Audit.Analysis
import MaskedTaint.Command.Source

/-! The commands. The owner of a project hands it over sealed, an auditor searches it
and reports, and the owner opens the report. One command does all three in a row. -/

namespace MaskedTaint

inductive CommandError
  | record (e : RecordError)
  | audit (e : AuditError)
  | disk (e : DiskError)
deriving Repr

namespace CommandError

def message : CommandError → String
  | record e => e.message
  | audit (.wire (.missing field)) => Quoted.render field
  | audit (.search (.missing _ key)) => Quoted.render key
  | audit e => e.message
  | disk e => e.message

def isDoubtful : CommandError → Bool
  | audit (.cipher (.number .notWhole)) => true
  | audit (.cipher (.number _)) => false
  | audit (.cipher _) => true
  | audit (.wire .malformed) => true
  | audit (.search .absent) => true
  | _ => false

def report (e : CommandError) : String :=
  if e.isDoubtful then "Wrong password or file is corrupted. Error: " ++ e.message
  else "Error: " ++ e.message

end CommandError

/-- How a command ended. -/
inductive Outcome
  | done (message : String)
  | failed (message : String)
  /-- The command was asked for something that it does not know. -/
  | refused (message : String)
deriving DecidableEq, Repr

namespace Command

variable {m : Type → Type} [Monad m] [Disk m]

abbrev Work (m : Type → Type) := ExceptT CommandError m

def onDisk {α : Type} (x : m (Except DiskError α)) : Work m α :=
  ExceptT.mk do return (← x).mapError .disk

def ofAudit {α : Type} (x : Except AuditError α) : Work m α :=
  ExceptT.mk (pure (x.mapError .audit))

def ofRecord {α : Type} (x : Except RecordError α) : Work m α :=
  ExceptT.mk (pure (x.mapError .record))

def readText (path : String) : Work m String := do
  let bytes ← onDisk (Disk.read path)
  ofAudit (Audit.ofCipher ((Utf8.decode bytes).mapError .utf8))

def isMissing (path : String) : m Bool := do return (← Disk.entry? path).isNone

def missing (path : String) : String := path ++ " does not exist"

def told (o : Outcome) : m Outcome := do
  match o with
  | .done s | .failed s =>
    Disk.print s
    return o
  | .refused _ => return o

def structureName : String := "client_side_output"

def reportName : String := "auditor_side_output"

def recordProject (directory : String) : Work m (Option Project) := do
  let paths ← (Disk.sources Disk.deepest directory : m (List String))
  let files ← onDisk (Disk.readSources paths)
  let p ← ofRecord (Project.recordAll {} files)
  return if paths.isEmpty then none else some p

def writeSealed (path : String) (file : (Nat → Bytes) → Sealing String) : Work m Unit := do
  let nonces ← (Disk.nonces : m (Nat → Bytes))
  let (text, _) ← ofAudit (Audit.sealing (file nonces) 0)
  onDisk (Disk.write path text)

def writeStructure (s : Suite) (output : String) (d : Structure) : Work m Unit :=
  writeSealed (output ++ "/" ++ structureName) fun nonces => Sealing.structureFile nonces s d

def writeReport (shared : Bytes) (output : String) (paths : List Path) : Work m Unit :=
  writeSealed (output ++ "/" ++ reportName) fun nonces =>
    Sealing.reportFile nonces (Cipher.sealWhole shared) paths

def handOver (secret shared project output : String) : m Outcome := do
  if ← isMissing project then return ← told (.failed (missing project))
  if ← isMissing output then return .failed (missing output)
  let keys := Keys.ofPasswords secret shared
  let work : Work m Bool := do
    match ← recordProject project with
    | none => return false
    | some p =>
      writeStructure keys output p.flows
      return true
  match ← work.run with
  | .error e => return .failed ("Error: " ++ e.message)
  | .ok false => told (.failed ("No PHP files found in " ++ project))
  | .ok true =>
    told (.done ("Client side completed successfully!\nOutput file were saved in: " ++ output ++
      "/" ++ structureName))

def isKnown (vulnerability : String) : Bool := ["XSS", "SQLI"].contains vulnerability

/-- Searches a sealed structure; `false` if the vulnerability is not known. -/
def auditFile (shared : Bytes) (file vulnerability output : String) : Work m Bool := do
  let sealed ← readText file
  let text ← ofAudit (Audit.ofCipher (Cipher.openText shared sealed))
  let value ← ofAudit (Audit.ofWire (Value.read .tokens text))
  if !isKnown vulnerability then return false
  let d ← ofAudit (Audit.ofWire (Structure.ofValue value))
  let paths ← ofAudit (Audit.search (.hidden shared) vulnerability d)
  writeReport shared output paths
  return true

def audit (shared file vulnerability output : String) : m Outcome := do
  if ← isMissing file then return ← told (.failed (missing file))
  if ← isMissing output then return .failed (missing output)
  let upper := String.ofList (upperCase vulnerability.toList)
  match ← (auditFile (Cipher.keyOf shared) file upper output).run with
  | .error e => told (.failed e.report)
  | .ok false =>
    return .refused "Invalid vulnerability type. Please choose between XSS and SQLI."
  | .ok true =>
    told (.done ("Auditor side completed successfully!\nOutput file were saved in: " ++ output ++
      "/" ++ reportName))

def pathLines (fs : List Finding) : String :=
  String.join (fs.zipIdx.map fun (f, i) => "\t" ++ toString i ++ ". " ++ f.text ++ "\n")

def reportText (paths : List (List Finding)) : String :=
  if paths.isEmpty then "No vulnerable paths detected."
  else
    "Decryption completed successfully!\nPrinting vulnerable paths.\n" ++
      "The first token in each path reach a vulnerable sink.\n\n" ++
      String.join (paths.zipIdx.map fun (fs, i) =>
        "\nVulnerable path " ++ toString (i + 1) ++ ":\n" ++ pathLines fs ++ "\n")

def openReport (secret shared file : String) : m Outcome := do
  if ← isMissing file then return ← told (.failed (missing file))
  let keys := Keys.ofPasswords secret shared
  let work : Work m String := do
    let sealed ← readText file
    let findings ← ofAudit (Audit.sealedFindings (Cipher.openText keys.shared) sealed)
    return reportText (← ofAudit (Audit.openPaths keys findings))
  match ← work.run with
  | .error e => told (.failed e.report)
  | .ok text => told (.done text)

/-! ### All in one -/

def printFindings (keys : Option Keys) : List Finding → Work m Unit
  | [] => return ()
  | f :: fs => do
    let f ← match keys with
      | some keys => ofAudit (Audit.ofCipher (f.opened keys))
      | none => pure f
    (Disk.print ("\t" ++ f.text) : m Unit)
    printFindings keys fs

def printPaths (keys : Option Keys) : Nat → List (List Finding) → Work m Unit
  | _, [] => return ()
  | n, fs :: paths => do
    (Disk.print ("\nVulnerable path " ++ toString n ++ ":") : m Unit)
    printFindings keys fs
    printPaths keys (n + 1) paths

/-- Seals, searches and opens, or does all of that in clear if there are no keys. -/
def allSteps (keys : Option Keys) (project vulnerability : String) : Work m Unit := do
  let p := (← recordProject project).getD {}
  match keys with
  | some keys => writeStructure keys "." p.flows
  | none => onDisk (Disk.write ("./" ++ structureName) p.flows.toText)
  let written ← readText structureName
  match keys with
  | some keys =>
    let paths ← ofAudit
      (Audit.sealedPaths (Cipher.label keys.shared) (Cipher.openText keys.shared) vulnerability
        written)
    writeReport keys.shared "." paths
  | none =>
    let paths ← ofAudit (Audit.plainPaths vulnerability written)
    onDisk (Disk.write ("./" ++ reportName) (Token.pathsText paths))
  let report ← readText reportName
  let findings ← ofAudit (match keys with
    | some keys => Audit.sealedFindings (Cipher.openText keys.shared) report
    | none => Audit.plainFindings report)
  printPaths keys 1 findings

def allInOne (keys : Option Keys) (project vulnerability : String) : m Bool := do
  match ← (allSteps keys project vulnerability).run with
  | .error e =>
    Disk.print ("Error: " ++ e.message)
    return false
  | .ok _ =>
    Disk.print "All in one completed successfully!"
    Disk.print "Vulnerable paths were printed above if any."
    Disk.remove structureName
    Disk.remove reportName
    return true

end Command

end MaskedTaint
