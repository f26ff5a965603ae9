import MaskedTaint.Command.Commands
import MaskedTaint.Command.Options

/-! Commands as they are asked for on a command line, and the codes they end with. -/

namespace MaskedTaint

inductive CommandName
  | client
  | auditor
  | decrypt
  | all
deriving DecidableEq, Repr

namespace CommandName

def ofText? : String → Option CommandName
  | "client" => some client
  | "auditor" => some auditor
  | "decrypt" => some decrypt
  | "all" => some all
  | _ => none

def secretRule : OptionRule := { name := "secret", spellings := ["--secret_password", "-sep"] }

def sharedRule : OptionRule := { name := "shared", spellings := ["--shared_password", "-shp"] }

def projectRule : OptionRule :=
  { name := "project", spellings := ["--project_dir", "-p"], required := true }

def outputRule : OptionRule := { name := "output", spellings := ["--output_dir", "-o"] }

def fileRule : OptionRule := { name := "file", spellings := ["--file_path", "-f"] }

def vulnerabilityRule : OptionRule :=
  { name := "vulnerability", spellings := ["--vuln_type", "-v"], choices := ["xss", "sqli"],
    required := true }

def clearRule : OptionRule :=
  { name := "clear", spellings := ["--no-encryption", "-ne"], takesValue := false }

def rules : CommandName → List OptionRule
  | client =>
    [{ secretRule with required := true }, { sharedRule with required := true }, projectRule,
      outputRule]
  | auditor => [{ sharedRule with required := true }, fileRule, vulnerabilityRule, outputRule]
  | decrypt => [{ secretRule with required := true }, { sharedRule with required := true }, fileRule]
  | all => [projectRule, clearRule, vulnerabilityRule, secretRule, sharedRule]

end CommandName

namespace Command

variable {m : Type → Type} [Monad m] [Disk m]

def usageCode : Nat := 2

def keysOf? (values : Options.Values) : Option Keys :=
  let secret := (values.lookup "secret").getD ""
  let shared := (values.lookup "shared").getD ""
  if secret.isEmpty || shared.isEmpty then none else some (Keys.ofPasswords secret shared)

def runAll (values : Options.Values) : m Nat := do
  let project := (values.lookup "project").getD ""
  let vulnerability := (values.lookup "vulnerability").getD ""
  if ← isMissing project then
    Disk.print (missing project)
    return 1
  let inClear := (values.lookup "clear").isSome
  let keys := keysOf? values
  if !inClear && keys.isNone then return usageCode
  let upper := String.ofList (upperCase vulnerability.toList)
  let succeeded ← allInOne (if inClear then none else keys) project upper
  return if succeeded then 0 else 1

def perform (name : CommandName) (values : Options.Values) : m Nat := do
  let value (option default : String) := (values.lookup option).getD default
  match name with
  | .client =>
    let _ ← handOver (value "secret" "") (value "shared" "") (value "project" "")
      (value "output" ".")
    return 0
  | .auditor =>
    let _ ← audit (value "shared" "") (value "file" structureName) (value "vulnerability" "")
      (value "output" ".")
    return 0
  | .decrypt =>
    let _ ← openReport (value "secret" "") (value "shared" "") (value "file" reportName)
    return 0
  | .all => runAll values

def run (name : CommandName) (args : List String) : m Nat :=
  match Options.parse name.rules args with
  | .ok values => perform name values
  | .error .help => return 0
  | .error .usage => return usageCode

end Command

end MaskedTaint
