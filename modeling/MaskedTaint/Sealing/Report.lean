import MaskedTaint.Sealing.Structure

/-! Reports: the paths an auditor found, sealed for the owner, who opens them. -/

namespace MaskedTaint

namespace Sealing

def reportFile (nonces : Nat → Bytes) (sealText : Bytes → String → Except CipherError String)
    (paths : List Path) : Sealing String := do
  let nonce ← nextNonce nonces
  let text := Finding.pathsText (paths.map Finding.ofTokens)
  return asFile (← ofExcept (sealText nonce text))

end Sealing

namespace Finding

def openKind (s : Suite) (kind : String) : Except CipherError String :=
  if kind = s.label Special.input.name then .ok Special.input.name
  else if kind = s.label Special.call.name then .ok Special.call.name
  else s.openName kind

mutual

def opened (s : Suite) : Finding → Except CipherError Finding
  | mk kind line pos file target args => do
    let kind ← openKind s kind
    let line ← s.openName line.render
    let pos ← s.openNumber pos
    let file ← s.openFile file
    match args with
    | some args =>
      let target ← s.openName (target.getD "")
      let args ← openedAll s args
      return mk kind (.text line) pos file (some target) (some args)
    | none =>
      match target with
      | some target =>
        let target ← s.openName target
        return mk kind (.text line) pos file (some target) none
      | none => return mk kind (.text line) pos file none none

def openedAll (s : Suite) : List Finding → Except CipherError (List Finding)
  | [] => .ok []
  | f :: fs => do
    let f ← opened s f
    return f :: (← openedAll s fs)

end

end Finding

end MaskedTaint
