import MaskedTaint.Act
import MaskedTaint.Cipher.Seal
import MaskedTaint.Search.Explorer
import MaskedTaint.Wire.Record

/-! Sealed structures: what the owner of a project hands to an auditor. Names are
sealed with the secret key, places that the search must recognise are labelled with the
shared one, and numbers keep their order. -/

namespace MaskedTaint

/-- The keys of the two sides: one for the owner alone, one for both. -/
structure Keys where
  secret : Bytes
  shared : Bytes

def Keys.ofPasswords (secret shared : String) : Keys := ⟨Cipher.keyOf secret, Cipher.keyOf shared⟩

/-- The ciphers that a structure is sealed with. Labels and sealed names are bytes in base
64; a file name is sealed with a nonce. -/
structure Ciphers where
  labelBytes : String → Bytes
  nameBytes : String → Except CipherError Bytes
  number : Int → Except CipherError Int
  fileKey : Bytes

namespace Ciphers

def ofKeys (keys : Keys) : Ciphers :=
  ⟨Cipher.labelBytes keys.shared, Cipher.nameBytes keys.secret, Cipher.sealNumber keys.secret,
    keys.secret⟩

def label (c : Ciphers) (s : String) : String := Base64.encode (c.labelBytes s)

def name (c : Ciphers) (s : String) : Except CipherError String :=
  (c.nameBytes s).map Base64.encode

def file (c : Ciphers) (nonce : Bytes) (s : String) : Except CipherError String :=
  Cipher.sealWhole c.fileKey nonce s

end Ciphers

/-- Ciphers with what opens them again. Whole texts are sealed with a nonce. -/
structure Suite extends Ciphers where
  openName : String → Except CipherError String
  openNumber : Int → Except CipherError Int
  sealText : Bytes → String → Except CipherError String
  openText : String → Except CipherError String

namespace Suite

def ofKeys (keys : Keys) : Suite :=
  { Ciphers.ofKeys keys with
    openName := Cipher.openName keys.secret
    openNumber := Cipher.openNumber keys.secret
    sealText := Cipher.sealWhole keys.shared
    openText := Cipher.openText keys.shared }

instance : Coe Keys Suite := ⟨ofKeys⟩

def openFile (s : Suite) (x : String) : Except CipherError String := Cipher.openText s.fileKey x

end Suite

namespace Lexicon

def keyedBy (key : String → String) : Lexicon := ⟨key, Special.name⟩

def hiddenBy (label : String → String) : Lexicon := ⟨label, fun s => label s.name⟩

def labelled (shared : Bytes) : Lexicon := keyedBy (Cipher.label shared)

def hidden (shared : Bytes) : Lexicon := hiddenBy (Cipher.label shared)

end Lexicon

abbrev Sealing := Act Nat CipherError

namespace Sealing

variable (nonces : Nat → Bytes) (c : Ciphers)

def ofExcept {α : Type} : Except CipherError α → Sealing α
  | .ok a => pure a
  | .error e => Act.fail e

def nextNonce : Sealing Bytes := do
  let n ← Act.state
  Act.update (· + 1)
  return nonces n

def sealName (s : String) : Sealing String := ofExcept (c.name s)

def sealNumber (n : Int) : Sealing Int := ofExcept (c.number n)

def sealFile (s : String) : Sealing String := do
  let nonce ← nextNonce nonces
  ofExcept (c.file nonce s)

def sealKind (kind : String) : Sealing String :=
  if Special.isName kind then return c.label kind else sealName c kind

def sealMark (kind : String) (m : Mark) : Sealing Mark := do
  let line ← sealName c m.line.render
  let pos ← sealNumber c m.pos
  let depth ← sealNumber c m.depth
  let order ← sealNumber c m.order
  let flow ← sealNumber c m.flow
  let split ← sealName c m.split.render
  let scope ← sealName c m.scope
  let file ← sealFile nonces c m.file
  return ⟨kind, .text line, pos, depth, order, flow, .text split, scope, file⟩

mutual

def sealToken : Token → Sealing Token
  | .site id m => do
    let mark ← sealMark nonces c m.kind m
    return .site id { mark with kind := ← sealKind c m.kind }
  | .jump id m target args => do
    let mark ← sealMark nonces c (c.label m.kind) m
    let target ← sealName c target
    return .jump id mark target (← sealTokens args)

def sealTokens : List Token → Sealing (List Token)
  | [] => return []
  | t :: ts => do
    let t ← sealToken t
    return t :: (← sealTokens ts)

end

def sealScopeName (name : String) : Sealing String := do
  return c.label (← sealName c name)

def sealKeyName (key : String) : Sealing String := do
  return c.label (← sealKind c key)

def sealLists : List (String × List Token) → Sealing (List (String × List Token))
  | [] => return []
  | (key, ts) :: es => do
    let key ← sealKeyName c key
    let ts ← sealTokens nonces c ts
    return (key, ts) :: (← sealLists es)

def sealScopes : List (String × Scope) → Sealing (List (String × Scope))
  | [] => return []
  | (name, s) :: es => do
    let name ← sealScopeName c name
    let s ← sealLists nonces c s.entries
    return (name, Table.ofEntries s) :: (← sealScopes es)

def sealStructure (d : Structure) : Sealing Structure := do
  return Table.ofEntries (← sealScopes nonces c d.entries)

def handedOver (d : Structure) : List (String × Scope) :=
  (d.entries.reverse.dropWhile fun e => e.2.entries.isEmpty).reverse

def asFile (s : String) : String := (Json.text s).render (some 4)

/-- The file with a sealed structure; without any key there is nothing to seal. -/
def structureFile (s : Suite) (d : Structure) : Sealing String := do
  let sealed ← sealStructure nonces s.toCiphers d
  if d.entries.all fun e => e.2.entries.isEmpty then return "\x7b\x7d"
  let nonce ← nextNonce nonces
  let text := Structure.toText (Table.ofEntries (handedOver sealed))
  return asFile (← ofExcept (s.sealText nonce text))

end Sealing

end MaskedTaint
