import MaskedTaint.Search.Explorer

/-! Detection: explores from every sink of a structure, also from those reached through
calls, and reports the paths that bring an input to the sink without sanitizing it. -/

namespace MaskedTaint

namespace Search

variable (lex : Lexicon) (limit : Limit)

/-- Explores from the sinks of a view and enters their paths in the catalog. -/
def exploreSinks (v : View) (place : String) (catalog : Catalog) : Searching Catalog := do
  let s ← Act.state
  match s.source? v place with
  | none => return catalog
  | some source => go source limit.width 0 catalog
where
  go (source : Source) : Nat → Nat → Catalog → Searching Catalog
    | 0, _, _ => Act.fail .unending
    | width + 1, i, catalog => do
      let s ← Act.state
      match (s.read source)[i]? with
      | none => return catalog
      | some sink =>
        Act.update fun s => { s with visited := [sink], paths := [] }
        let imports ← importsOf lex v
        explore lex limit limit.depth [] v imports sink
        let s ← Act.state
        go source width (i + 1) (catalog.add sink s.paths)

def exploreCalls (scope place : String) (catalog : Catalog) : Searching Catalog :=
  go limit.width 0 catalog
where
  go : Nat → Nat → Catalog → Searching Catalog
    | 0, _, _ => Act.fail .unending
    | width + 1, i, catalog => do
      let s ← Act.state
      match (s.read (.stored scope (lex.place .call)))[i]? with
      | none => return catalog
      | some t =>
        if t.isIn s.analysed then go width (i + 1) catalog
        else
          match ← enterCall lex lex.filesCall t with
          | none => go width (i + 1) catalog
          | some v =>
            let catalog ← exploreSinks lex limit v place catalog
            go width (i + 1) catalog

def exploreScopes (place : String) : List String → Catalog → Searching Catalog
  | [], catalog => return catalog
  | scope :: scopes, catalog => do
    let catalog ← exploreSinks lex limit { name := scope } place catalog
    let catalog ← exploreCalls lex limit scope place catalog
    exploreScopes place scopes catalog

def isVulnerable (v : Vulnerability) (p : Path) : Bool :=
  match p.find? fun t => t.kind == lex.word (.sanitizer v) || t.kind == lex.word .input with
  | none => false
  | some t => t.kind != lex.word (.sanitizer v)

def vulnerablePaths (v : Vulnerability) (catalog : Catalog) : List Path :=
  (catalog.withSplits (catalog.withBranches catalog.relevant)).filter (isVulnerable lex v)

def detect (v : Vulnerability) : Searching (List Path) := do
  let s ← Act.state
  let catalog ← exploreScopes lex limit (lex.place (.sink v)) s.flows.names []
  return vulnerablePaths lex v catalog

def detectNamed (name : String) : Searching (List Path) :=
  match Vulnerability.ofName? name with
  | some v => detect lex limit v
  | none => Act.fail (.missing (name ++ "_SENS") (name ++ "_SENS"))

def usualLimit : Limit := ⟨1000, 1000000⟩

end Search

end MaskedTaint
