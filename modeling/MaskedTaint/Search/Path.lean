import MaskedTaint.Flow.Structure

/-! Paths: chains of tokens from a sink back towards its sources, and which of the
recorded paths matter. -/

namespace MaskedTaint

abbrev Path := List Token

namespace Path

def same : Path → Path → Bool
  | [], [] => true
  | a :: p, b :: q => a.same b && same p q
  | _, _ => false

def isIn (p : Path) (ps : List Path) : Bool := ps.any p.same

def remove? (p : Path) : List Path → Option (List Path)
  | [] => none
  | q :: qs => if q.same p then some qs else (remove? p qs).map (q :: ·)

def firstDifference (p q : Path) : Option (Token × Token) :=
  (p.zip q).find? fun (a, b) => !a.same b

/-- Tokens on the same branch of the program; the second one must also have the split
mark of the sink that `p` starts at. -/
def comparable (p : Path) (a b : Token) : Bool :=
  a.mark.depth == b.mark.depth && a.mark.order == b.mark.order && a.mark.flow == b.mark.flow &&
    a.scope == b.scope && (p.head?.map Token.split) == some b.split

def overtaken? (recorded current : Path) : Option Path :=
  match firstDifference recorded current with
  | none => none
  | some (a, b) =>
    if comparable recorded a b then some (if a.pos < b.pos then recorded else current) else none

/-- Records a path. Those overtaken are dropped, one at a time; a path that is to be
dropped more often than it is there is a failure. -/
def conclude? (current : Path) (recorded : List Path) : Option (List Path) :=
  (recorded.filterMap fun r => overtaken? r current).foldlM (fun ps p => p.remove? ps)
    (recorded ++ [current])

end Path

/-- The recorded paths of every sink, in the order in which the sinks were first met. -/
abbrev Catalog := List (Token × List Path)

namespace Catalog

def find (c : Catalog) (sink : Token) : List Path :=
  ((c.find? fun e => e.1.same sink).map Prod.snd).getD []

def add : Catalog → Token → List Path → Catalog
  | c, _, [] => c
  | [], sink, ps => [(sink, ps)]
  | (s, qs) :: c, sink, ps => if s.same sink then (s, qs ++ ps) :: c else (s, qs) :: add c sink ps

abbrev Nearest := Option (Token × Path)

def nearer (i : Nat) (best : Nearest) (p : Path) : Nearest :=
  match p[i]?, p.head? with
  | some t, some sink =>
    let best := best.getD (t, p)
    if t.scope != sink.scope then some best
    else if sink.pos - t.pos < sink.pos - best.1.pos then some (t, p)
    else some best
  | _, _ => best

def nearest (ps : List Path) : Option Path :=
  let longest := (ps.map List.length).foldl max 0
  (((List.range' 1 (longest - 1)).foldl (fun best i => ps.foldl (nearer i) best) none).map Prod.snd)

def relevantOf (ps : List Path) : List Path :=
  ps.filter (fun p => p.length == 1) ++ (nearest ps).toList

def relevant (c : Catalog) : List Path := c.flatMap fun e => relevantOf e.2

/-- Whether a path passes, before `t`, through another branch than that of `t`. -/
def bypasses (t : Token) (p : Path) : Bool :=
  p.any fun u => u.pos ≤ t.pos &&
    (u.mark.order != t.mark.order || u.mark.flow != t.mark.flow || u.mark.depth != t.mark.depth)

def extend (wanted : Path → Bool) (ps candidates : List Path) : List Path :=
  ps.foldl (fun cs p => if !p.isIn cs && wanted p then cs ++ [p] else cs) candidates

def deeper (p : Path) : List Token :=
  p.filter fun t => (p.head?.map fun sink => decide (sink.mark.depth < t.mark.depth)).getD false

def pathsOf (c : Catalog) (p : Path) : List Path := (p.head?.map c.find).getD []

def withBranches (c : Catalog) (ps : List Path) : List Path :=
  ps.foldl (fun cs p => (deeper p).foldl (fun cs t => extend (bypasses t) (c.pathsOf p) cs) cs) ps

/-- Whether `q` leaves `p`, at place `i` or before, for another operand of one text. -/
def joins (p : Path) (i : Nat) (q : Path) : Bool :=
  ((q.zip p).take (i + 1)).any fun (a, b) => !a.same b && a.split == b.split

def splitPlaces (p : Path) : List Nat :=
  (List.range p.length).filter fun i => (p[i]?.map Token.split) != (p.head?.map Token.split)

def joinPath (c : Catalog) (p : Path) (cs : List Path) : List Path :=
  (splitPlaces p).foldl (fun cs i => extend (joins p i) (c.pathsOf p) cs) cs

/-- Goes on from place `i` until no path is left that has not been looked at. -/
def joinFrom (c : Catalog) : Nat → Nat → List Path → List Path
  | 0, _, cs => cs
  | fuel + 1, i, cs =>
    match cs[i]? with
    | none => cs
    | some p => joinFrom c fuel (i + 1) (c.joinPath p cs)

/-- Operands of one text all flow on, so the paths through each of them count. -/
def withSplits (c : Catalog) (cs : List Path) : List Path :=
  c.joinFrom (cs.length + (c.flatMap fun e => e.2).length + 1) 0 cs

end Catalog

end MaskedTaint
