import MaskedTaint.Command.Commands

/-! A made-up project of any size, to try the analysis on. Its main file includes a small
library, declares three functions, runs through a cycle of seven statements as often as
wanted, and ends with statements of other kinds. -/

namespace MaskedTaint

namespace Workload

def mainName : String := "main.php"

def libraryName : String := "lib.php"

def libraryFile : String :=
  "\n".intercalate ["<?php", "$a0=$_GET['imported'];", "$only_in_lib=$_POST['p'];", "?>"]

def opening : List String :=
  ["<?php", "include \"lib.php\";", "function helper($p,$q)\x7b$r=$p.$q;return $r;\x7d",
    "function sinkit($z)\x7becho $z;mysqli_query($conn,$z);return $z;\x7d",
    "function noret($g)\x7becho $g;\x7d"]

/-- Statement number `i`. Those of one round read the input taken at its start. -/
def statement (i : Nat) : String :=
  let n := toString i
  let a := "$a" ++ toString (i - i % 7)
  let b := "$b" ++ toString (i - i % 7 + 1)
  match i % 7 with
  | 0 => "$a" ++ n ++ "=$_GET['u" ++ n ++ "'];"
  | 1 => "$b" ++ n ++ "=htmlentities(" ++ a ++ ");"
  | 2 => "$c" ++ n ++ "=helper(" ++ a ++ ",'lit');"
  | 3 =>
    "if(" ++ a ++ ")\x7b$d" ++ n ++ "=" ++ a ++ ";\x7delseif(" ++ b ++ ")\x7b$d" ++ n ++
      "=$_POST['e'];\x7delse\x7b$d" ++ n ++ "='safe';\x7d"
  | 4 => "echo $d" ++ toString (i - 1) ++ "." ++ a ++ ";"
  | 5 => "$q" ++ n ++ "=\"SELECT " ++ a ++ "\";mysqli_query($conn,$q" ++ n ++ ");"
  | _ =>
    "sinkit(" ++ a ++ ");$w" ++ n ++ "=sinkit(helper($_POST['p" ++ n ++ "']," ++ a ++
      "));noret(" ++ a ++ ");"

def ending : List String :=
  ["while($a0) echo $a0;", "do\x7b$a0=$a0;\x7dwhile($a0);", "do $a0=$a0; while($a0);",
    "for($i=0;$i<10;$i++)\x7becho $a0;\x7d", "foreach($arr as $k) echo $k;",
    "switch($a0)\x7bcase 1: echo $a0;\x7d", "echo helper($_GET['x'],$_GET['y']);",
    "echo noret($_GET['x']);", "noret(helper($a0,$a0));", "$rv=helper($a0,'y');",
    "$rv=mysqli_query($conn,mysqli_escape_string($conn,$a0));",
    "$rv=mysqli_query($conn,somefunc($a0));", "$rv=htmlentities($a0).$a0;",
    "$rv=somefunc($a0).$a0;", "echo htmlentities($a0);", "echo somefunc($a0);",
    "somefunc(htmlentities($a0));", "somefunc(mysqli_query($conn,$a0));",
    "$rv=unknown_call($a0);", "$rv=.$a0;", "include 'missing.php';", "echo $only_in_lib;", "?>"]

def mainFile (n : Nat) : String :=
  "\n".intercalate (opening ++ (List.range n).map statement ++ ending)

/-! ### What is found in it -/

/-- How much was recorded: the scopes by name, and in the order of recording how many
keys each has and how many tokens each key has. -/
structure Extent where
  scopes : List String
  keys : List Nat
  tokens : List Nat
  openBlocks : Nat
deriving DecidableEq, Repr

def extent (p : Project) : Extent :=
  let entries := p.flows.entries
  { scopes := (entries.map Prod.fst).mergeSort fun a b => a ≤ b
    keys := entries.map fun (_, s) => s.entries.length
    tokens := (entries.map fun (_, s) => s.entries.map fun (_, ts) => ts.length).flatten
    openBlocks := p.masker.blocks.length }

def recorded (n : Nat) : Except RecordError Extent :=
  (Project.recordAll {} [(mainName, (mainFile n).toList)]).map extent

/-- The lengths of the paths to either kind of sink. -/
structure Yield where
  xss : List Nat
  sqli : List Nat
  /-- Paths that are found if only the names in the structure are labelled, and not the
  words in its tokens: a sealed search looks elsewhere. -/
  labelled : Nat
deriving DecidableEq, Repr

def searches (shared : Bytes) (d : Structure) : Except SearchError Yield := do
  let (xss, s) := Search.detect .plain Search.usualLimit .xss { flows := d }
  let (sqli, s) := Search.detect .plain Search.usualLimit .sqli { flows := s.flows }
  let (labelled, _) := Search.detect (.hidden shared) Search.usualLimit .xss
    { flows := s.flows.rekeyed (Cipher.label shared) }
  return ⟨(← xss).map List.length, (← sqli).map List.length, (← labelled).length⟩

def searched (n : Nat) : Except CommandError Yield :=
  match Project.recordAll {} [(libraryName, libraryFile.toList), (mainName, (mainFile n).toList)] with
  | .error e => .error (.record e)
  | .ok p => (searches (Cipher.keyOf mainName) p.flows).mapError fun e => .audit (.search e)

end Workload

end MaskedTaint
