import MaskedTaint.Proofs.Flow.Outputs

/-! Assignments. The operands of an assignment are put at the end of the list of its variable, in
source order, and nothing that was recorded before is changed, if the first operand has a value of
its own or is the only one. The dot behind it marks it by its number, which no other token has. -/

namespace MaskedTaint

/-! ### Numbers -/

def Contents.below (n : Nat) : Contents where
  listed _ _ t := t.id < n
  argument _ _ := True
  parameter _ t := t.id < n

theorem Contents.below_closed (n : Nat) : (below n).Closed :=
  ⟨fun _ _ t _ h => by cases t <;> exact h, fun _ _ h => h⟩

namespace Recorder

/-- The numbers of all tokens that are stored or wait were given out before. -/
def Numbered (r : Recorder) : Prop :=
  ∀ n, r.fresh ≤ n → r.Filling (.below n) r ∧ r.flows.Holds (.below n)

theorem Numbered.take {r : Recorder} (h : r.Numbered) (t : Masked) (place : Int) :
    (r.take t place).Numbered := by
  cases hblocks : r.blocks with
  | nil => simpa [Recorder.take, hblocks] using h
  | cons b outer =>
    have hnext : ∀ n, r.fresh ≤ n → ((r.take t place).fresh = r.fresh + 1 → r.fresh < n) →
        (r.take t place).Filling (.below n) r := fun n hn hlt =>
      (h n hn).1.does (Contents.below_closed n) hblocks (take_does hblocks t place)
        (fun hfresh => ⟨fun _ _ => hlt hfresh, trivial, fun _ _ => trivial,
          fun _ _ _ _ => ⟨trivial, fun _ _ => hlt hfresh⟩, hlt hfresh, fun _ _ => hlt hfresh⟩)
        fun _ _ => trivial
    have hle := (hnext (r.fresh + 1) (Nat.le_succ _) fun _ => Nat.lt_succ_self _).stored.fresh
    intro n hn
    have hfilling := hnext n (hle.trans hn) (by omega)
    exact ⟨hfilling.self, hfilling.stored.flows.holds (Contents.below_closed n) (h n (hle.trans hn)).2⟩

theorem Numbered.takeEnd {r : Recorder} (h : r.Numbered) : (takeEnd r).2.Numbered := by
  have hend := fun n hn => (h n hn).1.takeEnd (Contents.below_closed n)
  have hle := (hend _ (Nat.le_refl _)).stored.fresh
  exact fun n hn => ⟨(hend n (hle.trans hn)).self,
    (hend n (hle.trans hn)).stored.flows.holds (Contents.below_closed n) (h n (hle.trans hn)).2⟩

end Recorder

namespace Project

def Numbered (p : Project) : Prop := ∀ n, p.fresh ≤ n → p.flows.Holds (.below n)

theorem Numbered.recorder {p : Project} (hp : p.Numbered) (name : String) :
    (p.recorder name).Numbered := fun n hn =>
  ⟨filling_recorder _ p name, (fills_recorder (Contents.below_closed _) p name).holds
    (Contents.below_closed _) (hp n hn)⟩

theorem Numbered.recordEach (files : List (String × List Char)) {p : Project} (hp : p.Numbered) :
    (p.recordEach files).Numbered := by
  induction files generalizing p with
  | nil => exact hp
  | cons f files ih =>
    refine ih (p := after (p.recordFile f.1 f.2)) fun n hn => ?_
    refine (Recorder.follow_keeps (I := fun r _ => r.Numbered) (fun _ _ _ h => h) ?_
      (fun _ _ _ h _ => h.takeEnd) (hp.recorder f.1) n hn).2
    rintro r _ _ _ ⟨-, t, -, rfl⟩ h
    exact h.take t _

end Project

/-- The tokens come behind those of one list; all other lists have the tokens they had. -/
def Structure.Adds (d : Structure) (scope key : String) (new : List Token) (d' : Structure) : Prop :=
  ∀ s k, d'.list s k = d.list s k ++ only scope key new s k

/-! ### Statements -/

/-- An assignment of one or more operands, as it is delivered: the first one, and the others, each
behind its dot. Operands that are constants have no value of their own. -/
structure Assignment where
  target : Masked
  sign : Masked
  first : Masked
  later : List (Masked × Masked)
  stop : Masked
  assigned : Nat
  isVariable : target.symbol = .var assigned
  assigns : sign.symbol = .op 0
  operands : ∀ u ∈ first :: later.map Prod.snd, u.symbol.isOperand = true ∨ u.symbol = .plain .word
  joins : ∀ u ∈ later, u.1.symbol = .plain .concat
  ends : stop.symbol.endsStatement = true

namespace Assignment

def joined : List (Masked × Masked) → List Masked
  | [] => []
  | u :: later => u.1 :: u.2 :: joined later

def symbols (a : Assignment) : List Masked :=
  a.target :: a.sign :: a.first :: (joined a.later ++ [a.stop])

def values (a : Assignment) : List Masked :=
  (a.first :: a.later.map Prod.snd).filter fun u => u.symbol.isOperand

end Assignment

namespace Recorder

open Structure (only marked)

variable {r r₀ : Recorder} {b : Block} {outer : List Block} {t : Masked} {key : String} {manner : Manner}
  {new : List Token} {place split : Int}

/-- The tokens of operands that are taken one after the other. -/
def entries (r : Recorder) (b : Block) (split : Int) (vs : List Masked) : List Token :=
  (vs.zipIdx r.fresh).map fun v =>
    .site v.2 { r.markOf b v.1 v.1.symbol.name with split := .number split }

/-- Whatever the places are, the symbols lead to a recorder with this property. -/
def Brings : Recorder → List Masked → (Recorder → Prop) → Prop
  | r, [], R => R r
  | r, t :: ts, R => r.blocks ≠ [] ∧ ∀ place, Brings (r.take t place) ts R

theorem Brings.append {ts us : List Masked} {R R' : Recorder → Prop} (h : r.Brings ts R)
    (hus : ∀ r', R r' → r'.Brings us R') : r.Brings (ts ++ us) R' := by
  induction ts generalizing r with
  | nil => exact hus r h
  | cons t ts ih => exact ⟨h.1, fun place => ih (h.2 place)⟩

theorem Brings.reaches {ts rest : List Masked} {R : Recorder → Prop} {m : Masker} (h : r.Brings ts R)
    (hread : m.readAll.symbols.map Prod.fst = ts ++ rest) :
    ∃ r' m', Reaches (r, m) (r', m') ∧ m'.readAll.symbols.map Prod.fst = rest ∧ R r' := by
  induction ts generalizing r m with
  | nil => exact ⟨r, m, .refl, hread, h⟩
  | cons t ts ih =>
    obtain ⟨m₁, htoken, hlater⟩ := Masker.token_of_readAll hread
    obtain ⟨r', m', hreach, hrest, hR⟩ := ih (h.2 m₁.lexer.pos) hlater
    exact ⟨r', m', hreach.head ⟨h.1, t, htoken, rfl⟩, hrest, hR⟩

/-- In the middle of an assignment: these tokens are in the list of the variable, or wait until
there is one. -/
def Assigns (r₀ : Recorder) (b : Block) (outer : List Block) (key : String) (manner : Manner)
    (new : List Token) (r : Recorder) : Prop :=
  ∃ waiting, r.file = r₀.file ∧ r.fresh = r₀.fresh + new.length ∧
    r.blocks = { b with tasks := [.collect key manner waiting] } :: outer ∧
    ∀ s k, r.held b key waiting s k = r₀.flows.list s k ++ only b.scope key new s k

theorem Assigns.blocks (h : r₀.Assigns b outer key manner new r) : r.blocks ≠ [] := by
  obtain ⟨waiting, -, -, hblocks, -⟩ := h
  simp [hblocks]

def splitOf : Manner → Int
  | .joined split => split
  | _ => 0

theorem Assigns.take_value (h : r₀.Assigns b outer key manner new r) (ht : t.symbol.isOperand = true)
    (place : Int) : r₀.Assigns b outer key manner (new ++ [.site (r₀.fresh + new.length)
      { r₀.markOf b t t.symbol.name with split := .number (splitOf manner) }]) (r.take t place) := by
  obtain ⟨waiting, hfile, hfresh, hblocks, hheld⟩ := h
  generalize htoken : Token.site _ _ = token
  have htake : r.take t place = (gather { r with fresh := r.fresh + 1 } b key waiting token).2.proceed b outer
      [.collect key manner (gather { r with fresh := r.fresh + 1 } b key waiting token).1] := by
    subst htoken
    cases manner <;> simp [take, hblocks, collect, endsStatement_of_isOperand ht, ht, takeOperand, site,
      markOf, hfile, hfresh, Token.setSplit, splitOf] <;> rfl
  rw [htake]
  refine ⟨_, ?_, ?_, rfl, fun s k => ?_⟩
  · unfold gather
    split <;> exact hfile
  · unfold gather
    split <;> simp [proceed, hfresh, record, Nat.add_assoc]
  · refine (held_gather s k).trans ?_
    rw [show held { r with fresh := r.fresh + 1 } b key waiting s k = _ from hheld s k, List.append_assoc]
    unfold only
    split <;> rfl

theorem Assigns.take_ignored (h : r₀.Assigns b outer key manner new r) (place : Int)
    (ht : t.symbol = .plain .word ∨ t.symbol = .plain .concat ∧ ∃ split, manner = .joined split) :
    r.take t place = r := by
  obtain ⟨waiting, -, -, hblocks, -⟩ := h
  rcases ht with ht | ⟨ht, split, rfl⟩ <;>
    simp [take, hblocks, proceed, collect, ht, Symbol.endsStatement, Symbol.isOperand, Symbol.isVariable,
      Symbol.isSanitizer] <;>
    rw [← hblocks]

theorem Assigns.take_dot {mark : Mark} (h : r₀.Assigns b outer key .value [.site r₀.fresh mark] r)
    (hnew : r₀.Numbered) (ht : t.symbol = .plain .concat) (place : Int) :
    r₀.Assigns b outer key (.joined place) [.site r₀.fresh { mark with split := .number place }]
      (r.take t place) := by
  obtain ⟨waiting, hfile, hfresh, hblocks, hheld⟩ := h
  have hown := hheld b.scope key
  simp only [held, only, and_self, if_true] at hown
  have htake : r.take t place = { r with flows := r.flows.setSplit b.scope r₀.fresh (.number place) }.proceed b
      outer [.collect key (.joined place) (marked r₀.fresh (.number place) waiting)] := by
    simp [take, hblocks, collect, ht, Symbol.endsStatement, Symbol.isOperand, Symbol.isVariable,
      Symbol.isSanitizer, lastOperand, hown]
    rfl
  rw [htake]
  refine ⟨_, hfile, hfresh, rfl, fun s k => ?_⟩
  have hold : marked r₀.fresh (.number place) (r₀.flows.list s k) = r₀.flows.list s k :=
    (List.map_congr_left fun t ht =>
      if_neg (Nat.ne_of_lt ((hnew _ (Nat.le_refl _)).2.tokens? t ht))).trans (List.map_id _)
  have hmarked := congrArg (marked r₀.fresh (.number place)) (hheld s k)
  unfold held marked at *
  rw [List.map_append, hold] at hmarked
  by_cases hscope : s = b.scope
  · subst hscope
    cases hlist : r.flows.tokens? b.scope k <;> by_cases hkey : k = key <;> subst_vars <;>
      simpa [proceed, Structure.tokens?_setSplit, marked, only, *, Token.id, Token.setSplit] using hmarked
  · simpa [proceed, Structure.tokens?_setSplit, only, hscope] using hheld s k

theorem Assigns.take_stop (h : r₀.Assigns b outer key manner new r) (ht : t.symbol.endsStatement = true)
    (place : Int) : r₀.flows.Adds b.scope key new (r.take t place).flows := by
  obtain ⟨waiting, -, -, hblocks, hheld⟩ := h
  intro s k
  simp only [take, hblocks, collect, ht, if_true, (finish_frame _ _ _ _).1]
  exact (held_storeSome s k).trans (hheld s k)

theorem entries_append (r : Recorder) (b : Block) (split : Int) (vs : List Masked) (v : Masked) :
    r.entries b split (vs ++ [v]) = r.entries b split vs ++
      [.site (r.fresh + (r.entries b split vs).length)
        { r.markOf b v v.symbol.name with split := .number split }] := by
  simp [entries, List.zipIdx_append]

theorem Assigns.take_later {later : List (Masked × Masked)} {vs : List Masked}
    (h : r₀.Assigns b outer key (.joined split) (r₀.entries b split vs) r)
    (hoperands : ∀ u ∈ later.map Prod.snd, u.symbol.isOperand = true ∨ u.symbol = .plain .word)
    (hjoins : ∀ u ∈ later, u.1.symbol = .plain .concat) :
    r.Brings (Assignment.joined later) (r₀.Assigns b outer key (.joined split)
      (r₀.entries b split (vs ++ (later.map Prod.snd).filter fun u => u.symbol.isOperand))) := by
  induction later generalizing r vs with
  | nil => simpa [Assignment.joined, Brings] using h
  | cons u later ih =>
    obtain ⟨dot, u⟩ := u
    obtain ⟨hdot, hjoins⟩ := List.forall_mem_cons.mp hjoins
    obtain ⟨hu, hoperands⟩ := List.forall_mem_cons.mp hoperands
    refine ⟨h.blocks, fun place => ?_⟩
    rw [h.take_ignored place (.inr ⟨hdot, _, rfl⟩)]
    refine ⟨h.blocks, fun place => ?_⟩
    rcases hu with hu | hu
    · have hnext := h.take_value hu place
      rw [splitOf, ← entries_append] at hnext
      simpa [List.filter_cons, hu] using ih hnext hoperands hjoins
    · have hword : u.symbol.isOperand = false := by rw [hu]; rfl
      rw [h.take_ignored place (.inl hu)]
      simpa [List.filter_cons, hword] using ih h hoperands hjoins

end Recorder

namespace Assignment

variable {r : Recorder} {b : Block} {outer : List Block} {a : Assignment}

theorem take_start (hblocks : r.blocks = b :: outer) (hidle : b.tasks = []) (place place' : Int) :
    (r.take a.target place).blocks ≠ [] ∧ r.Assigns { b with last := some a.target.symbol } outer
      a.target.symbol.name .value [] ((r.take a.target place).take a.sign place') := by
  have htake : r.take a.target place =
      { r with blocks := { b with tasks := [], last := some a.target.symbol } :: outer } := by
    simp [Recorder.take, hblocks, hidle, Recorder.start, Recorder.finish, a.isVariable, Symbol.endsBlock]
  rw [htake]
  refine ⟨List.cons_ne_nil _ _, [], ?_⟩
  simp [Recorder.take, Recorder.start, a.assigns, a.isVariable, Recorder.proceed, Symbol.isVariable,
    Recorder.held, Structure.list, Structure.only]

theorem brings_symbols (hblocks : r.blocks = b :: outer) (hidle : b.tasks = []) (hnew : r.Numbered)
    (hfirst : a.first.symbol.isOperand = true ∨ a.later = []) :
    r.Brings a.symbols fun r' => ∃ split,
      r.flows.Adds b.scope a.target.symbol.name (r.entries b split a.values) r'.flows := by
  refine ⟨by simp [hblocks], fun place => ⟨(a.take_start hblocks hidle place 0).1, fun place' => ?_⟩⟩
  have hstart := (a.take_start hblocks hidle place place').2
  refine ⟨hstart.blocks, fun place => ?_⟩
  obtain ⟨hone, hoperands⟩ := List.forall_mem_cons.mp a.operands
  -- whatever manner the operands were taken in, the end of the statement stores them
  have hend : ∀ manner split {r' : Recorder}, r.Assigns { b with last := some a.target.symbol } outer
      a.target.symbol.name manner (r.entries b split a.values) r' →
      r'.Brings [a.stop] fun r' => ∃ split,
        r.flows.Adds b.scope a.target.symbol.name (r.entries b split a.values) r'.flows :=
    fun _ _ _ h => ⟨h.blocks, fun place => ⟨_, h.take_stop a.ends place⟩⟩
  cases hlater : a.later with
  | nil =>
    refine hend .value 0 ?_
    rcases hone with hone | hone
    · have hvalues : a.values = [a.first] := by simp [values, hlater, hone]
      rw [hvalues]
      exact hstart.take_value hone place
    · have hword : a.first.symbol.isOperand = false := by rw [hone]; rfl
      rw [hstart.take_ignored place (.inl hone)]
      simpa [values, hlater, hword, Recorder.entries] using hstart
  | cons u later =>
    have hone := hfirst.resolve_right (by simp [hlater])
    have hjoins := a.joins
    rw [hlater] at hjoins hoperands
    have htaken := hstart.take_value hone place
    refine ⟨htaken.blocks, fun place => ?_⟩
    have hdot : r.Assigns _ _ _ (.joined place) (r.entries b place [a.first]) _ :=
      htaken.take_dot hnew (hjoins u List.mem_cons_self) place
    -- the other operands are taken as if the dot were met once more
    have hrest := (hdot.take_later hoperands hjoins).2 0
    rw [hdot.take_ignored 0 (.inr ⟨hjoins u List.mem_cons_self, _, rfl⟩)] at hrest
    have hvalues : a.values = [a.first] ++ ((u :: later).map Prod.snd).filter fun u => u.symbol.isOperand := by
      simp [values, hlater, List.filter_cons, hone]
    rw [hvalues] at hend ⊢
    exact hrest.append fun r' => hend (.joined place) place

end Assignment

namespace Recorder

/-- Wherever a statement may begin, an assignment puts exactly the operands that have a value of their
own at the end of the list of its variable, in source order, and changes nothing that was recorded
before, if its first operand has a value or is the only one. -/
theorem assignment_adds_operands (files : List (String × List Char)) (name : String) (code : List Char)
    {r : Recorder} {m : Masker} {b : Block} {outer : List Block} {rest : List Masked} (a : Assignment)
    (hreach : Reaches ((Project.recordEach {} files).recorder name,
      (Project.recordEach {} files).masker.loadFile code) (r, m))
    (hblocks : r.blocks = b :: outer) (hidle : b.tasks = [])
    (hread : m.readAll.symbols.map Prod.fst = a.symbols ++ rest)
    (hfirst : a.first.symbol.isOperand = true ∨ a.later = []) :
    ∃ r' m', Reaches (r, m) (r', m') ∧ m'.readAll.symbols.map Prod.fst = rest ∧ ∃ split,
      r.flows.Adds b.scope a.target.symbol.name (r.entries b split a.values) r'.flows := by
  have hnew := hreach.keeps (I := Numbered) (fun _ t place hr => hr.take t place)
    (Project.Numbered.recorder (.recordEach files fun _ _ => Structure.holds_empty _) name)
  exact (a.brings_symbols hblocks hidle hnew hfirst).reaches hread

def joinedParts : List Char := "<?php $v = $a . K . 'x'; echo $v;".toList

def joinedAssignment : Assignment where
  target := ⟨.var 1, "$v", 1, 6⟩
  sign := ⟨.op 0, "=", 1, 9⟩
  first := ⟨.var 2, "$a", 1, 11⟩
  later := [(⟨.plain .concat, ".", 1, 14⟩, ⟨.plain .word, "K", 1, 16⟩),
    (⟨.plain .concat, ".", 1, 18⟩, ⟨.plain .constantText, "'x'", 1, 20⟩)]
  stop := ⟨.plain .semicolon, ";", 1, 23⟩
  assigned := 1
  isVariable := rfl
  assigns := rfl
  operands := by decide
  joins := by decide
  ends := rfl

theorem assignment_adds_operands_parts : let r := ({} : Project).recorder "m.php"
    ∃ r' m' new, Reaches (r, ({} : Masker).loadFile joinedParts) (r', m') ∧
      r.flows.Adds "m.php" "VAR1" new r'.flows ∧ new.map Token.pos = [11, 20] := by
  intro r
  let read := (({} : Masker).loadFile joinedParts).readAll.symbols.map Prod.fst
  have hread : read = joinedAssignment.symbols ++ read.drop 8 := by decide +kernel
  obtain ⟨r', m', hreach, -, split, hadds⟩ := assignment_adds_operands [] "m.php" joinedParts
    joinedAssignment .refl rfl rfl hread (.inl rfl)
  exact ⟨r', m', _, hreach, hadds, rfl⟩

end Recorder

end MaskedTaint
