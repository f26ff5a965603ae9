import MaskedTaint.Proofs.Flow.Advancing
import MaskedTaint.Proofs.Flow.Failures

/-! Outputs. Between an output word and the end of its statement, each operand that stands in no
call and no sanitizer is put on the list of outputs, or waits for the end of the statement to get
there; and what is on the list stays on it. -/

namespace MaskedTaint

/-- Where a symbol of a statement stands: how many calls are open, and whether the parentheses of a
sanitizer are, which end at the next closing parenthesis. -/
structure Nesting where
  calls : Nat := 0
  sanitized : Bool := false
  deriving DecidableEq

namespace Nesting

def after (n : Nesting) (x : Symbol) : Nesting :=
  if n.sanitized then { n with sanitized := x != .plain .rightParen }
  else if x.isSanitizer then { n with sanitized := true }
  else
    match x with
    | .call _ => { n with calls := n.calls + 1 }
    | .endParens => { n with calls := n.calls - 1 }
    | _ => n

/-- The statement goes on to its end: all parentheses are closed before, and no query is in a call. -/
def fits (n : Nesting) : List Symbol → Bool
  | [] => n = {}
  | x :: xs => !x.endsStatement && (n.calls = 0 || x != .plain (.sink .sqli)) && (n.after x).fits xs

/-- The operands that stand in no call and no sanitizer. -/
def outside (n : Nesting) : List Masked → List Masked
  | [] => []
  | t :: ts => (if n = {} ∧ t.symbol.isOperand then [t] else []) ++ (n.after t.symbol).outside ts

theorem after_same {n : Nesting} {x : Symbol} (hn : n.sanitized = false) (hx : x.isSanitizer = false)
    (hcall : ∀ k, x ≠ .call k) (hparens : x = .endParens → n.calls = 0) : n.after x = n := by
  unfold after
  rw [if_neg (by simp [hn]), if_neg (by simp [hx])]
  split
  · exact absurd rfl (hcall _)
  · obtain ⟨calls, sanitized⟩ := n
    obtain rfl : calls = 0 := hparens rfl
    rfl
  · rfl

end Nesting

theorem Masker.token_of_readAll {m : Masker} {t : Masked} {later : List Masked}
    (h : m.readAll.symbols.map Prod.fst = t :: later) :
    ∃ m', token m = (.ok (some t), m') ∧ m'.readAll.symbols.map Prod.fst = later := by
  rw [readAll] at h
  split at h
  · rename_i m' ht
    cases h
    exact ⟨m', ht, rfl⟩
  · cases h
  · cases h

namespace Recorder

variable {r : Recorder} {b : Block} {outer : List Block} {t : Masked} {token : Token} {key : String}
  {waiting : List Token} {place p : Int} {n : Nesting} {P : Int → Prop}

/-- The tokens of each list, if one list that is missing has those that wait for it. -/
def held (r : Recorder) (b : Block) (key : String) (waiting : List Token) (s k : String) : List Token :=
  (r.flows.tokens? s k).getD (Structure.only b.scope key waiting s k)

theorem held_gather (s k : String) :
    (r.gather b key waiting token).2.held b key (r.gather b key waiting token).1 s k =
      r.held b key waiting s k ++ Structure.only b.scope key [token] s k := by
  unfold gather held Structure.only
  by_cases hsame : s = b.scope ∧ k = key
  · obtain ⟨rfl, rfl⟩ := hsame
    cases hlist : r.flows.tokens? b.scope k <;>
      simp [hlist, Recorder.record, Structure.append, Structure.tokens?_putTokens_self]
  · split <;> simp [Recorder.record, Structure.append, Structure.tokens?_putTokens_of_ne _ _ hsame]

theorem held_storeSome (s k : String) :
    (r.storeSome b key waiting).flows.list s k = r.held b key waiting s k := by
  unfold storeSome store held Structure.list Structure.only
  by_cases hsame : s = b.scope ∧ k = key
  · obtain ⟨rfl, rfl⟩ := hsame
    cases hlist : r.flows.tokens? b.scope k <;> cases waiting <;>
      simp [hlist, Structure.tokens?_putTokens_self]
  · split
    · simp
    · split <;> simp [Structure.tokens?_putTokens_of_ne _ _ hsame]

/-- A token at this place is in the list of the key, or waits for there to be one. -/
def Has (r : Recorder) (b : Block) (key : String) (waiting : List Token) (p : Int) : Prop :=
  ∃ t ∈ r.held b key waiting b.scope key, t.pos = p

theorem has_gather (h : r.Has b key waiting p ∨ p = token.pos) :
    (r.gather b key waiting token).2.Has b key (r.gather b key waiting token).1 p := by
  unfold Has
  rw [held_gather]
  rcases h with ⟨t, ht, hp⟩ | rfl
  · exact ⟨t, List.mem_append_left _ ht, hp⟩
  · exact ⟨token, by simp [Structure.only], rfl⟩

theorem Has.record {other : String} (h : r.Has b key waiting p) (hkey : key ≠ other) :
    (r.record b other token).Has b key waiting p := by
  unfold Has held Recorder.record Structure.append
  rwa [Structure.tokens?_putTokens_of_ne _ _ fun h => hkey h.2]

theorem plain_of_isOperand {x : Symbol} (h : (x.isOperand || x == .plain .word) = true) :
    x.isSanitizer = false ∧ ∀ k, x ≠ .call k := by
  refine ⟨?_, fun k hx => by simp [hx, Symbol.isOperand, Symbol.isVariable] at h⟩
  cases x with
  | plain kind => cases kind <;> first | rfl | cases h
  | _ => rfl

/-- The tasks of an output: open calls, and outermost the collecting of operands. -/
def printing (n : Nesting) (calls : List (Nat × List Token)) (waiting : List Token) : List Task :=
  (if n.sanitized then [.skip (.plain .rightParen)] else []) ++
    (calls.map (fun c => .arguments c.1 c.2) ++ [.collect (Special.sink .xss).name .printed waiting])

def Prints (b : Block) (outer : List Block) (n : Nesting) (P : Int → Prop) (r : Recorder) : Prop :=
  ∃ calls waiting, calls.length = n.calls ∧
    r.blocks = { b with tasks := printing n calls waiting } :: outer ∧
    ∀ p, P p → r.Has b (Special.sink .xss).name waiting p

theorem Prints.take (h : r.Prints b outer n P) (hends : t.symbol.endsStatement = false)
    (hquery : n.calls = 0 ∨ t.symbol ≠ .plain (.sink .sqli)) (place : Int) :
    (r.take t place).Prints b outer (n.after t.symbol)
      fun p => P p ∨ (n = {} ∧ t.symbol.isOperand = true) ∧ p = t.pos := by
  obtain ⟨calls, waiting, hcalls, hblocks, hhas⟩ := h
  have hkept : ¬ (n = {} ∧ t.symbol.isOperand = true) → ∀ p,
      P p ∨ (n = {} ∧ t.symbol.isOperand = true) ∧ p = t.pos →
      r.Has b (Special.sink .xss).name waiting p := fun hno p hp =>
    hhas p (hp.resolve_right fun h => hno h.1)
  obtain ⟨k, sanitized⟩ := n
  obtain rfl : k = calls.length := hcalls.symm
  cases sanitized with
  | true =>
    have hafter : Nesting.after ⟨calls.length, true⟩ t.symbol =
      ⟨calls.length, t.symbol != .plain .rightParen⟩ := rfl
    simp only [Recorder.take, hblocks, printing, if_true, List.cons_append, List.nil_append, hafter]
    split
    · rename_i hright
      exact ⟨calls, waiting, rfl, by simp [proceed, printing, bne, hright], hkept (by simp)⟩
    · rename_i hright
      exact ⟨calls, waiting, rfl, by simp [hblocks, printing, bne, hright], hkept (by simp)⟩
  | false =>
    have hsanitize : t.symbol.isSanitizer = true →
        Nesting.after ⟨calls.length, false⟩ t.symbol = ⟨calls.length, true⟩ :=
      fun hs => by simp [Nesting.after, hs]
    have hcall : ∀ {callee}, t.symbol = .call callee →
        Nesting.after ⟨calls.length, false⟩ t.symbol = ⟨calls.length + 1, false⟩ :=
      fun hu => by simp [Nesting.after, hu, Symbol.isSanitizer]
    simp only [Recorder.take, hblocks, printing, List.nil_append, Bool.false_eq_true, if_false]
    cases calls with
    | nil =>
      simp only [List.map_nil, List.nil_append]
      unfold Recorder.collect
      rw [if_neg (by simp [hends])]
      split
      · rename_i ho
        have hplain := plain_of_isOperand (x := t.symbol) (by simp [ho])
        rw [Nesting.after_same rfl hplain.1 hplain.2 fun _ => rfl]
        exact ⟨[], _, rfl, rfl, fun p hp => has_gather (hp.imp (hhas p) And.right)⟩
      rename_i ho
      have hkept := hkept (by simp [ho])
      split
      · rename_i hs
        rw [hsanitize hs]
        exact ⟨[], _, rfl, rfl, fun p hp => has_gather (.inl (hkept p hp))⟩
      rename_i hs
      split
      · rename_i hu
        rw [hcall hu]
        exact ⟨[(_, [])], waiting, rfl, rfl, hkept⟩
      case h_5 hno _ _ _ =>
        rw [Nesting.after_same rfl (by simpa using hs) hno fun _ => rfl]
        exact ⟨[], waiting, rfl, rfl, hkept⟩
      all_goals rename_i hvalue; cases hvalue
    | cons c calls =>
      have hheld := hkept (by simp)
      simp only [List.map_cons, List.cons_append]
      split
      · rename_i hparens
        have hafter : Nesting.after ⟨calls.length + 1, false⟩ t.symbol = ⟨calls.length, false⟩ := by
          rw [eq_of_beq hparens]
          rfl
        rw [List.length_cons, hafter]
        unfold Recorder.endCall
        cases calls with
        | nil =>
          exact ⟨[], _, rfl, rfl, fun p hp => Has.record (has_gather (.inl (hheld p hp))) (by decide)⟩
        | cons c' calls =>
          exact ⟨(c'.1, c'.2 ++ [_]) :: calls, waiting, rfl, rfl, fun p hp => (hheld p hp).record (by decide)⟩
      rename_i hparens
      have hsame : t.symbol.isSanitizer = false → (∀ k, t.symbol ≠ .call k) → _ := fun hs hno =>
        Nesting.after_same (n := ⟨(c :: calls).length, false⟩) rfl hs hno
          fun h => absurd h (by simpa using hparens)
      unfold Recorder.takeArgument
      split
      · rename_i ho
        rw [hsame (plain_of_isOperand ho).1 (plain_of_isOperand ho).2]
        exact ⟨(c.1, c.2 ++ [_]) :: calls, waiting, rfl, rfl, hheld⟩
      split
      · rename_i hs
        rw [hsanitize hs]
        exact ⟨(c.1, c.2 ++ [_]) :: calls, waiting, rfl, rfl, hheld⟩
      rename_i hs
      split
      · rename_i hu
        rw [hcall hu]
        exact ⟨(_, []) :: c :: calls, waiting, rfl, rfl, hheld⟩
      · exact absurd ‹_› (hquery.resolve_left (Nat.succ_ne_zero _))
      · rename_i hno _
        rw [hsame (by simpa using hs) hno]
        exact ⟨c :: calls, waiting, rfl, rfl, hheld⟩

theorem Prints.ne_nil (h : r.Prints b outer n P) : r.blocks ≠ [] := by
  obtain ⟨_, _, -, hblocks, -⟩ := h
  simp [hblocks]

theorem Prints.run {m : Masker} {stop : Masked} {ts later : List Masked} (h : r.Prints b outer n P)
    (hread : m.readAll.symbols.map Prod.fst = ts ++ stop :: later)
    (hfits : n.fits (ts.map Masked.symbol) = true) :
    ∃ r' m₁, Reaches (r, m) (r', m₁) ∧ (∃ m', Masker.token m₁ = (.ok (some stop), m')) ∧
      r'.Prints b outer {} fun p => P p ∨ p ∈ (n.outside ts).map Masked.pos := by
  induction ts generalizing r m n P with
  | nil =>
    obtain rfl : n = {} := by simpa [Nesting.fits] using hfits
    obtain ⟨m', htoken, -⟩ := Masker.token_of_readAll hread
    exact ⟨r, m, .refl, ⟨m', htoken⟩, by simpa [Nesting.outside] using h⟩
  | cons t ts ih =>
    obtain ⟨m', htoken, hrest⟩ := Masker.token_of_readAll hread
    simp only [List.map_cons, Nesting.fits, Bool.and_eq_true, Bool.not_eq_true', Bool.or_eq_true,
      decide_eq_true_eq, bne_iff_ne] at hfits
    obtain ⟨r', m₁, hreach, hstop, calls, waiting, hcalls, hblocks, hhas⟩ :=
      ih (h.take hfits.1.1 hfits.1.2 m'.lexer.pos) hrest hfits.2
    refine ⟨r', m₁, hreach.head ⟨h.ne_nil, t, htoken, rfl⟩, hstop, calls, waiting, hcalls, hblocks,
      fun p hp => hhas p ?_⟩
    rw [Nesting.outside, List.map_append, List.mem_append] at hp
    rcases hp with hp | hp | hp
    · exact .inl (.inl hp)
    · split at hp
      · exact .inl (.inr ⟨‹_›, List.mem_singleton.mp hp⟩)
      · cases hp
    · exact .inr hp

theorem Prints.stop (h : r.Prints b outer {} P) (ht : t.symbol.endsStatement = true) (hp : P p) (place : Int) :
    ∃ id, (r.take t place).flows.Lists b.scope (Special.sink .xss).name id p := by
  obtain ⟨calls, waiting, hcalls, hblocks, hhas⟩ := h
  obtain rfl := List.length_eq_zero_iff.mp hcalls
  simp only [Recorder.take, hblocks, printing, Recorder.collect, ht, if_true, Bool.false_eq_true,
    if_false, List.map_nil, List.nil_append, (finish_frame _ _ _ _).1]
  obtain ⟨t, ht, hpos⟩ := hhas p hp
  rw [← held_storeSome] at ht
  exact ⟨t.id, t, ht, rfl, hpos⟩

/-- Where an output begins between two statements, each of its operands that stands in no call and no
sanitizer gets into the list of outputs of the scope, if the parentheses are closed before the
statement ends and no query is made in a call. -/
theorem output_operand_is_listed (p : Project) (name : String) (code : List Char) {m : Masker}
    {word stop : Masked} {ts later : List Masked}
    (hreach : Reaches (p.recorder name, p.masker.loadFile code) (r, m))
    (hblocks : r.blocks = b :: outer) (hidle : b.tasks = [])
    (hread : m.readAll.symbols.map Prod.fst = word :: (ts ++ stop :: later))
    (hword : word.symbol = .plain (.sink .xss)) (hstop : stop.symbol.endsStatement = true)
    (hfits : Nesting.fits {} (ts.map Masked.symbol) = true) :
    ∀ pos ∈ (Nesting.outside {} ts).map Masked.pos, ∃ id,
      (p.recordFile name code).recorder.flows.Lists b.scope (Special.sink .xss).name id pos := by
  obtain ⟨m', htoken, hrest⟩ := Masker.token_of_readAll hread
  have hprints : (r.take word m'.lexer.pos).Prints b outer {} fun _ => False := by
    refine ⟨[], [], rfl, ?_, fun _ => False.elim⟩
    simp [Recorder.take, hblocks, hidle, start, hword, proceed, printing]
  obtain ⟨r₁, m₁, hrun, ⟨m₂, hlast⟩, hprints⟩ := hprints.run hrest hfits
  have hdone : Reaches (p.recorder name, p.masker.loadFile code) (r₁.take stop m₂.lexer.pos, m₂) :=
    (hreach.trans (hrun.head ⟨by simp [hblocks], word, htoken, rfl⟩)).tail ⟨hprints.ne_nil, stop, hlast, rfl⟩
  intro pos hpos
  obtain ⟨id, hlists⟩ := hprints.stop hstop (.inr hpos) m₂.lexer.pos
  refine ⟨id, ?_⟩
  rw [Project.recordFile_eq, hdone.follow_eq]
  have hfilling := hdone.keeps (I := fun r => r.Filling .any (p.recorder name))
    (fun r t place hr => hr.take Contents.any_closed (fun b _ _ => r.admits_any b t) place)
    (p.filling_recorder .any name)
  exact (follow_any m₂ hfilling.self).stored.flows.keeps _ _ _ _ hlists

def printedParts : List Char := "<?php echo $a . f($b, g($c)) . htmlentities($d) . $e; echo $e;".toList

theorem output_operand_is_listed_parts :
    let read := (({} : Masker).loadFile printedParts).readAll.symbols.map Prod.fst
    (Nesting.outside {} ((read.drop 1).take 15)).map Masked.pos = [11, 50] ∧
      ∀ pos ∈ [11, 50], ∃ id, (Project.recordFile {} "m.php" printedParts).recorder.flows.Lists "m.php"
        (Special.sink .xss).name id pos := by
  intro read
  have hpos : (Nesting.outside {} ((read.drop 1).take 15)).map Masked.pos = [11, 50] := by decide +kernel
  refine ⟨hpos, ?_⟩
  have hread : read = ⟨.plain (.sink .xss), "echo", 1, 6⟩ :: ((read.drop 1).take 15 ++
      ⟨.plain .semicolon, ";", 1, 52⟩ :: read.drop 17) := by decide +kernel
  rw [← hpos]
  exact output_operand_is_listed {} "m.php" printedParts .refl rfl rfl hread rfl rfl (by decide +kernel)

end Recorder

end MaskedTaint
