import MaskedTaint.Proofs.Code.Placement
import MaskedTaint.Proofs.Flow.Appending
import MaskedTaint.Proofs.Flow.Failures

/-! The arguments of a call. The masker counts plain parentheses in one place for all calls that
are open, so the end of a call is where it should be if no call stands inside a plain parenthesis
of another. Then the arguments are what stands between the parentheses of the call. -/

namespace MaskedTaint

/-- Parentheses are balanced, where `calls` calls are open and inside of these `groups` plain
parentheses, and no call is opened inside a plain parenthesis. -/
def Bit.Encloses (next : Kind) : Nat → Nat → List Bit → Bool
  | calls, groups, [] => calls == 0 && groups == 0
  | calls, groups, b :: bs => b.allows (firstKind next bs) &&
    match b with
    | group _ => Encloses next calls (groups + 1) bs
    | call _ _ => groups == 0 && Encloses next (calls + 1) 0 bs
    | close _ => if groups = 0 then calls != 0 && Encloses next (calls - 1) 0 bs
      else Encloses next calls (groups - 1) bs
    | sanitizer _ => false
    | _ => Encloses next calls groups bs

def Token.StandsIn (ts : List Lexeme) (a : Token) : Prop := ∃ t ∈ ts, a.pos = t.pos

/-- Where a call is recorded: as a statement, as an operand or as an argument. -/
def Block.hearsCalls (b : Block) : Bool :=
  match b.tasks with
  | [] | .collect _ _ _ :: _ | .arguments _ _ :: _ => true
  | _ => false

namespace Recorder

variable {r : Recorder} {m : Masker} {b : Block} {outer : List Block} {u : Masked}
  {callee : Nat} {args : List Token} {tasks : List Task} {ts : List Lexeme}

/-! ### Symbols between the parentheses -/

/-- The calls that are open inside of a call, with their arguments so far. -/
def openCalls (calls : List (Nat × List Token)) : List Task :=
  calls.map fun c => .arguments c.1 c.2

structure Gathers (ts : List Lexeme) (calls : List (Nat × List Token)) (b : Block)
    (outer : List Block) (tasks : List Task) (r : Recorder) : Prop where
  blocks : r.blocks = { b with tasks := openCalls calls ++ tasks } :: outer
  inside : ∀ c ∈ calls, ∀ a ∈ c.2, a.StandsIn ts

variable {calls : List (Nat × List Token)}

theorem standsIn_concat {a : Token} (hargs : ∀ x ∈ args, x.StandsIn ts) (ha : a.StandsIn ts) :
    ∀ x ∈ args ++ [a], x.StandsIn ts := by
  intro x hx
  rcases List.mem_append.mp hx with hx | hx
  · exact hargs x hx
  · exact List.mem_singleton.mp hx ▸ ha

theorem Gathers.take_quiet (h : r.Gathers ts ((callee, args) :: calls) b outer tasks)
    (hu : IsQuiet u.symbol) (hpos : ∃ t ∈ ts, u.pos = t.pos) (place : Int) :
    ∃ args', (r.take u place).Gathers ts ((callee, args') :: calls) b outer tasks := by
  obtain ⟨-, -, hcall, hsanitizer, hsink, hparens, -⟩ := hu
  obtain ⟨hargs, hrest⟩ := List.forall_mem_cons.mp h.inside
  simp only [take, h.blocks, openCalls, List.map_cons, List.cons_append]
  rw [if_neg (by simpa using hparens)]
  unfold takeArgument
  split
  · exact ⟨_, rfl, List.forall_mem_cons.mpr ⟨standsIn_concat hargs hpos, hrest⟩⟩
  · rw [if_neg (by simp [hsanitizer])]
    split
    · exact absurd ‹_› (hcall _)
    · exact absurd ‹_› hsink
    · exact ⟨args, rfl, h.inside⟩

variable {n : Nat}

theorem Gathers.take_call (h : r.Gathers ts ((callee, args) :: calls) b outer tasks)
    (hu : u.symbol = .call n) (place : Int) :
    (r.take u place).Gathers ts ((n, []) :: (callee, args) :: calls) b outer tasks := by
  refine ⟨?_, List.forall_mem_cons.mpr ⟨by simp, h.inside⟩⟩
  simp only [take, h.blocks, openCalls, List.map_cons, List.cons_append]
  rw [if_neg (by simp [hu])]
  simp [takeArgument, hu, Symbol.isOperand, Symbol.isVariable, Symbol.isSanitizer, proceed]

theorem Gathers.take_endParens {inner : Nat × List Token}
    (h : r.Gathers ts (inner :: (callee, args) :: calls) b outer tasks) (hu : u.symbol = .endParens)
    (hpos : ∃ t ∈ ts, u.pos = t.pos) (place : Int) :
    ∃ args', (r.take u place).Gathers ts ((callee, args') :: calls) b outer tasks := by
  obtain ⟨-, hrest⟩ := List.forall_mem_cons.mp h.inside
  obtain ⟨hargs, hcalls⟩ := List.forall_mem_cons.mp hrest
  simp only [take, h.blocks, openCalls, List.map_cons, List.cons_append]
  rw [if_pos (by simp [hu])]
  exact ⟨_, rfl, List.forall_mem_cons.mpr ⟨standsIn_concat hargs hpos, hcalls⟩⟩

/-! ### From the opening parenthesis to the closing one -/

/-- The account of parentheses where `opened` calls and in them `groups` plain parentheses are
open. Where the end of a call could be taken for that of a condition, no call is in another. -/
structure Accounts (blocks : List CodeBlock) (bits : List Bit) (opened groups : Nat) (s : Parens) :
    Prop where
  marked : opened < s.marked
  inner : s.inner = groups
  single : Masker.announcesBlock blocks = true →
    opened = 0 ∧ s.inCall = true ∧ ∀ b ∈ bits, b.isCall = false

/-- The recording comes to where these lexemes are ahead and all inner calls have ended. -/
def ComesTo (ahead ts : List Lexeme) (blocks : List CodeBlock) (n : Nat) (b : Block)
    (outer : List Block) (tasks : List Task) (r : Recorder) (m : Masker) : Prop :=
  ∃ r' m' args s, Reaches (r, m) (r', m') ∧ r'.Gathers ts [(n, args)] b outer tasks ∧
    m'.Reading ahead s blocks ∧ Accounts blocks [] 0 0 s

theorem ComesTo.after {ahead : List Lexeme} {blocks : List CodeBlock} {m' : Masker}
    (hopen : r.blocks ≠ []) (htoken : Masker.token m = (.ok (some u), m'))
    (h : (r.take u m'.lexer.pos).ComesTo ahead ts blocks n b outer tasks m') :
    r.ComesTo ahead ts blocks n b outer tasks m := by
  obtain ⟨r', m'', args, s, hreach, hend⟩ := h
  exact ⟨r', m'', args, s, .head ⟨hopen, u, htoken, rfl⟩ hreach, hend⟩

theorem Gathers.bits {next : Lexeme} {rest : List Lexeme} {blocks : List CodeBlock}
    (bits : List Bit) (hbits : bits.flatMap Bit.lexemes ⊆ ts) {s : Parens} {opened : List Nat} {groups : Nat}
    (hfits : Bit.Encloses next.kind opened.length groups bits = true)
    (hr : r.Gathers ts calls b outer tasks) (hcalls : calls.map Prod.fst = opened ++ [n])
    (hm : m.Reading (bits.flatMap Bit.lexemes ++ next :: rest) s blocks)
    (hs : Accounts blocks bits opened.length groups s) :
    r.ComesTo (next :: rest) ts blocks n b outer tasks m := by
  induction bits generalizing r m s calls opened groups with
  | nil =>
    simp only [Bit.Encloses, Bool.and_eq_true, beq_iff_eq, List.length_eq_zero_iff] at hfits
    obtain ⟨rfl, rfl⟩ := hfits
    obtain ⟨⟨n', args⟩, rfl, rfl⟩ := List.map_eq_singleton_iff.mp hcalls
    exact ⟨r, m, args, s, .refl, hr, hm, hs.marked, hs.inner, fun ha => ⟨rfl, (hs.single ha).2.1, by simp⟩⟩
  | cons c bits ih =>
    simp only [Bit.Encloses, Bool.and_eq_true] at hfits
    obtain ⟨hallows, hfits⟩ := hfits
    obtain ⟨hc, hbits⟩ := List.append_subset.mp hbits
    have hopen : r.blocks ≠ [] := by simp [hr.blocks]
    obtain ⟨u, m', htoken, hu, -, hm'⟩ := Run.yields_next (.reading hm) hallows fun right _ _ _ hcall => by
      cases ha : Masker.announcesBlock blocks with
      | true => simp [(hs.single ha).2.1] at hcall
      | false => rfl
    have hpos : ∃ t ∈ ts, u.pos = t.pos := by
      obtain ⟨t, ht, hp⟩ := hu.pos
      exact ⟨t, hc ht, hp⟩
    have hgo : ∀ {calls' : List (Nat × List Token)} (opened' : List Nat) (groups' : Nat),
        (r.take u m'.lexer.pos).Gathers ts calls' b outer tasks →
        calls'.map Prod.fst = opened' ++ [n] →
        Bit.Encloses next.kind opened'.length groups' bits = true →
        Accounts blocks bits opened'.length groups' (s.after c) →
        r.ComesTo (next :: rest) ts blocks n b outer tasks m := fun _ _ hr' hcalls' hfits' hs' =>
      .after hopen htoken (ih hbits hfits' hr' hcalls' hm' hs')
    obtain ⟨⟨callee, args⟩, later, rfl⟩ : ∃ c later, calls = c :: later :=
      List.exists_cons_of_ne_nil fun hnil => by simp [hnil] at hcalls
    have hquiet : ∀ {groups' : Nat}, u.symbol.isCalm = true ∨ u.symbol = .plain .rightParen →
        Bit.Encloses next.kind opened.length groups' bits = true → (s.after c).marked = s.marked →
        (s.after c).inCall = s.inCall → (s.after c).inner = groups' →
        r.ComesTo (next :: rest) ts blocks n b outer tasks m := by
      intro groups' hcalm hfits' hmarked hcall hinner
      obtain ⟨args', hr'⟩ := hr.take_quiet (isQuiet_of_isCalm hcalm) hpos m'.lexer.pos
      refine hgo opened groups' hr' hcalls hfits' ⟨hmarked ▸ hs.marked, hinner, fun ha => ?_⟩
      obtain ⟨hnone, hin, hno⟩ := hs.single ha
      exact ⟨hnone, hcall.trans hin, fun d hd => hno d (List.mem_cons_of_mem _ hd)⟩
    have hmarked : s.marked ≠ 0 := Nat.ne_zero_of_lt hs.marked
    cases c with
    | plain t | word t | input t | element t left inside right =>
      exact hquiet (.inl hu.becomes.1) hfits rfl rfl hs.inner
    | sanitizer t => cases hfits
    | group left =>
      refine hquiet (.inl hu.becomes.1) hfits ?_ ?_ ?_ <;> simp [Parens.after, hmarked, hs.inner]
    | call name left =>
      simp only [Bool.and_eq_true, beq_iff_eq] at hfits
      obtain ⟨rfl, hfits⟩ := hfits
      obtain ⟨k, hk⟩ := hu.becomes
      refine hgo (k :: opened) 0 (hr.take_call hk _) (by simpa using hcalls) hfits
        ⟨Nat.succ_lt_succ hs.marked, hs.inner, fun ha => ?_⟩
      cases (hs.single ha).2.2 _ List.mem_cons_self
    | close right =>
      have hbecomes := hu.becomes
      simp only [Bit.Becomes] at hbecomes
      dsimp only at hfits
      split at hfits
      · rename_i hgroups
        simp only [Bool.and_eq_true, bne_iff_ne] at hfits
        obtain ⟨x, opened, rfl⟩ := List.exists_cons_of_length_pos (Nat.pos_of_ne_zero hfits.1)
        have hlater : later.map Prod.fst = opened ++ [n] := (List.cons.inj hcalls).2
        obtain ⟨⟨callee', args'⟩, later, rfl⟩ : ∃ c l, later = c :: l :=
          List.exists_cons_of_ne_nil fun hnil => by simp [hnil] at hlater
        rw [if_pos ⟨hmarked, hs.inner.trans hgroups⟩] at hbecomes
        obtain ⟨args'', hr'⟩ := hr.take_endParens hbecomes hpos m'.lexer.pos
        have hless := hs.marked
        rw [List.length_cons] at hless
        refine hgo opened 0 hr' hlater hfits.2 ⟨?_, ?_, fun ha => ?_⟩
        · simp only [Parens.after, hmarked, hs.inner.trans hgroups, if_true, if_false]
          omega
        · simp only [Parens.after, hmarked, hs.inner.trans hgroups, if_true, if_false]
        · cases (hs.single ha).1
      · rename_i hgroups
        have hinner : s.inner ≠ 0 := hs.inner ▸ hgroups
        rw [if_neg fun h => hinner h.2] at hbecomes
        have hafter : s.after (.close right) = { s with inner := s.inner - 1 } := by
          simp [Parens.after, hmarked, hinner]
        refine hquiet (.inr hbecomes) hfits ?_ ?_ ?_ <;> rw [hafter]
        exact congrArg (· - 1) hs.inner

theorem Gathers.take_end (h : r.Gathers ts [(callee, args)] b outer tasks) (hu : u.symbol = .endParens)
    (place : Int) : ∃ known id m, (r.take u place).flows.tokens? b.scope Special.call.name =
        some (known ++ [.jump id m (Symbol.funcName callee) args]) ∧ m.pos = u.pos := by
  simp only [take, h.blocks, openCalls, List.map_cons, List.map_nil, List.cons_append, List.nil_append]
  rw [if_pos (by simp [hu])]
  unfold endCall
  dsimp only
  split
  iterate 2 exact ⟨_, _, _, Structure.tokens?_append_self _ _ _ _, rfl⟩
  · rw [(finish_frame _ _ _ _).1]
    exact ⟨_, _, _, Structure.tokens?_append_self _ _ _ _, rfl⟩

theorem take_opened (ts : List Lexeme) (hr : r.blocks = b :: outer) (hb : b.hearsCalls = true)
    (hu : u.symbol = .call n) (place : Int) :
    ∃ tasks, (r.take u place).Gathers ts [(n, [])] b outer tasks := by
  unfold Block.hearsCalls at hb
  simp only [take, hr]
  split at hb
  · rename_i htasks
    rw [htasks]
    exact ⟨[], by simp [start, hu, proceed, openCalls], by simp⟩
  · rename_i key manner waiting later htasks
    rw [htasks]
    refine ⟨[.collect key manner waiting], ?_, by simp⟩
    simp [collect, hu, Symbol.endsStatement, Symbol.isOperand, Symbol.isVariable, Symbol.isSanitizer,
      proceed, openCalls]
  · rename_i callee args later htasks
    rw [htasks]
    refine ⟨.arguments callee args :: later, ?_, by simp⟩
    simp [takeArgument, hu, Symbol.isOperand, Symbol.isVariable, Symbol.isSanitizer, proceed, openCalls]
  · cases hb

/-- Wherever a call is recorded that stands in no plain parenthesis of another call or condition,
and inside of which parentheses are balanced and no call stands in a plain one, it is recorded at
the parenthesis that matches its own, and its arguments stand between the two. -/
theorem call_has_own_arguments (name : Sign .word) (left : Sign .leftParen) (inside : List Bit)
    (right : Sign .rightParen) {next : Lexeme} {rest : List Lexeme} {s : Parens}
    {blocks : List CodeBlock} (hr : r.blocks = b :: outer) (hb : b.hearsCalls = true)
    (hm : m.Stands (name.val :: left.val :: (inside.flatMap Bit.lexemes ++ right.val :: next :: rest))
      s blocks) (hinner : s.inner = 0)
    (hinside : Bit.Encloses .rightParen 0 0 inside = true)
    (hsingle : Masker.announcesBlock blocks = true → ∀ b ∈ inside, b.isCall = false) :
    ∃ r' m' n known id mark args, Reaches (r, m) (r', m') ∧
      r'.flows.tokens? b.scope Special.call.name =
        some (known ++ [.jump id mark (Symbol.funcName n) args]) ∧
      mark.pos = right.val.pos ∧ ∀ a ∈ args, ∃ t ∈ inside.flatMap Bit.lexemes, a.pos = t.pos := by
  have hopen : r.blocks ≠ [] := by simp [hr]
  have hfirst : m.Stands ((Bit.call name left :: inside).flatMap Bit.lexemes ++
      right.val :: next :: rest) s blocks := by
    simpa [Bit.lexemes, Bit.first, Bit.later] using hm
  obtain ⟨u, m₁, htoken, hu, -, hm₁⟩ := Run.yields_next hfirst rfl fun _ hcall => by cases hcall
  obtain ⟨n, hn⟩ := hu.becomes
  obtain ⟨tasks, hgathers⟩ := take_opened (inside.flatMap Bit.lexemes) hr hb hn m₁.lexer.pos
  have hcalls : [(n, ([] : List Token))].map Prod.fst = [] ++ [n] := rfl
  have hcomes := hgathers.bits inside (List.Subset.refl _) (by rwa [right.property]) hcalls hm₁
    ⟨Nat.succ_pos _, hinner, fun ha => ⟨rfl, rfl, hsingle ha⟩⟩
  obtain ⟨r', m', args, s', hreach, hgathers', hm', hs'⟩ := hcomes.after hopen htoken
  have hopen' : r'.blocks ≠ [] := by simp [hgathers'.blocks]
  have hlast : m'.Stands ([Bit.close right].flatMap Bit.lexemes ++ next :: rest) s' blocks :=
    .reading (by simpa [Bit.lexemes, Bit.first, Bit.later] using hm')
  obtain ⟨v, m₂, htoken', hv, -, -⟩ := Run.yields_next hlast rfl fun _ _ _ _ hcall => by
    cases ha : Masker.announcesBlock blocks with
    | true => simp [(hs'.single ha).2.1] at hcall
    | false => rfl
  have hend : v.symbol = .endParens := by
    have hbecomes := hv.becomes
    simp only [Bit.Becomes] at hbecomes
    rwa [if_pos ⟨Nat.ne_zero_of_lt hs'.marked, hs'.inner⟩] at hbecomes
  obtain ⟨known, id, mark, hlist, hmark⟩ := hgathers'.take_end hend m₂.lexer.pos
  have hpos : v.pos = right.val.pos := by
    obtain ⟨t, ht, hp⟩ := hv.pos
    rwa [List.mem_singleton.mp ht] at hp
  exact ⟨_, m₂, n, known, id, mark, args, hreach.tail ⟨hopen', v, htoken', rfl⟩, hlist,
    hmark.trans hpos, hgathers'.inside _ List.mem_cons_self⟩

/-- What stands between the parentheses in `f($a, g($b), ($d))`. -/
def mixedArguments : List Bit :=
  [.plain ⟨⟨.dollarName, "$a", 1, 2⟩, rfl⟩,
    .call ⟨⟨.word, "g", 1, 6⟩, rfl⟩ ⟨⟨.leftParen, "(", 1, 7⟩, rfl⟩,
    .plain ⟨⟨.dollarName, "$b", 1, 8⟩, rfl⟩, .close ⟨⟨.rightParen, ")", 1, 10⟩, rfl⟩,
    .group ⟨⟨.leftParen, "(", 1, 13⟩, rfl⟩, .plain ⟨⟨.dollarName, "$d", 1, 14⟩, rfl⟩,
    .close ⟨⟨.rightParen, ")", 1, 16⟩, rfl⟩]

def mixedCall : Masker := ({ lexer := { mode := .code } } : Masker).load "f($a, g($b), ($d));".toList

theorem call_has_own_arguments_mixed :
    ∃ r' m' n known id mark args,
      Reaches (({} : Project).recorder "m.php", mixedCall) (r', m') ∧
      r'.flows.tokens? "m.php" Special.call.name =
        some (known ++ [.jump id mark (Symbol.funcName n) args]) ∧
      mark.pos = 17 ∧ ∀ a ∈ args, ∃ t ∈ mixedArguments.flatMap Bit.lexemes, a.pos = t.pos := by
  have hgives : mixedCall.lexer.Gives (⟨.word, "f", 1, 0⟩ :: ⟨.leftParen, "(", 1, 1⟩ ::
      (mixedArguments.flatMap Bit.lexemes ++ ⟨.rightParen, ")", 1, 17⟩ :: ⟨.semicolon, ";", 1, 18⟩ ::
        [])) := by decide +kernel
  exact call_has_own_arguments ⟨_, rfl⟩ ⟨_, rfl⟩ mixedArguments ⟨⟨.rightParen, ")", 1, 17⟩, rfl⟩
    (b := { scope := "m.php" }) (s := .idle 0) rfl rfl
    (.reading ⟨.inl ⟨rfl, hgives⟩, ⟨rfl, rfl, rfl, rfl⟩, rfl, rfl⟩) rfl (by decide) (by decide)

/-- The parenthesis behind `$a` closes the call of `f`, but that ends at the next one, and `$c`
becomes an argument of it. -/
theorem exists_argument_behind_call :
    ((({} : Project).recordFile "m.php" "<?php echo g((f($a) . $c));".toList).recorder.flows.tokens?
        "m.php" Special.call.name).map (·.map fun t => t.occurrences.map fun u => (u.kind, u.pos)) =
      some [[("FUNC_CALL", 24), ("VAR1", 16), ("VAR2", 22)],
        [("FUNC_CALL", 25), ("FUNC_CALL", 24), ("VAR1", 16), ("VAR2", 22)]] := by
  decide +kernel

end Recorder

end MaskedTaint
