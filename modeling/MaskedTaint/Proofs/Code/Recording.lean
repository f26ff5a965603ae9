import MaskedTaint.Proofs.Code.Masking
import MaskedTaint.Proofs.Flow.Files

/-! Recording code. The recorder is followed by the scopes and depths of its open blocks and by
the tasks in the innermost one. Inside an expression each open call is an open task, and where
the parentheses are balanced, the tasks are behind it what they were before it. -/

namespace MaskedTaint

/-! ### Tasks -/

/-- The calls that have been opened in a statement, at most `k`. An idle statement takes no
operands. -/
inductive Task.Open (idle : Bool) : Nat → List Task → Prop
  | idle {k : Nat} (h : idle = true) : Open idle k []
  | collect {k : Nat} (h : idle = false) (key : String) (manner : Manner) (waiting : List Token) :
      Open idle k [.collect key manner waiting]
  | call {k : Nat} {tasks : List Task} (callee : Nat) (args : List Token) (h : Open idle k tasks) :
      Open idle (k + 1) (.arguments callee args :: tasks)

def Task.Pending (idle : Bool) (k : Nat) (tasks : List Task) : Prop :=
  Open idle k tasks ∨ idle = false ∧ tasks = [.drain]

theorem Task.Open.mono {idle : Bool} {k k' : Nat} {tasks : List Task} (hle : k ≤ k')
    (h : Open idle k tasks) : Open idle k' tasks := by
  induction h generalizing k' with
  | idle h => exact .idle h
  | collect h key manner waiting => exact .collect h key manner waiting
  | call callee args h ih =>
    obtain ⟨k', rfl⟩ := Nat.exists_eq_add_of_le' (Nat.lt_of_lt_of_le (Nat.succ_pos _) hle)
    exact .call callee args (ih (by omega))

theorem Task.Pending.nil : Pending true 0 [] := .inl (.idle rfl)

theorem Task.Pending.eq_nil {tasks : List Task} (h : Pending true 0 tasks) : tasks = [] := by
  rcases h with h | ⟨h, -⟩
  · cases h with
    | idle => rfl
    | collect h => cases h
  · cases h

namespace Recorder

/-- The scopes and depths of the open blocks, and the tasks of the innermost one. -/
structure Works (r : Recorder) (spine : List (String × Int)) (tasks : List Task) : Prop where
  spine : r.blocks.map (fun b => (b.scope, b.depth)) = spine
  tasks : ∃ b outer, r.blocks = b :: outer ∧ b.tasks = tasks ∧ ∀ o ∈ outer, o.tasks = []

abbrev Leads (r : Recorder) (spine : List (String × Int)) (P : List Task → Prop) : Prop :=
  ∃ tasks, r.Works spine tasks ∧ P tasks

variable {r r' : Recorder} {spine : List (String × Int)} {tasks tasks' : List Task} {u : Masked}
  {idle : Bool} {k : Nat} {b b' : Block} {outer : List Block}

theorem Works.ne_nil (h : r.Works spine tasks) : r.blocks ≠ [] := by
  obtain ⟨b, outer, hblocks, -⟩ := h.tasks
  simp [hblocks]

theorem Works.go (h : r.Works spine tasks) (hblocks : r.blocks = b :: outer)
    (hblocks' : r'.blocks = b' :: outer) (hscope : b'.scope = b.scope) (hdepth : b'.depth = b.depth) :
    r'.Works spine b'.tasks := by
  obtain ⟨b₀, outer₀, hblocks₀, -, houter⟩ := h.tasks
  obtain ⟨rfl, rfl⟩ := List.cons.inj (hblocks.symm.trans hblocks₀)
  refine ⟨?_, b', outer, hblocks', rfl, houter⟩
  rw [← h.spine, hblocks, hblocks']
  simp [hscope, hdepth]

theorem finish_blocks (r : Recorder) (b : Block) (outer : List Block) {last : Option Symbol}
    (hlast : (last.map Symbol.endsBlock).getD false = false) :
    (r.finish b outer last).blocks = { b with tasks := [], last := last } :: outer := by
  simp [Recorder.finish, hlast]

theorem Works.finish {r₁ : Recorder} (h : r.Works spine tasks) (hblocks : r.blocks = b :: outer)
    {last : Option Symbol} (hlast : (last.map Symbol.endsBlock).getD false = false) :
    (r₁.finish b outer last).Works spine [] :=
  h.go hblocks (finish_blocks r₁ b outer hlast) rfl rfl

theorem Works.proceed {r₁ : Recorder} (h : r.Works spine tasks) (hblocks : r.blocks = b :: outer)
    (tasks' : List Task) : (r₁.proceed b outer tasks').Works spine tasks' := by
  have hblocks' : (r₁.proceed b outer tasks').blocks = { b with tasks := tasks' } :: outer := rfl
  exact h.go hblocks hblocks' rfl rfl

def IsQuiet (x : Symbol) : Prop :=
  x.endsStatement = false ∧ x.endsBlock = false ∧ (∀ n, x ≠ .call n) ∧ x.isSanitizer = false ∧
    x ≠ .plain (.sink .sqli) ∧ x ≠ .endParens ∧ (x ≠ .op 0 → startsTask x = false)

theorem isQuiet_of_isCalm {x : Symbol} (hx : x.isCalm = true ∨ x = .plain .rightParen) : IsQuiet x := by
  rcases hx with hx | rfl
  · cases x with
    | plain kind =>
      cases kind <;> first
        | (cases hx; done)
        | simp [IsQuiet, Symbol.endsStatement, Symbol.endsBlock, Symbol.isSanitizer, startsTask]
    | op n => cases n <;> simp [IsQuiet, Symbol.endsStatement, Symbol.endsBlock, Symbol.isSanitizer, startsTask]
    | var n => simp [IsQuiet, Symbol.endsStatement, Symbol.endsBlock, Symbol.isSanitizer, startsTask]
    | _ => cases hx
  · simp [IsQuiet, Symbol.endsStatement, Symbol.endsBlock, Symbol.isSanitizer, startsTask]

theorem Works.take_quiet (h : r.Works spine tasks) (hopen : Task.Open idle k tasks)
    (hu : IsQuiet u.symbol) (hassign : idle = true → u.symbol ≠ .op 0) (place : Int) :
    (r.take u place).Leads spine (Task.Pending idle k) := by
  obtain ⟨b, outer, hblocks, htasks, houter⟩ := h.tasks
  obtain ⟨hstatement, hblock, hcall, hsanitizer, hsink, hparens, hstart⟩ := hu
  simp only [Recorder.take, hblocks, htasks]
  cases hopen with
  | idle hidle =>
    refine ⟨[], ?_, .inl (.idle hidle)⟩
    dsimp only
    rw [start_of_not (hstart (hassign hidle))]
    exact h.finish hblocks hblock
  | collect hidle key manner waiting =>
    have hgo : ∀ (r₁ : Recorder) manner waiting, ∃ tasks',
        (r₁.proceed b outer [.collect key manner waiting]).Works spine tasks' ∧ Task.Pending idle k tasks' :=
      fun r₁ manner waiting => ⟨_, h.proceed hblocks _, .inl (.collect hidle key manner waiting)⟩
    dsimp only
    unfold Recorder.collect
    rw [if_neg (by simp [hstatement])]
    split
    · exact hgo _ _ _
    · rw [if_neg (by simp [hsanitizer])]
      split
      · exact absurd ‹_› (hcall _)
      · split
        · exact ⟨_, h.proceed hblocks _, .inr ⟨hidle, rfl⟩⟩
        · exact hgo _ _ _
      · exact hgo _ _ _
      · exact absurd ‹_› hsink
      · exact hgo _ _ _
  | call callee args hopen =>
    have hgo : ∀ (r₁ : Recorder) args, ∃ tasks',
        (r₁.proceed b outer (.arguments callee args :: _)).Works spine tasks' ∧ Task.Pending idle _ tasks' :=
      fun r₁ args => ⟨_, h.proceed hblocks _, .inl (.call callee args hopen)⟩
    dsimp only
    rw [if_neg (by simpa using hparens)]
    unfold Recorder.takeArgument
    split
    · exact hgo _ _
    · rw [if_neg (by simp [hsanitizer])]
      split
      · exact absurd ‹_› (hcall _)
      · exact absurd ‹_› hsink
      · exact hgo _ _

theorem Works.take_call (h : r.Works spine tasks) (hopen : Task.Open idle k tasks) {n : Nat}
    (hu : u.symbol = .call n) (place : Int) :
    (r.take u place).Leads spine (Task.Open idle (k + 1)) := by
  obtain ⟨b, outer, hblocks, htasks, houter⟩ := h.tasks
  have hgo : ∀ r₁ : Recorder, ∃ tasks',
      (r₁.proceed b outer (.arguments n [] :: tasks)).Works spine tasks' ∧ Task.Open idle (k + 1) tasks' :=
    fun r₁ => ⟨_, h.proceed hblocks _, .call n [] hopen⟩
  simp only [Recorder.take, hblocks, htasks]
  cases hopen with
  | idle hidle =>
    dsimp only [Recorder.start]
    rw [hu]
    exact hgo r
  | collect hidle key manner waiting =>
    dsimp only [Recorder.collect]
    simp only [hu, Symbol.endsStatement, Symbol.isOperand, Symbol.isVariable, Symbol.isSanitizer]
    exact hgo r
  | call callee args hopen =>
    dsimp only [Recorder.takeArgument]
    simp only [hu, Symbol.isOperand, Symbol.isVariable, Symbol.isSanitizer]
    exact hgo r

abbrev skipParens : Task := .skip (.plain .rightParen)

theorem Works.take_sanitizer (h : r.Works spine tasks) (hopen : Task.Open idle k tasks)
    (hu : u.symbol.isSanitizer = true) (place : Int) : ∃ tasks', Task.Open idle k tasks' ∧
      ((r.take u place).Works spine tasks' ∨ (r.take u place).Works spine (skipParens :: tasks')) := by
  obtain ⟨b, outer, hblocks, htasks, houter⟩ := h.tasks
  obtain ⟨v, hv⟩ : ∃ v, u.symbol = .plain (.sanitizer v) := by
    unfold Symbol.isSanitizer at hu
    split at hu
    · exact ⟨_, ‹_›⟩
    · cases hu
  simp only [Recorder.take, hblocks, htasks]
  cases hopen with
  | idle hidle =>
    refine ⟨[], .idle hidle, .inl ?_⟩
    dsimp only
    rw [start_of_not (by rw [hv]; rfl)]
    exact h.finish hblocks (by rw [hv]; rfl)
  | collect hidle key manner waiting =>
    dsimp only [Recorder.collect]
    simp only [hv, Symbol.endsStatement, Symbol.isOperand, Symbol.isVariable, Symbol.isSanitizer]
    exact ⟨_, .collect hidle key manner _, .inr (h.proceed hblocks _)⟩
  | call callee args hopen =>
    dsimp only [Recorder.takeArgument]
    simp only [hv, Symbol.isOperand, Symbol.isVariable, Symbol.isSanitizer]
    exact ⟨_, .call callee _ hopen, .inr (h.proceed hblocks _)⟩

theorem Works.take_endParens (h : r.Works spine tasks) (hopen : Task.Open idle (k + 1) tasks)
    (hu : u.symbol = .endParens) (place : Int) : (r.take u place).Leads spine (Task.Open idle k) := by
  obtain ⟨b, outer, hblocks, htasks, houter⟩ := h.tasks
  simp only [Recorder.take, hblocks, htasks]
  cases hopen with
  | idle hidle =>
    refine ⟨[], ?_, .idle hidle⟩
    dsimp only
    rw [start_of_not (by rw [hu]; rfl)]
    exact h.finish hblocks (by rw [hu]; rfl)
  | collect hidle key manner waiting =>
    refine ⟨_, ?_, .collect hidle key manner waiting⟩
    dsimp only [Recorder.collect]
    simp only [hu, Symbol.endsStatement, Symbol.isOperand, Symbol.isVariable, Symbol.isSanitizer]
    exact h.proceed hblocks _
  | call callee args hopen =>
    dsimp only
    rw [if_pos (by simp [hu])]
    unfold Recorder.endCall
    cases hopen with
    | idle hidle => exact ⟨[], h.finish hblocks (by rw [hu]; rfl), .idle hidle⟩
    | collect hidle key manner waiting => exact ⟨_, h.proceed hblocks _, .collect hidle key manner _⟩
    | call callee' args' hopen => exact ⟨_, h.proceed hblocks _, .call callee' _ hopen⟩

theorem Works.take_skipped {stop : Symbol} (h : r.Works spine (.skip stop :: tasks))
    (hu : u.symbol ≠ stop) (place : Int) : (r.take u place).Works spine (.skip stop :: tasks) := by
  obtain ⟨b, outer, hblocks, htasks, houter⟩ := h.tasks
  have htake : r.take u place = r := by simp [Recorder.take, hblocks, htasks, hu]
  rwa [htake]

theorem Works.take_stop {stop : Symbol} (h : r.Works spine (.skip stop :: tasks))
    (hu : u.symbol = stop) (place : Int) : (r.take u place).Works spine tasks := by
  obtain ⟨b, outer, hblocks, htasks, houter⟩ := h.tasks
  simp only [Recorder.take, hblocks, htasks, hu, beq_self_eq_true, if_true]
  exact h.proceed hblocks tasks

theorem Works.take_drained (h : r.Works spine [.drain]) (hu : u.symbol.endsStatement = false)
    (place : Int) : (r.take u place).Works spine [.drain] := by
  obtain ⟨b, outer, hblocks, htasks, houter⟩ := h.tasks
  have htake : r.take u place = r := by simp [Recorder.take, hblocks, htasks, hu]
  rwa [htake]

end Recorder

/-! ### Expressions -/

namespace Recorder

variable {r : Recorder} {spine : List (String × Int)} {tasks : List Task} {u : Masked} {strict idle busy : Bool}
  {k marked n : Nat} {s : Parens} {next : Kind} {bits : List Bit}

theorem Works.take_pending (h : r.Works spine tasks) (hp : Task.Pending idle k tasks)
    (hu : IsQuiet u.symbol) (hassign : idle = true → u.symbol ≠ .op 0) (place : Int) :
    (r.take u place).Leads spine (Task.Pending idle k) := by
  rcases hp with hopen | ⟨hidle, rfl⟩
  · exact h.take_quiet hopen hu hassign place
  · exact ⟨_, h.take_drained hu.1 place, .inr ⟨hidle, rfl⟩⟩

/-- Calls are open, or something is skipped in front of these tasks. -/
def Within (idle : Bool) (k : Nat) (P : List Task → Prop) (tasks : List Task) : Prop :=
  Task.Pending idle k tasks ∨ ∃ rest, tasks = skipParens :: rest ∧ P rest

theorem Within.imp {P Q : List Task → Prop} (h : Within idle k P tasks) (hPQ : ∀ rest, P rest → Q rest) :
    Within idle k Q tasks :=
  h.imp_right fun ⟨rest, htasks, hrest⟩ => ⟨rest, htasks, hPQ rest hrest⟩

/-- Only open calls are touched: the end of a statement and a plain parenthesis apart, nothing ends
what is skipped or drained. -/
theorem Works.take_within {P : List Task → Prop} {k' : Nat} (h : r.Works spine tasks)
    (hp : Within idle k P tasks) (hends : u.symbol.endsStatement = false)
    (hne : u.symbol ≠ .plain .rightParen) {place : Int}
    (hopen : Task.Open idle k tasks → (r.take u place).Leads spine (Within idle k' P)) :
    (r.take u place).Leads spine (Within idle k' P) := by
  rcases hp with (ho | ⟨hidle, rfl⟩) | ⟨rest, rfl, hrest⟩
  · exact hopen ho
  · exact ⟨_, h.take_drained hends place, .inl (.inr ⟨hidle, rfl⟩)⟩
  · exact ⟨_, h.take_skipped hne place, .inr ⟨rest, rfl, hrest⟩⟩

theorem ne_rightParen_of_isCalm {x : Symbol} (h : x.isCalm = true) : x ≠ .plain .rightParen := by
  rintro rfl
  cases h

/-- What is skipped ends with a plain parenthesis, which comes before the next marked one unless that
belongs to a call that is skipped, too. -/
def Skipped (idle : Bool) (k inner n : Nat) (bits : List Bit) (rest : List Task) : Prop :=
  1 ≤ inner ∧ Task.Open idle k rest ∨ k + inner < n ∧ Task.Open idle 0 rest ∨
    (∃ left more, bits = .group left :: more) ∧ Task.Open idle k rest

/-- Inside an expression: of its parentheses `n` are open. Those that are not counted were opened
where none are counted. -/
structure Inside (strict idle : Bool) (marked n : Nat) (busy : Bool) (s : Parens) (bits : List Bit)
    (tasks : List Task) : Prop where
  le : marked ≤ s.marked
  count : s.marked - marked + s.inner ≤ n
  uncounted : s.marked - marked + s.inner < n → marked = 0
  inner : s.marked = 0 → s.inner = 0
  inCall : s.marked = marked → s.inCall = false
  strict : strict = true → s.marked ≤ marked + 1 ∧ (marked < s.marked → s.inCall = true ∧ busy = true)
  tasks : Within idle (s.marked - marked) (Skipped idle (s.marked - marked) s.inner n bits) tasks

theorem Inside.start (bits : List Bit) (h : Task.Open idle 0 tasks) :
    Inside strict idle marked 0 false (.idle marked) bits tasks := by
  refine ⟨Nat.le_refl _, by simp, by simp, fun _ => rfl, fun _ => rfl, fun _ => ⟨by simp, by simp⟩, ?_⟩
  have hnone : (Parens.idle marked).marked - marked = 0 := Nat.sub_self _
  exact .inl (hnone ▸ .inl h)

theorem Inside.finished (h : Inside strict idle marked 0 busy s [] tasks) :
    s = .idle marked ∧ Task.Pending idle 0 tasks := by
  obtain ⟨sm, si, sc⟩ := s
  have hle := h.le
  have hcount := h.count
  dsimp only at hle hcount
  have hmarked : sm = marked := by omega
  have hinner : si = 0 := by omega
  have hcall := h.inCall hmarked
  dsimp only at hcall
  subst hmarked hinner hcall
  refine ⟨rfl, ?_⟩
  rcases h.tasks with htasks | ⟨rest, -, ⟨hinner, -⟩ | ⟨hlt, -⟩ | ⟨⟨left, more, hbits⟩, -⟩⟩
  · simpa using htasks
  · cases hinner
  · cases hlt
  · cases hbits

theorem Inside.take_plain {b : Bit} (hin : Inside strict idle marked n busy s (b :: bits) tasks)
    (h : r.Works spine tasks) (hb : ∀ left, b ≠ .group left) (hu : u.symbol.isCalm = true)
    (hassign : idle = true → u.symbol ≠ .op 0) (place : Int) :
    (r.take u place).Leads spine (Inside strict idle marked n busy s bits) := by
  have hquiet := isQuiet_of_isCalm (.inl hu)
  obtain ⟨tasks', hworks, htasks⟩ := h.take_within hin.tasks hquiet.1 (ne_rightParen_of_isCalm hu)
    fun ho => (h.take_quiet ho hquiet hassign place).imp fun _ ht => ht.imp_right .inl
  refine ⟨tasks', hworks, { hin with tasks := htasks.imp fun rest hrest => ?_ }⟩
  rcases hrest with hinner | hlt | ⟨⟨left, more, hbits⟩, -⟩
  · exact .inl hinner
  · exact .inr (.inl hlt)
  · exact absurd (List.cons.inj hbits).1 (hb left)

theorem Inside.take_group {left : Sign .leftParen}
    (hin : Inside strict idle marked n busy s (.group left :: bits) tasks) (h : r.Works spine tasks)
    (hu : u.symbol.isCalm = true) (hassign : u.symbol ≠ .op 0) (place : Int) :
    (r.take u place).Leads spine (Inside strict idle marked (n + 1) busy (s.after (.group left)) bits) := by
  have hquiet := isQuiet_of_isCalm (.inl hu)
  obtain ⟨hle, hcount, huncounted, hinner, hcall, hstrict, htasks⟩ := hin
  obtain ⟨tasks', hworks, htasks'⟩ := h.take_within htasks hquiet.1 (ne_rightParen_of_isCalm hu)
    fun ho => (h.take_quiet ho hquiet (fun _ => hassign) place).imp fun _ ht => ht.imp_right .inl
  refine ⟨tasks', hworks, ?_⟩
  by_cases hzero : s.marked = 0
  · rw [Parens.after, if_pos hzero]
    have hnone := hinner hzero
    refine ⟨hle, by omega, fun _ => by omega, hinner, hcall, hstrict, htasks'.imp fun rest hrest => ?_⟩
    rw [hzero, Nat.zero_sub] at hrest
    exact .inr (.inl ⟨by omega, hrest.elim And.right fun h => h.elim And.right And.right⟩)
  · rw [Parens.after, if_neg hzero]
    refine ⟨hle, by dsimp only; omega, fun hlt => huncounted (by dsimp only at hlt; omega),
      fun hno => absurd hno hzero, hcall, hstrict, htasks'.imp fun rest hrest => ?_⟩
    rcases hrest with ⟨-, hopen⟩ | ⟨hlt, hopen⟩ | ⟨-, hopen⟩
    · exact .inl ⟨by dsimp only; omega, hopen⟩
    · exact .inr (.inl ⟨by dsimp only; omega, hopen⟩)
    · exact .inl ⟨by dsimp only; omega, hopen⟩

theorem Inside.take_call {name : Sign .word} {left : Sign .leftParen} {callee : Nat}
    (hin : Inside strict idle marked n busy s (.call name left :: bits) tasks) (h : r.Works spine tasks)
    (hu : u.symbol = .call callee) (hbusy : strict = true → busy = false) (place : Int) :
    (r.take u place).Leads spine (Inside strict idle marked (n + 1) true (s.after (.call name left)) bits) := by
  obtain ⟨hle, hcount, huncounted, hinner, hcall, hstrict, htasks⟩ := hin
  have hmore : s.marked + 1 - marked = s.marked - marked + 1 := by omega
  obtain ⟨tasks', hworks, htasks'⟩ := h.take_within htasks (by rw [hu]; rfl) (by simp [hu])
    fun ho => (h.take_call ho hu place).imp fun _ ht => ht.imp_right fun ho' => .inl (.inl ho')
  refine ⟨tasks', hworks, ?_⟩
  simp only [Parens.after]
  refine ⟨by dsimp only; omega, by dsimp only; omega, fun hlt => huncounted (by dsimp only at hlt; omega),
    fun hno => absurd hno (Nat.succ_ne_zero _), fun hsame => absurd hsame (by dsimp only; omega),
    fun hs => ⟨?_, fun _ => ⟨rfl, rfl⟩⟩, ?_⟩
  · have hnone : ¬ marked < s.marked := fun hlt => by simpa [hbusy hs] using ((hstrict hs).2 hlt).2
    dsimp only
    omega
  · dsimp only
    rw [hmore]
    refine htasks'.imp fun rest hrest => ?_
    rcases hrest with ⟨hone, hopen⟩ | ⟨hlt, hopen⟩ | ⟨⟨left', more, hbits⟩, -⟩
    · exact .inl ⟨hone, hopen.mono (by omega)⟩
    · exact .inr (.inl ⟨by omega, hopen⟩)
    · cases hbits

theorem Inside.take_sanitizer {t : { t : Lexeme // t.kind.isSanitizer = true }}
    (hin : Inside strict idle marked n busy s (.sanitizer t :: bits) tasks) (h : r.Works spine tasks)
    (hu : u.symbol.isSanitizer = true) (hbits : ∃ left more, bits = .group left :: more) (place : Int) :
    (r.take u place).Leads spine (Inside strict idle marked n busy s bits) := by
  have hends : u.symbol.endsStatement = false := by
    unfold Symbol.isSanitizer at hu
    split at hu
    · simp_all [Symbol.endsStatement]
    · cases hu
  have hne : u.symbol ≠ .plain .rightParen := fun he => by rw [he] at hu; cases hu
  have htasks := hin.tasks.imp (Q := Skipped idle (s.marked - marked) s.inner n bits) fun rest hrest =>
    hrest.imp_right fun hrest => hrest.imp_right fun hgroup => ⟨hbits, hgroup.2⟩
  suffices hnext : (r.take u place).Leads spine (Within idle (s.marked - marked) _) from
    hnext.imp fun _ ht => ⟨ht.1, { hin with tasks := ht.2 }⟩
  refine h.take_within htasks hends hne fun ho => ?_
  obtain ⟨tasks', hopen', hworks | hworks⟩ := h.take_sanitizer ho hu place
  · exact ⟨tasks', hworks, .inl (.inl hopen')⟩
  · exact ⟨_, hworks, .inr ⟨tasks', rfl, .inr (.inr ⟨hbits, hopen'⟩)⟩⟩

theorem Inside.lt_marked (hin : Inside strict idle marked n busy s bits tasks) (hn : n ≠ 0)
    (hmarked : s.marked ≠ 0) (hinner : s.inner = 0) : marked < s.marked := by
  have hle := hin.le
  have huncounted := hin.uncounted
  omega

theorem Inside.take_close {right : Sign .rightParen}
    (hin : Inside strict idle marked n busy s (.close right :: bits) tasks) (h : r.Works spine tasks)
    (hu : Bit.Becomes s (.close right) u.symbol) (hn : n ≠ 0) (place : Int) :
    (r.take u place).Leads spine
      (Inside strict idle marked (n - 1) (busy && n != 1) (s.after (.close right)) bits) := by
  have hlt := hin.lt_marked hn
  obtain ⟨hle, hcount, huncounted, hinner, hcall, hstrict, htasks⟩ := hin
  simp only [Bit.Becomes] at hu
  -- a plain parenthesis also ends what is skipped
  have hplain : u.symbol = .plain .rightParen →
      (r.take u place).Leads spine (Task.Pending idle (s.marked - marked)) := by
    intro hu
    rcases htasks with hp | ⟨rest, rfl, hrest⟩
    · exact h.take_pending hp (isQuiet_of_isCalm (.inr hu)) (fun _ => by rw [hu]; simp) place
    · refine ⟨rest, h.take_stop hu place, .inl ?_⟩
      rcases hrest with ⟨-, hopen⟩ | ⟨-, hopen⟩ | ⟨-, hopen⟩
      · exact hopen
      · exact hopen.mono (Nat.zero_le _)
      · exact hopen
  by_cases hzero : s.marked = 0
  · obtain ⟨tasks', hworks, hp⟩ := hplain (by simpa [hzero] using hu)
    have hnone := hinner hzero
    refine ⟨tasks', hworks, ?_⟩
    rw [Parens.after, if_pos hzero]
    exact ⟨hle, by omega, fun _ => by omega, hinner, hcall, fun hs => ⟨by omega, fun hlt => by omega⟩, .inl hp⟩
  by_cases hnone : s.inner = 0
  · have hlt := hlt hzero hnone
    have hu : u.symbol = .endParens := by simpa [hzero, hnone] using hu
    have hless : s.marked - marked = s.marked - 1 - marked + 1 := by omega
    rw [hless] at htasks
    obtain ⟨tasks', hworks, htasks'⟩ := h.take_within htasks (by rw [hu]; rfl) (by simp [hu])
      fun ho => (h.take_endParens ho hu place).imp fun _ ht => ht.imp_right fun ho' => .inl (.inl ho')
    refine ⟨tasks', hworks, ?_⟩
    rw [Parens.after, if_neg hzero, if_pos hnone]
    refine ⟨by dsimp only; omega, by dsimp only; omega, fun hlt => huncounted (by dsimp only at hlt; omega),
      fun _ => hnone, fun _ => rfl, fun hs => ?_, htasks'.imp fun rest hrest => ?_⟩
    · have := (hstrict hs).1
      exact ⟨by dsimp only; omega, fun hlt => by dsimp only at hlt; omega⟩
    · rcases hrest with ⟨hone, -⟩ | ⟨hlt, hopen⟩ | ⟨⟨left, more, hbits⟩, -⟩
      · omega
      · exact .inr (.inl ⟨by dsimp only; omega, hopen⟩)
      · cases hbits
  · obtain ⟨tasks', hworks, hp⟩ := hplain (by simpa [hnone] using hu)
    refine ⟨tasks', hworks, ?_⟩
    rw [Parens.after, if_neg hzero, if_neg hnone]
    refine ⟨hle, by dsimp only; omega, fun hlt => huncounted (by dsimp only at hlt; omega),
      fun hno => absurd hno hzero, hcall, fun hs => ⟨(hstrict hs).1, fun hlt => ?_⟩, .inl hp⟩
    obtain ⟨hin, hbusy⟩ := (hstrict hs).2 hlt
    have hmore : n ≠ 1 := by
      dsimp only at hlt
      omega
    exact ⟨hin, by simp [hbusy, hmore]⟩

theorem exists_group (hnext : next ≠ .leftParen) (h : Bit.firstKind next bits = .leftParen) :
    ∃ left more, bits = .group left :: more := by
  cases bits with
  | nil => exact absurd h hnext
  | cons b bits =>
    cases b with
    | group left => exact ⟨left, bits, rfl⟩
    | plain t =>
      have hcalm := t.property
      rw [show t.val.kind = .leftParen from h] at hcalm
      cases hcalm
    | sanitizer t =>
      have hsanitizer := t.property
      rw [show t.val.kind = .leftParen from h] at hsanitizer
      cases hsanitizer
    | word t | input t | element t _ _ _ | call t _ | close t =>
      exact absurd (t.property.symm.trans h) (by decide)

theorem Inside.take_bit {b : Bit} (hin : Inside strict idle marked n busy s (b :: bits) tasks)
    (h : r.Works spine tasks) (hu : b.IsSymbol s u) (hassign : idle = true → b.isAssignment = false)
    (hnext : next ≠ .leftParen) (hfits : Bit.Fits strict next n busy (b :: bits) = true) (place : Int) :
    ∃ tasks' n' busy', (r.take u place).Works spine tasks' ∧
      Inside strict idle marked n' busy' (s.after b) bits tasks' ∧
      Bit.Fits strict next n' busy' bits = true := by
  obtain ⟨hallows, hrest⟩ := Bool.and_eq_true_iff.mp hfits
  have hbecomes := hu.becomes
  have hquiet : u.symbol.isCalm = true ∧ (u.symbol = .op 0 → b.isAssignment = true) →
      (idle = true → u.symbol ≠ .op 0) := by
    rintro ⟨-, hop⟩ hidle hzero
    rw [hop hzero] at hassign
    cases hassign hidle
  cases b with
  | plain t | word t | input t | element t _ _ _ =>
    obtain ⟨tasks', hworks, hin'⟩ := hin.take_plain h (by simp) hbecomes.1 (hquiet hbecomes) place
    exact ⟨tasks', n, busy, hworks, hin', hrest⟩
  | sanitizer t =>
    have hgroup := exists_group hnext (by simpa [Bit.allows] using hallows)
    obtain ⟨tasks', hworks, hin'⟩ := hin.take_sanitizer h hbecomes hgroup place
    exact ⟨tasks', n, busy, hworks, hin', hrest⟩
  | group left =>
    have hop : u.symbol ≠ .op 0 := fun hzero => by cases hbecomes.2 hzero
    obtain ⟨tasks', hworks, hin'⟩ := hin.take_group h hbecomes.1 hop place
    exact ⟨tasks', n + 1, busy, hworks, hin', hrest⟩
  | call name left =>
    obtain ⟨callee, hcallee⟩ := hbecomes
    obtain ⟨hnest, hrest⟩ := Bool.and_eq_true_iff.mp hrest
    have hbusy : strict = true → busy = false := fun hs => by simpa [hs] using hnest
    obtain ⟨tasks', hworks, hin'⟩ := hin.take_call h hcallee hbusy place
    exact ⟨tasks', n + 1, true, hworks, hin', hrest⟩
  | close right =>
    obtain ⟨hn, hrest⟩ := Bool.and_eq_true_iff.mp hrest
    obtain ⟨tasks', hworks, hin'⟩ := hin.take_close h hbecomes (by simpa using hn) place
    exact ⟨tasks', n - 1, _, hworks, hin', hrest⟩

end Recorder

/-! ### Statements and blocks -/

namespace Recorder

variable {r : Recorder} {spine : List (String × Int)} {tasks : List Task} {u : Masked} {idle : Bool}
  {scope : String} {depth : Int}

theorem Works.take_target (h : r.Works spine []) {n : Nat} (hu : u.symbol = .var n) (place : Int) :
    (r.take u place).Works spine [] ∧
      ∃ b outer, (r.take u place).blocks = b :: outer ∧ b.last = some (.var n) := by
  obtain ⟨b, outer, hblocks, htasks, houter⟩ := h.tasks
  have htake : r.take u place = r.finish b outer (some u.symbol) := by
    simp only [Recorder.take, hblocks, htasks]
    rw [start_of_not (by rw [hu]; rfl)]
  have hlast : ((some u.symbol).map Symbol.endsBlock).getD false = false := by rw [hu]; rfl
  rw [htake]
  exact ⟨h.finish hblocks hlast, _, outer, finish_blocks r b outer hlast, congrArg some hu⟩

theorem Works.take_assign (h : r.Works spine []) {n : Nat}
    (htarget : ∃ b outer, r.blocks = b :: outer ∧ b.last = some (.var n)) (hu : u.symbol = .op 0)
    (place : Int) : ∃ key, (r.take u place).Works spine [.collect key .value []] := by
  obtain ⟨b, outer, hblocks, htasks, houter⟩ := h.tasks
  obtain ⟨b₀, outer₀, hblocks₀, hlast⟩ := htarget
  obtain ⟨rfl, rfl⟩ := List.cons.inj (hblocks.symm.trans hblocks₀)
  refine ⟨(Symbol.var n).name, ?_⟩
  simp only [Recorder.take, hblocks, htasks]
  rw [start_assign hu, hlast]
  exact h.proceed hblocks _

theorem Works.take_deliver (h : r.Works spine []) {kind : Kind} (hkind : kind.isDeliverWord = true)
    (hu : u.symbol = .plain kind) (place : Int) :
    ∃ key manner, (r.take u place).Works spine [.collect key manner []] := by
  obtain ⟨b, outer, hblocks, htasks, houter⟩ := h.tasks
  simp only [Recorder.take, hblocks, htasks]
  unfold Kind.isDeliverWord at hkind
  split at hkind
  iterate 2
    · simp only [Recorder.start, hu]
      exact ⟨_, _, h.proceed hblocks _⟩
  · cases hkind

theorem Works.take_ends (h : r.Works spine tasks) (hp : Task.Pending idle 0 tasks)
    (hends : u.symbol.endsStatement = true) (hno : startsTask u.symbol = false) (place : Int) :
    ∃ r₁ b outer, r.blocks = b :: outer ∧ r.take u place = Recorder.finish r₁ b outer (some u.symbol) := by
  obtain ⟨b, outer, hblocks, htasks, -⟩ := h.tasks
  simp only [Recorder.take, hblocks, htasks]
  rcases hp with hopen | ⟨-, rfl⟩
  · cases hopen with
    | idle => exact ⟨r, b, outer, rfl, start_of_not hno⟩
    | collect _ key manner waiting => exact ⟨_, b, outer, rfl, if_pos hends⟩
  · exact ⟨r, b, outer, rfl, if_pos hends⟩

theorem Works.take_semicolon (h : r.Works spine tasks) (hp : Task.Pending idle 0 tasks)
    (hu : u.symbol = .plain .semicolon) (place : Int) : (r.take u place).Works spine [] := by
  obtain ⟨r₁, b, outer, hblocks, htake⟩ := h.take_ends hp (by rw [hu]; rfl) (by rw [hu]; rfl) place
  rw [htake]
  exact h.finish hblocks (by rw [hu]; rfl)

variable {x : String × Int}

theorem Works.leave {r₁ : Recorder} {b b' : Block} {outer : List Block}
    (h : r.Works (x :: spine) tasks) (hblocks : r.blocks = b :: outer) (hspine : spine ≠ []) :
    (r₁.leave b' outer).Works spine [] := by
  obtain ⟨b₀, outer₀, hblocks₀, -, houter⟩ := h.tasks
  obtain ⟨rfl, rfl⟩ := List.cons.inj (hblocks.symm.trans hblocks₀)
  have hmap := h.spine
  rw [hblocks, List.map_cons, List.cons.injEq] at hmap
  cases outer with
  | nil => exact absurd hmap.2.symm hspine
  | cons o rest =>
    obtain ⟨ho, hrest⟩ := List.forall_mem_cons.mp houter
    refine ⟨?_, _, rest, rfl, ?_, hrest⟩
    · rw [← hmap.2]
      simp only [Recorder.leave, List.map_cons]
      split <;> rfl
    · split
      · exact ho
      · exact ho

theorem Works.take_endBlock (h : r.Works (x :: spine) tasks) (hp : Task.Pending idle 0 tasks)
    (hspine : spine ≠ []) (hu : u.symbol = .endBlock) (place : Int) : (r.take u place).Works spine [] := by
  obtain ⟨r₁, b, outer, hblocks, htake⟩ := h.take_ends hp (by rw [hu]; rfl) (by rw [hu]; rfl) place
  rw [htake, Recorder.finish, if_pos (by rw [hu]; rfl)]
  exact h.leave hblocks hspine

theorem Works.take_enter (h : r.Works ((scope, depth) :: spine) []) {kind : Kind}
    (hkind : kind.isBranchWord = true ∨ kind = .elseWord ∨ kind = .doWord) (hu : u.symbol = .plain kind)
    (place : Int) : (r.take u place).Works ((scope, depth + 1) :: (scope, depth) :: spine) [] := by
  obtain ⟨b, outer, hblocks, htasks, houter⟩ := h.tasks
  have hmap := h.spine
  rw [hblocks, List.map_cons, List.cons.injEq, Prod.mk.injEq] at hmap
  obtain ⟨⟨hscope, hdepth⟩, hrest⟩ := hmap
  have henter : ∀ (b' : Block) (flow : Int), b'.scope = b.scope → b'.depth = b.depth → b'.tasks = [] →
      (r.enter b' outer u flow).Works ((scope, depth + 1) :: (scope, depth) :: spine) [] := by
    intro b' flow hs hd ht
    refine ⟨?_, _, _, rfl, rfl, List.forall_mem_cons.mpr ⟨ht, houter⟩⟩
    simp [Recorder.enter, hs, hd, hscope, hdepth, hrest]
  simp only [Recorder.take, hblocks, htasks]
  rcases hkind with hkind | rfl | rfl
  · cases kind <;> first | (cases hkind; done) | (simp only [Recorder.start, hu]; exact henter _ _ rfl rfl htasks)
  iterate 2
    · simp only [Recorder.start, hu]
      exact henter _ _ rfl rfl htasks

theorem Works.take_idle (h : r.Works spine []) (hu : startsTask u.symbol = false)
    (hends : u.symbol.endsBlock = false) (place : Int) : (r.take u place).Works spine [] := by
  obtain ⟨b, outer, hblocks, htasks, houter⟩ := h.tasks
  simp only [Recorder.take, hblocks, htasks]
  rw [start_of_not hu]
  exact h.finish hblocks hends

/-! ### Functions -/

theorem Works.take_functionWord (h : r.Works spine []) (hu : u.symbol = .plain .functionWord)
    (place : Int) : (r.take u place).Works spine [.declaration] := by
  obtain ⟨b, outer, hblocks, htasks, houter⟩ := h.tasks
  simp only [Recorder.take, hblocks, htasks, Recorder.start, hu]
  exact h.proceed hblocks _

theorem Works.take_declaration (h : r.Works spine [.declaration]) (place : Int) :
    (r.take u place).Works spine [.parameters u.symbol.name] := by
  obtain ⟨b, outer, hblocks, htasks, houter⟩ := h.tasks
  simp only [Recorder.take, hblocks, htasks]
  exact h.proceed hblocks _

theorem Works.take_parameter (h : r.Works spine [.parameters scope]) (hu : u.symbol ≠ .endParens)
    (place : Int) : (r.take u place).Works spine [.parameters scope] := by
  obtain ⟨b, outer, hblocks, htasks, houter⟩ := h.tasks
  simp only [Recorder.take, hblocks, htasks, Recorder.takeParameter]
  rw [if_neg (by simpa using hu)]
  split
  iterate 2 exact h.proceed hblocks _

theorem Works.take_endParams {scope' : String} (h : r.Works ((scope', depth) :: spine) [.parameters scope])
    (hu : u.symbol = .endParens) (place : Int) :
    (r.take u place).Works ((scope, depth) :: (scope', depth) :: spine) [] := by
  obtain ⟨b, outer, hblocks, htasks, houter⟩ := h.tasks
  have hmap := h.spine
  rw [hblocks, List.map_cons, List.cons.injEq, Prod.mk.injEq] at hmap
  obtain ⟨⟨hscope, hdepth⟩, hrest⟩ := hmap
  simp only [Recorder.take, hblocks, htasks, Recorder.takeParameter, hu, beq_self_eq_true, if_true]
  refine ⟨?_, _, _, rfl, rfl, List.forall_mem_cons.mpr ⟨rfl, houter⟩⟩
  simp [Recorder.enterFunction, hscope, hdepth, hrest]

theorem Works.take_endFunction (h : r.Works (x :: spine) []) (hspine : spine ≠ [])
    (hu : u.symbol = .endFunction) (place : Int) : (r.take u place).Works spine [] := by
  obtain ⟨b, outer, hblocks, htasks, houter⟩ := h.tasks
  simp only [Recorder.take, hblocks, htasks]
  rw [start_of_not (by rw [hu]; rfl), Recorder.finish, if_pos (by rw [hu]; rfl)]
  exact h.leave hblocks hspine

end Recorder

end MaskedTaint
