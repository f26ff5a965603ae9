import MaskedTaint.Proofs.Code.Recording

/-! Where the tokens of code stand. A run over code is followed piece by piece: before and behind
each piece the masker stands at the lexemes ahead, and the recorder has the same blocks open.
Hence every operand is recorded with the depth and the scope of its statement. -/

namespace MaskedTaint

inductive Token.PlacedIn (places : List Spot) (scope : String) : Token → Prop
  | site {id : Nat} {m : Mark} (hplace : ⟨m.pos, m.depth, m.scope⟩ ∈ places) (hscope : m.scope = scope) :
      PlacedIn places scope (site id m)
  | jump {id : Nat} {m : Mark} {target : String} {args : List Token}
      (hplace : ⟨m.pos, m.depth, m.scope⟩ ∈ places) (hscope : m.scope = scope)
      (hargs : ∀ a ∈ args, PlacedIn places scope a) : PlacedIn places scope (jump id m target args)

theorem Token.PlacedIn.place {places : List Spot} {scope : String} {t : Token}
    (h : t.PlacedIn places scope) : ⟨t.mark.pos, t.mark.depth, t.mark.scope⟩ ∈ places := by
  cases h with
  | site hplace => exact hplace
  | jump hplace => exact hplace

def Contents.placed (places : List Spot) : Contents where
  listed scope key t := key = Special.params.name ∨ t.PlacedIn places scope
  argument scope t := t.PlacedIn places scope
  parameter _ _ := True

theorem Contents.placed_closed (places : List Spot) : (placed places).Closed := by
  refine ⟨fun scope key t n h => h.imp_right fun ht => ?_, fun scope t _ => .inl rfl⟩
  cases ht with
  | site hplace hscope => exact .site hplace hscope
  | jump hplace hscope hargs => exact .jump hplace hscope hargs

theorem Recorder.admits_placed {places : List Spot} (r : Recorder) {b : Block} {u : Masked}
    (h : ⟨u.pos, b.depth, b.scope⟩ ∈ places) : r.Admits (.placed places) b u := by
  refine ⟨fun key _ => .inr (.site h rfl), .site h rfl, fun _ _ => trivial, fun callee args _ hargs => ?_,
    .inr ?_, fun _ _ => trivial⟩
  · exact ⟨.jump h rfl hargs, fun key _ => .inr (.jump h rfl hargs)⟩
  · exact .jump h rfl (List.forall_mem_nil _)

def Masker.scopeOf (m : Masker) (name : String) : String := Symbol.funcName (m.funcs.idxOf name + 1)

/-- A run of the recorder over a file: where it starts and ends, and where tokens may be. -/
structure Run where
  start : Recorder
  done : Recorded
  places : List Spot

namespace Run

def Passes (X : Run) (K : Masker → Prop) (spine : List (String × Int)) (tasks : List Task) : Prop :=
  ∃ (r : Recorder) (m : Masker), r.follow m = X.done ∧ r.Filling (.placed X.places) X.start ∧
    K m ∧ r.Works spine tasks

/-- These lexemes and blocks are ahead of the masker. If it is firm, a closing tag ahead ends a
statement. -/
def At (X : Run) (firm : Prop) (ts : List Lexeme) (s : Parens) (blocks : List CodeBlock)
    (spine : List (String × Int)) (tasks : List Task) : Prop :=
  X.Passes (fun m => m.Stands ts s blocks ∧ (firm → m.blockAhead = false ∧ m.Unfinished)) spine tasks

variable {X : Run} {firm : Prop} {ts : List Lexeme} {s : Parens} {blocks : List CodeBlock}
  {spine : List (String × Int)} {tasks : List Task} {scope : String} {depth : Int} {K K' : Masker → Prop}

theorem Passes.imp (h : X.Passes K spine tasks) (hK : ∀ m, K m → K' m) : X.Passes K' spine tasks := by
  obtain ⟨r, m, hfollow, hfilling, hm, hr⟩ := h
  exact ⟨r, m, hfollow, hfilling, hK m hm, hr⟩

def Covers (X : Run) (depth : Int) (scope : String) (ts : List Lexeme) : Prop :=
  ∀ t ∈ ts, ⟨t.pos, depth, scope⟩ ∈ X.places

variable {t : Lexeme} {m : Masker} {kind : Kind}

theorem Covers.head (h : X.Covers depth scope (t :: ts)) : ⟨t.pos, depth, scope⟩ ∈ X.places :=
  h t List.mem_cons_self

theorem Covers.tail (h : X.Covers depth scope (t :: ts)) : X.Covers depth scope ts :=
  fun x hx => h x (List.mem_cons_of_mem t hx)

theorem Covers.left {ts' : List Lexeme} (h : X.Covers depth scope (ts ++ ts')) : X.Covers depth scope ts :=
  fun x hx => h x (List.mem_append_left ts' hx)

theorem Covers.right {ts' : List Lexeme} (h : X.Covers depth scope (ts ++ ts')) : X.Covers depth scope ts' :=
  fun x hx => h x (List.mem_append_right ts hx)

theorem covers_of_subset (h : placesOf depth scope ts ⊆ X.places) : X.Covers depth scope ts :=
  fun _ ht => h (List.mem_map_of_mem ht)

theorem step {r : Recorder} {P : Masked → Prop} {Q : Masker → Prop}
    (hfollow : r.follow m = X.done) (hfilling : r.Filling (.placed X.places) X.start)
    (hworks : r.Works ((scope, depth) :: spine) tasks) (hyields : m.Yields P Q)
    (hplace : ∀ u, P u → ⟨u.pos, depth, scope⟩ ∈ X.places) :
    ∃ u m', P u ∧ Q m' ∧ m'.last = some u ∧ m'.Grows X.done.masker ∧
      (r.take u m'.lexer.pos).follow m' = X.done ∧
      (r.take u m'.lexer.pos).Filling (.placed X.places) X.start := by
  obtain ⟨u, m', htoken, hu, hlast, hm'⟩ := hyields
  have hne := hworks.ne_nil
  refine ⟨u, m', hu, hm', hlast, ?_, ?_, ?_⟩
  · have hgrows := Recorder.token_grows_follow m hne
    rwa [htoken, hfollow] at hgrows
  · rw [← hfollow, Recorder.follow_step htoken hne]
  · refine hfilling.take (Contents.placed_closed _) (fun b outer hblocks => ?_) _
    obtain ⟨b₀, outer₀, hblocks₀, -⟩ := hworks.tasks
    obtain ⟨rfl, rfl⟩ := List.cons.inj (hblocks.symm.trans hblocks₀)
    have hspine := hworks.spine
    rw [hblocks, List.map_cons, List.cons.injEq, Prod.mk.injEq] at hspine
    obtain ⟨⟨hscope, hdepth⟩, -⟩ := hspine
    refine Recorder.admits_placed r ?_
    rw [hscope, hdepth]
    exact hplace u hu

theorem first_matters (b : Bit) : b.first.kind.isLayout = false ∧ b.first.kind ≠ .leftBrace := by
  cases b with
  | plain t | sanitizer t =>
    obtain ⟨⟨kind, text, line, pos⟩, ht⟩ := t
    cases kind <;> first | (cases ht; done) | exact ⟨rfl, by simp [Bit.first]⟩
  | word t | input t | element t _ _ _ | group t | call t _ | close t =>
    simp [Bit.first, t.property, Kind.isLayout]

theorem firstKind_ne_closeTag {bits : List Bit} {next : Kind} (h : bits = [] → next ≠ .closeTag) :
    Bit.firstKind next bits ≠ .closeTag := by
  cases bits with
  | nil => exact h rfl
  | cons b bits =>
    intro htag
    have hlayout := (first_matters b).1
    rw [show b.first.kind = .closeTag from htag] at hlayout
    cases hlayout

theorem yields_next {b : Bit} {bits : List Bit} {next : Lexeme}
    (h : m.Stands ((b :: bits).flatMap Bit.lexemes ++ next :: ts) s blocks)
    (hallows : b.allows (Bit.firstKind next.kind bits) = true)
    (hclose : ∀ right, b = .close right → s.marked ≠ 0 → s.inner = 0 → s.inCall = false →
      Masker.announcesBlock blocks = false) : m.Yields (b.IsSymbol s)
      (fun m' => m'.Reading (bits.flatMap Bit.lexemes ++ next :: ts) (s.after b) blocks) := by
  have hmeets : m.Meets b.first.masked (b.later ++ (bits.flatMap Bit.lexemes ++ next :: ts)) s blocks := by
    refine Masker.Stands.meets ?_ (first_matters b).1 (first_matters b).2
    simpa [Bit.lexemes] using h
  cases bits with
  | nil | cons b' bits => exact Masker.yields_bit b hmeets hallows hclose

theorem At.bits {strict idle busy : Bool} {marked : Nat} {next : Lexeme} {n : Nat} (bits : List Bit)
    (hstrict : Masker.announcesBlock blocks = true → strict = true) (hnext : next.kind ≠ .leftParen)
    (hassign : idle = true → ∀ b ∈ bits, b.isAssignment = false)
    (hcovers : X.Covers depth scope (bits.flatMap Bit.lexemes))
    (hin : Recorder.Inside strict idle marked n busy s bits tasks)
    (hfits : Bit.Fits strict next.kind n busy bits = true)
    (h : X.At (Bit.firstKind next.kind bits = .closeTag) (bits.flatMap Bit.lexemes ++ next :: ts) s blocks
      ((scope, depth) :: spine) tasks) : ∃ tasks', Task.Pending idle 0 tasks' ∧
      X.At (next.kind = .closeTag) (next :: ts) (.idle marked) blocks ((scope, depth) :: spine) tasks' := by
  induction bits generalizing n busy s tasks with
  | nil =>
    have hn : n = 0 := by simpa [Bit.Fits] using hfits
    subst hn
    obtain ⟨rfl, hp⟩ := hin.finished
    exact ⟨tasks, hp, h⟩
  | cons b bits ih =>
    obtain ⟨r, m, hfollow, hfilling, ⟨hstands, -⟩, hworks⟩ := h
    obtain ⟨hallows, -⟩ := Bool.and_eq_true_iff.mp hfits
    have hclose : ∀ right, b = .close right → s.marked ≠ 0 → s.inner = 0 → s.inCall = false →
        Masker.announcesBlock blocks = false := by
      rintro right rfl hmarked hinner hcall
      have hn : n ≠ 0 := by
        obtain ⟨-, hrest⟩ := Bool.and_eq_true_iff.mp hfits
        simpa using (Bool.and_eq_true_iff.mp hrest).1
      have hlt := hin.lt_marked hn hmarked hinner
      refine Bool.eq_false_iff.mpr fun hannounces => ?_
      rw [((hin.strict (hstrict hannounces)).2 hlt).1] at hcall
      cases hcall
    have hyields := yields_next hstands hallows hclose
    have hplace : ∀ u, b.IsSymbol s u → ⟨u.pos, depth, scope⟩ ∈ X.places := by
      intro u hu
      obtain ⟨t, ht, hpos⟩ := hu.pos
      rw [hpos]
      exact hcovers.left t ht
    obtain ⟨u, m', hu, hm', hlast, -, hfollow', hfilling'⟩ :=
      step hfollow hfilling hworks hyields hplace
    obtain ⟨tasks', n', busy', hworks', hin', hfits'⟩ := hin.take_bit hworks hu
      (fun hidle => hassign hidle b List.mem_cons_self) hnext hfits m'.lexer.pos
    refine ih (fun hidle b hb => hassign hidle b (List.mem_cons_of_mem _ hb))
      hcovers.right hin' hfits'
      ⟨_, m', hfollow', hfilling', ⟨.reading hm', fun htag => ⟨hm'.blockAhead, u, hlast, ?_⟩⟩, hworks'⟩
    rw [htag] at hallows
    exact hu.unfinished hallows

/-! ### Statements -/

theorem Passes.go {P : Masked → Prop} {Q : Masker → Prop} {spine' : List (String × Int)}
    {tasks' : List Task} (h : X.Passes K ((scope, depth) :: spine) tasks)
    (hyields : ∀ m, K m → m.Yields P Q) (hplace : ∀ u, P u → ⟨u.pos, depth, scope⟩ ∈ X.places)
    (hK : ∀ m, Q m → K' m)
    (hworks : ∀ (r : Recorder) u place, P u → r.Works ((scope, depth) :: spine) tasks →
      (r.take u place).Works spine' tasks') : X.Passes K' spine' tasks' := by
  obtain ⟨r, m, hfollow, hfilling, hm, hr⟩ := h
  obtain ⟨u, m', hu, hm', -, -, hfollow', hfilling'⟩ := step hfollow hfilling hr (hyields m hm) hplace
  exact ⟨_, m', hfollow', hfilling', hK m' hm', hworks r u _ hu hr⟩

theorem stands_and (h : m.Stands ts s blocks) :
    m.Stands ts s blocks ∧ (False → m.blockAhead = false ∧ m.Unfinished) :=
  ⟨h, False.elim⟩

def AtStop (X : Run) (ts : List Lexeme) (marked : Nat) (blocks : List CodeBlock)
    (scope : String) (depth : Int) (spine : List (String × Int)) : Prop :=
  ∃ idle tasks stop, Kind.isStop stop.kind = true ∧ Task.Pending idle 0 tasks ∧
    ⟨stop.pos, depth, scope⟩ ∈ X.places ∧
    X.At (stop.kind = .closeTag) (stop :: ts) (.idle marked) blocks ((scope, depth) :: spine) tasks

variable {strict : Bool} {marked : Nat} {m : Masker}

theorem ne_leftParen_of_isStop (h : kind.isStop = true) : kind ≠ .leftParen := by
  rintro rfl
  cases h

theorem At.value {stop : Lexeme} {key : String} {manner : Manner} {waiting : List Token} (bits : List Bit)
    (hstop : stop.kind.isStop = true) (hstrict : Masker.announcesBlock blocks = true → strict = true)
    (hfits : Bit.Fits strict stop.kind 0 false bits = true)
    (hcovers : X.Covers depth scope (bits.flatMap Bit.lexemes ++ [stop]))
    (h : X.At (Bit.firstKind stop.kind bits = .closeTag) (bits.flatMap Bit.lexemes ++ stop :: ts)
      (.idle marked) blocks ((scope, depth) :: spine) [.collect key manner waiting]) :
    X.AtStop ts marked blocks scope depth spine := by
  have hin : Recorder.Inside strict false marked 0 false (.idle marked) bits [.collect key manner waiting] :=
    .start bits (.collect rfl key manner waiting)
  obtain ⟨tasks', hp, hat⟩ := h.bits bits hstrict (ne_leftParen_of_isStop hstop)
    (fun hno => by cases hno) hcovers.left hin hfits
  exact ⟨false, tasks', stop, hstop, hp, hcovers.right.head, hat⟩

theorem deliverWord_matters (h : kind.isDeliverWord = true) :
    kind.isLayout = false ∧ kind ≠ .leftBrace ∧ Masker.needsNoEnd (.plain kind) = false := by
  unfold Kind.isDeliverWord at h
  split at h
  iterate 2 exact ⟨rfl, by decide, rfl⟩
  · cases h

theorem At.statement (st : Statement) (hstrict : Masker.announcesBlock blocks = true → strict = true)
    (hfits : st.fits strict = true) (hcovers : X.Covers depth scope st.lexemes)
    (h : X.At False (st.lexemes ++ ts) (.idle marked) blocks ((scope, depth) :: spine) []) :
    X.AtStop ts marked blocks scope depth spine := by
  cases st with
  | assign target sign value stop =>
    simp only [Statement.lexemes, List.cons_append, List.append_assoc, List.nil_append] at h
    obtain ⟨r, m, hfollow, hfilling, ⟨hm, -⟩, hr⟩ := h
    have hmeets := hm.meetsSign target rfl (by decide)
    obtain ⟨u, m₁, ⟨⟨n, hn⟩, -⟩, hm₁, -, -, hfollow₁, hfilling₁⟩ :=
      step hfollow hfilling hr (Masker.yields_variable target hmeets) fun u hu => hu.2 ▸ hcovers.head
    obtain ⟨hr₁, htarget⟩ := hr.take_target hn m₁.lexer.pos
    have hkeep := Masker.sift_keep (t := sign.val) m₁.last (by rw [sign.property.1]; rfl)
    obtain ⟨v, m₂, ⟨⟨k, hk, hassign⟩, -⟩, hm₂, hlast, -, hfollow₂, hfilling₂⟩ :=
      step hfollow₁ hfilling₁ hr₁ (Masker.yields_operator ⟨sign.val, sign.property.1⟩ (hm₁.meets hkeep))
        fun u hu => hu.2 ▸ hcovers.tail.head
    rw [hassign.mpr sign.property.2] at hk
    obtain ⟨key, hr₂⟩ := hr₁.take_assign htarget hk m₂.lexer.pos
    exact At.value value stop.property hstrict hfits hcovers.tail.tail
      ⟨_, m₂, hfollow₂, hfilling₂, ⟨.reading hm₂, fun _ => ⟨hm₂.blockAhead, v, hlast, by rw [hk]; rfl⟩⟩, hr₂⟩
  | deliver word value stop =>
    simp only [Statement.lexemes, List.cons_append, List.append_assoc, List.nil_append] at h
    obtain ⟨r, m, hfollow, hfilling, ⟨hm, -⟩, hr⟩ := h
    obtain ⟨hlayout, hbrace, hneeds⟩ := deliverWord_matters word.property
    obtain ⟨u, m₁, rfl, hm₁, hlast, -, hfollow₁, hfilling₁⟩ :=
      step hfollow hfilling hr (Masker.yields_deliverWord word.property (hm.meets hlayout hbrace))
        (by rintro _ rfl; exact hcovers.head)
    obtain ⟨key, manner, hr₁⟩ := hr.take_deliver (u := word.val.masked) word.property rfl m₁.lexer.pos
    exact At.value value stop.property hstrict hfits hcovers.tail
      ⟨_, m₁, hfollow₁, hfilling₁, ⟨.reading hm₁, fun _ => ⟨hm₁.blockAhead, _, hlast, hneeds⟩⟩, hr₁⟩
  | plain value stop =>
    simp only [Statement.lexemes, List.append_assoc, List.cons_append, List.nil_append] at h
    simp only [Statement.fits, Bool.and_eq_true, List.all_eq_true, Bool.not_eq_true'] at hfits
    obtain ⟨⟨hfits, hassign⟩, hstop⟩ := hfits
    have hin : Recorder.Inside strict true marked 0 false (.idle marked) value [] := .start value (.idle rfl)
    -- an empty statement does not end with a tag
    have hfirm : Bit.firstKind stop.val.kind value ≠ .closeTag := by
      refine firstKind_ne_closeTag fun hempty => ?_
      have hkind : stop.val.kind = .semicolon := by simpa [hempty] using hstop
      simp [hkind]
    obtain ⟨tasks', hp, hat⟩ := At.bits value hstrict (ne_leftParen_of_isStop stop.property)
      (fun _ => hassign) hcovers.left hin hfits (h.imp fun m hm => ⟨hm.1, fun htag => absurd htag hfirm⟩)
    exact ⟨true, tasks', stop, stop.property, hp, hcovers.right.head, hat⟩

theorem AtStop.passed (h : X.AtStop ts marked blocks scope depth spine)
    (hblocks : ∀ b ∈ blocks.head?, b.oneLiner = false) :
    X.At False ts (.idle marked) blocks ((scope, depth) :: spine) [] := by
  obtain ⟨idle, tasks, stop, hstop, hp, hplace, r, m, hfollow, hfilling, ⟨hm, hfirm⟩, hr⟩ := h
  obtain ⟨u, m', rfl, hm', -, -, hfollow', hfilling'⟩ := step hfollow hfilling hr
    (Masker.yields_stop rfl (hm.meetsStop hstop hfirm) hblocks)
    (by rintro _ rfl; exact hplace)
  exact ⟨_, m', hfollow', hfilling', stands_and (.reading hm'), hr.take_semicolon hp rfl _⟩

theorem AtStop.single {outer : String × Int} (head : Head)
    (h : X.AtStop (head.tail ++ ts) marked (⟨true, head.blockKind⟩ :: blocks) scope depth (outer :: spine)) :
    X.At False ts (.idle (head.marked marked)) blocks (outer :: spine) [] := by
  obtain ⟨idle, tasks, stop, hstop, hp, hplace, r, m, hfollow, hfilling, ⟨hm, hfirm⟩, hr⟩ := h
  obtain ⟨u, m', rfl, hm', -, -, hfollow', hfilling'⟩ := step hfollow hfilling hr
    (Masker.yields_endSingle head rfl (hm.meetsStop hstop hfirm))
    (by rintro _ rfl; exact hplace)
  exact ⟨_, m', hfollow', hfilling', stands_and (.reading hm'), hr.take_endBlock hp (by simp) rfl _⟩

theorem At.statements (sts : List Statement) (hstrict : Masker.announcesBlock blocks = true → strict = true)
    (hblocks : ∀ b ∈ blocks.head?, b.oneLiner = false) (hfits : ∀ st ∈ sts, st.fits strict = true)
    (hcovers : X.Covers depth scope (sts.flatMap Statement.lexemes))
    (h : X.At False (sts.flatMap Statement.lexemes ++ ts) (.idle marked) blocks ((scope, depth) :: spine) []) :
    X.At False ts (.idle marked) blocks ((scope, depth) :: spine) [] := by
  induction sts with
  | nil => exact h
  | cons st sts ih =>
    rw [List.flatMap_cons, List.append_assoc] at h
    have hst := At.statement st hstrict (hfits st List.mem_cons_self) hcovers.left h
    exact ih (fun st hst => hfits st (List.mem_cons_of_mem _ hst)) hcovers.right (hst.passed hblocks)

/-! ### Blocks -/

def Announces (X : Run) (ts : List Lexeme) (marked : Nat) (blocks : List CodeBlock)
    (spine : List (String × Int)) : Prop :=
  X.Passes (fun m => m.Announced ts (.idle marked) blocks) spine []

theorem Announces.brace {left : Lexeme} {b : CodeBlock} (hleft : left.kind = .leftBrace)
    (h : X.Announces (left :: ts) marked (b :: blocks) spine) :
    X.At False ts (.idle marked) (b :: blocks) spine [] :=
  h.imp fun m hm => stands_and (.brace hleft (List.forall_mem_nil _) (by simp) hm)

theorem Announces.single {kind : BlockKind} (h : X.Announces ts marked (⟨false, kind⟩ :: blocks) spine) :
    X.At False ts (.idle marked) (⟨true, kind⟩ :: blocks) spine [] :=
  h.imp fun _ hm => stands_and (.single rfl hm)

theorem branchWord_matters (h : kind.isBranchWord = true) :
    kind.isLayout = false ∧ kind ≠ .leftBrace := by
  cases kind <;> first | (cases h; done) | exact ⟨rfl, by simp⟩

theorem At.head (head : Head) (hfits : head.fits = true)
    (hword : ⟨head.word.pos, depth, scope⟩ ∈ X.places) (hcovers : X.Covers (depth + 1) scope head.inside)
    (h : X.At False (head.lexemes ++ ts) (.idle marked) blocks ((scope, depth) :: spine) []) :
    X.Announces ts marked (⟨false, head.blockKind⟩ :: blocks)
      ((scope, depth + 1) :: (scope, depth) :: spine) := by
  cases head with
  | branch word left header condition right =>
    simp only [Head.fits, Bool.and_eq_true, List.all_eq_true, Bool.not_eq_true'] at hfits
    obtain ⟨⟨hheader, hcondition⟩, hassign⟩ := hfits
    simp only [Head.lexemes, Head.word, Head.inside, List.cons_append, List.append_assoc, List.nil_append] at h
    have hinside : X.At False (header.flatMap Statement.lexemes ++
        (condition.flatMap Bit.lexemes ++ right.val :: ts)) (.idle (marked + 1)) (⟨false, .branch⟩ :: blocks)
        ((scope, depth + 1) :: (scope, depth) :: spine) [] := by
      obtain ⟨hlayout, hbrace⟩ := branchWord_matters word.property
      refine h.go (fun m hm => Masker.yields_branchWord word.property left (hm.1.meets hlayout hbrace))
        (by rintro _ rfl; exact hword) (fun m hm => stands_and (.reading hm)) ?_
      rintro r _ place rfl hr
      exact hr.take_enter (.inl word.property) rfl place
    have hbehind := At.statements header (fun _ => (rfl : true = true)) (by simp) hheader
      hcovers.tail.left hinside
    have hin : Recorder.Inside true true (marked + 1) 0 false (.idle (marked + 1)) condition [] :=
      .start condition (.idle rfl)
    have hfirm : Bit.firstKind right.val.kind condition ≠ .closeTag :=
      firstKind_ne_closeTag fun _ => by rw [right.property]; decide
    obtain ⟨tasks', hp, hat⟩ := At.bits condition (fun _ => rfl) (by rw [right.property]; decide)
      (fun _ => hassign) hcovers.tail.right.left hin (by rwa [right.property])
      (hbehind.imp fun m hm => ⟨hm.1, fun htag => absurd htag hfirm⟩)
    rw [hp.eq_nil] at hat
    refine hat.go (fun m hm => Masker.yields_endCondition right
      (hm.1.meetsSign right rfl (by decide)))
      (by rintro _ rfl; exact hcovers.tail.right.right.head) (fun m hm => hm) ?_
    rintro r _ place rfl hr
    exact hr.take_idle rfl rfl place
  | alternative word =>
    refine h.go (fun m hm => Masker.yields_openBlock (.inl ⟨word.property, rfl⟩)
      (hm.1.meetsSign word rfl (by decide)))
      (by rintro _ rfl; exact hword) (fun m hm => hm) ?_
    rintro r _ place rfl hr
    exact hr.take_enter (.inr (.inl word.property)) rfl place
  | loop word last =>
    refine h.go (fun m hm => Masker.yields_openBlock (.inr ⟨word.property, rfl⟩)
      (hm.1.meetsSign word rfl (by decide)))
      (by rintro _ rfl; exact hword) (fun m hm => hm) ?_
    rintro r _ place rfl hr
    exact hr.take_enter (.inr (.inr word.property)) rfl place

/-! ### Functions -/

theorem At.functionName (word : Sign .functionWord) (name : Sign .word) (left : Sign .leftParen)
    (hcovers : X.Covers depth scope [word.val, name.val])
    (h : X.At False (word.val :: name.val :: left.val :: ts) (.idle marked) blocks
      ((scope, depth) :: spine) []) :
    ∃ number, X.At False ts (.idle (marked + 1)) (⟨false, .function number⟩ :: blocks)
      ((scope, depth) :: spine) [.parameters (X.done.masker.scopeOf name.val.text)] := by
  have hdeclaring : X.Passes (fun m => m.Declaring (name.val :: left.val :: ts) marked blocks)
      ((scope, depth) :: spine) [.declaration] := by
    refine h.go (fun m hm => Masker.yields_functionWord word
      (hm.1.meetsSign word rfl (by decide)))
      (by rintro _ rfl; exact hcovers.head) (fun m hm => hm) ?_
    rintro r _ place rfl hr
    exact hr.take_functionWord (congrArg Symbol.plain word.property) place
  obtain ⟨r, m, hfollow, hfilling, hm, hr⟩ := hdeclaring
  obtain ⟨u, m', rfl, ⟨hfuncs, hm'⟩, -, hgrows, hfollow', hfilling'⟩ :=
    step hfollow hfilling hr (hm.yields name left) (by rintro _ rfl; exact hcovers.tail.head)
  have hnumber : (m.funcs.number name.val.text).1 = X.done.masker.funcs.idxOf name.val.text + 1 :=
    Names.number_eq (hfuncs ▸ hgrows.funcs.kept)
  refine ⟨_, _, m', hfollow', hfilling', stands_and (.reading hm'), ?_⟩
  have hr' := hr.take_declaration (u := { name.val.masked with symbol := .func (m.funcs.number name.val.text).1 })
    m'.lexer.pos
  rwa [show (Symbol.func (m.funcs.number name.val.text).1).name = X.done.masker.scopeOf name.val.text by
    rw [hnumber]; rfl] at hr'

theorem At.params {right : Lexeme} {n : Nat} {busy : Bool} {function : String} (bits : List Bit)
    (hfits : Bit.Fits true right.kind n busy bits = true) (hcalls : ∀ b ∈ bits, b.isCall = false)
    (hcovers : X.Covers depth scope (bits.flatMap Bit.lexemes))
    (h : X.At False (bits.flatMap Bit.lexemes ++ right :: ts) ⟨marked + 1, n, false⟩ blocks
      ((scope, depth) :: spine) [.parameters function]) :
    X.At False (right :: ts) (.idle (marked + 1)) blocks ((scope, depth) :: spine) [.parameters function] := by
  induction bits generalizing n busy with
  | nil =>
    have hn : n = 0 := by simpa [Bit.Fits] using hfits
    subst hn
    exact h
  | cons b bits ih =>
    obtain ⟨hallows, hrest⟩ := Bool.and_eq_true_iff.mp hfits
    obtain ⟨hcall, hcalls⟩ := List.forall_mem_cons.mp hcalls
    have hclose : ∀ r, b = .close r → n ≠ 0 := by
      rintro r rfl
      simpa using (Bool.and_eq_true_iff.mp hrest).1
    obtain ⟨n', busy', hafter, hfits'⟩ : ∃ n' busy',
        Parens.after ⟨marked + 1, n, false⟩ b = ⟨marked + 1, n', false⟩ ∧
          Bit.Fits true right.kind n' busy' bits = true := by
      cases b with
      | group left => exact ⟨n + 1, busy, rfl, hrest⟩
      | close r => exact ⟨n - 1, _, by simp [Parens.after, hclose r rfl], (Bool.and_eq_true_iff.mp hrest).2⟩
      | call name left => cases hcall
      | _ => exact ⟨n, busy, rfl, hrest⟩
    have hparams : X.At False (bits.flatMap Bit.lexemes ++ right :: ts) ⟨marked + 1, n', false⟩ blocks
        ((scope, depth) :: spine) [.parameters function] := by
      refine h.go (fun m hm => yields_next hm.1 hallows ?_) (fun u hu => ?_) (fun m hm => ?_) ?_
      · exact fun r hb _ hnone => absurd hnone (hclose r hb)
      · obtain ⟨t, ht, hpos⟩ := hu.pos
        rw [hpos]
        exact hcovers.left t ht
      · exact stands_and (.reading (hafter ▸ hm))
      · exact fun r u place hu hr => hr.take_parameter (hu.ne_endParens fun r hb => hclose r hb) place
    exact ih hfits' hcalls hcovers.right hparams

theorem At.functionHead (word : Sign .functionWord) (name : Sign .word) (left : Sign .leftParen)
    (params : List Bit) (right : Sign .rightParen) (first : Sign .leftBrace)
    (hfits : Bit.Fits true .rightParen 0 false params = true) (hcalls : ∀ b ∈ params, b.isCall = false)
    (hcovers : X.Covers depth scope
      (word.val :: name.val :: left.val :: params.flatMap Bit.lexemes ++ [right.val]))
    (hfirst : ⟨first.val.pos, depth, X.done.masker.scopeOf name.val.text⟩ ∈ X.places)
    (h : X.At False (word.val :: name.val :: left.val ::
      (params.flatMap Bit.lexemes ++ right.val :: first.val :: ts)) (.idle marked) blocks
      ((scope, depth) :: spine) []) :
    ∃ number, X.At False ts (.idle marked) (⟨false, .function number⟩ :: blocks)
      ((X.done.masker.scopeOf name.val.text, depth) :: (scope, depth) :: spine) [] := by
  obtain ⟨number, hname⟩ := h.functionName word name left fun t ht => hcovers t (by
    rcases List.mem_cons.mp ht with rfl | ht
    · simp
    · simp [List.mem_singleton.mp ht])
  refine ⟨number, ?_⟩
  have hparams := hcovers.tail.tail.tail
  have hend := At.params params (right.property.symm ▸ hfits) hcalls hparams.left hname
  have hbrace : X.Passes (fun m => m.Reading (first.val :: ts) (.idle marked)
      (⟨false, .function number⟩ :: blocks))
      ((X.done.masker.scopeOf name.val.text, depth) :: (scope, depth) :: spine) [] :=
    hend.go (fun m hm => Masker.yields_endParams right
      (hm.1.meetsSign right rfl (by decide)))
      (fun u hu => hu.2 ▸ hparams.right.head) (fun m hm => hm)
      fun r u place hu hr => hr.take_endParams hu.1 place
  have hlayout : first.val.kind.isLayout = false := by rw [first.property]; rfl
  refine hbrace.go
    (fun m hm => Masker.yields_leftBrace first (hm.meets (Masker.sift_keep m.last hlayout)))
    (by rintro _ rfl; exact hfirst) (fun m hm => stands_and (.reading hm)) ?_
  rintro r _ place rfl hr
  have hsymbol : first.val.masked.symbol = .plain .leftBrace := congrArg Symbol.plain first.property
  exact hr.take_idle (by rw [hsymbol]; rfl) (by rw [hsymbol]; rfl) place

/-! ### Code -/

theorem At.tag (ht : t.kind.isTag = true) (hblocks : ∀ b ∈ blocks.head?, b.oneLiner = false)
    (hplace : ⟨t.pos, depth, scope⟩ ∈ X.places)
    (h : X.At False (t :: ts) (.idle marked) blocks ((scope, depth) :: spine) []) :
    X.At False ts (.idle marked) blocks ((scope, depth) :: spine) [] := by
  obtain ⟨r, m, hfollow, hfilling, ⟨hm, -⟩, hr⟩ := h
  rcases hm.tag ht hblocks with ⟨m', htoken, hm'⟩ | hyields
  · exact ⟨r, m', (Recorder.follow_congr htoken hr.ne_nil).symm.trans hfollow, hfilling, stands_and hm', hr⟩
  · obtain ⟨u, m', hu, hm', -, -, hfollow', hfilling'⟩ :=
      step hfollow hfilling hr hyields fun u hu => hu.2 ▸ hplace
    exact ⟨_, m', hfollow', hfilling', stands_and (.reading hm'),
      hr.take_semicolon Task.Pending.nil hu.1 _⟩

theorem At.code (c : Code) (hstrict : Masker.announcesBlock blocks = true → strict = true)
    (hblocks : ∀ b ∈ blocks.head?, b.oneLiner = false) (hfits : c.fits strict = true)
    (hplaces : c.places X.done.masker.scopeOf depth scope ⊆ X.places)
    (h : X.At False (c.lexemes ++ ts) (.idle marked) blocks ((scope, depth) :: spine) []) :
    ∃ marked', X.At False ts (.idle marked') blocks ((scope, depth) :: spine) [] := by
  induction c generalizing strict marked blocks scope depth spine ts with
  | done => exact ⟨marked, h⟩
  | tag t rest ih =>
    obtain ⟨hhere, hlater⟩ := List.append_subset.mp hplaces
    exact ih hstrict hblocks hfits hlater (h.tag t.property hblocks (covers_of_subset hhere).head)
  | statement st rest ih =>
    obtain ⟨hst, hrest⟩ := Bool.and_eq_true_iff.mp hfits
    obtain ⟨hhere, hlater⟩ := List.append_subset.mp hplaces
    rw [Code.lexemes, List.append_assoc] at h
    have hstop := h.statement st hstrict hst (covers_of_subset hhere)
    exact ih hstrict hblocks hrest hlater (hstop.passed hblocks)
  | block head left body right rest ihbody ih =>
    simp only [Code.fits, Bool.and_eq_true] at hfits
    obtain ⟨⟨hhead, hbody⟩, hrest⟩ := hfits
    simp only [Code.places, List.append_subset] at hplaces
    obtain ⟨⟨⟨hword, hheader⟩, ⟨-, hinside⟩, hright⟩, -, hlater⟩ := hplaces
    simp only [Code.lexemes, List.append_assoc, List.cons_append] at h
    have hannounced := h.head head hhead (covers_of_subset hword).head (covers_of_subset hheader)
    obtain ⟨marked', hend⟩ := ihbody (fun hannounces => head.announcesBlock_eq false blocks ▸ hannounces)
      (by simp) hbody hinside (hannounced.brace left.property)
    have hafter : X.At False (rest.lexemes ++ ts) (.idle (head.marked marked')) blocks
        ((scope, depth) :: spine) [] := by
      refine hend.go (fun m hm => Masker.yields_endBlock head right
        (hm.1.meetsSign right rfl (by decide)))
        (by rintro _ rfl; exact (covers_of_subset hright).head) (fun m hm => stands_and (.reading hm)) ?_
      rintro r _ place rfl hr
      exact hr.take_endBlock Task.Pending.nil (by simp) rfl place
    exact ih hstrict hblocks hrest hlater hafter
  | single head st rest ih =>
    simp only [Code.fits, Bool.and_eq_true] at hfits
    obtain ⟨⟨hhead, hst⟩, hrest⟩ := hfits
    simp only [Code.places, List.append_subset] at hplaces
    obtain ⟨⟨⟨hword, hheader⟩, hinside⟩, -, hlater⟩ := hplaces
    simp only [Code.lexemes, List.append_assoc] at h
    have hannounced := h.head head hhead (covers_of_subset hword).head (covers_of_subset hheader)
    have hstop := hannounced.single.statement st
      (fun hannounces => head.announcesBlock_eq true blocks ▸ hannounces) hst
      (covers_of_subset hinside)
    exact ih hstrict hblocks hrest hlater (hstop.single head)
  | function word name left params right first body last rest ihbody ih =>
    simp only [Code.fits, Bool.and_eq_true, List.all_eq_true, Bool.not_eq_true'] at hfits
    obtain ⟨⟨⟨hparams, hcalls⟩, hbody⟩, hrest⟩ := hfits
    simp only [Code.places, List.append_subset] at hplaces
    obtain ⟨⟨hhead, ⟨hfirst, hinside⟩, hlast⟩, hlater⟩ := hplaces
    simp only [Code.lexemes, List.append_assoc, List.cons_append] at h
    obtain ⟨number, hbegin⟩ := h.functionHead word name left params right first hparams hcalls
      (covers_of_subset hhead) (covers_of_subset hfirst).head
    obtain ⟨marked', hend⟩ := ihbody (fun hannounces => by cases hannounces) (by simp) hbody hinside hbegin
    have hafter : X.At False (rest.lexemes ++ ts) (.idle marked') blocks ((scope, depth) :: spine) [] := by
      refine hend.go (fun m hm => Masker.yields_endFunction last
        (hm.1.meetsSign last rfl (by decide)))
        (by rintro _ rfl; exact (covers_of_subset hlast).head) (fun m hm => stands_and (.reading hm)) ?_
      rintro r _ place rfl hr
      exact hr.take_endFunction (by simp) rfl place
    exact ih hstrict hblocks hrest hlater hafter

theorem At.finished (h : X.At False [] s [] [(scope, depth)] []) :
    X.done.failure = none ∧ X.done.recorder.Filling (.placed X.places) X.start := by
  obtain ⟨r, m, hfollow, hfilling, ⟨hm, -⟩, hr⟩ := h
  obtain ⟨m', hend⟩ := hm.finished
  obtain ⟨b, outer, hblocks, htasks, -⟩ := hr.tasks
  have houter : outer = [] := by
    have hspine := hr.spine
    rw [hblocks, List.map_cons, List.cons.injEq] at hspine
    exact List.map_eq_nil_iff.mp hspine.2
  subst houter
  have htake : Recorder.takeEnd r = (.ok (), r.leave b []) := by
    simp [Recorder.takeEnd, Act.state_bind, hblocks, htasks, Act.update]
  rw [← hfollow, Recorder.follow_last hend hblocks htasks]
  have hleft := hfilling.takeEnd (Contents.placed_closed _)
  rw [htake] at hleft
  exact ⟨rfl, hleft⟩

end Run

namespace Project

/-- Tokens stand where their lexemes do: code of this syntax is recorded to its end, and every
token has the depth and the scope of its lexeme, and so have its arguments. -/
theorem recordFile_placed (name : String) (code : List Char) (c : Code)
    (hcode : (({} : Masker).loadFile code).lexer.Gives c.lexemes) (hfits : c.fits false = true) :
    let done := ({} : Project).recordFile name code
    let places := c.places done.masker.scopeOf 0 name
    done.failure = none ∧ (places.map Spot.pos).Nodup ∧
      ∀ e ∈ done.recorder.flows, ∀ l ∈ e.2, l.1 ≠ Special.params.name →
        ∀ t ∈ l.2, t.PlacedIn places e.1 := by
  intro done places
  let X : Run := ⟨({} : Project).recorder name, done, places⟩
  have hstart : X.At False (c.lexemes ++ []) (.idle 0) [] [(name, 0)] [] := by
    refine ⟨_, _, (recordFile_eq {} name code).symm, filling_recorder _ _ _, ?_, ?_⟩
    · refine Run.stands_and (.reading ⟨.inl ⟨rfl, ?_⟩, ⟨rfl, rfl, rfl, rfl⟩, rfl, rfl⟩)
      rwa [List.append_nil]
    · exact ⟨rfl, _, [], rfl, rfl, List.forall_mem_nil _⟩
  obtain ⟨marked, hend⟩ := hstart.code c (fun hno => by cases hno) (by simp) hfits (List.Subset.refl _)
  obtain ⟨hfailure, hfilling⟩ := hend.finished
  refine ⟨hfailure, ?_, fun e he l hl hkey t ht => ?_⟩
  · rw [Code.map_pos_places]
    refine List.pairwise_map.mpr (hcode.sorted.1.imp fun hlt => Int.ne_of_lt hlt)
  · have hclosed := Contents.placed_closed places
    have hfills := (fills_recorder hclosed {} name).holds hclosed (List.forall_mem_nil _)
    exact ((hfilling.stored.flows.holds hclosed hfills) e he l hl t ht).resolve_left hkey

def nestedCode : Code :=
  .tag ⟨⟨.openTag, "<?php ", 1, 0⟩, rfl⟩ <|
  .function ⟨⟨.functionWord, "function", 1, 6⟩, rfl⟩ ⟨⟨.word, "f", 1, 15⟩, rfl⟩
    ⟨⟨.leftParen, "(", 1, 16⟩, rfl⟩ [.plain ⟨⟨.dollarName, "$p", 1, 17⟩, rfl⟩]
    ⟨⟨.rightParen, ")", 1, 19⟩, rfl⟩ ⟨⟨.leftBrace, "\x7b", 1, 20⟩, rfl⟩
    (.statement (.deliver ⟨⟨.returnWord, "return", 1, 21⟩, rfl⟩
      [.plain ⟨⟨.dollarName, "$p", 1, 28⟩, rfl⟩] ⟨⟨.semicolon, ";", 1, 30⟩, rfl⟩) .done)
    ⟨⟨.rightBrace, "\x7d", 1, 31⟩, rfl⟩ <|
  .block (.branch ⟨⟨.ifWord, "if", 1, 33⟩, rfl⟩ ⟨⟨.leftParen, "(", 1, 36⟩, rfl⟩ []
      [.plain ⟨⟨.dollarName, "$a", 1, 37⟩, rfl⟩] ⟨⟨.rightParen, ")", 1, 39⟩, rfl⟩)
    ⟨⟨.leftBrace, "\x7b", 1, 41⟩, rfl⟩
    (.statement (.assign ⟨⟨.dollarName, "$b", 1, 42⟩, rfl⟩ ⟨⟨.operator, "=", 1, 45⟩, rfl, rfl⟩
        [.call ⟨⟨.word, "f", 1, 47⟩, rfl⟩ ⟨⟨.leftParen, "(", 1, 48⟩, rfl⟩,
          .plain ⟨⟨.dollarName, "$c", 1, 49⟩, rfl⟩, .close ⟨⟨.rightParen, ")", 1, 51⟩, rfl⟩]
        ⟨⟨.semicolon, ";", 1, 52⟩, rfl⟩) <|
      .single (.branch ⟨⟨.whileWord, "while", 1, 54⟩, rfl⟩ ⟨⟨.leftParen, "(", 1, 60⟩, rfl⟩ []
          [.plain ⟨⟨.dollarName, "$b", 1, 61⟩, rfl⟩] ⟨⟨.rightParen, ")", 1, 63⟩, rfl⟩)
        (.deliver ⟨⟨.sink .xss, "echo", 1, 65⟩, rfl⟩ [.plain ⟨⟨.dollarName, "$b", 1, 70⟩, rfl⟩]
          ⟨⟨.semicolon, ";", 1, 72⟩, rfl⟩) .done)
    ⟨⟨.rightBrace, "\x7d", 1, 73⟩, rfl⟩ .done

theorem recordFile_placed_nested :
    let code := "<?php function f($p)\x7breturn $p;\x7d if ($a) \x7b$b = f($c); while ($b) echo $b;\x7d".toList
    let done := ({} : Project).recordFile "m.php" code
    let places := nestedCode.places done.masker.scopeOf 0 "m.php"
    (({} : Masker).loadFile code).lexer.Gives nestedCode.lexemes ∧ nestedCode.fits false = true ∧
      done.failure = none ∧ (places.map Spot.pos).Nodup ∧
      (∀ e ∈ done.recorder.flows, ∀ l ∈ e.2, l.1 ≠ Special.params.name →
        ∀ t ∈ l.2, t.PlacedIn places e.1) ∧
      ⟨70, 2, "m.php"⟩ ∈ places ∧ ⟨28, 0, "FUNC1"⟩ ∈ places := by
  intro code done places
  have hgives : (({} : Masker).loadFile code).lexer.Gives nestedCode.lexemes := by decide +kernel
  have hfits : nestedCode.fits false = true := by decide +kernel
  obtain ⟨hfailure, hnodup, hplaced⟩ := recordFile_placed "m.php" code nestedCode hgives hfits
  exact ⟨hgives, hfits, hfailure, hnodup, hplaced, by decide +kernel⟩

def nestedCalls : Code :=
  .tag ⟨⟨.openTag, "<?php ", 1, 0⟩, rfl⟩ <|
  .block (.branch ⟨⟨.ifWord, "if", 1, 6⟩, rfl⟩ ⟨⟨.leftParen, "(", 1, 9⟩, rfl⟩ []
      [.plain ⟨⟨.dollarName, "$a", 1, 10⟩, rfl⟩] ⟨⟨.rightParen, ")", 1, 12⟩, rfl⟩)
    ⟨⟨.leftBrace, "\x7b", 1, 14⟩, rfl⟩
    (.statement (.plain
        [.call ⟨⟨.word, "f", 1, 16⟩, rfl⟩ ⟨⟨.leftParen, "(", 1, 17⟩, rfl⟩,
          .call ⟨⟨.word, "g", 1, 18⟩, rfl⟩ ⟨⟨.leftParen, "(", 1, 19⟩, rfl⟩,
          .plain ⟨⟨.dollarName, "$b", 1, 20⟩, rfl⟩, .close ⟨⟨.rightParen, ")", 1, 22⟩, rfl⟩,
          .close ⟨⟨.rightParen, ")", 1, 23⟩, rfl⟩]
        ⟨⟨.semicolon, ";", 1, 24⟩, rfl⟩) <|
      .statement (.deliver ⟨⟨.sink .xss, "echo", 1, 26⟩, rfl⟩
        [.plain ⟨⟨.dollarName, "$x", 1, 31⟩, rfl⟩] ⟨⟨.semicolon, ";", 1, 33⟩, rfl⟩) .done)
    ⟨⟨.rightBrace, "\x7d", 1, 35⟩, rfl⟩ .done

/-- A call inside a call ends the block around it: what follows in the block is recorded one
level too high. -/
theorem exists_misplaced_behind_nested_calls :
    let code := "<?php if ($a) \x7b f(g($b)); echo $x; \x7d".toList
    let done := ({} : Project).recordFile "m.php" code
    let places := nestedCalls.places done.masker.scopeOf 0 "m.php"
    (({} : Masker).loadFile code).lexer.Gives nestedCalls.lexemes ∧ done.failure = none ∧
      ∃ t ∈ (done.recorder.flows.tokens? "m.php" (Special.sink .xss).name).getD [],
        t.mark.pos = 31 ∧ t.mark.depth = 0 ∧ ⟨31, 1, "m.php"⟩ ∈ places ∧
          ¬ t.PlacedIn places "m.php" := by
  intro code done places
  have hrun : (({} : Masker).loadFile code).lexer.Gives nestedCalls.lexemes ∧ done.failure = none ∧
      ∃ t ∈ (done.recorder.flows.tokens? "m.php" (Special.sink .xss).name).getD [],
      t.mark.pos = 31 ∧ t.mark.depth = 0 ∧ ⟨31, 1, "m.php"⟩ ∈ places ∧
        ⟨t.mark.pos, t.mark.depth, t.mark.scope⟩ ∉ places := by decide +kernel
  obtain ⟨hgives, hfailure, t, ht, hpos, hdepth, hplace, hno⟩ := hrun
  exact ⟨hgives, hfailure, t, ht, hpos, hdepth, hplace, fun h => hno h.place⟩

end Project

end MaskedTaint
