import MaskedTaint.Proofs.Code.Masking
import MaskedTaint.Proofs.Flow.Runs
import MaskedTaint.Proofs.Script.Events
import MaskedTaint.Proofs.Script.Lexemes

/-! Recording scripts. The masker delivers the symbols of a text that reads as a script, and
the recorder makes the events of the script of them. -/

namespace MaskedTaint

def Level.block (l : Level) (file : String) (nested : Bool) (last : Option Symbol)
    (branches : Int) : Block :=
  { scope := file, nested := nested, depth := l.depth, order := l.order, flow := l.flow,
    counter := l.counter, deeper := l.deeper, branches := branches, last := last }

namespace Recorder

variable {r : Recorder} {l : Level} {file : String} {nested : Bool} {last : Option Symbol}
  {branches : Int} {outer : List Block} {t : Masked}

theorem take_variable {n : Nat} (ht : t.symbol = .var n) (behind : Int)
    (hb : r.blocks = l.block file nested last branches :: outer) :
    r.take t behind = { r with blocks := l.block file nested (some (.var n)) branches :: outer } := by
  simp [take, hb, ht, Level.block, start, finish, Symbol.endsBlock]

theorem take_assign {n : Nat} (ht : t.symbol = .op 0) (behind : Int)
    (hb : r.blocks = l.block file nested (some (.var n)) branches :: outer) :
    r.take t behind = r.proceed (l.block file nested (some (.var n)) branches) outer
      [.collect (Symbol.var n).name .value []] := by
  simp [take, hb, ht, Level.block, start, Symbol.isVariable]

theorem take_print (ht : t.symbol = .plain (.sink .xss)) (behind : Int)
    (hb : r.blocks = l.block file nested last branches :: outer) :
    r.take t behind = r.proceed (l.block file nested last branches) outer
      [.collect (Special.sink .xss).name .printed []] := by
  simp [take, hb, ht, Level.block, start]

theorem take_operand_blocks (hs : t.symbol.isOperand = true) (key : String)
    (manner : Manner) (behind : Int) :
    ((r.proceed (l.block file nested last branches) outer [.collect key manner []]).take t
      behind).blocks ≠ [] := by
  simp [take, proceed, collect, endsStatement_of_isOperand hs, hs]

theorem take_operand {stop : Masked} (hs : t.symbol.isOperand = true) (key : String)
    {manner : Manner} (hmanner : manner = .value ∨ manner = .printed)
    (hstop : stop.symbol = .plain .semicolon) (behind behind' : Int) (hfile : r.file = file) :
    ((r.proceed (l.block file nested last branches) outer [.collect key manner []]).take t behind).take
        stop behind' = { r with
        flows := r.flows.append file key [.site r.fresh (l.mark file ⟨t.line, t.pos⟩ t.symbol.name)]
        fresh := r.fresh + 1
        blocks := l.block file nested (some (.plain .semicolon)) branches :: outer } := by
  have hends := endsStatement_of_isOperand hs
  have hsemi : (Symbol.plain .semicolon).endsStatement = true := by decide
  have hopen : (Symbol.plain .semicolon).endsBlock = false := by decide
  subst hfile
  cases hlist : (r.flows.tokens? r.file key).isSome with
  | true =>
    rcases hmanner with rfl | rfl <;>
      simp [take, proceed, collect, hends, hs, hstop, takeOperand, site, gather, Level.block, hlist,
        record, storeSome, finish, markOf, Level.mark, hsemi, hopen]
  | false =>
    have hnone : r.flows.tokens? r.file key = none := by simpa using hlist
    rcases hmanner with rfl | rfl <;>
      simp [take, proceed, collect, hends, hs, hstop, takeOperand, site, gather, Level.block, hnone,
        storeSome, store, finish, markOf, Level.mark, hsemi, hopen, Structure.append]

theorem take_ifWord (ht : t.symbol = .plain .ifWord) (behind : Int)
    (hb : r.blocks = l.block file nested last branches :: outer) : r.take t behind =
      { r with blocks := (l.next.enter 1).block file true last 0 ::
        l.next.block file nested (some (.plain .ifWord)) 1 :: outer } := by
  simp [take, hb, ht, Level.block, start, enter, Level.next, Level.enter]

theorem take_elseWord (ht : t.symbol = .plain .elseWord) (behind : Int)
    (hb : r.blocks = l.block file nested last branches :: outer) : r.take t behind =
      { r with blocks := (l.enter (-1)).block file true last 0 ::
        l.block file nested (some (.plain .elseWord)) branches :: outer } := by
  simp [take, hb, ht, Level.block, start, enter, Level.enter]

theorem take_endParens (ht : t.symbol = .endParens) (behind : Int)
    (hb : r.blocks = l.block file nested last branches :: outer) :
    r.take t behind = { r with blocks := l.block file nested (some .endParens) branches :: outer } := by
  have hopen : Symbol.endParens.endsBlock = false := by decide
  simp [take, hb, ht, Level.block, start, finish, hopen]

theorem take_endBlock {inner : Level} {nested' : Bool} {last' : Option Symbol} {branches' : Int}
    (ht : t.symbol = .endBlock) (behind : Int)
    (hb : r.blocks = inner.block file true last branches ::
      l.block file nested' last' branches' :: outer) :
    r.take t behind = { r with blocks := (l.leave inner).block file nested' last' branches' :: outer } := by
  have hends : Symbol.endBlock.endsBlock = true := by decide
  simp [take, hb, ht, Level.block, start, finish, hends, leave, Level.leave]

end Recorder

namespace Script

def kindIn (N : Names) (v : Variable) : String := (Symbol.var (N.idxOf v.name + 1)).name

theorem operandNames_extends (ns : Names) (value : Operand) : ns <+: operandNames ns value := by
  cases value with
  | copy v => exact ns.extends_number v.name
  | literal | input => exact List.prefix_rfl

theorem names_extends (s : Script) (ns : Names) : ns <+: s.names ns := by
  induction s generalizing ns with
  | done => exact List.prefix_rfl
  | assign target value place rest ih =>
    exact (ns.extends_number _).trans ((operandNames_extends _ value).trans (ih _))
  | echo source place rest ih => exact (ns.extends_number _).trans (ih _)
  | branch c yes no rest ihyes ihno ihrest =>
    exact (ns.extends_number _).trans ((ihyes _).trans ((ihno _).trans (ihrest _)))

/-- The masker stands before the lexemes, in blocks with braces, and knows these names. -/
structure Stage (m : Masker) (ts : List Lexeme) (ns : Names) (parens : Nat) (blocks : List CodeBlock) :
    Prop where
  stands : m.Stands ts (.idle parens) blocks
  braces : ∀ b ∈ blocks, b.oneLiner = false
  listed : m.IsListed
  vars : m.vars = ns

variable {m : Masker} {place : Position} {ns : Names} {blocks blocks' : List CodeBlock}
  {parens parens' : Nat} {value : Operand} {r : Recorder} {ts ts' vs : List Lexeme} {x : Masked}

theorem Stage.move (h : Stage m ts ns parens blocks)
    (hyields : m.Yields (fun u => u = x) fun m' => m'.Stands ts' (.idle parens') blocks')
    (hx : ∀ n, x.symbol ≠ .var n) (hbraces : ∀ b ∈ blocks', b.oneLiner = false) :
    ∃ m', Masker.token m = (.ok (some x), m') ∧ Stage m' ts' ns parens' blocks' := by
  obtain ⟨u, m', htoken, rfl, -, hstands⟩ := hyields
  have hlisted := (Masker.token_growing m).listed h.listed
  rw [htoken] at hlisted
  rcases Masker.token_vars h.listed htoken with ⟨hvar, -⟩ | ⟨-, hvars⟩
  · exact absurd hvar (hx _)
  · exact ⟨m', htoken, hstands, hbraces, hlisted, hvars.trans h.vars⟩

theorem Stage.step (h : Stage m ts ns parens blocks)
    (hyields : m.Yields (fun u => u = x) fun m' => m'.Reading ts' (.idle parens) blocks)
    (hx : ∀ n, x.symbol ≠ .var n) :
    ∃ m', Masker.token m = (.ok (some x), m') ∧ Stage m' ts' ns parens blocks :=
  h.move (hyields.imp (fun _ => id) fun _ => .reading) hx h.braces

theorem Stage.announce (first : Sign .leftBrace) {kind : BlockKind} (h : Stage m ts ns parens blocks)
    (hyields : m.Yields (fun u => u = x) fun m' =>
      m'.Announced (first.val :: ts') (.idle parens') (⟨false, kind⟩ :: blocks'))
    (hx : ∀ n, x.symbol ≠ .var n) (hbraces : ∀ b ∈ blocks', b.oneLiner = false) :
    ∃ m', Masker.token m = (.ok (some x), m') ∧ Stage m' ts' ns parens' (⟨false, kind⟩ :: blocks') := by
  refine h.move (hyields.imp (fun _ => id) fun m' hm' => ?_) hx (by simpa using hbraces)
  exact Masker.Stands.brace first.property (List.forall_mem_nil _) (List.cons_ne_nil _ _) hm'

theorem Stage.name {t : Lexeme} (ht : t.kind = .dollarName) (h : Stage m (t :: ts) ns parens blocks) :
    ∃ m', Masker.token m = (.ok (some ⟨.var (ns.number t.text).1, t.text, t.line, t.pos⟩), m') ∧
      Stage m' ts (ns.number t.text).2 parens blocks := by
  obtain ⟨u, m', htoken, ⟨n, rfl⟩, -, hreading⟩ :=
    Masker.yields_name ⟨t, ht⟩ (h.stands.meetsSign ⟨t, ht⟩ rfl (by decide))
  have hlisted := (Masker.token_growing m).listed h.listed
  rw [htoken] at hlisted
  rcases Masker.token_vars h.listed htoken with ⟨hvar, hvars⟩ | ⟨hno, -⟩
  · rw [h.vars] at hvar hvars
    obtain rfl : n = (ns.number t.text).1 := Symbol.var.inj hvar
    exact ⟨m', htoken, .reading hreading, h.braces, hlisted, hvars⟩
  · exact absurd rfl (hno n)

theorem Stage.stop (t : Sign .semicolon) (h : Stage m (t.val :: ts) ns parens blocks) :
    ∃ m', Masker.token m = (.ok (some t.val.masked), m') ∧ Stage m' ts ns parens blocks := by
  have hsymbol : t.val.masked.symbol = .plain .semicolon := congrArg Symbol.plain t.property
  exact h.step (Masker.yields_stop hsymbol (h.stands.meetsSign t rfl (by decide)) fun b hb =>
    h.braces b (List.mem_of_mem_head? hb)) (by simp [hsymbol])

/-- The masker delivers an operand of its kind, which stands at the place. -/
theorem Denotes.deliver (h : Denotes place value vs) (hm : Stage m (vs ++ ts) ns parens blocks) :
    ∃ u m', Masker.token m = (.ok (some u), m') ∧ Stage m' ts (operandNames ns value) parens blocks ∧
      u.symbol.isOperand = true ∧ (⟨u.line, u.pos⟩ : Position) = place ∧
      ∀ N, operandNames ns value <+: N → u.symbol.name = operandKind (kindIn N) value := by
  cases h with
  | copy v =>
    obtain ⟨m', htoken, hm'⟩ := hm.name rfl
    refine ⟨_, m', htoken, hm', rfl, rfl, fun N hN => ?_⟩
    rw [Names.number_eq hN]
    rfl
  | literal text =>
    obtain ⟨m', htoken, hm'⟩ := hm.step (Masker.yields_calm rfl (by simp) (by simp)
      (hm.stands.meets rfl (by simp))) fun n => Symbol.noConfusion
    exact ⟨_, m', htoken, hm', rfl, rfl, fun N hN => rfl⟩
  | input left key right =>
    have hkey : ∀ t ∈ [key.val], t.kind ≠ .rightBracket := by simp [key.property]
    obtain ⟨m', htoken, hm'⟩ := hm.step (Masker.yields_element ⟨_, rfl⟩ left hkey right
      (hm.stands.meets rfl (by simp))) fun n => Symbol.noConfusion
    exact ⟨_, m', htoken, hm', rfl, rfl, fun N hN => rfl⟩

structure In (r : Recorder) (file : String) (l : Level) (nested : Bool) (outer : List Block) :
    Prop where
  blocks : ∃ last branches, r.blocks = l.block file nested last branches :: outer
  file : r.file = file

variable {file : String} {l : Level} {nested : Bool} {outer : List Block} {N : Names} {es es' : List Event}
  {R R' : Recorder → Masker → Prop}

/-- The recording makes these events, and goes on as at a later recorder and masker. -/
def Records (file : String) (r : Recorder) (m : Masker) (es : List Event)
    (R : Recorder → Masker → Prop) : Prop :=
  ∃ r' m', r.follow m = r'.follow m' ∧ R r' m' ∧ r'.flows = recorded file r.flows es ∧
    r'.fresh = r.fresh + es.length

theorem Records.trans (h : Records file r m es R) (h' : ∀ r' m', R r' m' →
      r'.fresh = r.fresh + es.length → Records file r' m' es' R') : Records file r m (es ++ es') R' := by
  obtain ⟨r₁, m₁, hfollow₁, hR, hflows₁, hfresh₁⟩ := h
  obtain ⟨r₂, m₂, hfollow₂, hR', hflows₂, hfresh₂⟩ := h' r₁ m₁ hR hfresh₁
  refine ⟨r₂, m₂, hfollow₁.trans hfollow₂, hR', ?_, ?_⟩
  · rw [hflows₂, hflows₁, recorded, recorded, recorded, List.foldl_append]
  · rw [hfresh₂, hfresh₁, List.length_append, Nat.add_assoc]

theorem Records.silent (h : Records file r m [] R) (h' : ∀ r' m', R r' m' → r'.fresh = r.fresh →
    Records file r' m' es' R') : Records file r m es' R' := h.trans h'

theorem length_events (kindOf : Variable → String) (s : Script) (l : Level) (n : Nat) :
    (s.events kindOf file l n).length = s.size := by
  induction s generalizing l n with
  | done => rfl
  | assign target value place rest ih | echo source place rest ih => simp [events, size, ih]
  | branch c yes no rest ihyes ihno ihrest =>
    simp [events, size, ihyes, ihno, ihrest, Nat.add_assoc]

theorem follow_assign {target : Variable} (name : Named target)
    (sign : { t : Lexeme // t.kind = .operator ∧ t.text = "=" }) (hvalue : Denotes place value vs)
    (stop : Sign .semicolon)
    (hm : Stage m (name.val :: sign.val :: (vs ++ stop.val :: ts)) ns 0 blocks)
    (hr : In r file l nested outer) (hN : operandNames (ns.number target.name).2 value <+: N) :
    Records file r m
      [(kindIn N target, .site r.fresh (l.mark file place (operandKind (kindIn N) value)))]
      fun r' m' => Stage m' ts (operandNames (ns.number target.name).2 value) 0 blocks ∧
        In r' file l nested outer := by
  obtain ⟨⟨last, branches, hb⟩, hfile⟩ := hr
  rw [← name.property.2] at hN ⊢
  obtain ⟨m₁, hd₁, hm₁⟩ := hm.name name.property.1
  obtain ⟨m₂, hd₂, hm₂⟩ := hm₁.step (Masker.yields_assignSign sign (hm₁.stands.meets
    (by rw [sign.property.1]; rfl) (by simp [sign.property.1]))) fun n => Symbol.noConfusion
  obtain ⟨u, m₃, hd₃, hm₃, hoperand, hplace, hname⟩ := hvalue.deliver hm₂
  obtain ⟨m₄, hd₄, hm₄⟩ := hm₃.stop stop
  have hkey : (Symbol.var (ns.number name.val.text).1).name = kindIn N target := by
    rw [Names.number_eq ((operandNames_extends _ value).trans hN), name.property.2]
    rfl
  have hfollow := Recorder.follow_step hd₁ (r := r) (by simp [hb])
  rw [Recorder.take_variable rfl _ hb, Recorder.follow_step hd₂ (by simp), Recorder.take_assign rfl _ rfl,
    Recorder.follow_step hd₃ (by simp [Recorder.proceed]),
    Recorder.follow_step hd₄ (Recorder.take_operand_blocks hoperand _ _ _),
    Recorder.take_operand hoperand _ (.inl rfl) (congrArg Symbol.plain stop.property) _ _
      (by exact hfile), hkey,
    hname N hN, hplace] at hfollow
  exact ⟨_, m₄, hfollow, ⟨hm₄, ⟨_, _, rfl⟩, hfile⟩, rfl, rfl⟩

theorem follow_echo {source : Variable} (word : Sign (.sink .xss)) (stop : Sign .semicolon)
    (hm : Stage m (word.val :: ⟨.dollarName, source.name, place.line, place.pos⟩ :: stop.val :: ts) ns 0
      blocks) (hr : In r file l nested outer) (hN : (ns.number source.name).2 <+: N) :
    Records file r m [((Special.sink .xss).name, .site r.fresh (l.mark file place (kindIn N source)))]
      fun r' m' => Stage m' ts (ns.number source.name).2 0 blocks ∧ In r' file l nested outer := by
  obtain ⟨⟨last, branches, hb⟩, hfile⟩ := hr
  have hword : word.val.masked.symbol = .plain (.sink .xss) := congrArg Symbol.plain word.property
  obtain ⟨m₁, hd₁, hm₁⟩ := hm.step (Masker.yields_deliverWord (by rw [word.property]; rfl)
    (hm.stands.meetsSign word rfl (by decide))) (by simp [hword])
  obtain ⟨m₂, hd₂, hm₂⟩ := hm₁.name rfl
  obtain ⟨m₃, hd₃, hm₃⟩ := hm₂.stop stop
  have hname : (Symbol.var (ns.number source.name).1).name = kindIn N source := by
    rw [Names.number_eq hN]
    rfl
  have hfollow := Recorder.follow_step hd₁ (r := r) (by simp [hb])
  rw [Recorder.take_print hword _ hb, Recorder.follow_step hd₂ (by simp [Recorder.proceed]),
    Recorder.follow_step hd₃ (Recorder.take_operand_blocks rfl _ _ _),
    Recorder.take_operand rfl _ (.inr rfl) (congrArg Symbol.plain stop.property) _ _ hfile, hname] at hfollow
  exact ⟨_, m₃, hfollow, ⟨hm₃, ⟨_, _, rfl⟩, hfile⟩, rfl, rfl⟩

theorem follow_opening {c : Variable} (o : Opening c) (hm : Stage m (o.lexemes ++ ts) ns 0 blocks)
    (hr : In r file l nested outer) :
    Records file r m [] fun r' m' => Stage m' ts (ns.number c.name).2 0 (⟨false, .branch⟩ :: blocks) ∧
      ∃ last, In r' file (l.next.enter 1) true (l.next.block file nested last 1 :: outer) := by
  obtain ⟨⟨last, branches, hb⟩, hfile⟩ := hr
  have hword : o.word.val.masked.symbol = .plain .ifWord := congrArg Symbol.plain o.word.property
  obtain ⟨m₁, hd₁, hm₁⟩ := hm.move ((Masker.yields_branchWord (by rw [o.word.property]; rfl) o.left
    (hm.stands.meetsSign o.word rfl (by decide))).imp (fun _ => id) fun _ => .reading) (by simp [hword])
    (by simpa using hm.braces)
  obtain ⟨m₂, hd₂, hm₂⟩ := hm₁.name o.condition.property.1
  obtain ⟨m₃, hd₃, hm₃⟩ := hm₂.announce o.first (Masker.yields_endCondition o.right
    (hm₂.stands.meetsSign o.right rfl (by decide))) (fun n => Symbol.noConfusion) hm.braces
  rw [o.condition.property.2] at hm₃
  have hfollow := Recorder.follow_step hd₁ (r := r) (by simp [hb])
  rw [Recorder.take_ifWord hword _ hb, Recorder.follow_step hd₂ (by simp), Recorder.take_variable rfl _ rfl,
    Recorder.follow_step hd₃ (by simp), Recorder.take_endParens rfl _ rfl] at hfollow
  exact ⟨_, m₃, hfollow, ⟨hm₃, _, ⟨_, _, rfl⟩, hfile⟩, rfl, rfl⟩

theorem follow_closing (head : Head) (hhead : head.tail = [] ∧ head.marked 0 = 0)
    (right : Sign .rightBrace) {inner : Level} {last : Option Symbol} {branches : Int}
    (hm : Stage m (right.val :: ts) ns 0 (⟨false, head.blockKind⟩ :: blocks))
    (hr : In r file inner true (l.block file nested last branches :: outer)) :
    Records file r m [] fun r' m' => Stage m' ts ns 0 blocks ∧ In r' file (l.leave inner) nested outer := by
  obtain ⟨⟨last', branches', hblocks⟩, hfile⟩ := hr
  have hmeets := hm.stands.meetsSign right rfl (by decide)
  rw [← List.nil_append ts, ← hhead.1] at hmeets
  have hyields := Masker.yields_endBlock head right hmeets
  rw [hhead.2] at hyields
  obtain ⟨m₁, hd, hm₁⟩ := hm.move (hyields.imp (fun _ => id) fun _ => .reading)
    (fun n => Symbol.noConfusion) fun b hb => hm.braces b (List.mem_cons_of_mem _ hb)
  have hfollow := Recorder.follow_step hd (r := r) (by simp [hblocks])
  rw [Recorder.take_endBlock rfl _ hblocks] at hfollow
  exact ⟨_, m₁, hfollow, ⟨hm₁, ⟨_, _, rfl⟩, hfile⟩, rfl, rfl⟩

theorem follow_else (word : Sign .elseWord) (first : Sign .leftBrace)
    (hm : Stage m (word.val :: first.val :: ts) ns 0 blocks) (hr : In r file l nested outer) :
    Records file r m [] fun r' m' => Stage m' ts ns 0 (⟨false, .alternative⟩ :: blocks) ∧
      ∃ last branches, In r' file (l.enter (-1)) true (l.block file nested last branches :: outer) := by
  obtain ⟨⟨last, branches, hb⟩, hfile⟩ := hr
  have hword : word.val.masked.symbol = .plain .elseWord := congrArg Symbol.plain word.property
  obtain ⟨m₁, hd, hm₁⟩ := hm.announce first (Masker.yields_openBlock (.inl ⟨word.property, rfl⟩)
    (hm.stands.meetsSign word rfl (by decide))) (by simp [hword]) hm.braces
  have hfollow := Recorder.follow_step hd (r := r) (by simp [hb])
  rw [Recorder.take_elseWord hword _ hb] at hfollow
  exact ⟨_, m₁, hfollow, ⟨hm₁, _, _, ⟨_, _, rfl⟩, hfile⟩, rfl, rfl⟩

theorem Lexed.follow {s : Script} {us : List Lexeme} (h : Lexed s us) (hm : Stage m (us ++ ts) ns 0 blocks)
    (hr : In r file l nested outer) (hN : s.names ns <+: N) :
    Records file r m (s.events (kindIn N) file l r.fresh)
      fun r' m' => Stage m' ts (s.names ns) 0 blocks ∧ In r' file (s.level l) nested outer := by
  induction h generalizing m ts ns blocks r l nested outer with
  | done => exact ⟨r, m, rfl, ⟨hm, hr⟩, rfl, rfl⟩
  | @assign target value place rest vs us name sign hvalue stop hrest ih =>
    simp only [List.append_assoc, List.cons_append] at hm
    refine (follow_assign name sign hvalue stop hm hr ((names_extends rest _).trans hN)).trans
      fun r₁ m₁ ⟨hm₁, hr₁⟩ hfresh => ?_
    rw [← show r₁.fresh = r.fresh + 1 from hfresh]
    exact ih hm₁ hr₁ hN
  | @echo source place rest us word stop hrest ih =>
    refine (follow_echo word stop hm hr ((names_extends rest _).trans hN)).trans
      fun r₁ m₁ ⟨hm₁, hr₁⟩ hfresh => ?_
    rw [← show r₁.fresh = r.fresh + 1 from hfresh]
    exact ih hm₁ hr₁ hN
  | @branch c yes rest us ws o hyes last hrest ihyes ihrest =>
    simp only [List.append_assoc, List.cons_append] at hm
    refine (follow_opening o hm hr).silent fun r₁ m₁ ⟨hm₁, last₁, hr₁⟩ hfresh₁ => ?_
    rw [← hfresh₁]
    refine (ihyes hm₁ hr₁ ((names_extends rest _).trans hN)).trans fun r₂ m₂ ⟨hm₂, hr₂⟩ hfresh₂ => ?_
    rw [length_events] at hfresh₂
    refine (follow_closing (.branch ⟨_, by rw [o.word.property]; rfl⟩ o.left [] [] o.right) ⟨rfl, rfl⟩ last
      hm₂ hr₂).silent fun r₃ m₃ ⟨hm₃, hr₃⟩ hfresh₃ => ?_
    rw [← hfresh₂, ← hfresh₃]
    exact ihrest hm₃ hr₃ hN
  | @branchElse c yes no rest us vs ws o hyes last word first hno last' hrest ihyes ihno ihrest =>
    simp only [List.append_assoc, List.cons_append] at hm
    refine (follow_opening o hm hr).silent fun r₁ m₁ ⟨hm₁, last₁, hr₁⟩ hfresh₁ => ?_
    rw [← hfresh₁]
    refine (ihyes hm₁ hr₁ (((names_extends no _).trans (names_extends rest _)).trans hN)).trans
      fun r₂ m₂ ⟨hm₂, hr₂⟩ hfresh₂ => ?_
    rw [length_events] at hfresh₂
    refine (follow_closing (.branch ⟨_, by rw [o.word.property]; rfl⟩ o.left [] [] o.right) ⟨rfl, rfl⟩ last
      hm₂ hr₂).silent fun r₃ m₃ ⟨hm₃, hr₃⟩ hfresh₃ => ?_
    refine (follow_else word first hm₃ hr₃).silent fun r₄ m₄ ⟨hm₄, last₄, branches₄, hr₄⟩ hfresh₄ => ?_
    rw [← hfresh₂, ← hfresh₃, ← hfresh₄]
    refine (ihno hm₄ hr₄ ((names_extends rest _).trans hN)).trans fun r₅ m₅ ⟨hm₅, hr₅⟩ hfresh₅ => ?_
    rw [length_events] at hfresh₅
    refine (follow_closing (.alternative word) ⟨rfl, rfl⟩ last' hm₅ hr₅).silent
      fun r₆ m₆ ⟨hm₆, hr₆⟩ hfresh₆ => ?_
    rw [← hfresh₅, ← hfresh₆]
    exact ihrest hm₆ hr₆ hN

theorem follow_end (hm : Stage m [] ns 0 []) (hr : In r file l false []) :
    ∃ m', r.follow m = ⟨{ r with blocks := [], counter := l.counter }, m', none⟩ := by
  obtain ⟨⟨last, branches, hb⟩, hfile⟩ := hr
  obtain ⟨m', htoken⟩ := hm.stands.finished
  exact ⟨m', Recorder.follow_last htoken hb rfl⟩

theorem stage_loadFile {blank : Char} {text : List Char} {s : Script} (hblank : Pattern.isBlank blank = true)
    (h : Reads (Position.after ⟨1, 0⟩ (Masker.openTag blank)) s text) :
    ∃ ts m, Lexed s ts ∧ Stage m ts [] 0 [] ∧
      Masker.token (({} : Masker).loadFile (Masker.openTag blank ++ text)) = Masker.token m := by
  have hne : blank ≠ '=' := by
    rintro rfl
    exact absurd hblank (by decide)
  let l : Lexer := ({ mode := .html } : Lexer).load (Masker.openTag blank ++ text)
  let l' : Lexer := { (l.advance 6) with mode := .code }
  let tag : Lexeme := ⟨.openTag, String.ofList (Masker.openTag blank), 1, 0⟩
  have hwidth : Pattern.openTag (Masker.openTag blank ++ text) = 6 := by
    simp [Masker.openTag, Pattern.openTag, hblank]
  have hnext : l.next = .lexeme tag l' := by
    have hmatch : firstMatch Mode.html.rules none (Masker.openTag blank ++ text) = some (Rule.openTag, 6) := by
      simp [firstMatch, Mode.rules, Rule.openTag, Rule.spelled, hwidth]
    rw [Lexer.next_of_match rfl (by simp [l, Lexer.load, Masker.openTag]) hmatch]
    simp [Rule.openTag, Rule.spelled, hne.symm, Lexer.act, Lexer.shift, Masker.openTag, tag, l', l,
      Lexer.advance, Lexer.load, Except.map]
  have hat : l'.At [] (text ++ []) (Position.after ⟨1, 0⟩ (Masker.openTag blank)) := by
    refine ⟨rfl, rfl, rfl, [], by simp [Blank], by simp [l', l, Lexer.advance, Lexer.load, Masker.openTag], ?_⟩
    simp [l', l, Lexer.advance, Lexer.load, Masker.openTag, Position.after]
  obtain ⟨ts, l₁, hts, hl₁, hleads⟩ := h.leads hat
  have hgives : l.Gives (tag :: ts) :=
    (Lexer.gives_lexeme hnext rfl).mpr ⟨ts, rfl, by simpa using hleads [] hl₁.gives_nil⟩
  have hreading : (({} : Masker).loadFile (Masker.openTag blank ++ text)).Reading (tag :: ts) (.idle 0) [] :=
    ⟨.inl ⟨rfl, hgives⟩, ⟨rfl, rfl, rfl, rfl⟩, rfl, rfl⟩
  obtain ⟨m, htoken, hreads, hm⟩ := hreading.drop rfl rfl
  exact ⟨ts, m, hts, ⟨.reading hm, by simp, hreads.2 (by simp [Masker.IsListed, Masker.loadFile]),
    congrArg Masker.Books.vars hreads.1⟩, htoken⟩

/-- The structure of a file of its own before anything is recorded. -/
def fresh (file : String) : Structure := [(file, [(Special.params.name, [])])]

theorem recordFile_of_reads (file : String) {s : Script} {blank : Char} {text : List Char}
    (hblank : Pattern.isBlank blank = true)
    (h : Reads (Position.after ⟨1, 0⟩ (Masker.openTag blank)) s text) :
    (Project.recordFile {} file (Masker.openTag blank ++ text)).failure = none ∧
      (Project.recordFile {} file (Masker.openTag blank ++ text)).recorder.flows =
        recorded file (fresh file) (s.events (kindIn (s.names [])) file {} 0) := by
  obtain ⟨ts, m, hts, hm, htoken⟩ := stage_loadFile hblank h
  let r : Recorder := { ({ file := file, flows := Table.empty, fresh := 0 } : Recorder).openScope file
    with blocks := [{ scope := file }] }
  have hstart : Project.recordFile {} file (Masker.openTag blank ++ text) = r.follow m := by
    rw [← Recorder.follow_congr htoken (by simp [r])]
    rfl
  have hr : In r file {} false [] := ⟨⟨none, 0, rfl⟩, rfl⟩
  rw [← List.append_nil ts] at hm
  obtain ⟨r', m', hfollow, ⟨hm', hr'⟩, hflows, -⟩ := hts.follow hm hr List.prefix_rfl
  obtain ⟨m'', hend⟩ := follow_end hm' hr'
  rw [hstart, hfollow, hend]
  exact ⟨rfl, hflows⟩

end Script

end MaskedTaint
