import MaskedTaint.Proofs.Lexeme.Parallel
import MaskedTaint.Proofs.Masking.Books
import MaskedTaint.Proofs.Masking.Renaming
import MaskedTaint.Proofs.Related

/-! Two maskers side by side. They read lexemes that are related in some way, and may number names
differently. If they number alike what they are about to mask, they deliver related symbols, and
what they keep account of stays related. -/

namespace MaskedTaint

namespace Act

variable {σ σ' ε ε' α α' β β' : Type}

/-- Both runs give related values in states related by `S`, or both fail in related ways in
states related by `W`. -/
inductive EndAlike (S W : σ → σ' → Prop) (E : ε → ε' → Prop) (Q : α → α' → Prop) :
    Except ε α × σ → Except ε' α' × σ' → Prop
  | ok {a : α} {a' : α'} {s : σ} {t : σ'} (hs : S s t) (ha : Q a a') :
      EndAlike S W E Q (.ok a, s) (.ok a', t)
  | error {e : ε} {e' : ε'} {s : σ} {t : σ'} (hs : W s t) (he : E e e') :
      EndAlike S W E Q (.error e, s) (.error e', t)

namespace EndAlike

variable {S W : σ → σ' → Prop} {E : ε → ε' → Prop} {Q : α → α' → Prop} {R : β → β' → Prop}
  {s : σ} {t : σ'}

theorem update {f : σ → σ} {g : σ' → σ'} {k : Unit → Act σ ε β} {k' : Unit → Act σ' ε' β'}
    (h : EndAlike S W E R (k () (f s)) (k' () (g t))) :
    EndAlike S W E R ((Act.update f >>= k) s) ((Act.update g >>= k') t) := h

section

variable {x : Act σ ε α} {y : Act σ' ε' α'} {f : α → Act σ ε β} {g : α' → Act σ' ε' β'}
  (hx : EndAlike S W E Q (x s) (y t))

include hx

theorem bind (hf : ∀ a a' s' t', x s = (.ok a, s') → y t = (.ok a', t') → Q a a' → S s' t' →
      EndAlike S W E R (f a s') (g a' t')) : EndAlike S W E R ((x >>= f) s) ((y >>= g) t) := by
  rcases hxs : x s with ⟨o, s'⟩
  rcases hyt : y t with ⟨o', t'⟩
  rw [hxs, hyt] at hx
  cases hx with
  | ok hs ha =>
    rw [bind_of_ok hxs, bind_of_ok hyt]
    exact hf _ _ _ _ hxs hyt ha hs
  | error hs he =>
    rw [bind_of_error hxs, bind_of_error hyt]
    exact .error hs he

theorem andThen (hf : ∀ a a' s' t', Q a a' → S s' t' → EndAlike S W E R (f a s') (g a' t')) :
    EndAlike S W E R ((x >>= f) s) ((y >>= g) t) :=
  hx.bind fun a a' s' t' _ _ => hf a a' s' t'

end

end EndAlike

end Act

open Act (EndAlike)

/-- Failures of the lexer are related by `E`; all others are the same. -/
inductive MaskError.Alike (E : LexError → LexError → Prop) : MaskError → MaskError → Prop
  | lex {e₁ e₂ : LexError} (h : E e₁ e₂) : Alike E (.lex e₁) (.lex e₂)
  | noBlock : Alike E .noBlock .noBlock
  | notFunction : Alike E .notFunction .notFunction

theorem Lexer.find_eq (wanted : Kind → Bool) (l : Lexer) :
    l.find wanted = match l.next with
      | .lexeme t l' => if wanted t.kind then (.ok (some t), l') else l'.find wanted
      | .finished l' => (.ok none, l')
      | .failed e l' => (.error e, l') := by
  rw [Lexer.find]
  split <;> simp_all

namespace Masker

/-! ### Pairings -/

/-- How the accounts of two maskers are related. -/
structure Ledgers where
  lexer : Lexer → Lexer → Prop
  last : Option Masked → Option Masked → Prop
  vars : Names → Names → Prop
  ops : Names → Names → Prop
  funcs : Names → Names → Prop
  /-- The numbers of the first masker for those of the second. -/
  numbers : Renaming

/-- How two maskers are related that go on side by side. Lexers related by `reading` take related
steps, and what a masker makes of related lexemes is related by `masked`. -/
structure Pairing extends Ledgers where
  reading : Lexer → Lexer → Prop
  lexeme : Lexeme → Lexeme → Prop
  error : LexError → LexError → Prop
  masked : Masked → Masked → Prop
  next : ∀ {l₁ l₂ : Lexer}, reading l₁ l₂ → Lexer.Step.Alike reading lexer lexeme error l₁.next l₂.next
  level : ∀ {l₁ l₂ : Lexer}, reading l₁ l₂ → lexer l₁ l₂
  kind : ∀ {t₁ t₂ : Lexeme}, lexeme t₁ t₂ → t₁.kind = t₂.kind
  plain : ∀ {t₁ t₂ : Lexeme}, lexeme t₁ t₂ → masked t₁.masked t₂.masked
  closing : ∀ {t₁ t₂ : Lexeme}, lexeme t₁ t₂ →
    masked { t₁.masked with symbol := .plain .semicolon } { t₂.masked with symbol := .plain .semicolon }
  opening : ∀ {t₁ t₂ : Lexeme}, lexeme t₁ t₂ →
    masked { t₁.masked with symbol := .plain .semicolon, text := ";" }
      { t₂.masked with symbol := .plain .semicolon, text := ";" }
  mark : ∀ {u₁ u₂ : Masked} {s : Symbol}, masked u₁ u₂ → (∀ kind, s ≠ .plain kind) →
    masked { u₁ with symbol := numbers.symbol s } { u₂ with symbol := s }
  delivered : ∀ {u₁ u₂ : Masked}, masked u₁ u₂ → last (some u₁) (some u₂)

structure Level (P : Ledgers) (m₁ m₂ : Masker) : Prop where
  lexer : P.lexer m₁.lexer m₂.lexer
  last : P.last m₁.last m₂.last
  vars : P.vars m₁.vars m₂.vars
  ops : P.ops m₁.ops m₂.ops
  funcs : P.funcs m₁.funcs m₂.funcs
  parens : m₁.parens = m₂.parens
  innerParens : m₁.innerParens = m₂.innerParens
  blocks : m₁.blocks = m₂.blocks.map P.numbers.block
  blockAhead : m₁.blockAhead = m₂.blockAhead
  inDeclaration : m₁.inDeclaration = m₂.inDeclaration
  inCall : m₁.inCall = m₂.inCall

structure Beside (P : Pairing) (m₁ m₂ : Masker) : Prop extends Level P.toLedgers m₁ m₂ where
  reading : P.reading m₁.lexer m₂.lexer
  peeked : Option.Rel P.lexeme m₁.peeked m₂.peeked

abbrev Together {α β : Type} (P : Pairing) (Q : α → β → Prop) (x : Masking α) (y : Masking β)
    (m₁ m₂ : Masker) : Prop :=
  EndAlike (Beside P) (Level P.toLedgers) (MaskError.Alike P.error) Q (x m₁) (y m₂)

variable {P : Pairing} {m₁ m₂ : Masker} {u₁ u₂ : Masked}

/-! ### Reading -/

theorem find_alike (wanted : Kind → Bool) {l₁ l₂ : Lexer} (h : P.reading l₁ l₂) :
    EndAlike P.reading P.lexer P.error (Option.Rel P.lexeme) (l₁.find wanted) (l₂.find wanted) := by
  have hstep := P.next h
  rw [Lexer.find_eq, Lexer.find_eq wanted l₂]
  cases hn₁ : l₁.next <;> cases hn₂ : l₂.next <;> rw [hn₁, hn₂] at hstep <;> cases hstep
  case lexeme.lexeme t₁ l₁' t₂ l₂' ht hl =>
    dsimp only
    rw [P.kind ht]
    split
    · exact .ok hl (.some ht)
    · exact find_alike wanted hl
  case finished.finished l₁' l₂' hl => exact .ok hl .none
  case failed.failed e₁ l₁' e₂ l₂' he hl => exact .error hl he
termination_by l₁.rest.length
decreasing_by exact Lexer.next_rest_lt hn₁

theorem Beside.onFind (wanted : Kind → Bool) (h : Beside P m₁ m₂) :
    Together P (Option.Rel P.lexeme) (onLexer (Lexer.find wanted)) (onLexer (Lexer.find wanted))
      m₁ m₂ := by
  have hfind := find_alike wanted h.reading
  unfold Together onLexer Act.onPart
  rcases hf₁ : m₁.lexer.find wanted with ⟨o₁, l₁⟩
  rcases hf₂ : m₂.lexer.find wanted with ⟨o₂, l₂⟩
  rw [hf₁, hf₂] at hfind
  cases hfind with
  | ok hl ht => exact .ok { h with lexer := P.level hl, reading := hl } ht
  | error hl he => exact .error { h.toLevel with lexer := hl } (.lex he)

theorem Beside.unpeek (h : Beside P m₁ m₂) :
    Beside P { m₁ with peeked := none } { m₂ with peeked := none } := { h with peeked := .none }

theorem Beside.skipTo (wanted : Kind → Bool) (h : Beside P m₁ m₂) :
    Together P (Option.Rel P.lexeme) (skipTo wanted) (skipTo wanted) m₁ m₂ := by
  have hpeeked := h.peeked
  unfold Together
  cases hp₁ : m₁.peeked <;> cases hp₂ : m₂.peeked <;> rw [hp₁, hp₂] at hpeeked <;> cases hpeeked
  case none.none =>
    rw [skipTo_apply_none wanted hp₁, skipTo_apply_none wanted hp₂]
    exact h.onFind wanted
  case some.some t₁ t₂ ht =>
    rw [skipTo_apply_some wanted hp₁, skipTo_apply_some wanted hp₂, P.kind ht]
    split
    · exact .ok h.unpeek (.some ht)
    · exact h.unpeek.onFind wanted

theorem Beside.peek (h : Beside P m₁ m₂) : Together P (Option.Rel P.lexeme) peek peek m₁ m₂ := by
  have hpeeked := h.peeked
  unfold Together Masker.peek
  rw [Act.state_bind, Act.state_bind]
  cases hp₁ : m₁.peeked <;> cases hp₂ : m₂.peeked <;> rw [hp₁, hp₂] at hpeeked <;> cases hpeeked
  case none.none =>
    exact (h.skipTo _).andThen fun t₁ t₂ n₁ n₂ ht hn => .update (.ok { hn with peeked := ht } ht)
  case some.some t₁ t₂ ht => exact .ok h (.some ht)

/-- Whether a tag ends a statement is the same behind both. -/
def EndsAlike (last₁ last₂ : Option Masked) : Prop :=
  (last₁.map Masked.symbol = some (.plain .semicolon) ↔
    last₂.map Masked.symbol = some (.plain .semicolon)) ∧
  (last₁.map fun t => needsNoEnd t.symbol) = last₂.map fun t => needsNoEnd t.symbol

theorem endsAlike_of_symbol {last₁ last₂ : Option Masked}
    (h : last₁.map Masked.symbol = last₂.map Masked.symbol) : EndsAlike last₁ last₂ := by
  have hend := congrArg (Option.map needsNoEnd) h
  rw [Option.map_map, Option.map_map] at hend
  exact ⟨by rw [h], hend⟩

structure Pairing.Lasts (P : Pairing) (last₁ last₂ : Option Masked) : Prop where
  ends : EndsAlike last₁ last₂
  last : P.last last₁ last₂

/-- Related, and not masked yet. -/
structure Pairing.Read (P : Pairing) (u₁ u₂ : Masked) : Prop where
  masked : P.masked u₁ u₂
  symbol : u₁.symbol = u₂.symbol

theorem Pairing.read {t₁ t₂ : Lexeme} (h : P.lexeme t₁ t₂) : P.Read t₁.masked t₂.masked :=
  ⟨P.plain h, congrArg Symbol.plain (P.kind h)⟩

inductive Sifted.Alike (P : Pairing) : Sifted → Sifted → Prop
  | keep {u₁ u₂ : Masked} (h : P.Read u₁ u₂) : Alike P (.keep u₁) (.keep u₂)
  | drop {last₁ last₂ : Option Masked} (h : P.Lasts last₁ last₂) : Alike P (.drop last₁) (.drop last₂)

theorem sift_alike {last₁ last₂ : Option Masked} {t₁ t₂ : Lexeme} (hlast : P.Lasts last₁ last₂)
    (ht : P.lexeme t₁ t₂) : Sifted.Alike P (sift last₁ t₁) (sift last₂ t₂) := by
  have htag : P.Lasts (some t₁.masked) (some t₂.masked) :=
    ⟨endsAlike_of_symbol (congrArg some (Pairing.read ht).symbol), P.delivered (P.plain ht)⟩
  unfold sift
  simp only [P.kind ht, hlast.ends.1, hlast.ends.2]
  split
  · split
    · exact .keep ⟨P.opening ht, rfl⟩
    · exact .drop htag
  · split
    · exact .drop hlast
    · exact .keep ⟨P.closing ht, rfl⟩
  · split
    · exact .drop hlast
    · exact .keep (P.read ht)

theorem siftLexer_eq (last : Option Masked) (l : Lexer) :
    siftLexer last l = match l.next with
      | .lexeme t l' =>
        match sift last t with
        | .keep t => (.ok (some t), last, l')
        | .drop last => siftLexer last l'
      | .finished l' => (.ok none, last, l')
      | .failed e l' => (.error e, last, l') := by
  rw [siftLexer]
  split
  · rename_i t l' hn
    cases hsift : sift last t <;> simp only [hn, hsift]
  · rename_i l' hn
    rw [hn]
  · rename_i e l' hn
    rw [hn]

def Pairing.BesideLast (P : Pairing) (R : Lexer → Lexer → Prop) (x₁ x₂ : Option Masked × Lexer) :
    Prop := P.last x₁.1 x₂.1 ∧ R x₁.2 x₂.2

theorem siftLexer_alike {last₁ last₂ : Option Masked} {l₁ l₂ : Lexer} (hlast : P.Lasts last₁ last₂)
    (h : P.reading l₁ l₂) :
    EndAlike (P.BesideLast P.reading) (P.BesideLast P.lexer) P.error (Option.Rel P.Read)
      (siftLexer last₁ l₁) (siftLexer last₂ l₂) := by
  have hstep := P.next h
  rw [siftLexer_eq, siftLexer_eq last₂]
  cases hn₁ : l₁.next <;> cases hn₂ : l₂.next <;> rw [hn₁, hn₂] at hstep <;> cases hstep
  case lexeme.lexeme t₁ l₁' t₂ l₂' ht hl =>
    have hsift := sift_alike hlast ht
    dsimp only
    cases hs₁ : sift last₁ t₁ <;> cases hs₂ : sift last₂ t₂ <;> rw [hs₁, hs₂] at hsift <;> cases hsift
    case keep.keep u₁ u₂ hu => exact .ok ⟨hlast.last, hl⟩ (.some hu)
    case drop.drop last₁' last₂' hlast' => exact siftLexer_alike hlast' hl
  case finished.finished l₁' l₂' hl => exact .ok ⟨hlast.last, hl⟩ .none
  case failed.failed e₁ l₁' e₂ l₂' he hl => exact .error ⟨hlast.last, hl⟩ he
termination_by l₁.rest.length
decreasing_by exact Lexer.next_rest_lt hn₁

theorem Beside.siftOn (h : Beside P m₁ m₂) (hends : EndsAlike m₁.last m₂.last) :
    Together P (Option.Rel P.Read) siftOn siftOn m₁ m₂ := by
  have hsift := siftLexer_alike ⟨hends, h.last⟩ h.reading
  unfold Together Masker.siftOn
  rcases hs₁ : siftLexer m₁.last m₁.lexer with ⟨o₁, last₁, l₁⟩
  rcases hs₂ : siftLexer m₂.last m₂.lexer with ⟨o₂, last₂, l₂⟩
  rw [hs₁, hs₂] at hsift
  cases hsift with
  | ok hl hu => exact .ok { h with lexer := P.level hl.2, reading := hl.2, last := hl.1 } hu
  | error hl he => exact .error { h.toLevel with lexer := hl.2, last := hl.1 } (.lex he)

theorem Beside.significant (h : Beside P m₁ m₂) (hends : EndsAlike m₁.last m₂.last) :
    Together P (Option.Rel P.Read) significant significant m₁ m₂ := by
  have hpeeked := h.peeked
  unfold Together
  cases hp₁ : m₁.peeked <;> cases hp₂ : m₂.peeked <;> rw [hp₁, hp₂] at hpeeked <;> cases hpeeked
  case none.none =>
    rw [significant_apply_none hp₁, significant_apply_none hp₂]
    exact h.siftOn hends
  case some.some t₁ t₂ ht =>
    have hsift := sift_alike ⟨hends, h.last⟩ ht
    rw [significant_apply_some hp₁, significant_apply_some hp₂]
    cases hs₁ : sift m₁.last t₁ <;> cases hs₂ : sift m₂.last t₂ <;> rw [hs₁, hs₂] at hsift <;>
      cases hsift
    case keep.keep u₁ u₂ hu => exact .ok h.unpeek (.some hu)
    case drop.drop last₁ last₂ hlast =>
      have hnext : Beside P { m₁ with peeked := none, last := last₁ }
          { m₂ with peeked := none, last := last₂ } := { h.unpeek with last := hlast.last }
      exact hnext.siftOn hlast.ends

/-! ### Announced blocks -/

theorem Beside.settleBlock (h : Beside P m₁ m₂) {t₁ t₂ : Option Masked}
    (ht : Option.Rel P.Read t₁ t₂) :
    Together P (Option.Rel P.Read) (settleBlock t₁) (settleBlock t₂) m₁ m₂ := by
  have hbrace : (t₁.map fun t => t.symbol == .plain .leftBrace) =
      t₂.map fun t => t.symbol == .plain .leftBrace := by
    cases ht with
    | none => rfl
    | some hu => simp only [Option.map_some, hu.symbol]
  unfold Together Masker.settleBlock
  rw [Act.state_bind, Act.state_bind, h.blockAhead, hbrace, h.blocks]
  split
  · dsimp only
    split
    · exact (h.skipTo _).andThen fun t₁ t₂ n₁ n₂ ht hn =>
        .update (.ok { hn with blockAhead := rfl } (ht.map fun _ _ hu => P.read hu))
    · cases m₂.blocks with
      | nil => exact .error h.toLevel .noBlock
      | cons b bs =>
        refine .update (.ok { h with blocks := ?_, blockAhead := rfl } ht)
        rcases b with ⟨one, _ | _ | _ | n⟩ <;> rfl
  · exact .ok h ht

theorem upcoming_together (h : Together P (Option.Rel P.Read) significant significant m₁ m₂) :
    Together P (Option.Rel P.Read) upcoming upcoming m₁ m₂ :=
  h.andThen fun _ _ _ _ ht hn => hn.settleBlock ht

/-! ### Masking -/

variable (h : Beside P m₁ m₂)

include h

theorem Beside.openBranch (hu : P.masked u₁ u₂) :
    Together P P.masked (openBranch >>= fun _ => pure u₁) (openBranch >>= fun _ => pure u₂) m₁ m₂ := by
  have hopen : Together P (fun _ _ => True) Masker.openBranch Masker.openBranch m₁ m₂ := by
    have hnext : Beside P { m₁ with blocks := ⟨false, .branch⟩ :: m₁.blocks, parens := m₁.parens + 1 }
        { m₂ with blocks := ⟨false, .branch⟩ :: m₂.blocks, parens := m₂.parens + 1 } :=
      { h with blocks := by rw [h.blocks]; rfl, parens := by rw [h.parens] }
    exact .update ((hnext.skipTo _).andThen fun _ _ n₁ n₂ _ hn => .ok hn trivial)
  exact hopen.andThen fun _ _ n₁ n₂ _ hn => .ok hn hu

theorem Beside.openBlock {kind : BlockKind}
    (hkind : P.numbers.block ⟨false, kind⟩ = ⟨false, kind⟩) (hu : P.masked u₁ u₂) :
    Together P P.masked (openBlock kind >>= fun _ => pure u₁) (openBlock kind >>= fun _ => pure u₂)
      m₁ m₂ :=
  .update (.ok { h with blocks := by rw [h.blocks, List.map_cons, hkind], blockAhead := rfl } hu)

omit h in
theorem announcesBlock_map (ρ : Renaming) (bs : List CodeBlock) :
    announcesBlock (bs.map ρ.block) = announcesBlock bs := by
  rcases bs with _ | ⟨⟨one, _ | _ | _ | n⟩, bs⟩ <;> rfl

theorem Beside.closeParen (hu : P.masked u₁ u₂) :
    Beside P (m₁.closeParen u₁).2 (m₂.closeParen u₂).2 ∧
      P.masked (m₁.closeParen u₁).1 (m₂.closeParen u₂).1 := by
  unfold Masker.closeParen
  simp only [h.parens, h.innerParens, h.inCall, h.blocks, announcesBlock_map]
  split
  · exact ⟨h, hu⟩
  · split
    · refine ⟨?_, P.mark (s := .endParens) hu (by simp)⟩
      split
      · exact { h with parens := rfl, innerParens := rfl, blocks := rfl, inCall := rfl }
      · split
        · exact { h with parens := rfl, innerParens := rfl, blocks := rfl, blockAhead := rfl, inCall := rfl }
        · exact { h with parens := rfl, innerParens := rfl, blocks := rfl, inCall := rfl }
    · exact ⟨{ h with parens := rfl, innerParens := rfl, blocks := rfl, inCall := rfl }, hu⟩

theorem Beside.leaveBlock (b : CodeBlock) :
    Together P (fun _ _ => True) (leaveBlock (P.numbers.block b)) (leaveBlock b) m₁ m₂ := by
  have hkind : ((P.numbers.block b).kind == .doBlock) = (b.kind == .doBlock) := by
    rcases b with ⟨one, _ | _ | _ | n⟩ <;> rfl
  have htail : ∀ {m₁ m₂ : Masker}, Beside P m₁ m₂ → Together P (fun _ _ => True)
      (Act.update fun m => { m with blocks := m.blocks.tail })
      (Act.update fun m => { m with blocks := m.blocks.tail }) m₁ m₂ := fun hm =>
    .ok { hm with blocks := by simp only [hm.blocks, List.map_tail] } trivial
  unfold Masker.leaveBlock
  rw [hkind]
  split
  · have hnext : Beside P { m₁ with parens := m₁.parens + 1 } { m₂ with parens := m₂.parens + 1 } :=
      { h with parens := by rw [h.parens] }
    exact .update ((hnext.skipTo _).andThen fun _ _ n₁ n₂ _ hn => htail hn)
  · exact htail h

theorem Beside.endStatement (hu : P.masked u₁ u₂) :
    Together P P.masked (endStatement u₁) (endStatement u₂) m₁ m₂ := by
  unfold Together Masker.endStatement
  rw [Act.state_bind, Act.state_bind, h.blocks]
  cases m₂.blocks with
  | nil => exact .ok h hu
  | cons b bs =>
    have hone : (P.numbers.block b).oneLiner = b.oneLiner := by
      rcases b with ⟨one, _ | _ | _ | n⟩ <;> rfl
    simp only [List.map_cons, hone]
    split
    · exact (h.leaveBlock b).andThen fun _ _ n₁ n₂ _ hn => .ok hn (P.mark (s := .endBlock) hu (by simp))
    · exact .ok h hu

theorem Beside.closeBrace (hu : P.masked u₁ u₂) :
    Together P P.masked (closeBrace u₁) (closeBrace u₂) m₁ m₂ := by
  have hblocks := h.blocks
  unfold Together Masker.closeBrace
  rw [Act.state_bind, Act.state_bind, hblocks]
  cases m₂.blocks with
  | nil => exact .ok h hu
  | cons b bs =>
    have hleave := h.leaveBlock b
    rcases b with ⟨one, _ | _ | _ | n⟩
    case function => exact .update (.ok { h with blocks := rfl } (P.mark (s := .endFunction) hu (by simp)))
    all_goals
      cases one with
      | true => exact .update (.ok { h with blocks := rfl } hu)
      | false => exact hleave.andThen fun _ _ n₁ n₂ _ hn => .ok hn (P.mark (s := .endBlock) hu (by simp))

theorem Beside.declare (hu : P.masked u₁ u₂) (n : Nat) :
    Together P P.masked (declare (P.numbers.funcs n) u₁) (declare n u₂) m₁ m₂ := by
  unfold Together Masker.declare
  rw [Act.state_bind, Act.state_bind, h.blocks]
  cases m₂.blocks with
  | nil => exact .error h.toLevel .noBlock
  | cons b bs =>
    rcases b with ⟨one, _ | _ | _ | k⟩
    case function =>
      have hnext : Beside P
          { m₁ with blocks := ⟨one, .function (some (P.numbers.funcs n))⟩ :: bs.map P.numbers.block }
          { m₂ with blocks := ⟨one, .function (some n)⟩ :: bs } := { h with blocks := rfl }
      refine .update ((hnext.skipTo _).andThen fun _ _ n₁ n₂ _ hn => .update (.ok ?_ ?_))
      · exact { hn with parens := by rw [hn.parens], inDeclaration := rfl }
      · exact P.mark (s := .func n) hu (by simp)
    all_goals exact .error h.toLevel .notFunction

omit h in
theorem Pairing.kinds {t₁ t₂ : Option Lexeme} (h : Option.Rel P.lexeme t₁ t₂) :
    t₁.map Lexeme.kind = t₂.map Lexeme.kind := by
  cases h with
  | none => rfl
  | some ht => exact congrArg some (P.kind ht)

theorem Beside.callOrWord (hu : P.masked u₁ u₂) (n : Nat) :
    Together P P.masked (callOrWord (P.numbers.funcs n) u₁) (callOrWord n u₂) m₁ m₂ := by
  refine h.peek.andThen fun t₁ t₂ n₁ n₂ ht hn => ?_
  rw [P.kinds ht]
  split
  · refine .update (.ok ?_ (P.mark (s := .call n) hu (by simp)))
    exact { hn with peeked := .none, parens := by rw [hn.parens], inCall := rfl }
  · exact .ok hn hu

theorem Beside.skipOffset : Together P (fun _ _ => True) skipOffset skipOffset m₁ m₂ := by
  refine h.peek.andThen fun t₁ t₂ n₁ n₂ ht hn => ?_
  rw [P.kinds ht]
  split
  · exact (hn.skipTo _).andThen fun _ _ n₁ n₂ _ hn => .ok hn trivial
  · exact .ok hn trivial

def NumbersAlike (f : Nat → Nat) (N : Names → Names → Prop) (x₁ x₂ : Nat × Names) : Prop :=
  x₁.1 = f x₂.1 ∧ N x₁.2 x₂.2

/-- The maskers would number the names that these stand for alike. -/
structure Pairing.Numbers (P : Pairing) (u₁ u₂ : Masked) (m₁ m₂ : Masker) : Prop where
  vars : u₁.symbol = .plain .dollarName →
    NumbersAlike P.numbers.vars P.vars (m₁.vars.number u₁.text) (m₂.vars.number u₂.text)
  assign : u₁.symbol = .plain .operator → (u₁.text = "=" ↔ u₂.text = "=")
  ops : u₁.symbol = .plain .operator → u₁.text ≠ "=" →
    NumbersAlike P.numbers.ops P.ops (m₁.ops.number u₁.text) (m₂.ops.number u₂.text)
  zero : P.numbers.ops 0 = 0
  funcs : u₁.symbol = .plain .word →
    NumbersAlike P.numbers.funcs P.funcs (m₁.funcs.number u₁.text) (m₂.funcs.number u₂.text)

variable (hn : P.Numbers u₁ u₂ m₁ m₂)

include hn

theorem Beside.maskVariable (hu : P.masked u₁ u₂) (hname : u₁.symbol = .plain .dollarName) :
    Beside P (m₁.maskVariable u₁).2 (m₂.maskVariable u₂).2 ∧
      P.masked (m₁.maskVariable u₁).1 (m₂.maskVariable u₂).1 := by
  obtain ⟨hnumber, hvars⟩ := hn.vars hname
  have hmark := P.mark (s := .var (m₂.vars.number u₂.text).1) hu (by simp)
  rw [Renaming.symbol, ← hnumber] at hmark
  exact ⟨{ h with vars := hvars }, hmark⟩

theorem Beside.maskOperator (hu : P.masked u₁ u₂) (hop : u₁.symbol = .plain .operator) :
    Beside P (m₁.maskOperator u₁).2 (m₂.maskOperator u₂).2 ∧
      P.masked (m₁.maskOperator u₁).1 (m₂.maskOperator u₂).1 := by
  unfold Masker.maskOperator
  by_cases hassign : u₁.text = "="
  · have hmark := P.mark (s := .op 0) hu (by simp)
    rw [Renaming.symbol, hn.zero] at hmark
    rw [if_pos hassign, if_pos ((hn.assign hop).mp hassign)]
    exact ⟨h, hmark⟩
  · obtain ⟨hnumber, hops⟩ := hn.ops hop hassign
    have hmark := P.mark (s := .op (m₂.ops.number u₂.text).1) hu (by simp)
    rw [Renaming.symbol, ← hnumber] at hmark
    rw [if_neg hassign, if_neg (mt (hn.assign hop).mpr hassign)]
    exact ⟨{ h with ops := hops }, hmark⟩

theorem Beside.maskWord (hu : P.masked u₁ u₂) (hword : u₁.symbol = .plain .word) :
    Together P P.masked (maskWord u₁) (maskWord u₂) m₁ m₂ := by
  obtain ⟨hnumber, hfuncs⟩ := hn.funcs hword
  have hnext : Beside P { m₁ with funcs := (m₁.funcs.number u₁.text).2 }
      { m₂ with funcs := (m₂.funcs.number u₂.text).2 } := { h with funcs := hfuncs }
  unfold Together
  rw [maskWord_apply, maskWord_apply, hnumber]
  by_cases hd : m₂.inDeclaration = true
  · rw [if_pos hd, if_pos (h.inDeclaration.trans hd)]
    exact hnext.declare hu _
  · rw [if_neg hd, if_neg (h.inDeclaration ▸ hd)]
    exact hnext.callOrWord hu _

theorem Beside.mask (hread : P.Read u₁ u₂) : Together P P.masked (mask u₁) (mask u₂) m₁ m₂ := by
  have hu := hread.masked
  unfold Masker.mask
  rw [← hread.symbol]
  split
  · rename_i hs
    exact .ok (h.maskVariable hn hu hs).1 (h.maskVariable hn hu hs).2
  · rename_i hs
    exact .ok (h.maskOperator hn hu hs).1 (h.maskOperator hn hu hs).2
  iterate 6 exact h.openBranch hu
  · exact h.openBlock rfl hu
  · exact h.openBlock rfl hu
  · refine .update (.ok ?_ hu)
    rw [h.parens]
    split
    · exact h
    · exact { h with innerParens := by rw [h.innerParens], parens := rfl }
  · exact .ok (h.closeParen hu).1 (h.closeParen hu).2
  · exact h.endStatement hu
  · exact h.closeBrace hu
  · exact .update (.ok { h with blocks := by rw [h.blocks]; rfl, inDeclaration := rfl } hu)
  · rename_i hs
    exact h.maskWord hn hu hs
  · exact h.skipOffset.andThen fun _ _ n₁ n₂ _ hn => .ok hn hu
  · exact .ok h hu

omit h hn

theorem token_together (h : Together P (Option.Rel P.Read) upcoming upcoming m₁ m₂)
    (hnumbers : ∀ u₁ u₂ n₁ n₂, upcoming m₁ = (.ok (some u₁), n₁) → upcoming m₂ = (.ok (some u₂), n₂) →
      P.Read u₁ u₂ → Beside P n₁ n₂ → P.Numbers u₁ u₂ n₁ n₂) :
    Together P (Option.Rel P.masked) token token m₁ m₂ := by
  rw [token_eq_upcoming]
  refine h.bind fun t₁ t₂ n₁ n₂ hup₁ hup₂ ht hn => ?_
  cases ht with
  | none => exact .ok hn .none
  | some hread =>
    refine (hn.mask (hnumbers _ _ n₁ n₂ hup₁ hup₂ hread hn) hread).andThen fun u₁ u₂ n₁ n₂ hu hn => ?_
    exact .update (.ok { hn with last := P.delivered hu } (.some hu))

end Masker

end MaskedTaint
