import MaskedTaint.Proofs.Code.Masking
import MaskedTaint.Proofs.Flow.Runs
import MaskedTaint.Proofs.Masking.Readable
import MaskedTaint.Proofs.Masking.Standing

/-! A closing tag ends an unfinished statement. It does so when the masker meets it on the way to
the next symbol. Behind a word or an input the masker looks ahead, and passes over the tag. -/

namespace MaskedTaint

namespace Masker

variable {m m' : Masker} {t u : Masked} {last : Option Masked}

/-! ### Opening tags are no symbols -/

variable {c : Lexeme} {l : Lexer}

theorem sifts_ne_openTag {R : Watch} : R.Sifts fun u _ => u.symbol ≠ .plain .openTag where
  sift _ h := by
    rcases sift_cases h with ⟨rfl, hne⟩ | ⟨hs, -⟩
    · exact fun hopen => hne (Symbol.plain.inj hopen)
    · simp [hs]
  masked _ hlayout hopen := by
    rw [Symbol.plain.inj hopen] at hlayout
    cases hlayout

theorem Enters.ne_openTag {b b' : Books} (h : Enters b t u b') (ht : t.symbol ≠ .plain .openTag) :
    u.symbol ≠ .plain .openTag := by
  cases h <;> first | exact ht | simp

/-- A symbol is never an opening tag, and the masker remembers it. -/
theorem token_ne_openTag (hm : m.Sits) (h : token m = (.ok (some t), m')) :
    t.symbol ≠ .plain .openTag ∧ m'.last = some t := by
  obtain ⟨v, m₁, m₂, -, -, hv, hmask, rfl⟩ := Watch.holds_standing.of_token sifts_ne_openTag hm h
  exact ⟨(mask_enters v m₁ t m₂ hmask).ne_openTag hv, rfl⟩

/-! ### The tag ends the statement -/

theorem siftLexer_closeTag {l' : Lexer} (ht : needsNoEnd t.symbol = false)
    (hc : c.kind = .closeTag) (h : l.find (fun kind => !kind.isGap) = (.ok (some c), l')) :
    siftLexer (some t) l =
      (.ok (some { c.masked with symbol := .plain .semicolon }), some t, l') := by
  fun_induction Lexer.find (fun kind => !kind.isGap) l with
  | case1 l d l₁ hn hwanted =>
    cases h
    have hkeep : sift (some t) c = .keep { c.masked with symbol := .plain .semicolon } := by
      simp [sift, hc, ht]
    rw [siftLexer]
    split <;> simp_all
  | case2 l d l₁ hn hwanted ih =>
    have hdrop := sift_gap (some t) (show d.kind.isGap = true by simpa using hwanted)
    rw [siftLexer]
    split <;> simp_all
  | case3 l l₁ hn => cases h
  | case4 l e l₁ hn => cases h

theorem endStatement_cases (h : endStatement t m = (.ok u, m')) :
    u = t ∨ u = { t with symbol := .endBlock } := by
  rw [endStatement, Act.state_bind] at h
  cases hb : m.blocks with
  | nil =>
    rw [hb] at h
    cases h
    exact .inl rfl
  | cons b bs =>
    rw [hb] at h
    dsimp only at h
    split at h
    · obtain ⟨_, m₁, -, hpure⟩ := Act.bind_eq_ok_iff.mp h
      cases hpure
      exact .inr rfl
    · cases h
      exact .inl rfl

theorem settleBlock_semicolon {o : Option Masked} (ht : t.symbol = .plain .semicolon)
    (h : settleBlock (some t) m = (.ok o, m')) : o = some t := by
  rw [settleBlock, Act.state_bind] at h
  split at h
  · rw [if_neg (by simp [ht])] at h
    cases hb : m.blocks with
    | nil =>
      rw [hb] at h
      cases h
    | cons b bs =>
      rw [hb] at h
      cases h
      rfl
  · cases h
    rfl

theorem token_of_closeTag (hm : m.Fit) (hp : m.peeked = none)
    (hlast : m.last = some t) (ht : needsNoEnd t.symbol = false) (hc : c.kind = .closeTag)
    (hnext : m.lexer.find (fun kind => !kind.isGap) = (.ok (some c), l)) :
    ∃ s m', token m = (.ok (some s), m') ∧
      (s.symbol = .plain .semicolon ∨ s.symbol = .endBlock) ∧ s.pos = c.pos := by
  have hsig : significant m = (.ok (some { c.masked with symbol := .plain .semicolon }),
      { m with last := some t, lexer := l }) := by
    rw [significant_apply_none hp, siftOn, hlast, siftLexer_closeTag ht hc hnext]
  obtain ⟨o, m₂, hup, hsettled⟩ := upcoming_sure hm
  have hsettle : settleBlock (some { c.masked with symbol := .plain .semicolon })
      { m with last := some t, lexer := l } = (.ok o, m₂) := by
    rwa [upcoming, Act.bind_of_ok hsig] at hup
  obtain rfl := settleBlock_semicolon rfl hsettle
  obtain ⟨s, m', htoken, -⟩ := token_named hup hsettled (by simp [misnamed])
  have hmask := htoken
  rw [token_of_upcoming hup] at hmask
  obtain ⟨w, m₃, hend, hpure⟩ := Act.bind_eq_ok_iff.mp hmask
  cases hpure
  refine ⟨s, _, htoken, ?_⟩
  rcases endStatement_cases hend with rfl | rfl
  · exact ⟨.inl rfl, rfl⟩
  · exact ⟨.inr rfl, rfl⟩

/-! ### Along a whole text -/

theorem Fit.token (hm : m.Fit) (h : token m = (.ok (some t), m')) : m'.Fit := by
  obtain ⟨o, m₂, hup, hsettled⟩ := upcoming_sure hm
  cases o with
  | none => cases (token_end hup).symm.trans h
  | some v =>
    cases hname : m₂.misnamed v with
    | some e =>
      obtain ⟨m₃, hfail⟩ := token_misnamed hup hname
      cases hfail.symm.trans h
    | none =>
      obtain ⟨w, m₃, htoken, hfit⟩ := token_named hup hsettled hname
      cases htoken.symm.trans h
      exact hfit

theorem readAll_split {before after : List (Masked × Masker)} (hm : m.Fit) (hs : m.Sits)
    (h : m.readAll.symbols = before ++ (t, m') :: after) :
    ∃ m₁ : Masker, m₁.Sits ∧ Masker.token m₁ = (.ok (some t), m') ∧ m'.Fit ∧
      m'.readAll.symbols = after := by
  induction before generalizing m with
  | nil =>
    rcases ht : token m with ⟨e | o, m₁⟩
    · rw [readAll] at h
      split at h <;> simp_all
    · cases o with
      | none =>
        rw [readAll] at h
        split at h <;> simp_all
      | some u =>
        rw [readAll_of_token ht] at h
        cases h
        exact ⟨m, hs, ht, hm.token ht, rfl⟩
  | cons p before ih =>
    rcases ht : token m with ⟨e | o, m₁⟩
    · rw [readAll] at h
      split at h <;> simp_all
    · cases o with
      | none =>
        rw [readAll] at h
        split at h <;> simp_all
      | some u =>
        have hsits := (token_rests hs).sits
        rw [readAll_of_token ht] at h
        rw [ht] at hsits
        exact ih (hm.token ht) hsits (List.cons.inj h).2

/-- In a text that can be read, a closing tag that comes next behind a symbol ends the statement:
the next symbol stands for the tag. This is so behind all symbols but those that need no end, and
but a word or an input, where the masker has looked ahead. -/
theorem closeTag_ends_statement (text : List Char) (hread : ({} : Lexer).load text |>.Readable)
    {before after : List (Masked × Masker)}
    (hsymbols : (({} : Masker).load text).readAll.symbols = before ++ (t, m) :: after)
    (hkind : ∀ kind ∈ [Kind.semicolon, .colon, .leftBrace, .rightBrace, .word, .input],
      t.symbol ≠ .plain kind)
    {c : Lexeme} {l : Lexer} (hc : c.kind = .closeTag)
    (hnext : m.lexer.find (fun kind => !kind.isGap) = (.ok (some c), l)) :
    ∃ s m' later, after = (s, m') :: later ∧
      (s.symbol = .plain .semicolon ∨ s.symbol = .endBlock) ∧ s.pos = c.pos := by
  have hfit : (({} : Masker).load text).Fit := ⟨hread, fun h => by cases h⟩
  have hsits : (({} : Masker).load text).Sits :=
    ⟨(Lexer.Reached.start rfl rfl).disciplined, fun t ht => by cases ht⟩
  obtain ⟨m₁, hm₁, htoken, hm, rfl⟩ := readAll_split hfit hsits hsymbols
  obtain ⟨hopen, hlast⟩ := token_ne_openTag hm₁ htoken
  have hclear := (token_rests hm₁).clear fun u hu => by
    rw [htoken] at hu
    cases hu
    exact ⟨hkind _ (by simp), hkind _ (by simp)⟩
  rw [htoken] at hclear
  have hends : needsNoEnd t.symbol = false := by
    unfold needsNoEnd
    split
    · exact (hopen ‹_›).elim
    · exact (hkind .semicolon (by simp) ‹_›).elim
    · exact (hkind .colon (by simp) ‹_›).elim
    · exact (hkind .leftBrace (by simp) ‹_›).elim
    · exact (hkind .rightBrace (by simp) ‹_›).elim
    · rfl
  obtain ⟨s, m', hnextToken, hs⟩ := token_of_closeTag hm hclear.peeked hlast hends hc hnext
  exact ⟨s, m', _, by rw [readAll_of_token hnextToken], hs⟩

def endedByTag : List Char := "<?php if ($a) echo $b /* c */ ?><?php echo $c;".toList

theorem closeTag_ends_statement_endedByTag :
    ∃ before t m s m' later, (({} : Masker).load endedByTag).readAll.symbols =
      before ++ (t, m) :: (s, m') :: later ∧ t.symbol = .var 2 ∧
      (s.symbol = .plain .semicolon ∨ s.symbol = .endBlock) ∧ s.pos = 30 := by
  have hread : ({} : Lexer).load endedByTag |>.Readable := by decide +kernel
  have hfacts : ((({} : Masker).load endedByTag).readAll.symbols.drop 4).head?.map (fun p =>
      (p.1.symbol, (p.2.lexer.find fun kind => !kind.isGap).1.toOption.map
        (Option.map fun c => (c.kind, c.pos)))) =
      some (.var 2, some (some (.closeTag, 30))) := by decide +kernel
  have hsplit := (List.take_append_drop 4 (({} : Masker).load endedByTag).readAll.symbols).symm
  rcases hdrop : (({} : Masker).load endedByTag).readAll.symbols.drop 4 with _ | ⟨⟨t, m⟩, after⟩
  · simp [hdrop] at hfacts
  · rw [hdrop] at hsplit
    rw [hdrop, List.head?_cons, Option.map_some, Option.some.injEq, Prod.mk.injEq] at hfacts
    obtain ⟨hsymbol, hfound⟩ := hfacts
    rcases hnext : m.lexer.find (fun kind => !kind.isGap) with ⟨e | _ | c, l⟩
    iterate 2 simp [hnext, Except.toOption] at hfound
    · simp only [hnext, Except.toOption, Option.map_some, Option.some.injEq, Prod.mk.injEq] at hfound
      obtain ⟨s, m', later, rfl, hs, hpos⟩ := closeTag_ends_statement endedByTag hread hsplit
        (fun kind _ hk => by cases hsymbol.symm.trans hk) hfound.1 hnext
      exact ⟨_, t, m, s, m', later, hsplit, hsymbol, hs, hpos.trans hfound.2⟩

def passedOver : List Char := "<?php echo foo ?><?php echo $b;".toList

/-- Behind the word there is a closing tag, but the next symbol is the first one behind the tag. -/
theorem exists_closeTag_passed_over :
    ((({} : Lexer).load passedOver).scan.1.filter (·.1.kind == .closeTag)).map (·.1.pos) = [15] ∧
    (({} : Masker).load passedOver).readAll.symbols.map (fun p => (p.1.symbol, p.1.pos)) =
      [(.plain (.sink .xss), 6), (.plain .word, 11), (.plain (.sink .xss), 23), (.var 1, 28),
        (.plain .semicolon, 30)] := by
  decide +kernel

end Masker

end MaskedTaint
