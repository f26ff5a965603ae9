import MaskedTaint.Flow.Recorder
import MaskedTaint.Proofs.Lexeme.Lines
import MaskedTaint.Proofs.Masking.Reading

/-! Runs of the recorder. A recorder takes one symbol after the other from a masker; when the
text has ended it meets the end until all its tasks and blocks have ended. What each of these
steps keeps, a whole run keeps. -/

namespace MaskedTaint

namespace Masker

/-- The end of the text has been met: nothing is left, and nothing was read ahead. -/
structure AtEnd (m : Masker) : Prop where
  loaded : m.lexer.loaded = true
  rest : m.lexer.rest = []
  peeked : m.peeked = none

theorem atEnd_of_next {l l' : Lexer} (h : l.next = .finished l') :
    l'.loaded = true ∧ l'.rest = [] := by
  cases Lexer.does_next h with
  | finished hloaded hrest => exact ⟨hloaded, hrest⟩

end Masker

def Watch.end : Watch where
  kept _ := True
  found _ _ := True
  ended l := l.loaded = true ∧ l.rest = []

theorem Watch.holds_end : Watch.end.Holds where
  lexeme _ _ := ⟨trivial, trivial⟩
  finished _ h := ⟨trivial, Masker.atEnd_of_next h⟩
  failed _ _ := trivial

namespace Masker

variable {m m' : Masker}

theorem AtEnd.next (h : m.AtEnd) :
    m.lexer.next = .finished { m.lexer with pos := m.lexer.pos + 1 } := by
  simp [Lexer.next, h.loaded, h.rest]

theorem AtEnd.moved (h : m.AtEnd) :
    ({ m with lexer := { m.lexer with pos := m.lexer.pos + 1 } } : Masker).AtEnd :=
  ⟨h.loaded, h.rest, h.peeked⟩

theorem AtEnd.significant (h : m.AtEnd) :
    significant m = (.ok none, { m with lexer := { m.lexer with pos := m.lexer.pos + 1 } }) := by
  have hnext := h.next
  have hsift : siftLexer m.last m.lexer =
      (.ok none, m.last, { m.lexer with pos := m.lexer.pos + 1 }) := by
    rw [siftLexer]
    split <;> simp_all
  rw [significant_apply_none h.peeked, siftOn, hsift]

theorem AtEnd.skipTo (h : m.AtEnd) (wanted : Kind → Bool) :
    skipTo wanted m = (.ok none, { m with lexer := { m.lexer with pos := m.lexer.pos + 1 } }) := by
  have hnext := h.next
  have hfind : m.lexer.find wanted = (.ok none, { m.lexer with pos := m.lexer.pos + 1 }) := by
    rw [Lexer.find]
    split <;> simp_all
  rw [skipTo_apply_none wanted h.peeked]
  simp only [onLexer, Act.onPart, hfind]

theorem AtEnd.token (h : m.AtEnd) : ∃ m', token m = (.ok none, m') ∧ m'.AtEnd := by
  rw [Masker.token, Act.bind_of_ok h.significant]
  have hend := h.moved
  generalize ({ m with lexer := { m.lexer with pos := m.lexer.pos + 1 } } : Masker) = m₁ at hend
  cases hahead : m₁.blockAhead with
  | false =>
    have hsettle : settleBlock none m₁ = (.ok none, m₁) := by
      simp [settleBlock, Act.state_bind, hahead]
    exact ⟨m₁, Act.bind_of_ok hsettle _, hend⟩
  | true =>
    have hsettle : settleBlock none m₁ = (.ok none, { m₁ with
        lexer := { m₁.lexer with pos := m₁.lexer.pos + 1 }, blockAhead := false }) := by
      simp only [settleBlock, Act.state_bind, hahead, if_true, Option.map_none, Option.getD_none]
      rw [skipLayout, Act.bind_of_ok (hend.skipTo _)]
      rfl
    exact ⟨_, Act.bind_of_ok hsettle _, ⟨hend.loaded, hend.rest, hend.peeked⟩⟩

theorem atEnd_of_token (h : token m = (.ok none, m')) : m'.AtEnd := by
  have hbrings := Watch.holds_end.upcoming (G := fun _ _ => True) ⟨fun _ _ => trivial, fun _ _ => trivial⟩
    (m := m) ⟨trivial, fun _ _ => trivial⟩
  rw [upcoming_of_end h] at hbrings
  exact ⟨(hbrings.ended rfl).1, (hbrings.ended rfl).2, hbrings.peeked⟩

theorem readAll_of_token {t : Masked} (h : token m = (.ok (some t), m')) :
    m.readAll = { m'.readAll with symbols := (t, m') :: m'.readAll.symbols } := by
  rw [readAll]
  split <;> simp_all

end Masker

namespace Recorder

/-! ### What the end of a statement leaves as it is -/

theorem leave_frame (r : Recorder) (b : Block) (outer : List Block) :
    (r.leave b outer).flows = r.flows ∧ (r.leave b outer).fresh = r.fresh ∧
      (r.leave b outer).functions = r.functions := by
  cases outer <;> exact ⟨rfl, rfl, rfl⟩

theorem finish_frame (r : Recorder) (b : Block) (outer : List Block) (last : Option Symbol) :
    (r.finish b outer last).flows = r.flows ∧ (r.finish b outer last).fresh = r.fresh ∧
      (r.finish b outer last).functions = r.functions := by
  unfold finish
  dsimp only
  split
  · exact leave_frame _ _ _
  · exact ⟨rfl, rfl, rfl⟩

def startsTask : Symbol → Bool
  | .op 0 | .plain .ifWord | .plain .elseWord | .plain .elseIfWord | .plain .caseWord
  | .plain .whileWord | .plain .forWord | .plain .forEachWord | .plain .switchWord | .plain .doWord
  | .plain .functionWord | .call _ | .plain .returnWord | .plain .importWord | .plain (.sink _) => true
  | _ => false

variable {r : Recorder} {b : Block} {t : Masked} {m m' : Masker}

theorem start_of_not {outer : List Block} (h : startsTask t.symbol = false) :
    r.start b outer t = r.finish b outer t.symbol := by
  unfold Recorder.start
  split <;> simp_all [startsTask]

theorem start_assign {outer : List Block}
    (h : t.symbol = .op 0) :
    r.start b outer t =
      match b.last.filter Symbol.isVariable with
      | some target => r.proceed b outer [.collect target.name .value []]
      | none => r.finish b outer t.symbol := by
  simp only [Recorder.start, h]
  cases b.last with
  | none => rfl
  | some target => by_cases hv : target.isVariable = true <;> simp [Option.filter, hv]

theorem endsStatement_of_isOperand {symbol : Symbol} (h : symbol.isOperand = true) :
    symbol.endsStatement = false := by
  cases symbol with
  | plain kind => cases kind <;> simp_all [Symbol.isOperand, Symbol.endsStatement, Symbol.isVariable]
  | _ => simp_all [Symbol.isOperand, Symbol.endsStatement, Symbol.isVariable]

def follow (r : Recorder) (m : Masker) : Recorded :=
  r.takeAll m m.readAll.failure m.readAll.last m.readAll.symbols

theorem follow_stopped (m : Masker) (hblocks : r.blocks = []) : r.follow m = ⟨r, m, none⟩ := by
  unfold follow
  cases m.readAll.symbols <;> simp [takeAll, hblocks]

theorem follow_step (h : Masker.token m = (.ok (some t), m')) (hblocks : r.blocks ≠ []) :
    r.follow m = (r.take t m'.lexer.pos).follow m' := by
  simp [follow, Masker.readAll_of_token h, takeAll, hblocks]

theorem follow_failed {e : MaskError}
    (h : Masker.token m = (.error e, m')) (hblocks : r.blocks ≠ []) :
    r.follow m = ⟨r, m', some (.mask e)⟩ := by
  have hread : m.readAll = ⟨[], some e, m'⟩ := by
    rw [Masker.readAll]
    split <;> simp_all
  simp [follow, hread, takeAll, hblocks]

theorem follow_end (h : Masker.token m = (.ok none, m'))
    (hblocks : r.blocks ≠ []) : r.follow m = r.close m' r.patience := by
  have hread : m.readAll = ⟨[], none, m'⟩ := by
    rw [Masker.readAll]
    split <;> simp_all
  simp [follow, hread, takeAll, hblocks]

theorem follow_last
    (h : Masker.token m = (.ok none, m')) (hblocks : r.blocks = [b]) (hidle : b.tasks = []) :
    r.follow m = ⟨r.leave b [], m', none⟩ := by
  have hpatience : r.patience = 1 := by simp [patience, hblocks, hidle]
  have htake : takeEnd r = (.ok (), r.leave b []) := by
    simp [takeEnd, Act.state_bind, hblocks, hidle, Act.update]
  rw [follow_end h (by simp [hblocks]), hpatience, close, htake]
  simp [leave]

theorem follow_congr (h : Masker.token m = Masker.token m') (hblocks : r.blocks ≠ []) :
    r.follow m = r.follow m' := by
  rcases ht : Masker.token m' with ⟨e | t, n⟩
  · rw [follow_failed ht hblocks, follow_failed (h.trans ht) hblocks]
  · cases t with
    | none => rw [follow_end ht hblocks, follow_end (h.trans ht) hblocks]
    | some t => rw [follow_step ht hblocks, follow_step (h.trans ht) hblocks]

def Steps (r : Recorder) (m : Masker) (r' : Recorder) (m' : Masker) : Prop :=
  r.blocks ≠ [] ∧ ∃ t, Masker.token m = (.ok (some t), m') ∧ r' = r.take t m'.lexer.pos

variable {I : Recorder → Masker → Prop}

theorem close_keeps (hread : ∀ r m, m.AtEnd → I r m → I r (Masker.token m).2)
    (hend : ∀ r m, m.AtEnd → I r m → r.blocks ≠ [] → I (takeEnd r).2 m) (patience : Nat)
    (hm : m.AtEnd) (hblocks : r.blocks ≠ []) (h : I r m) :
    I (r.close m patience).recorder (r.close m patience).masker := by
  induction patience generalizing r m with
  | zero => exact h
  | succ patience ih =>
    have htaken := hend r m hm h hblocks
    unfold close
    rcases ht : takeEnd r with ⟨e | u, r'⟩
    · rw [ht] at htaken
      exact htaken
    · rw [ht] at htaken
      dsimp only
      split
      · exact htaken
      · rename_i hopen
        obtain ⟨m', htoken, hm'⟩ := hm.token
        have hnext := hread r' m hm htaken
        rw [htoken] at hnext ⊢
        exact ih hm' (by simpa using hopen) hnext

theorem follow_keeps (hread : ∀ r m, (∀ t, (Masker.token m).1 ≠ .ok (some t)) → I r m →
      I r (Masker.token m).2) (hstep : ∀ r m r' m', Steps r m r' m' → I r m → I r' m')
    (hend : ∀ r m, m.AtEnd → I r m → r.blocks ≠ [] → I (takeEnd r).2 m)
    {r : Recorder} {m : Masker} (h : I r m) : I (r.follow m).recorder (r.follow m).masker := by
  by_cases hblocks : r.blocks = []
  · rw [follow_stopped m hblocks]
    exact h
  · have hlast := hread r m
    rcases ht : Masker.token m with ⟨e | t, m'⟩
    · rw [follow_failed ht hblocks]
      rw [ht] at hlast
      exact hlast (fun t => by simp) h
    · cases t with
      | none =>
        rw [follow_end ht hblocks]
        rw [ht] at hlast
        have hidle : ∀ r m, m.AtEnd → I r m → I r (Masker.token m).2 := by
          intro r m hm
          obtain ⟨m', htoken, -⟩ := hm.token
          exact hread r m (fun t => by rw [htoken]; simp)
        exact close_keeps hidle hend _ (Masker.atEnd_of_token ht) hblocks (hlast (fun t => by simp) h)
      | some t =>
        rw [follow_step ht hblocks]
        exact follow_keeps hread hstep hend (hstep r m _ m' ⟨hblocks, t, ht, rfl⟩ h)
termination_by m.size
decreasing_by exact Masker.size_lt_of_token ht

end Recorder

namespace Project

def recorder (p : Project) (name : String) : Recorder :=
  { Recorder.openScope { file := name, flows := p.flows, fresh := p.fresh } name with
    blocks := [{ scope := name }] }

theorem recordFile_eq (p : Project) (name : String) (code : List Char) :
    p.recordFile name code = (p.recorder name).follow (p.masker.loadFile code) := rfl

end Project

end MaskedTaint
