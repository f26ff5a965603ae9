import Mathlib.Logic.Equiv.Basic
import MaskedTaint.Proofs.Flow.Advancing
import MaskedTaint.Proofs.Flow.Alignment
import MaskedTaint.Proofs.Masking.Parallel
import MaskedTaint.Proofs.Masking.Standing

/-! What a structure tells of the texts it was recorded from. Names and values leave no trace in it:
two projects that differ in them only, and in the same way throughout, have the same structure and
fail alike. The exception are the texts that are recorded as names of included files. -/

namespace MaskedTaint

namespace Recorder

variable {r : Recorder} {t : Masked}

/-! ### Steps look at symbols only -/

def ImportsAt (r : Recorder) (first : Nat) (pos : Int) : Prop :=
  ∃ e ∈ r.flows.entries, ∃ t ∈ (e.2.get? Special.imports.name).getD [], first ≤ t.id ∧ t.pos = pos

instance {r : Recorder} {first : Nat} : DecidablePred (r.ImportsAt first) := fun pos =>
  inferInstanceAs (Decidable (∃ e ∈ r.flows.entries,
    ∃ t ∈ (e.2.get? Special.imports.name).getD [], first ≤ t.id ∧ t.pos = pos))

theorem importsAt_of_lists {first id : Nat} {scope : String} {pos : Int}
    (h : r.flows.Lists scope Special.imports.name id pos) (hfirst : first ≤ id) :
    r.ImportsAt first pos := by
  obtain ⟨t, ht, rfl, hpos⟩ := h
  cases hscope : r.flows.get? scope with
  | none => simp [Structure.tokens?, hscope] at ht
  | some s =>
    simp only [Structure.tokens?, hscope, Option.bind_some] at ht
    exact ⟨(scope, s), Table.mem_of_get? hscope, t, ht, hfirst, hpos⟩

def isImporting (r : Recorder) : Prop :=
  ∃ b outer tasks, r.blocks = b :: outer ∧ b.tasks = .imports :: tasks

theorem importsAt_take {first : Nat} (place : Int) (hr : r.isImporting) (hfirst : first ≤ r.fresh)
    (hnext : (r.take t place).Filling .any (r.take t place))
    (ht : t.symbol = .plain .constantText ∨ t.symbol = .plain .encapsedText) (m : Masker) :
    ((r.take t place).follow m).recorder.ImportsAt first t.pos := by
  obtain ⟨b, outer, tasks, hblocks, htasks⟩ := hr
  have hlists : (r.take t place).flows.Lists b.scope Special.imports.name r.fresh t.pos := by
    have happend := Structure.lists_append r.flows b.scope Special.imports.name
      (r.jump b t Kind.importWord.name t.text []).1
    simp only [take, hblocks, htasks, takeImport]
    rcases ht with ht | ht <;> rw [ht] <;> exact happend
  exact importsAt_of_lists ((follow_any m hnext).stored.flows.keeps _ _ _ _ hlists) hfirst

theorem collect_place (r : Recorder) (b : Block) (outer : List Block) (t : Masked)
    {place₁ place₂ : Int} (h : ∀ kind, t.symbol = .plain kind → kind.joins = true → place₁ = place₂)
    (key : String) (manner : Manner) (waiting : List Token) :
    r.collect b outer t place₁ key manner waiting = r.collect b outer t place₂ key manner waiting := by
  by_cases hjoins : ∃ kind, t.symbol = .plain kind ∧ kind.joins = true
  · obtain ⟨kind, hkind, hjoins⟩ := hjoins
    rw [h kind hkind hjoins]
  · have hconcat : t.symbol ≠ .plain .concat := fun hs => hjoins ⟨_, hs, rfl⟩
    have hquote : t.symbol ≠ .plain .quote := fun hs => hjoins ⟨_, hs, rfl⟩
    unfold collect
    split
    · rfl
    · split
      · rfl
      · split
        · rfl
        · split
          · rfl
          · exact absurd ‹_› hconcat
          · exact absurd ‹_› hquote
          · rfl
          · rfl

variable {σ : Respelling} {kept : Int → Prop} {u₁ u₂ : Masked}

theorem take_eq (r : Recorder) (hu : σ.Relates kept u₁ u₂) {place₁ place₂ : Int}
    (hplace : ∀ kind, u₁.symbol = .plain kind → kind.joins = true → place₁ = place₂)
    (hkept : r.isImporting → u₁.symbol = .plain .constantText ∨ u₁.symbol = .plain .encapsedText →
      kept u₁.pos) : r.take u₁ place₁ = r.take u₂ place₂ := by
  rcases u₁ with ⟨symbol, text₁, line, pos⟩
  rcases u₂ with ⟨symbol₂, text₂, line₂, pos₂⟩
  obtain rfl : symbol = symbol₂ := hu.symbol
  obtain rfl : line = line₂ := hu.line
  obtain rfl : pos = pos₂ := hu.pos
  unfold take
  cases hblocks : r.blocks with
  | nil => rfl
  | cons b outer =>
    dsimp only
    cases htasks : b.tasks with
    | nil => rfl
    | cons task tasks =>
      cases task with
      | collect key manner waiting => exact collect_place r b outer ⟨symbol, text₁, line, pos⟩ hplace _ _ _
      | imports =>
        by_cases hquoted : symbol = .plain .constantText ∨ symbol = .plain .encapsedText
        · obtain rfl : text₁ = text₂ :=
            hu.quoted hquoted (hkept ⟨b, outer, tasks, hblocks, htasks⟩ hquoted)
          rfl
        · rw [not_or] at hquoted
          dsimp only
          unfold takeImport
          dsimp only
          split
          · rfl
          · exact absurd rfl hquoted.1
          · exact absurd rfl hquoted.2
          · rfl
      | _ => rfl

end Recorder

/-! ### Runs -/

/-- Failures of the lexer are related by `E`; all others are the same. -/
inductive RecordError.Alike (E : LexError → LexError → Prop) : RecordError → RecordError → Prop
  | mask {e₁ e₂ : MaskError} (h : e₁.Alike E e₂) : Alike E (.mask e₁) (.mask e₂)
  | openText : Alike E .openText .openText
  | openDeclaration : Alike E .openDeclaration .openDeclaration
  | openCall : Alike E .openCall .openCall

variable {E : LexError → LexError → Prop}

theorem RecordError.alike_takeEnd {r : Recorder} {e : RecordError}
    (h : (Recorder.takeEnd r).1 = .error e) : e.Alike E e := by
  unfold Recorder.takeEnd at h
  rw [Act.state_bind] at h
  cases hblocks : r.blocks with
  | nil => rw [hblocks] at h; cases h
  | cons b outer =>
    rw [hblocks] at h
    dsimp only at h
    cases htasks : b.tasks with
    | nil => rw [htasks] at h; cases h
    | cons task tasks =>
      rw [htasks] at h
      cases task with
      | collect key manner waiting =>
        cases manner <;> cases h
        exact .openText
      | arguments callee args =>
        cases tasks <;> cases h
        · exact .openCall
        · exact .openCall
      | declaration =>
        cases h
        exact .openDeclaration
      | _ => cases h

namespace Recorded

/-- The same was recorded, and the runs have failed alike. -/
structure Alike (E : LexError → LexError → Prop) (x₁ x₂ : Recorded) : Prop where
  recorder : x₁.recorder = x₂.recorder
  failure : Option.Rel (RecordError.Alike E) x₁.failure x₂.failure

structure Ended (σ : Respelling) (E : LexError → LexError → Prop) (x₁ x₂ : Recorded) : Prop
    extends x₁.Alike E x₂ where
  level : Masker.Level (Masker.spelled σ) x₁.masker x₂.masker
  clear₁ : x₁.masker.Clear
  clear₂ : x₂.masker.Clear

end Recorded

open Recorded (Ended)

namespace Recorder

variable {σ : Respelling} {kept : Int → Prop} {E : LexError → LexError → Prop}

theorem ended_close (hσ : σ.Faithful) {r : Recorder} {m₁ m₂ : Masker} (patience : Nat)
    (h : m₁.Parallel σ kept E m₂) (hend : m₁.AtEnd) (hc₁ : m₁.Clear) (hc₂ : m₂.Clear) :
    Ended σ E (r.close m₁ patience) (r.close m₂ patience) := by
  induction patience generalizing r m₁ m₂ with
  | zero => exact ⟨⟨rfl, .none⟩, h.toLevel, hc₁, hc₂⟩
  | succ patience ih =>
    unfold close
    rcases ht : takeEnd r with ⟨e | u, r'⟩
    · exact ⟨⟨rfl, .some (RecordError.alike_takeEnd (by rw [ht]))⟩, h.toLevel, hc₁, hc₂⟩
    · dsimp only
      split
      · exact ⟨⟨rfl, .none⟩, h.toLevel, hc₁, hc₂⟩
      · have htoken := h.token hσ
        have hr₁ := Masker.token_rests hc₁.sits
        have hr₂ := Masker.token_rests hc₂.sits
        obtain ⟨m₁', htoken₁, hend'⟩ := hend.token
        rcases htoken₂ : Masker.token m₂ with ⟨o, m₂'⟩
        simp only [Masker.Together, htoken₁, htoken₂] at htoken
        rw [htoken₁] at hr₁ ⊢
        rw [htoken₂] at hr₂
        cases htoken with
        | ok hm hnone =>
          cases hnone
          exact ih hm hend' (hr₁.clear fun u hu => by cases hu) (hr₂.clear fun u hu => by cases hu)

theorem ended_follow (hσ : σ.Faithful) {first : Nat} {r : Recorder} {m₁ m₂ : Masker}
    (h : m₁.Parallel σ kept E m₂) (hs₁ : m₁.Sits) (hs₂ : m₂.Sits) (hfirst : first ≤ r.fresh)
    (hr : r.Filling .any r) (hopen : r.blocks ≠ [])
    (hkept : ∀ pos, (r.follow m₁).recorder.ImportsAt first pos → kept pos) :
    Ended σ E (r.follow m₁) (r.follow m₂) := by
  have htoken := h.token hσ
  have hr₁ := Masker.token_rests hs₁
  have hr₂ := Masker.token_rests hs₂
  rcases ht₁ : Masker.token m₁ with ⟨o₁, m₁'⟩
  rcases ht₂ : Masker.token m₂ with ⟨o₂, m₂'⟩
  simp only [Masker.Together, ht₁, ht₂] at htoken
  rw [ht₁] at hr₁
  rw [ht₂] at hr₂
  cases htoken with
  | error hm he =>
    rw [follow_failed ht₁ hopen, follow_failed ht₂ hopen]
    exact ⟨⟨rfl, .some (.mask he)⟩, hm, hr₁.clear fun u hu => (by cases hu),
      hr₂.clear fun u hu => (by cases hu)⟩
  | ok hm hu =>
    cases hu with
    | none =>
      rw [follow_end ht₁ hopen, follow_end ht₂ hopen]
      exact ended_close hσ _ hm (Masker.atEnd_of_token ht₁) (hr₁.clear fun u hu => (by cases hu))
        (hr₂.clear fun u hu => (by cases hu))
    | @some u₁ u₂ hu =>
      rw [follow_step ht₁ hopen] at hkept ⊢
      rw [follow_step ht₂ hopen]
      have hfilling : (r.take u₁ m₁'.lexer.pos).Filling .any r :=
        hr.take Contents.any_closed (fun b _ _ => r.admits_any b u₁) _
      have hnext := hfilling.self
      have htake : r.take u₁ m₁'.lexer.pos = r.take u₂ m₂'.lexer.pos := by
        refine take_eq r hu (fun kind hkind hjoins => ?_) fun himport hquoted => ?_
        · rw [hr₁.behind u₁ rfl kind hkind hjoins, hr₂.behind u₂ rfl kind (hu.symbol ▸ hkind) hjoins,
            hu.pos]
        · exact hkept _ (importsAt_take _ himport hfirst hnext hquoted m₁')
      by_cases hstop : (r.take u₁ m₁'.lexer.pos).blocks = []
      · have hnot := closes_of_take hopen hstop
        rw [← htake, follow_stopped m₁' hstop, follow_stopped m₂' hstop]
        refine ⟨⟨rfl, .none⟩, hm.toLevel, hr₁.clear fun u hu => ?_, hr₂.clear fun u hu' => ?_⟩
        · cases hu
          exact hnot
        · cases hu'
          exact hu.symbol ▸ hnot
      · rw [← htake]
        exact ended_follow hσ hm hr₁.sits hr₂.sits
          (hfirst.trans hfilling.stored.fresh) hnext hstop hkept
termination_by m₁.size
decreasing_by exact Masker.size_lt_of_token ht₁

end Recorder

/-! ### Projects -/

theorem Lexer.load_eq {l₁ l₂ : Lexer} (h : l₁.Level l₂) (code : List Char) :
    ({ l₁.load code with line := 1 } : Lexer) = { l₂.load code with line := 1 } := by
  obtain ⟨hmode, hstack, hlabels, -⟩ := h
  obtain ⟨hheredoc, hnowdoc⟩ := Prod.mk.inj hlabels
  simp only [load, hmode, hstack, hheredoc, hnowdoc]

theorem Masker.Level.loadFile {σ : Respelling} {kept : Int → Prop}
    {m₁ m₂ : Masker} {code₁ code₂ : List Char} (h : Level (spelled σ) m₁ m₂) (hc₁ : m₁.Clear) (hc₂ : m₂.Clear)
    (hcode : (m₁.loadFile code₁).lexer.Resembles (σ.Matches kept) E (m₁.loadFile code₂).lexer) :
    (m₁.loadFile code₁).Parallel σ kept E (m₂.loadFile code₂) := by
  have hlexer : (m₁.loadFile code₁).lexer.Level (m₂.loadFile code₂).lexer :=
    ⟨h.lexer.mode, h.lexer.stack, h.lexer.labels, h.lexer.disciplined.of_eq rfl rfl⟩
  have hload : (m₁.loadFile code₂).lexer = (m₂.loadFile code₂).lexer := Lexer.load_eq h.lexer code₂
  have hpeeked : Option.Rel (σ.Matches kept) (m₁.loadFile code₁).peeked (m₂.loadFile code₂).peeked := by
    simp only [Masker.loadFile, hc₁.peeked, hc₂.peeked]
    exact .none
  exact { h with lexer := hlexer, reading := ⟨hlexer, hload ▸ hcode⟩, peeked := hpeeked }

namespace Project

/-- What comes of each of these files, recorded one after the other, whether or not that fails. -/
def results : Project → List (String × List Char) → List Recorded
  | _, [] => []
  | p, (name, code) :: files => p.recordFile name code :: results (after (p.recordFile name code)) files

/-- The second files are the first ones with other names and values. A lexer in the state in which
the first run comes to a file gives lexemes for the second text that match those of the first:
texts that the first run records as imports are the same. -/
def Respelled (σ : Respelling) (E : LexError → LexError → Prop) :
    Project → List (String × List Char) → List (String × List Char) → Prop
  | _, [], [] => True
  | p, (name₁, code₁) :: files₁, (name₂, code₂) :: files₂ =>
    name₁ = name₂ ∧
    (p.masker.loadFile code₁).lexer.Resembles
      (σ.Matches ((p.recordFile name₁ code₁).recorder.ImportsAt p.fresh)) E
      (p.masker.loadFile code₂).lexer ∧
    Respelled σ E (after (p.recordFile name₁ code₁)) files₁ files₂
  | _, _, _ => False

variable {σ : Respelling} {E : LexError → LexError → Prop}

/-- The projects have recorded the same, with maskers ready for another text. -/
structure Level (σ : Respelling) (p₁ p₂ : Project) : Prop where
  flows : p₁.flows = p₂.flows
  fresh : p₁.fresh = p₂.fresh
  masker : Masker.Level (Masker.spelled σ) p₁.masker p₂.masker
  clear₁ : p₁.masker.Clear
  clear₂ : p₂.masker.Clear

theorem Level.recordFile (hσ : σ.Faithful) {p₁ p₂ : Project} (h : p₁.Level σ p₂) (name : String)
    {code₁ code₂ : List Char} (hcode : (p₁.masker.loadFile code₁).lexer.Resembles
      (σ.Matches ((p₁.recordFile name code₁).recorder.ImportsAt p₁.fresh)) E
      (p₁.masker.loadFile code₂).lexer) :
    Recorded.Ended σ E (p₁.recordFile name code₁) (p₂.recordFile name code₂) := by
  have hrecorder : p₂.recorder name = p₁.recorder name := by
    rw [recorder, recorder, h.flows, h.fresh]
  rw [recordFile_eq] at hcode ⊢
  rw [recordFile_eq, hrecorder]
  refine Recorder.ended_follow hσ (h.masker.loadFile h.clear₁ h.clear₂ hcode)
    (h.clear₁.loadFile code₁).sits (h.clear₂.loadFile code₂).sits (Nat.le_refl _)
    (filling_recorder _ p₁ name) ?_ fun pos hpos => hpos
  simp [recorder]

theorem level_after {x₁ x₂ : Recorded} (h : Recorded.Ended σ E x₁ x₂) :
    (after x₁).Level σ (after x₂) :=
  ⟨congrArg Recorder.flows h.recorder, congrArg Recorder.fresh h.recorder, h.level, h.clear₁, h.clear₂⟩

theorem Level.results (hσ : σ.Faithful) {p₁ p₂ : Project} {files₁ files₂ : List (String × List Char)}
    (h : p₁.Level σ p₂) (hfiles : p₁.Respelled σ E files₁ files₂) :
    List.Forall₂ (Recorded.Alike E) (p₁.results files₁) (p₂.results files₂) ∧
      (p₁.recordEach files₁).flows = (p₂.recordEach files₂).flows := by
  induction files₁ generalizing p₁ p₂ files₂ with
  | nil =>
    cases files₂ with
    | nil => exact ⟨.nil, h.flows⟩
    | cons f₂ files₂ => exact hfiles.elim
  | cons f₁ files₁ ih =>
    obtain ⟨name, code₁⟩ := f₁
    cases files₂ with
    | nil => exact hfiles.elim
    | cons f₂ files₂ =>
      obtain ⟨name₂, code₂⟩ := f₂
      obtain ⟨rfl, hcode, hlater⟩ := hfiles
      have hended := h.recordFile hσ name hcode
      have hrest := ih (level_after hended) hlater
      exact ⟨.cons hended.toAlike hrest.1, hrest.2⟩

theorem level_start (σ : Respelling) : Level σ {} {} := by
  have hreached : ({} : Masker).lexer.Disciplined := (Lexer.Reached.start rfl rfl).disciplined
  exact ⟨rfl, rfl, ⟨⟨rfl, rfl, rfl, hreached⟩, rfl, rfl, rfl, rfl, rfl, rfl, rfl, rfl, rfl, rfl⟩,
    ⟨hreached, rfl⟩, ⟨hreached, rfl⟩⟩

/-- Names and values leave no trace. Files that differ from others in the names of variables,
words and operators, and in all values but the texts that are recorded as imports, leave the same
structure, token by token, and fail where those fail and in the same way. -/
theorem results_respelled (hσ : σ.Faithful) {files₁ files₂ : List (String × List Char)}
    (h : Respelled σ E {} files₁ files₂) :
    List.Forall₂ (Recorded.Alike E) (results {} files₁) (results {} files₂) ∧
      (recordEach {} files₁).flows = (recordEach {} files₂).flows :=
  (level_start σ).results hσ h

def SameMessage (e₁ e₂ : LexError) : Prop := e₁.message = e₂.message

instance : DecidableRel SameMessage := fun e₁ e₂ =>
  inferInstanceAs (Decidable (e₁.message = e₂.message))

def newNames : Respelling :=
  ⟨Equiv.swap "$a" "$u", Equiv.swap "f" "g", Equiv.swap "+" "-"⟩

theorem faithful_newNames : newNames.Faithful :=
  ⟨(Equiv.swap _ _).injective, (Equiv.swap _ _).injective, (Equiv.swap _ _).injective, by decide⟩

def shop : List (String × List Char) :=
  [("m.php", "<?php include 'x.php'; echo $a + f('k'); ?>".toList),
    ("n.php", "<?php $a = 'c".toList)]

def otherShop : List (String × List Char) :=
  [("m.php", "<?php include 'x.php'; echo $u - g('n'); ?>".toList),
    ("n.php", "<?php $u = 'd".toList)]

theorem results_respelled_shop : Respelled newNames SameMessage {} shop otherShop ∧
    List.Forall₂ (Recorded.Alike SameMessage) (results {} shop) (results {} otherShop) ∧
    (recordEach {} shop).flows = (recordEach {} otherShop).flows := by
  have hshop : Respelled newNames SameMessage {} shop otherShop :=
    ⟨rfl, by decide +kernel, rfl, by decide +kernel, trivial⟩
  exact ⟨hshop, results_respelled faithful_newNames hshop⟩

/-- The places between an include word and the end of its statement. -/
def importPlaces (inside : Bool) : List (Lexeme × Mode) → List Int
  | [] => []
  | (t, _) :: ts =>
    if t.kind = .importWord then importPlaces true ts
    else if t.kind = .semicolon ∨ t.kind = .closeTag then importPlaces false ts
    else if inside then t.pos :: importPlaces inside ts
    else importPlaces inside ts

/-- Behind an include statement that is the single statement of a block, the next statement is
still taken for a part of it, and its texts are recorded as imports. -/
theorem exists_import_behind_statement : ∃ (σ : Respelling) (code₁ code₂ : List Char),
    σ.Faithful ∧ code₁.length = code₂.length ∧
    (Masker.loadFile {} code₁).lexer.Resembles
      (σ.Matches (· ∈ importPlaces false (Masker.loadFile {} code₁).lexer.scan.1)) Eq
      (Masker.loadFile {} code₂).lexer ∧
    (recordFile {} "m.php" code₁).recorder.flows ≠ (recordFile {} "m.php" code₂).recorder.flows := by
  refine ⟨⟨id, id, id⟩, "<?php if ($a) include 'x'; $b = 'y';".toList,
    "<?php if ($a) include 'x'; $b = 'z';".toList,
    ⟨fun _ _ => id, fun _ _ => id, fun _ _ => id, rfl⟩, by decide, by decide +kernel, fun h => ?_⟩
  have hsignatures := congrArg (fun d : Structure =>
    ((d.tokens? "m.php" Special.imports.name).getD []).map Token.signature) h
  revert hsignatures
  decide +kernel

end Project

end MaskedTaint
