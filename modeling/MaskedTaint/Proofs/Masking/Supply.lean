import MaskedTaint.Proofs.Lexeme.Scanning
import MaskedTaint.Proofs.Masking.Books

/-! What symbols cost. A word with which a control structure is entered has two characters at
least, so a text has no more than half as many of them as it has characters; one more may have been
read ahead in the text before. Every symbol stands inside its text. -/

namespace MaskedTaint

namespace Kind

def toll (kind : Kind) : Nat := if kind.isControl then 2 else 0

theorem toll_le (kind : Kind) : kind.toll ≤ 2 := by
  unfold toll
  split <;> omega

theorem toll_of_isFixed {kind : Kind} (h : kind.isFixed = true) : kind.toll = 0 := by
  cases kind <;> first | rfl | cases h

theorem toll_ofVariable (cs : List Char) : (ofVariable cs).toll = 0 := by
  unfold ofVariable
  split <;> rfl

theorem isControl_ofWord_singleton (c : Char) : (ofWord [c]).isControl = false := by
  have hspelled : ∀ word : List Char, word ∉ structuralWords.map (·.1.toList) →
      (ofUpper (String.ofList word)).isControl = false := by
    intro word hword
    have hnone : structuralWords.lookup (String.ofList word) = none := by
      refine List.lookup_eq_none_iff.mpr fun e he => ?_
      simp only [bne_iff_ne, ne_eq, String.ext_iff, String.toList_ofList]
      exact fun heq => hword (List.mem_map.mpr ⟨e, he, heq.symm⟩)
    unfold ofUpper
    rw [hnone]
    dsimp only
    repeat' split
    all_goals rfl
  have hshort : ∀ x : Char, [x] ∉ structuralWords.map (·.1.toList) := by
    intro x hx
    have hlength : ∀ w ∈ structuralWords.map (·.1.toList), w.length ≠ 1 := by decide
    exact hlength _ hx rfl
  simp only [ofWord, upperCase, List.flatMap_cons, List.flatMap_nil, List.append_nil]
  refine hspelled _ ?_
  unfold upperSpelling
  split
  · exact hshort _
  · split <;> first | exact hshort _ | decide

theorem toll_ofWord_le {cs : List Char} (h : cs ≠ []) : (ofWord cs).toll ≤ cs.length := by
  match cs with
  | [c] => simp [toll, isControl_ofWord_singleton]
  | c :: d :: cs =>
    have hle := (ofWord (c :: d :: cs)).toll_le
    simp only [List.length_cons]
    omega

end Kind

namespace Lexer

variable {l l' : Lexer} {t : Lexeme} {length budget : Nat}

theorem toll_next (h : l.next = .lexeme t l') : l'.rest.length + t.kind.toll ≤ l.rest.length := by
  have htakes := takes_of_next h
  have hlength : l.rest.length = t.text.toList.length + l'.rest.length := by
    rw [htakes.rest, List.length_append]
  have htext : t.text.toList ≠ [] := fun hnil => htakes.text (String.ext hnil)
  have htoll : t.kind.toll ≤ t.text.toList.length := by
    rcases kind_of_next h with hword | hvariable | hfixed
    · rw [hword]
      exact Kind.toll_ofWord_le htext
    · rw [hvariable, Kind.toll_ofVariable]
      exact Nat.zero_le _
    · rw [Kind.toll_of_isFixed hfixed]
      exact Nat.zero_le _
  omega

/-- What is left of a text of this length lies at the position of the lexer, and the budget covers
it. -/
structure StandsIn (length budget : Nat) (l : Lexer) : Prop where
  loaded : l.loaded = true
  covered : l.rest.length ≤ budget
  place : l.rest ≠ [] → 0 ≤ l.pos ∧ l.pos + l.rest.length ≤ length

theorem standsIn_load (l : Lexer) {text : List Char} (h : text.length ≤ length)
    (hbudget : text.length ≤ budget) : (l.load text).StandsIn length budget :=
  ⟨rfl, hbudget, fun _ => ⟨Int.le_refl 0, by simp only [load]; omega⟩⟩

theorem StandsIn.lexeme (h : l.StandsIn length budget) (hn : l.next = .lexeme t l') :
    l'.StandsIn length budget ∧ 0 ≤ t.pos ∧ t.pos < length := by
  have htakes := takes_of_next hn
  have hlength : l.rest.length = t.text.toList.length + l'.rest.length := by
    rw [htakes.rest, List.length_append]
  have hlt := next_rest_lt hn
  have hne : l.rest ≠ [] := List.ne_nil_of_length_pos (by omega)
  obtain ⟨hpos, hend⟩ := h.place hne
  have hcovered := h.covered
  have hafter := htakes.pos_after
  rw [htakes.pos]
  exact ⟨⟨htakes.loaded_after.trans h.loaded, by omega, fun _ => ⟨by omega, by omega⟩⟩, hpos, by omega⟩

theorem standsIn_of_finished (hn : l.next = .finished l') : l'.StandsIn length budget := by
  cases does_next hn with
  | finished hloaded hrest => exact ⟨hloaded, by simp [hrest], fun hne => absurd hrest hne⟩

theorem StandsIn.failed (h : l.StandsIn length budget) {e : LexError} (hn : l.next = .failed e l') :
    l'.StandsIn length budget := by
  cases does_next hn with
  | unloaded hloaded => exact absurd h.loaded (by simp [hloaded])
  | stuck hloaded hrest hmatch => exact h
  | @failed rule width _ _ hloaded hrest hmatch hact =>
    have hplace := act_samePlace (l.advance width) (String.ofList (l.rest.take width))
      (rule.action (l.rest.take width) (l.rest.drop width).head?)
    rw [hact] at hplace
    obtain ⟨hpos, hend⟩ := h.place hrest
    have hcovered := h.covered
    have hp : l'.pos = l.pos + (l.rest.take width).length := hplace.pos
    have hr : l'.rest = l.rest.drop width := hplace.rest
    refine ⟨hplace.loaded.trans hloaded, ?_, fun _ => ?_⟩
    · rw [hr, List.length_drop]
      omega
    · rw [hp, hr, List.length_take, List.length_drop]
      omega

end Lexer

def Symbol.toll : Symbol → Nat
  | plain kind => kind.toll
  | _ => 0

/-- A text of this length is read; a lexeme read ahead may be one of an earlier text. -/
def Watch.supply (length budget : Nat) : Watch where
  kept l := l.StandsIn length budget
  found t l := (0 ≤ t.pos ∧ t.pos < length) ∧ l.rest.length + t.kind.toll ≤ budget

theorem Watch.holds_supply (length budget : Nat) : (supply length budget).Holds where
  lexeme hl hn :=
    ⟨(hl.lexeme hn).1, (hl.lexeme hn).2, Nat.le_trans (Lexer.toll_next hn) hl.covered⟩
  finished _ hn := ⟨Lexer.standsIn_of_finished hn, trivial⟩
  failed hl hn := hl.failed hn

namespace Masker

variable {length budget : Nat} {m m' : Masker}

theorem sifts_supply : (Watch.supply length budget).Sifts fun u l =>
    (0 ≤ u.pos ∧ u.pos < length) ∧ l.rest.length + u.symbol.toll ≤ budget where
  sift ht h := by
    rcases sift_cases h with ⟨rfl, -⟩ | ⟨hs, hpos⟩
    · exact ht
    · rw [hs, hpos]
      exact ⟨ht.1, Nat.le_trans (Nat.add_le_add_left (Nat.zero_le _) _) ht.2⟩
  masked ht _ := ht

theorem Enters.toll {b b' : Books} {t u : Masked} (h : Enters b t u b') :
    u.pos = t.pos ∧ u.symbol.toll ≤ t.symbol.toll := by
  cases h <;> exact ⟨rfl, by first | exact Nat.le_refl _ | exact Nat.zero_le _⟩

/-- A symbol is paid for by the text that is read for it. -/
theorem token_pays {u : Masked} (hm : m.Abides (.supply length budget))
    (h : token m = (.ok (some u), m')) :
    (0 ≤ u.pos ∧ u.pos < length) ∧ ∃ left, m'.Abides (.supply length left) ∧
      left + u.symbol.toll ≤ budget := by
  obtain ⟨v, m₁, m₂, hkept, hpeeked, ⟨hplace, htoll⟩, hmask, rfl⟩ :=
    (Watch.holds_supply length budget).of_token sifts_supply hm h
  obtain ⟨hpos, hle⟩ := (mask_enters v m₁ u m₂ hmask).toll
  have hstays := (Watch.holds_supply length m₁.lexer.rest.length).steady.mask v m₁
  rw [hmask] at hstays
  have hafter := hstays (abides_of_none ⟨hkept.loaded, Nat.le_refl _, hkept.place⟩ hpeeked)
  exact ⟨hpos ▸ hplace, _, ⟨hafter.lexer, hafter.peeked⟩, by omega⟩

theorem abides_loadFile {text : List Char} (h : text.length ≤ length)
    (hpeeked : ∀ t, m.peeked = some t → 0 ≤ t.pos ∧ t.pos < length) :
    (m.loadFile text).Abides (.supply length (length + 2)) := by
  have hload : (m.lexer.load text).StandsIn length length := m.lexer.standsIn_load h h
  refine ⟨⟨rfl, Nat.le_add_right_of_le h, hload.place⟩, fun t ht => ⟨hpeeked t ht, ?_⟩⟩
  have htoll := t.kind.toll_le
  show text.length + t.kind.toll ≤ length + 2
  omega

end Masker

end MaskedTaint
