import MaskedTaint.Proofs.Lexeme.Lines

/-! Scanning loses nothing. The lexemes of a text, one behind the other, are the text up to the
place where the reading stopped, and each of them knows the place where it begins. -/

namespace MaskedTaint

namespace Lexer

/-- Lexers at the same place of the same text; modes, stacks and labels may differ. -/
structure SamePlace (l l' : Lexer) : Prop where
  before : l'.before = l.before
  rest : l'.rest = l.rest
  line : l'.line = l.line
  pos : l'.pos = l.pos
  loaded : l'.loaded = l.loaded

theorem SamePlace.refl (l : Lexer) : l.SamePlace l := ⟨rfl, rfl, rfl, rfl, rfl⟩

variable {l : Lexer} {e : LexError}

theorem SamePlace.trans {l' l'' : Lexer} (h : l.SamePlace l') (h' : l'.SamePlace l'') :
    l.SamePlace l'' :=
  ⟨h'.before.trans h.before, h'.rest.trans h.rest, h'.line.trans h.line, h'.pos.trans h.pos,
    h'.loaded.trans h.loaded⟩

theorem pop_samePlace (l : Lexer) : l.SamePlace l.pop.2 := by
  unfold pop
  split <;> exact ⟨rfl, rfl, rfl, rfl, rfl⟩

theorem shift_samePlace (l : Lexer) (s : Shift) : l.SamePlace (l.shift s).2 := by
  cases s with
  | stay => exact .refl l
  | enter m | push m => exact ⟨rfl, rfl, rfl, rfl, rfl⟩
  | pop => exact pop_samePlace l
  | popTwice =>
    have h := pop_samePlace l
    simp only [shift]
    split
    · rename_i l' heq
      rw [heq] at h
      exact h.trans (pop_samePlace l')
    · exact h

theorem close_samePlace {cleared : Lexer} (h : l.SamePlace cleared) (label : Option String)
    (missing : LexError) (text : String) (kind : Kind) :
    l.SamePlace (l.close cleared label missing text kind).2 := by
  unfold close
  split
  · exact .refl l
  · split
    · exact h.trans (pop_samePlace cleared)
    · exact .refl l

theorem act_samePlace (l : Lexer) (text : String) (a : Action) : l.SamePlace (l.act text a).2 := by
  cases a with
  | emit kind s => exact shift_samePlace l s
  | openHeredoc label | openNowdoc label => exact ⟨rfl, rfl, rfl, rfl, rfl⟩
  | closeHeredoc =>
    have h : l.SamePlace { l with heredoc := none } := ⟨rfl, rfl, rfl, rfl, rfl⟩
    exact close_samePlace h _ _ _ _
  | closeNowdoc =>
    have h : l.SamePlace { l with nowdoc := none } := ⟨rfl, rfl, rfl, rfl, rfl⟩
    exact close_samePlace h _ _ _ _

theorem pop_error (h : l.pop.1 = .error e) : e = .emptyStack ∧ l.stack = [] := by
  unfold pop at h
  split at h
  · rename_i hstack
    cases h
    exact ⟨rfl, hstack⟩
  · cases h

theorem shift_error {s : Shift} (h : (l.shift s).1 = .error e) : e = .emptyStack := by
  cases s with
  | stay => cases h
  | enter m => cases h
  | push m => cases h
  | pop => exact (pop_error h).1
  | popTwice =>
    simp only [shift] at h
    split at h
    · exact (pop_error h).1
    · exact (pop_error h).1

theorem map_eq_error {ε α β : Type} {x : Except ε α} {f : α → β} {e : ε}
    (h : x.map f = .error e) : x = .error e := by
  cases x with
  | error e' => exact congrArg _ (Except.error.inj h)
  | ok a => cases h

theorem close_error {cleared : Lexer} {label : Option String} {missing : LexError}
    {text : String} {kind : Kind} (h : (l.close cleared label missing text kind).1 = .error e) :
    e = missing ∨ e = .emptyStack := by
  unfold close at h
  split at h
  · exact .inl (Except.error.inj h).symm
  · split at h
    · exact .inr (pop_error (map_eq_error h)).1
    · cases h

theorem act_error {text : String} {a : Action} (h : (l.act text a).1 = .error e) :
    e = .emptyStack ∨ e = .noHeredocLabel ∨ e = .noNowdocLabel := by
  cases a with
  | emit kind s => exact .inl (shift_error (map_eq_error h))
  | openHeredoc label => cases h
  | openNowdoc label => cases h
  | closeHeredoc => exact (close_error h).elim (fun he => .inr (.inl he)) .inl
  | closeNowdoc => exact (close_error h).elim (fun he => .inr (.inr he)) .inl

variable {l l' : Lexer} {t : Lexeme}

/-- What a lexeme takes: it begins at the place of the lexer, and the lexer goes on behind it. -/
structure Takes (l : Lexer) (t : Lexeme) (l' : Lexer) : Prop where
  text : t.text ≠ ""
  rest : l.rest = t.text.toList ++ l'.rest
  line : t.line = l.line
  pos : t.pos = l.pos
  line_after : l'.line = l.line + t.text.toList.count '\n'
  pos_after : l'.pos = l.pos + t.text.toList.length
  loaded_after : l'.loaded = l.loaded

theorem takes_of_next (h : l.next = .lexeme t l') : l.Takes t l' := by
  cases does_next h with
  | @lexeme rule width kind _ hloaded hrest hmatch hact =>
    have hplace := act_samePlace (l.advance width) (String.ofList (l.rest.take width))
      (rule.action (l.rest.take width) (l.rest.drop width).head?)
    rw [hact] at hplace
    have hwidth := firstMatch_width_pos hmatch
    have htaken : l.rest.take width ≠ [] := by
      simp only [ne_eq, List.take_eq_nil_iff, hrest, or_false]
      omega
    refine ⟨?_, ?_, rfl, rfl, ?_, ?_, hplace.loaded⟩
    · simpa [String.ext_iff] using htaken
    · rw [String.toList_ofList, hplace.rest]
      exact (List.take_append_drop width l.rest).symm
    · rw [String.toList_ofList]
      exact hplace.line
    · rw [String.toList_ofList]
      exact hplace.pos

theorem next_pos (h : l.next = .lexeme t l') : t.pos = l.pos ∧ l.pos < l'.pos := by
  have htakes := takes_of_next h
  have hlength : 0 < t.text.toList.length :=
    List.length_pos_iff.mpr fun hnil => htakes.text (String.ext hnil)
  have hafter := htakes.pos_after
  exact ⟨htakes.pos, by omega⟩

def joined (ts : List (Lexeme × Mode)) : List Char := ts.flatMap fun t => t.1.text.toList

@[simp] theorem joined_nil : joined [] = [] := rfl

@[simp] theorem joined_cons (t : Lexeme × Mode) (ts : List (Lexeme × Mode)) :
    joined (t :: ts) = t.1.text.toList ++ joined ts := rfl

def Placed (line pos : Int) (ts : List (Lexeme × Mode)) : Prop :=
  ∀ front t back, ts = front ++ t :: back →
    t.1.pos = pos + (joined front).length ∧ t.1.line = line + (joined front).count '\n'

theorem Placed.cons {line pos : Int} {t : Lexeme × Mode} {ts : List (Lexeme × Mode)}
    (hline : t.1.line = line) (hpos : t.1.pos = pos)
    (h : Placed (line + t.1.text.toList.count '\n') (pos + t.1.text.toList.length) ts) :
    Placed line pos (t :: ts) := by
  intro front u back hsplit
  cases front with
  | nil =>
    obtain ⟨rfl, -⟩ := List.cons.inj hsplit
    simp [hline, hpos]
  | cons x front =>
    obtain ⟨rfl, htail⟩ := List.cons.inj hsplit
    obtain ⟨hupos, huline⟩ := h front u back htail
    rw [hupos, huline, joined_cons, List.length_append, List.count_append]
    exact ⟨by omega, by omega⟩

structure Reads (l : Lexer) (ts : List (Lexeme × Mode)) (e : Option LexError) : Prop where
  nonempty : ∀ t ∈ ts, t.1.text ≠ ""
  placed : Placed l.line l.pos ts
  isPrefix : joined ts <+: l.rest
  finished : e = none → joined ts = l.rest
  stuck : ∀ line rest, e = some (.illegalCharacter line rest) →
    joined ts ++ rest.toList = l.rest ∧ rest ≠ "" ∧ line = l.line + (joined ts).count '\n'

theorem Reads.cons {ts : List (Lexeme × Mode)} {e : Option LexError} (htakes : l.Takes t l')
    (h : l'.Reads ts e) (m : Mode) : l.Reads ((t, m) :: ts) e := by
  refine ⟨?_, ?_, ?_, fun he => ?_, fun line rest he => ?_⟩
  · exact List.forall_mem_cons.mpr ⟨htakes.text, h.nonempty⟩
  · refine .cons htakes.line htakes.pos ?_
    rw [← htakes.line_after, ← htakes.pos_after]
    exact h.placed
  · rw [joined_cons, htakes.rest]
    exact (List.prefix_append_right_inj _).mpr h.isPrefix
  · rw [joined_cons, htakes.rest, h.finished he]
  · obtain ⟨htext, hne, hline⟩ := h.stuck line rest he
    refine ⟨by rw [joined_cons, List.append_assoc, htext, htakes.rest], hne, ?_⟩
    rw [hline, htakes.line_after, joined_cons, List.count_append]
    push_cast
    rw [Int.add_assoc]

theorem reads_failed (h : l.next = .failed e l') : l.Reads [] (some e) := by
  refine ⟨by simp, fun front t back hsplit => by simp at hsplit, List.nil_prefix, by simp, ?_⟩
  intro line rest he
  obtain rfl := Option.some.inj he
  cases does_next h with
  | stuck hloaded hrest hmatch => exact ⟨by simp, by simpa [String.ext_iff] using hrest, by simp⟩
  | failed hloaded hrest hmatch hact =>
    rcases act_error (congrArg Prod.fst hact) with he | he | he <;> cases he

theorem reads_scan (l : Lexer) : l.Reads l.scan.1 l.scan.2.1 := by
  fun_induction scan l with
  | case1 l t l' hn ts e last hscan ih =>
    rw [hscan] at ih
    exact .cons (takes_of_next hn) ih l'.mode
  | case2 l l' hn =>
    exact ⟨by simp, fun front t back hsplit => by simp at hsplit, List.nil_prefix,
      fun _ => (rest_of_finished hn).symm, by simp⟩
  | case3 l e l' hn => exact reads_failed hn

/-- The lexemes of a text have texts of their own, which together are a first part of it: all of
it if the reading comes to its end, and all but the rest that is reported if it meets a
character that no rule takes. Each lexeme, and that character, has the position and the line
of the place where it stands, whatever the mode, the stack and the labels at the beginning. -/
theorem scan_lossless (l : Lexer) (text : List Char) :
    let ts := (l.load text).scan.1
    let failure := (l.load text).scan.2.1
    (∀ t ∈ ts, t.1.text ≠ "") ∧
    joined ts <+: text ∧
    (∀ front t back, ts = front ++ t :: back → t.1.pos = ((joined front).length : Int) ∧
      t.1.line = l.line + (text.take (joined front).length).count '\n') ∧
    (failure = none → joined ts = text) ∧
    ∀ line rest, failure = some (.illegalCharacter line rest) →
      joined ts ++ rest.toList = text ∧
      line = l.line + (text.take (joined ts).length).count '\n' := by
  intro ts failure
  have hreads : (l.load text).Reads ts failure := reads_scan (l.load text)
  have hprefix : joined ts <+: text := hreads.isPrefix
  refine ⟨hreads.nonempty, hprefix, fun front t back hsplit => ?_, hreads.finished,
    fun line rest hfailure => ?_⟩
  · obtain ⟨hpos, hline⟩ := hreads.placed front t back hsplit
    have hfront : joined front <+: text := by
      refine .trans ?_ hprefix
      rw [hsplit]
      exact ⟨joined (t :: back), by simp [joined]⟩
    rw [← List.prefix_iff_eq_take.mp hfront]
    exact ⟨by simpa [load] using hpos, hline⟩
  · obtain ⟨htext, -, hline⟩ := hreads.stuck line rest hfailure
    rw [← List.prefix_iff_eq_take.mp hprefix]
    exact ⟨htext, hline⟩

/-- A text that ends inside a quotation on its third line. -/
def unclosed : List Char := "<?php /* a\n */ $b\n = 'c".toList

theorem scan_lossless_unclosed :
    (({} : Lexer).load unclosed).scan.2.1 = some (.illegalCharacter 3 "'c") ∧
    joined (({} : Lexer).load unclosed).scan.1 ++ "'c".toList = unclosed ∧
    ((3 : Int) = 1 +
      (unclosed.take (joined (({} : Lexer).load unclosed).scan.1).length).count '\n') := by
  have hfailure : (({} : Lexer).load unclosed).scan.2.1 = some (.illegalCharacter 3 "'c") := by
    decide +kernel
  obtain ⟨-, -, -, -, hstuck⟩ := scan_lossless {} unclosed
  exact ⟨hfailure, hstuck 3 "'c" hfailure⟩

end Lexer

end MaskedTaint
