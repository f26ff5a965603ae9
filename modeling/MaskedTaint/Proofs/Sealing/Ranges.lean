import Mathlib.Algebra.Group.Int.Defs
import Mathlib.Algebra.Group.Nat.Defs
import MaskedTaint.Proofs.Flow.Counting
import MaskedTaint.Proofs.Sealing.Structures

/-! Which numbers are sealed. The cipher for numbers has a range; positions and counters of files
that are not longer than the range stay inside it, so sealing their tokens never leaves it. -/

namespace MaskedTaint

namespace Ope

theorem encryptIn_ne_plainRange (key : Bytes) (n : Int) (fuel : Nat) (plain coded : Range) :
    encryptIn key n fuel plain coded ≠ .error .plainRange := by
  induction fuel generalizing plain coded with
  | zero => exact fun h => by cases h
  | succ fuel ih =>
    unfold encryptIn
    split
    · exact fun h => by cases h
    · dsimp only
      split
      · exact fun h => by cases h
      · exact ih _ _

theorem encrypt_ne_plainRange (key : Bytes) {n : Int} (h : plainNumbers.has n = true) :
    encrypt key n ≠ .error .plainRange := by
  rw [encrypt, if_pos h]
  exact encryptIn_ne_plainRange key n _ _ _

end Ope

namespace Sealing

open Act (Avoids)

variable {keys : Keys} {nonces : Nat → Bytes}

theorem avoids_ofExcept {α : Type} {e : CipherError} {x : Except CipherError α} (h : x ≠ .error e) :
    Avoids e (ofExcept x) := by
  intro n
  cases x with
  | ok a => exact fun hok => by cases hok
  | error e' => exact fun he => h (congrArg Except.error (Except.error.inj he))

theorem name_ne_number (s : String) (f : Ope.Fault) :
    (Ciphers.ofKeys keys).name s ≠ .error (.number f) := by
  unfold Ciphers.name Ciphers.ofKeys Cipher.nameBytes Cipher.nameKeys
  dsimp only
  split <;> exact fun h => by cases h

theorem sealWhole_ne_number (key nonce : Bytes) (s : String) (f : Ope.Fault) :
    Cipher.sealWhole key nonce s ≠ .error (.number f) := by
  intro h
  unfold Cipher.sealWhole Cipher.textKeys at h
  split at h
  · simp only [bind, Except.bind] at h
    split at h <;> cases h
  · cases h

theorem avoids_sealName (s : String) :
    Avoids (.number .plainRange) (sealName (Ciphers.ofKeys keys) s) :=
  avoids_ofExcept (name_ne_number s _)

theorem avoids_sealNumber {n : Int} (h : Ope.plainNumbers.has n = true) :
    Avoids (.number .plainRange) (sealNumber (Ciphers.ofKeys keys) n) := by
  refine avoids_ofExcept ?_
  show Cipher.sealNumber keys.secret n ≠ _
  have hne := Ope.encrypt_ne_plainRange keys.secret h
  unfold Cipher.sealNumber
  split
  · exact fun h => by cases h
  · rename_i f hf
    rintro ⟨rfl⟩
    exact hne hf

theorem avoids_nextNonce (e : CipherError) : Avoids e (nextNonce nonces) := fun _ h => by cases h

theorem avoids_sealKind (kind : String) :
    Avoids (.number .plainRange) (sealKind (Ciphers.ofKeys keys) kind) := by
  unfold sealKind
  split
  · exact .pure _
  · exact avoids_sealName kind

theorem avoids_sealMark {t : Token} (h : t.InRange) (kind : String) :
    Avoids (.number .plainRange) (sealMark nonces (Ciphers.ofKeys keys) kind t.mark) := by
  obtain ⟨hpos, hdepth, horder, hflow⟩ := h
  refine (avoids_sealName _).bind fun _ => (avoids_sealNumber hpos).bind fun _ => ?_
  refine (avoids_sealNumber hdepth).bind fun _ => (avoids_sealNumber horder).bind fun _ => ?_
  refine (avoids_sealNumber hflow).bind fun _ => (avoids_sealName _).bind fun _ => ?_
  refine (avoids_sealName _).bind fun _ => ?_
  refine ((avoids_nextNonce _).bind fun nonce => avoids_ofExcept ?_).bind fun _ => .pure _
  exact sealWhole_ne_number _ nonce t.mark.file _

mutual

theorem avoids_sealToken : ∀ t : Token, (∀ u ∈ t.occurrences, u.InRange) →
    Avoids (.number .plainRange) (sealToken nonces (Ciphers.ofKeys keys) t)
  | .site i m, h => by
    have hself := h _ (Token.mem_occurrences_self _)
    exact (avoids_sealMark hself m.kind).bind fun _ => (avoids_sealKind m.kind).bind fun _ => .pure _
  | .jump i m target args, h => by
    have hself := h _ (Token.mem_occurrences_self _)
    refine (avoids_sealMark hself _).bind fun _ => (avoids_sealName target).bind fun _ => ?_
    exact (avoids_sealTokens args fun u hu => h u (List.mem_cons_of_mem _ hu)).bind fun _ => .pure _

theorem avoids_sealTokens : ∀ ts : List Token, (∀ u ∈ Token.occurrencesIn ts, u.InRange) →
    Avoids (.number .plainRange) (sealTokens nonces (Ciphers.ofKeys keys) ts)
  | [], _ => .pure _
  | t :: ts, h =>
    (avoids_sealToken t fun u hu => h u (List.mem_append_left _ hu)).bind fun _ =>
      (avoids_sealTokens ts fun u hu => h u (List.mem_append_right _ hu)).bind fun _ => .pure _

end

theorem avoids_sealLists {ls : List (String × List Token)}
    (h : ∀ l ∈ ls, ∀ u ∈ Token.occurrencesIn l.2, u.InRange) :
    Avoids (.number .plainRange) (sealLists nonces (Ciphers.ofKeys keys) ls) := by
  induction ls with
  | nil => exact .pure _
  | cons l ls ih =>
    obtain ⟨hl, hls⟩ := List.forall_mem_cons.mp h
    refine ((avoids_sealKind l.1).bind fun _ => .pure _).bind fun _ => ?_
    exact (avoids_sealTokens l.2 hl).bind fun _ => (ih hls).bind fun _ => .pure _

theorem avoids_sealScopes {es : List (String × Scope)}
    (h : ∀ e ∈ es, ∀ l ∈ e.2, ∀ u ∈ Token.occurrencesIn l.2, u.InRange) :
    Avoids (.number .plainRange) (sealScopes nonces (Ciphers.ofKeys keys) es) := by
  induction es with
  | nil => exact .pure _
  | cons e es ih =>
    obtain ⟨he, hes⟩ := List.forall_mem_cons.mp h
    refine ((avoids_sealName e.1).bind fun _ => .pure _).bind fun _ => ?_
    exact (avoids_sealLists he).bind fun _ => (ih hes).bind fun _ => .pure _

theorem avoids_structureFile {d : Structure} (h : ∀ t ∈ d.occurrences, t.InRange) :
    Avoids (.number .plainRange) (structureFile nonces (Suite.ofKeys keys) d) := by
  have hscopes : ∀ e ∈ d.entries, ∀ l ∈ e.2, ∀ u ∈ Token.occurrencesIn l.2, u.InRange := by
    intro e he l hl u hu
    obtain ⟨t, ht, hu⟩ := Token.mem_occurrencesIn.mp hu
    exact h u (Structure.mem_occurrences.mpr ⟨e, he, l, hl, t, ht, hu⟩)
  have hwhole : ∀ nonce text, (Suite.ofKeys keys).sealText nonce text ≠ .error (.number .plainRange) :=
    fun nonce text => sealWhole_ne_number keys.shared nonce text _
  refine ((avoids_sealScopes hscopes).bind fun _ => .pure _).bind fun _ => ?_
  split
  · exact .pure _
  · exact (avoids_nextNonce _).bind fun _ => (avoids_ofExcept (hwhole _ _)).bind fun _ => .pure _

end Sealing

theorem Ope.has_plainNumbers {n : Int} : plainNumbers.has n = true ↔ -1 ≤ n ∧ n ≤ 2 ^ 19 - 2 := by
  simp only [Range.has, Bool.and_eq_true, decide_eq_true_eq]
  show -1 ≤ n ∧ n ≤ 0x7fffe ↔ _
  omega

theorem Token.inRange_iff {t : Token} : t.InRange ↔
    ∀ n ∈ [t.mark.pos, t.mark.depth, t.mark.order, t.mark.flow], -1 ≤ n ∧ n ≤ 2 ^ 19 - 2 := by
  simp only [InRange, Token.pos, Ope.has_plainNumbers, List.forall_mem_cons, List.not_mem_nil,
    false_implies, implies_true, and_true]

theorem Mark.RoomIn.inRange {t : Token} (h : t.mark.RoomIn (2 ^ 19 - 1)) : t.InRange := by
  obtain ⟨hpos, hdepth, horder, hflow⟩ := h
  simp only [Token.InRange, Token.pos, Ope.has_plainNumbers]
  omega

namespace Project

/-- In a project of short files all positions and counters are in the range of the cipher for
numbers, so that the project is never refused for a number that is not. -/
theorem sealed_in_range {files : List (String × List Char)} {p : Project}
    (hfiles : ∀ f ∈ files, f.2.length ≤ 2 ^ 19 - 1) (hp : recordAll {} files = .ok p) :
    (∀ t ∈ p.flows.occurrences, ∀ n ∈ [t.mark.pos, t.mark.depth, t.mark.order, t.mark.flow],
      -1 ≤ n ∧ n ≤ 2 ^ 19 - 2) ∧
    ∀ keys nonces first, (Sealing.structureFile nonces (Suite.ofKeys keys) p.flows first).1 ≠
      .error (.number .plainRange) := by
  have hrange : ∀ t ∈ p.flows.occurrences, t.InRange := fun t ht =>
    (((roomIn_empty _).recordAll hfiles hp).flows.marks t ht).inRange
  refine ⟨fun t ht => ?_, fun keys nonces => Sealing.avoids_structureFile hrange⟩
  obtain ⟨hpos, hdepth, horder, hflow⟩ := hrange t ht
  simp only [List.forall_mem_cons, List.not_mem_nil, false_implies, implies_true, and_true]
  exact ⟨Ope.has_plainNumbers.mp hpos, Ope.has_plainNumbers.mp hdepth,
    Ope.has_plainNumbers.mp horder, Ope.has_plainNumbers.mp hflow⟩

/-- A call in a loop in a branch, and two more branches. -/
def branching : List (String × List Char) :=
  [("m.php", ("<?php if ($a) \x7b while ($b) \x7b echo f($_GET['x']); \x7d \x7d " ++
    "elseif ($c) \x7b echo $a; \x7d else \x7b echo $b; \x7d").toList)]

theorem sealed_in_range_branching : ∃ p, recordAll {} branching = .ok p ∧
    [36, 2, 1, 1] ∈ p.flows.occurrences.map
      (fun t => [t.mark.pos, t.mark.depth, t.mark.order, t.mark.flow]) ∧
    (∀ f ∈ branching, f.2.length ≤ 2 ^ 19 - 1) ∧
    (∀ t ∈ p.flows.occurrences, ∀ n ∈ [t.mark.pos, t.mark.depth, t.mark.order, t.mark.flow],
      -1 ≤ n ∧ n ≤ 2 ^ 19 - 2) ∧
    ∀ keys nonces first, (Sealing.structureFile nonces (Suite.ofKeys keys) p.flows first).1 ≠
      .error (.number .plainRange) := by
  have hcheck : ∃ p ∈ (recordAll {} branching).toOption, [36, 2, 1, 1] ∈ p.flows.occurrences.map
      (fun t => [t.mark.pos, t.mark.depth, t.mark.order, t.mark.flow]) := by
    decide +kernel
  obtain ⟨p, hp, hnumbers⟩ := hcheck
  have hp := eq_ok_of_toOption hp
  have hshort : ∀ f ∈ branching, f.2.length ≤ 2 ^ 19 - 1 := by decide
  exact ⟨p, hp, hnumbers, hshort, sealed_in_range hshort hp⟩

end Project

end MaskedTaint
