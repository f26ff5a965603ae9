import MaskedTaint.Proofs.Cipher.Opening
import MaskedTaint.Proofs.Sealing.Correspondence
import MaskedTaint.Proofs.Search.Refiling

/-! What the nonces do to the search of a sealed structure. Every occurrence is sealed with a
nonce of its own, so no two occurrences are alike once they are sealed. The search of a sealed
structure is therefore the search of the plain structure with all occurrences told apart; where
the occurrences of the plain structure differ anyway, it is the search of that structure. -/

namespace MaskedTaint

/-! ### Comparing tokens -/

namespace Token

theorem rebound_refiled (f : Nat → String → String) (q : Mark) (t : Token) :
    (t.rebound q).refiled f = (t.refiled f).rebound q := by
  cases t <;> rfl

theorem branch_of_same_rebound {o : Token} {p q : Mark} (hp : CommaFree p.split.render)
    (hq : CommaFree q.split.render) (h : (o.rebound p).same (o.rebound q) = true) :
    p.SameBranch q := by
  have hsig : (o.rebound p).signature.toList = (o.rebound q).signature.toList := by
    rw [same, beq_iff_eq] at h
    rw [h]
  have hrow : ∀ m : Mark, row (o.rebound m).fields = row [o.mark.kind, o.mark.line.render,
      toString o.mark.pos] ++ (row [toString m.depth, toString m.order, toString m.flow,
        m.split.render] ++ row [o.mark.scope]) := by
    intro m
    cases o <;> simp [row, fields, rebound, mark, Search.boundMark]
  have hfree : ∀ m : Mark, CommaFree m.split.render →
      ∀ s ∈ [toString m.depth, toString m.order, toString m.flow, m.split.render], CommaFree s := by
    intro m hm s hs
    simp only [List.mem_cons, List.not_mem_nil, or_false] at hs
    rcases hs with rfl | rfl | rfl | rfl
    iterate 3 exact commaFree_toString _
    · exact hm
  have hmid : ∀ r r' : List Char, row (o.rebound p).fields ++ r = row (o.rebound q).fields ++ r' →
      p.SameBranch q := by
    intro r r' heq
    simp only [hrow, List.append_assoc, List.append_cancel_left_eq] at heq
    obtain ⟨hfields, -⟩ := row_append_inj (by simp) (hfree p hp) (hfree q hq) heq
    simp only [List.cons.injEq, and_true] at hfields
    obtain ⟨hdepth, horder, hflow, hsplit⟩ := hfields
    exact ⟨Int.repr_inj.mp hdepth, Int.repr_inj.mp horder, Int.repr_inj.mp hflow, hsplit⟩
  cases o with
  | site i m =>
    simp only [rebound, toList_signature_site, List.append_cancel_left_eq] at hsig
    exact hmid _ _ hsig
  | jump i m g as =>
    have hrest : ∀ n : Mark, row ((jump i n g as).fields ++ [g]) = row (jump i n g as).fields ++ row [g] :=
      fun n => by simp [row]
    simp only [rebound, toList_signature_jump, List.append_cancel_left_eq, hrest,
      List.append_assoc] at hsig
    exact hmid _ _ hsig

end Token

namespace Structure

variable {d : Structure} {f : Nat → String → String}

def Tells (d : Structure) (f : Nat → String → String) : Prop :=
  ∀ o u, d.Flows o → d.Flows u → ∀ p ∈ d.occurrences, ∀ q ∈ d.occurrences,
    ((o.rebound p.mark).refiled f).same ((u.rebound q.mark).refiled f) = true → o = u

/-- No two occurrences are alike, whatever parameters they are bound to. -/
def Unrepeated (d : Structure) : Prop :=
  ∀ o u, d.Flows o → d.Flows u → ∀ p ∈ d.occurrences, ∀ q ∈ d.occurrences,
    (o.rebound p.mark).same (u.rebound q.mark) = true → o = u

def toldApart (d : Structure) : Structure := d.refiled fun i _ => toString i

theorem Unrepeated.tells (h : d.Unrepeated) : d.Tells fun _ file => file := by
  intro o u ho hu p hp q hq hsame
  rw [Token.refiled_self, Token.refiled_self] at hsame
  exact h o u ho hu p hp q hq hsame

theorem tells_toldApart (hids : (d.occurrences.map Token.id).Nodup) :
    d.Tells fun i _ => toString i := by
  intro o u ho hu p hp q hq hsame
  have hfile : ∀ (t : Token) (m : Mark),
      ((t.rebound m).refiled fun i _ => toString i).mark.file = toString t.id := by
    intro t m
    cases t <;> rfl
  have hfree : ∀ i : Nat, CommaFree (toString i) := fun i => Token.commaFree_toString i
  have heq := (Token.heading_of_same (hfile o p.mark ▸ hfree _) (hfile u q.mark ▸ hfree _) hsame).2
  rw [hfile, hfile] at heq
  exact List.inj_on_of_nodup_map hids ho.mem_occurrences hu.mem_occurrences (Nat.repr_inj.mp heq)

end Structure

/-! ### The searches agree -/

namespace Sealing

variable {nonces : Nat → Bytes} {c : Ciphers} {d : Structure} {f : Nat → String → String}

theorem placeIn_lt {all : List Token} {t : Token} (h : t ∈ all) : placeIn all t.id < all.length := by
  have hlt := List.idxOf_lt_length_of_mem (List.mem_map_of_mem (f := Token.id) h)
  rwa [List.length_map] at hlt

theorem eq_of_nonce (hids : (d.occurrences.map Token.id).Nodup)
    (hdiff : Set.InjOn nonces {n | n < d.occurrences.length}) {o u : Token} (ho : o ∈ d.occurrences)
    (hu : u ∈ d.occurrences)
    (h : nonces (placeIn d.occurrences o.id) = nonces (placeIn d.occurrences u.id)) : o = u := by
  have hplace := hdiff (placeIn_lt ho) (placeIn_lt hu) h
  have hid : o.id = u.id := (List.idxOf_inj (List.mem_map_of_mem ho)).mp hplace
  exact List.inj_on_of_nodup_map hids ho hu hid

theorem refiled_faithful (hlen : ∀ n, (nonces n).length = 16)
    (hdiff : Set.InjOn nonces {n | n < d.occurrences.length}) (hd : d.Orderly)
    (hsplit : ∀ t ∈ d.occurrences, CommaFree t.split.render) (hc : c.Sound d.sealedNames)
    (hf : d.Tells f) :
    ((correspondence nonces c d).refiled f).Faithful .plain (.hiddenBy c.label) where
  toLawful := (correspondence_lawful hd hc).refiled f
  same := by
    rintro _ a' _ b' ⟨a, rfl, hma, ha⟩ ⟨b, rfl, hmb, hb⟩
    rw [Bool.eq_iff_iff]
    constructor
    · intro h
      obtain ⟨o, ho, p, hp, rfl⟩ := hma
      obtain ⟨u, hu, q, hq, rfl⟩ := hmb
      obtain rfl := hf o u ho hu p hp q hq h
      rw [Token.rebound_refiled, Token.rebound_refiled] at h
      have hbranch := Token.branch_of_same_rebound (hsplit p hp) (hsplit q hq) h
      exact same_sealAt_rebound hbranch ha hb
    · intro h
      obtain ⟨_, hfile, hbranch⟩ := branch_of_same_sealAt hd hc hma hmb ha hb h
      have hnonce := Cipher.nonce_of_sealWhole (hlen _) (hlen _) (sealAt_mark ha).file
        (hfile ▸ (sealAt_mark hb).file)
      obtain ⟨o, ho, p, hp, rfl⟩ := hma
      obtain ⟨u, hu, q, hq, rfl⟩ := hmb
      have hid : ∀ (t : Token) (m : Mark), (t.rebound m).id = t.id := by
        intro t m
        cases t <;> rfl
      rw [hid, hid] at hnonce
      obtain rfl := eq_of_nonce hd.ids hdiff ho.mem_occurrences hu.mem_occurrences hnonce
      have hbranch : p.mark.SameBranch q.mark := by
        cases o <;> exact hbranch
      rw [Token.rebound_refiled, Token.rebound_refiled]
      exact Token.same_rebound _ hbranch

end Sealing

end MaskedTaint
