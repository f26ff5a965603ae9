import Mathlib.Data.List.Forall2
import MaskedTaint.Proofs.Acts
import MaskedTaint.Proofs.Flow.Occurrences
import MaskedTaint.Sealing.Structure

/-! What sealing makes of a token, field by field, and when it succeeds. Every occurrence
uses one nonce, so the nonce of an occurrence is told by its place among all of them. -/

namespace MaskedTaint

namespace Ciphers

def SealsKind (c : Ciphers) (k k' : String) : Prop :=
  if Special.isName k then k' = c.label k else c.name k = .ok k'

structure SealsMark (c : Ciphers) (nonce : Bytes) (m m' : Mark) : Prop where
  line : ∃ s, c.name m.line.render = .ok s ∧ m'.line = .text s
  pos : c.number m.pos = .ok m'.pos
  depth : c.number m.depth = .ok m'.depth
  order : c.number m.order = .ok m'.order
  flow : c.number m.flow = .ok m'.flow
  split : ∃ s, c.name m.split.render = .ok s ∧ m'.split = .text s
  scope : c.name m.scope = .ok m'.scope
  file : c.file nonce m.file = .ok m'.file

end Ciphers

namespace Sealing

variable {nonces : Nat → Bytes} {c : Ciphers}

/-! ### Inversion -/

variable {n n' : Nat} {m : Mark}

theorem pure_eq_ok_iff {α : Type} {a b : α} :
    (pure a : Sealing α) n = (.ok b, n') ↔ a = b ∧ n = n' := by
  simp

theorem ofExcept_eq_ok_iff {α : Type} {x : Except CipherError α} {a : α} :
    ofExcept x n = (.ok a, n') ↔ x = .ok a ∧ n = n' := by
  cases x with
  | error e => simp [ofExcept, Act.fail]
  | ok b => simp [ofExcept]

theorem nextNonce_eq_ok_iff {b : Bytes} :
    nextNonce nonces n = (.ok b, n') ↔ nonces n = b ∧ n + 1 = n' := by
  simp [nextNonce, Act.state, Act.update, Act.bind_apply]

theorem sealKind_eq_ok_iff {k k' : String} :
    sealKind c k n = (.ok k', n') ↔ c.SealsKind k k' ∧ n = n' := by
  unfold sealKind Ciphers.SealsKind
  split
  · rw [pure_eq_ok_iff, eq_comm]
  · exact ofExcept_eq_ok_iff

theorem sealMark_eq_ok_iff {k : String} {m' : Mark} : sealMark nonces c k m n = (.ok m', n') ↔
      m'.kind = k ∧ c.SealsMark (nonces n) m m' ∧ n + 1 = n' := by
  simp only [sealMark, sealName, sealNumber, sealFile, Act.bind_eq_ok_iff, ofExcept_eq_ok_iff,
    nextNonce_eq_ok_iff, pure_eq_ok_iff]
  constructor
  · rintro ⟨line, _, ⟨hline, rfl⟩, pos, _, ⟨hpos, rfl⟩, depth, _, ⟨hdepth, rfl⟩, order, _,
      ⟨horder, rfl⟩, flow, _, ⟨hflow, rfl⟩, split, _, ⟨hsplit, rfl⟩, scope, _, ⟨hscope, rfl⟩,
      file, _, ⟨_, _, ⟨rfl, rfl⟩, hfile, rfl⟩, rfl, rfl⟩
    exact ⟨rfl, ⟨⟨line, hline, rfl⟩, hpos, hdepth, horder, hflow, ⟨split, hsplit, rfl⟩, hscope,
      hfile⟩, rfl⟩
  · rintro ⟨rfl, ⟨⟨line, hline, hline'⟩, hpos, hdepth, horder, hflow, ⟨split, hsplit, hsplit'⟩,
      hscope, hfile⟩, rfl⟩
    refine ⟨line, _, ⟨hline, rfl⟩, _, _, ⟨hpos, rfl⟩, _, _, ⟨hdepth, rfl⟩, _, _, ⟨horder, rfl⟩, _,
      _, ⟨hflow, rfl⟩, split, _, ⟨hsplit, rfl⟩, _, _, ⟨hscope, rfl⟩, _, _,
      ⟨_, _, ⟨rfl, rfl⟩, hfile, rfl⟩, ?_, rfl⟩
    cases m'
    simp_all

theorem sealToken_site_iff {i : Nat} {t' : Token} :
    sealToken nonces c (.site i m) n = (.ok t', n') ↔ ∃ m', t' = .site i m' ∧
      c.SealsKind m.kind m'.kind ∧ c.SealsMark (nonces n) m m' ∧ n + 1 = n' := by
  simp only [sealToken, Act.bind_eq_ok_iff, sealMark_eq_ok_iff, sealKind_eq_ok_iff, pure_eq_ok_iff]
  constructor
  · rintro ⟨m₁, _, ⟨_, hm, rfl⟩, k', _, ⟨hk, rfl⟩, rfl, rfl⟩
    exact ⟨_, rfl, hk, ⟨hm.line, hm.pos, hm.depth, hm.order, hm.flow, hm.split, hm.scope, hm.file⟩,
      rfl⟩
  · rintro ⟨m', rfl, hk, hm, rfl⟩
    exact ⟨{ m' with kind := m.kind }, _, ⟨rfl, ⟨hm.line, hm.pos, hm.depth, hm.order, hm.flow,
      hm.split, hm.scope, hm.file⟩, rfl⟩, m'.kind, _, ⟨hk, rfl⟩, rfl, rfl⟩

theorem sealToken_jump_iff {i : Nat} {g : String} {as : List Token} {t' : Token} :
    sealToken nonces c (.jump i m g as) n = (.ok t', n') ↔ ∃ m' g' as', t' = .jump i m' g' as' ∧
      m'.kind = c.label m.kind ∧ c.SealsMark (nonces n) m m' ∧ c.name g = .ok g' ∧
      sealTokens nonces c as (n + 1) = (.ok as', n') := by
  simp only [sealToken, sealName, Act.bind_eq_ok_iff, sealMark_eq_ok_iff, ofExcept_eq_ok_iff,
    pure_eq_ok_iff]
  constructor
  · rintro ⟨m', _, ⟨hk, hm, rfl⟩, g', _, ⟨hg, rfl⟩, as', _, has, rfl, rfl⟩
    exact ⟨m', g', as', rfl, hk, hm, hg, has⟩
  · rintro ⟨m', g', as', rfl, hk, hm, hg, has⟩
    exact ⟨m', _, ⟨hk, hm, rfl⟩, g', _, ⟨hg, rfl⟩, as', _, has, rfl, rfl⟩

theorem sealTokens_cons_iff {t : Token} {ts us : List Token} :
    sealTokens nonces c (t :: ts) n = (.ok us, n') ↔ ∃ t' ts' k, us = t' :: ts' ∧
      sealToken nonces c t n = (.ok t', k) ∧ sealTokens nonces c ts k = (.ok ts', n') := by
  simp only [sealTokens, Act.bind_eq_ok_iff, pure_eq_ok_iff]
  constructor
  · rintro ⟨t', k, ht, ts', _, hts, rfl, rfl⟩
    exact ⟨t', ts', k, rfl, ht, hts⟩
  · rintro ⟨t', ts', k, rfl, ht, hts⟩
    exact ⟨t', k, ht, ts', n', hts, rfl, rfl⟩

/-! ### Nonces -/

mutual

theorem sealToken_count : ∀ (t : Token) {t' : Token} {n n' : Nat},
    sealToken nonces c t n = (.ok t', n') → n' = n + t.occurrences.length
  | .site i m, t', n, n', h => by
    obtain ⟨_, _, _, _, hn⟩ := sealToken_site_iff.mp h
    simpa [Token.occurrences] using hn.symm
  | .jump i m g as, t', n, n', h => by
    obtain ⟨_, _, as', _, _, _, _, has⟩ := sealToken_jump_iff.mp h
    have hn := sealTokens_count as has
    simp only [Token.occurrences, List.length_cons]
    omega

theorem sealTokens_count : ∀ (ts : List Token) {ts' : List Token} {n n' : Nat},
    sealTokens nonces c ts n = (.ok ts', n') → n' = n + (Token.occurrencesIn ts).length
  | [], ts', n, n', h => by
    obtain ⟨_, hn⟩ := pure_eq_ok_iff.mp h
    simpa [Token.occurrencesIn] using hn.symm
  | t :: ts, us, n, n', h => by
    obtain ⟨t', ts', k, _, ht, hts⟩ := sealTokens_cons_iff.mp h
    have hk := sealToken_count t ht
    have hn := sealTokens_count ts hts
    simp only [Token.occurrencesIn, List.length_append]
    omega

end

def placeIn (all : List Token) (id : Nat) : Nat := (all.map Token.id).idxOf id

theorem placeIn_append {pre post : List Token} {t : Token}
    (h : ((pre ++ t :: post).map Token.id).Nodup) : placeIn (pre ++ t :: post) t.id = pre.length := by
  rw [List.map_append, List.map_cons] at h
  have hpre : t.id ∉ pre.map Token.id := fun hm =>
    (List.nodup_append.mp h).2.2 _ hm _ List.mem_cons_self rfl
  rw [placeIn, List.map_append, List.map_cons, List.idxOf_append_of_notMem hpre]
  simp

theorem sealTokens_located {all pre post : List Token} {ts ts' : List Token}
    (hall : (all.map Token.id).Nodup) (hloc : all = pre ++ (Token.occurrencesIn ts ++ post))
    (h : sealTokens nonces c ts pre.length = (.ok ts', n')) :
    List.Forall₂ (fun t t' => (sealToken nonces c t (placeIn all t.id)).1 = .ok t') ts ts' := by
  induction ts generalizing pre ts' with
  | nil =>
    obtain ⟨rfl, _⟩ := pure_eq_ok_iff.mp h
    exact .nil
  | cons t ts ih =>
    obtain ⟨t', ts', k, rfl, ht, hts⟩ := sealTokens_cons_iff.mp h
    have hk := sealToken_count t ht
    have hhead : ∃ rest, t.occurrences = t :: rest := by cases t <;> simp [Token.occurrences]
    obtain ⟨rest, hrest⟩ := hhead
    have hplace : placeIn all t.id = pre.length := by
      rw [hloc, Token.occurrencesIn, hrest, List.cons_append, List.cons_append] at hall ⊢
      exact placeIn_append hall
    have hnext : all = (pre ++ t.occurrences) ++ (Token.occurrencesIn ts ++ post) := by
      rw [hloc, Token.occurrencesIn]
      simp
    rw [hk, ← List.length_append] at hts
    exact .cons (by rw [hplace, ht]) (ih hnext hts)

end Sealing

end MaskedTaint
