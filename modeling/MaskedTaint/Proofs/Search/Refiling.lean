import MaskedTaint.Proofs.Flow.Occurrences
import MaskedTaint.Proofs.Search.Agreement

/-! Tokens with other files. The search never asks for the file of a token but where it compares
whole tokens, so a correspondence stays lawful if the files on one side are replaced. -/

namespace MaskedTaint

namespace Token

mutual

/-- Every occurrence gets a new file, by its number and its old file. -/
def refiled (f : Nat → String → String) : Token → Token
  | site i m => site i { m with file := f i m.file }
  | jump i m target args => jump i { m with file := f i m.file } target (refiledAll f args)

def refiledAll (f : Nat → String → String) : List Token → List Token
  | [] => []
  | t :: ts => refiled f t :: refiledAll f ts

end

variable (f : Nat → String → String) (t : Token)

@[simp] theorem id_refiled : (t.refiled f).id = t.id := by cases t <;> rfl

@[simp] theorem kind_refiled : (t.refiled f).kind = t.kind := by cases t <;> rfl

@[simp] theorem pos_refiled : (t.refiled f).pos = t.pos := by cases t <;> rfl

@[simp] theorem scope_refiled : (t.refiled f).scope = t.scope := by cases t <;> rfl

@[simp] theorem split_refiled : (t.refiled f).split = t.split := by cases t <;> rfl

@[simp] theorem mark_refiled : (t.refiled f).mark = { t.mark with file := f t.id t.mark.file } := by
  cases t <;> rfl

theorem refiledAll_eq_map (ts : List Token) : refiledAll f ts = ts.map (refiled f) := by
  induction ts with
  | nil => rfl
  | cons t ts ih => rw [refiledAll, ih, List.map_cons]

mutual

theorem refiled_self : ∀ t : Token, t.refiled (fun _ file => file) = t
  | site i m => rfl
  | jump i m target args => by rw [refiled, refiledAll_self args]

theorem refiledAll_self : ∀ ts : List Token, refiledAll (fun _ file => file) ts = ts
  | [] => rfl
  | t :: ts => by rw [refiledAll, refiled_self t, refiledAll_self ts]

end

mutual

theorem occurrences_refiled : ∀ t : Token, (t.refiled f).occurrences = t.occurrences.map (refiled f)
  | site i m => rfl
  | jump i m target args => by
    rw [refiled, occurrences, occurrences, List.map_cons, occurrencesIn_refiledAll args, refiled]

theorem occurrencesIn_refiledAll : ∀ ts : List Token,
    occurrencesIn (refiledAll f ts) = (occurrencesIn ts).map (refiled f)
  | [] => rfl
  | t :: ts => by
    rw [refiledAll, occurrencesIn, occurrencesIn, List.map_append, occurrences_refiled t,
      occurrencesIn_refiledAll ts]

end

end Token

namespace Structure

def refiled (f : Nat → String → String) (d : Structure) : Structure :=
  d.map fun e => (e.1, e.2.map fun l => (l.1, Token.refiledAll f l.2))

theorem refiled_self (d : Structure) : d.refiled (fun _ file => file) = d := by
  simp [refiled, Token.refiledAll_self]

end Structure

namespace Correspondence

variable {C : Correspondence} {lex lex' : Lexicon} {f : Nat → String → String}

def refiled (C : Correspondence) (f : Nat → String → String) : Correspondence where
  token t t' := ∃ o, t = o.refiled f ∧ C.token o t'
  imported t t' := ∃ o, t = o.refiled f ∧ C.imported o t'
  scope := C.scope
  key := C.key

theorem Lawful.refiled (h : C.Lawful lex lex') (f : Nat → String → String) :
    (C.refiled f).Lawful lex lex' where
  scope_iff := h.scope_iff
  key_iff := h.key_iff
  place := h.place
  imports_ne := h.imports_ne
  imported_of_token := by
    rintro _ t' ⟨o, rfl, ho⟩
    exact ⟨o, rfl, h.imported_of_token o t' ho⟩
  token_of_imported := by
    rintro _ u' _ t' ⟨o, rfl, ho⟩ hkey ⟨p, rfl, hp⟩
    rw [Token.kind_refiled] at hkey
    exact ⟨p, rfl, h.token_of_imported o u' p t' ho hkey hp⟩
  target := by
    rintro _ t' ⟨o, rfl, ho⟩
    have htarget := h.target o t' ho
    cases o <;> cases t' <;> exact htarget
  args := by
    rintro i m g as i' m' g' as' ⟨o, heq, ho⟩
    cases o with
    | site j n => cases heq
    | jump j n g₀ as₀ =>
      obtain ⟨rfl, rfl, rfl, rfl⟩ := Token.jump.inj heq
      rw [Token.refiledAll_eq_map, List.forall₂_map_left_iff]
      exact (h.args _ _ _ _ _ _ _ _ ho).imp fun a a' ha => ⟨a, rfl, ha⟩
  pos_iff := by
    rintro _ a' _ b' ⟨o, rfl, ho⟩ ⟨p, rfl, hp⟩
    simpa using h.pos_iff o a' p b' ho hp
  kind := by
    rintro _ t' ⟨o, rfl, ho⟩
    rw [Token.kind_refiled]
    exact h.kind o t' ho
  home := by
    rintro _ t' ⟨o, rfl, ho⟩
    rw [Token.scope_refiled]
    exact h.home o t' ho
  word_iff := by
    rintro _ t' p ⟨o, rfl, ho⟩
    simpa using h.word_iff o t' p ho
  home_iff := by
    rintro _ a' _ b' ⟨o, rfl, ho⟩ ⟨p, rfl, hp⟩
    simpa using h.home_iff o a' p b' ho hp
  depth_iff := by
    rintro _ a' _ b' ⟨o, rfl, ho⟩ ⟨p, rfl, hp⟩
    simpa using h.depth_iff o a' p b' ho hp
  order_iff := by
    rintro _ a' _ b' ⟨o, rfl, ho⟩ ⟨p, rfl, hp⟩
    simpa using h.order_iff o a' p b' ho hp
  flow_iff := by
    rintro _ a' _ b' ⟨o, rfl, ho⟩ ⟨p, rfl, hp⟩
    simpa using h.flow_iff o a' p b' ho hp
  split_iff := by
    rintro _ a' _ b' ⟨o, rfl, ho⟩ ⟨p, rfl, hp⟩
    simpa using h.split_iff o a' p b' ho hp
  bound_site := by
    rintro _ p' _ a' ⟨p, rfl, hp⟩ ⟨a, rfl, ha⟩ hkind
    rw [Token.kind_refiled] at hkind
    refine ⟨_, ?_, h.bound_site p p' a a' hp ha hkind⟩
    simp [Token.refiled, Search.boundMark]
  bound_jump := by
    rintro _ p' i m g as i' m' g' as' ⟨p, rfl, hp⟩ ⟨a, heq, ha⟩
    cases a with
    | site j n => cases heq
    | jump j n g₀ as₀ =>
      obtain ⟨rfl, rfl, rfl, rfl⟩ := Token.jump.inj heq
      refine ⟨_, ?_, h.bound_jump p p' _ _ _ _ _ _ _ _ hp ha⟩
      simp [Token.refiled, Search.boundMark]

theorem Flows.refiled {d e : Structure} (h : C.Flows lex d e) (f : Nat → String → String) :
    (C.refiled f).Flows lex (d.refiled f) e := by
  have hheld : ∀ key o t', C.held lex key o t' → (C.refiled f).held lex key (o.refiled f) t' := by
    intro key o t' ho
    unfold held at ho ⊢
    split at ho
    · rw [if_pos ‹_›]
      exact ⟨o, rfl, ho⟩
    · rw [if_neg ‹_›]
      exact ⟨o, rfl, ho⟩
  unfold Structure.refiled
  refine List.forall₂_map_left_iff.mpr (h.imp fun e e' he => ⟨he.1, ?_⟩)
  refine List.forall₂_map_left_iff.mpr (he.2.imp fun l l' hl => ⟨hl.1, ?_⟩)
  rw [Token.refiledAll_eq_map]
  exact List.forall₂_map_left_iff.mpr (hl.2.imp fun o t' ho => hheld l.1 o t' ho)

end Correspondence

end MaskedTaint
