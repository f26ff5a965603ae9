import MaskedTaint.Act

/-! Reasoning about acts. Two acts agree if, run from related states, they end in
related states and either both give related values or both fail in related ways. An act
keeps a property of the state if every run of it that succeeds does. -/

namespace MaskedTaint

theorem eq_ok_of_toOption {ε α : Type} {x : Except ε α} {a : α} (h : x.toOption = some a) :
    x = .ok a := by
  cases x with
  | ok b => exact congrArg Except.ok (Option.some.inj h)
  | error e => cases h

namespace Act

variable {σ σ' ε ε' α α' β β' : Type}

theorem state_bind (f : σ → Act σ ε β) (s : σ) : (Act.state >>= f) s = f s s := rfl

theorem update_bind (g : σ → σ) (f : Unit → Act σ ε β) (s : σ) :
    (Act.update g >>= f) s = f () (g s) := rfl

variable {x : Act σ ε α} {f : α → Act σ ε β} {s : σ} {e : ε}

theorem Leads.andThen {R S T : σ → σ → Prop} (hstop : ∀ s t, R s t → T s t)
    (hnext : ∀ s t u, R s t → S t u → T s u) (hx : Leads R x)
    (hf : ∀ a, Leads S (f a)) : Leads T (x >>= f) := by
  intro s
  have h := hx s
  rw [bind_apply]
  split
  · rename_i a s' heq
    rw [heq] at h
    exact hnext _ _ _ h (hf a s')
  · rename_i e s' heq
    rw [heq] at h
    exact hstop _ _ h

theorem bind_of_ok {s' : σ} {a : α} (h : x s = (.ok a, s'))
    (f : α → Act σ ε β) : (x >>= f) s = f a s' := by
  rw [bind_apply, h]

theorem bind_of_error {s' : σ} (h : x s = (.error e, s'))
    (f : α → Act σ ε β) : (x >>= f) s = (.error e, s') := by
  rw [bind_apply, h]

theorem bind_eq_ok_iff {t : σ} {b : β} :
    (x >>= f) s = (.ok b, t) ↔ ∃ a s', x s = (.ok a, s') ∧ f a s' = (.ok b, t) := by
  rcases hx : x s with ⟨e | a, s'⟩
  · rw [bind_of_error hx]
    simp
  · rw [bind_of_ok hx]
    constructor
    · exact fun h => ⟨a, s', rfl, h⟩
    · rintro ⟨_, _, ⟨rfl, rfl⟩, h⟩
      exact h

/-- Both outcomes are values related by `Q`, or both are failures related by `E`. -/
inductive SameOutcome (E : ε → ε' → Prop) (Q : α → α' → Prop) : Except ε α → Except ε' α' → Prop
  | ok {a : α} {a' : α'} (h : Q a a') : SameOutcome E Q (.ok a) (.ok a')
  | error {e : ε} {e' : ε'} (h : E e e') : SameOutcome E Q (.error e) (.error e')

theorem SameOutcome.imp {E : ε → ε' → Prop} {Q Q' : α → α' → Prop} {o : Except ε α}
    {o' : Except ε' α'} (h : SameOutcome E Q o o') (hq : ∀ a a', Q a a' → Q' a a') :
    SameOutcome E Q' o o' := by
  cases h with
  | ok h => exact .ok (hq _ _ h)
  | error h => exact .error h

def Agree (S : σ → σ' → Prop) (E : ε → ε' → Prop) (Q : α → α' → Prop)
    (x : Act σ ε α) (y : Act σ' ε' α') (s : σ) (t : σ') : Prop :=
  S (x s).2 (y t).2 ∧ SameOutcome E Q (x s).1 (y t).1

namespace Agree

variable {S : σ → σ' → Prop} {E : ε → ε' → Prop} {Q : α → α' → Prop} {R : β → β' → Prop}
  {s : σ} {t : σ'}

theorem pure {a : α} {a' : α'} (hs : S s t) (ha : Q a a') :
    Agree S E Q (pure a : Act σ ε α) (pure a' : Act σ' ε' α') s t := ⟨hs, .ok ha⟩

theorem fail {e' : ε'} (hs : S s t) (he : E e e') :
    Agree S E Q (Act.fail e : Act σ ε α) (Act.fail e' : Act σ' ε' α') s t := ⟨hs, .error he⟩

theorem update {f : σ → σ} {g : σ' → σ'} (h : S (f s) (g t)) :
    Agree S E (fun _ _ => True) (Act.update f : Act σ ε Unit) (Act.update g : Act σ' ε' Unit) s t :=
  ⟨h, .ok trivial⟩

theorem look {f : σ → Act σ ε β} {g : σ' → Act σ' ε' β'} (h : Agree S E R (f s) (g t) s t) :
    Agree S E R (Act.state >>= f) (Act.state >>= g) s t := h

theorem bind {y : Act σ' ε' α'} {g : α' → Act σ' ε' β'}
    (hx : Agree S E Q x y s t) (hf : ∀ a a' s t, Q a a' → S s t → Agree S E R (f a) (g a') s t) :
    Agree S E R (x >>= f) (y >>= g) s t := by
  obtain ⟨hs, ho⟩ := hx
  rcases hx : x s with ⟨o, s'⟩
  rcases hy : y t with ⟨o', t'⟩
  rw [hx, hy] at hs ho
  cases ho with
  | @ok a a' ha =>
    have h := hf a a' s' t' ha hs
    rw [Agree, bind_of_ok hx, bind_of_ok hy]
    exact h
  | error he =>
    rw [Agree, bind_of_error hx, bind_of_error hy]
    exact ⟨hs, .error he⟩

end Agree

def Keeps (I : σ → Prop) (Q : α → Prop) (x : Act σ ε α) : Prop :=
  ∀ s a s', I s → x s = (.ok a, s') → I s' ∧ Q a

namespace Keeps

variable {I : σ → Prop} {Q : α → Prop} {R : β → Prop}

theorem fail : Keeps I Q (Act.fail e : Act σ ε α) := by
  intro s b s' _ hrun
  cases hrun

theorem state : Keeps I I (Act.state : Act σ ε σ) := by
  intro s b s' hs hrun
  cases hrun
  exact ⟨hs, hs⟩

theorem update {f : σ → σ} (h : ∀ s, I s → I (f s)) :
    Keeps I (fun _ => True) (Act.update f : Act σ ε Unit) := by
  intro s b s' hs hrun
  cases hrun
  exact ⟨h s hs, trivial⟩

theorem bind (hx : Keeps I Q x) (hf : ∀ a, Q a → Keeps I R (f a)) : Keeps I R (x >>= f) := by
  intro s b t hs hrun
  obtain ⟨a, s', ha, hb⟩ := bind_eq_ok_iff.mp hrun
  obtain ⟨hs', hq⟩ := hx s a s' hs ha
  exact hf a hq s' b t hs' hb

end Keeps


def Avoids (e : ε) (x : Act σ ε α) : Prop := ∀ s, (x s).1 ≠ .error e

theorem Avoids.pure (a : α) : Avoids e (pure a : Act σ ε α) := fun _ h => by cases h

theorem Avoids.bind (hx : Avoids e x) (hf : ∀ a, Avoids e (f a)) : Avoids e (x >>= f) := by
  intro s
  have h := hx s
  rcases hrun : x s with ⟨e' | a, s'⟩
  · rw [hrun] at h
    rw [bind_of_error hrun]
    exact fun he => h (congrArg Except.error (Except.error.inj he))
  · rw [bind_of_ok hrun]
    exact hf a s'

/-- The run has given a value with `Q` in a state with `J`, or has failed with an `E`. -/
inductive Lands (J : σ → Prop) (E : ε → Prop) (Q : α → Prop) : Except ε α × σ → Prop
  | ok {a : α} {s : σ} (hs : J s) (ha : Q a) : Lands J E Q (.ok a, s)
  | error {e : ε} {s : σ} (he : E e) : Lands J E Q (.error e, s)

def Ensures (I J : σ → Prop) (E : ε → Prop) (Q : α → Prop) (x : Act σ ε α) : Prop :=
  ∀ s, I s → Lands J E Q (x s)

namespace Ensures

variable {I J K : σ → Prop} {E : ε → Prop} {Q : α → Prop} {R : β → Prop}

theorem pure {a : α} (h : Q a) : Ensures I I E Q (pure a : Act σ ε α) := fun _ hs => .ok hs h

theorem fail (h : E e) : Ensures I J E Q (Act.fail e : Act σ ε α) := fun _ _ => .error h

theorem state : Ensures I I E I (Act.state : Act σ ε σ) := fun _ hs => .ok hs hs

theorem update {f : σ → σ} (h : ∀ s, I s → J (f s)) :
    Ensures I J E (fun _ => True) (Act.update f : Act σ ε Unit) := fun s hs => .ok (h s hs) trivial

variable {x : Act σ ε α}

theorem bind (hx : Ensures I J E Q x)
    (hf : ∀ a, Q a → Ensures J K E R (f a)) : Ensures I K E R (x >>= f) := by
  intro s hs
  have hland := hx s hs
  rcases hrun : x s with ⟨o, s'⟩
  rw [hrun] at hland
  cases hland with
  | @ok a _ hs' ha =>
    rw [bind_of_ok hrun]
    exact hf a ha s' hs'
  | error he =>
    rw [bind_of_error hrun]
    exact .error he

theorem weaken (h : Ensures I J E Q x) (hI : ∀ s, K s → I s) :
    Ensures K J E Q x := fun s hs => h s (hI s hs)

theorem imp {J' : σ → Prop} {Q' : α → Prop} (h : Ensures I J E Q x)
    (hJ : ∀ s, J s → J' s) (hQ : ∀ a, Q a → Q' a) : Ensures I J' E Q' x := by
  intro s hs
  have hland := h s hs
  revert hland
  generalize x s = run
  rintro (⟨hs', ha⟩ | he)
  · exact .ok (hJ _ hs') (hQ _ ha)
  · exact .error he

theorem keeps (h : Ensures I J E Q x) : ∀ s a s', I s → x s = (.ok a, s') → J s' ∧ Q a := by
  intro s a s' hs hrun
  have hland := h s hs
  rw [hrun] at hland
  cases hland with
  | ok hs' ha => exact ⟨hs', ha⟩

theorem both {R : α → Prop} (h : Ensures I I E Q x) (hK : Keeps K R x) :
    Ensures (fun s => I s ∧ K s) (fun s => I s ∧ K s) E (fun a => Q a ∧ R a) x := by
  intro s hs
  have hland := h s hs.1
  rcases hrun : x s with ⟨o, s'⟩
  rw [hrun] at hland
  cases hland with
  | ok hs' ha =>
    obtain ⟨hk, hr⟩ := hK s _ s' hs.2 hrun
    exact .ok ⟨hs', hk⟩ ⟨ha, hr⟩
  | error he => exact .error he

theorem after {g : σ → σ} {f : Unit → Act σ ε β} (hg : ∀ s, I s → J (g s))
    (hf : Ensures J K E R (f ())) : Ensures I K E R (Act.update g >>= f) := fun s hs => hf (g s) (hg s hs)

theorem look {f : σ → Act σ ε β} (h : ∀ s, I s → Ensures (· = s) K E R (f s)) :
    Ensures I K E R (Act.state >>= f) := fun s hs => h s hs s rfl

end Ensures

end Act

end MaskedTaint
