/-! Acts: steps on a state that may fail. A failing act keeps the state it had
reached, since what was read or recorded before a failure stays read or recorded. -/

namespace MaskedTaint

def Act (σ ε α : Type) : Type := σ → Except ε α × σ

namespace Act

variable {σ τ ε δ α β : Type}

protected def pure (a : α) : Act σ ε α := fun s => (.ok a, s)

protected def bind (x : Act σ ε α) (f : α → Act σ ε β) : Act σ ε β := fun s =>
  match x s with
  | (.ok a, s') => f a s'
  | (.error e, s') => (.error e, s')

instance : Monad (Act σ ε) where
  pure := Act.pure
  bind := Act.bind

def fail (e : ε) : Act σ ε α := fun s => (.error e, s)

def state : Act σ ε σ := fun s => (.ok s, s)

def update (f : σ → σ) : Act σ ε Unit := fun s => (.ok (), f s)

def ofOption (e : ε) : Option α → Act σ ε α
  | some a => Act.pure a
  | none => fail e

def onPart (get : τ → σ) (set : σ → τ → τ) (lift : δ → ε) (x : Act σ δ α) : Act τ ε α := fun s =>
  match x (get s) with
  | (.ok a, part) => (.ok a, set part s)
  | (.error e, part) => (.error (lift e), set part s)

@[simp] theorem pure_apply (a : α) (s : σ) : (pure a : Act σ ε α) s = (.ok a, s) := rfl

theorem bind_apply (x : Act σ ε α) (f : α → Act σ ε β) (s : σ) :
    (x >>= f) s = match x s with
      | (.ok a, s') => f a s'
      | (.error e, s') => (.error e, s') := rfl

def Leads (R : σ → σ → Prop) (x : Act σ ε α) : Prop := ∀ s, R s (x s).2

theorem Leads.pure {R : σ → σ → Prop} (refl : ∀ s, R s s) (a : α) :
    Leads R (pure a : Act σ ε α) := refl

theorem Leads.bind {R : σ → σ → Prop} (trans : ∀ s t u, R s t → R t u → R s u)
    {x : Act σ ε α} {f : α → Act σ ε β} (hx : Leads R x) (hf : ∀ a, Leads R (f a)) :
    Leads R (x >>= f) := by
  intro s
  have h := hx s
  rw [bind_apply]
  split
  · rename_i a s' heq
    rw [heq] at h
    exact trans _ _ _ h (hf a s')
  · rename_i e s' heq
    rw [heq] at h
    exact h

end Act

end MaskedTaint
