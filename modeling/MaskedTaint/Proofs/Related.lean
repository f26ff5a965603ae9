import Mathlib.Data.List.Forall2
import MaskedTaint.Flow.Table

/-! Lists and tables related place by place. What is computed from related data by the
same rule is related again. -/

namespace Option.Rel

variable {α α' β β' : Type} {R : α → α' → Prop} {S : β → β' → Prop}

variable {o : Option α} {o' : Option α'}

theorem map {f : α → β} {g : α' → β'} (h : Option.Rel R o o')
    (hfg : ∀ a a', R a a' → S (f a) (g a')) : Option.Rel S (o.map f) (o'.map g) := by
  cases h with
  | none => exact .none
  | some hr => exact .some (hfg _ _ hr)

theorem imp {R' : α → α' → Prop} (h : Option.Rel R o o')
    (hR : ∀ a a', R a a' → R' a a') : Option.Rel R' o o' := by
  cases h with
  | none => exact .none
  | some hr => exact .some (hR _ _ hr)

theorem getD {a : α} {a' : α'} (h : Option.Rel R o o')
    (ha : R a a') : R (o.getD a) (o'.getD a') := by
  cases h with
  | none => exact ha
  | some hr => exact hr

theorem isSome_eq (h : Option.Rel R o o') : o.isSome = o'.isSome := by
  cases h <;> rfl

end Option.Rel

namespace List.Forall₂

variable {α α' β β' : Type} {R : α → α' → Prop}

variable {l : List α} {l' : List α'} {p : α → Bool} {q : α' → Bool}

section

variable (h : Forall₂ R l l')

include h

theorem getElem? (i : Nat) : Option.Rel R l[i]? l'[i]? := by
  induction h generalizing i with
  | nil => exact .none
  | cons hr _ ih =>
    cases i with
    | zero => exact .some hr
    | succ i => simpa using ih i

theorem head? : Option.Rel R l.head? l'.head? := by
  cases h with
  | nil => exact .none
  | cons hr _ => exact .some hr

section

variable (hpq : ∀ a a', R a a' → p a = q a')

include hpq

theorem any_eq : l.any p = l'.any q := by
  induction h with
  | nil => rfl
  | cons hr _ ih => simp [hpq _ _ hr, ih]

theorem find? : Option.Rel R (l.find? p) (l'.find? q) := by
  induction h with
  | nil => exact .none
  | @cons a a' l l' hr _ ih =>
    have he := hpq a a' hr
    by_cases hp : p a = true
    · rw [List.find?_cons_of_pos hp, List.find?_cons_of_pos (he ▸ hp)]
      exact .some hr
    · rw [List.find?_cons_of_neg hp, List.find?_cons_of_neg (he ▸ hp)]
      exact ih

theorem filter : Forall₂ R (l.filter p) (l'.filter q) :=
  List.rel_filter (fun a a' hr => by simp [hpq a a' hr]) h

end

end

theorem zip {S : β → β' → Prop} {k : List β} {k' : List β'}
    (h : Forall₂ R l l') (h' : Forall₂ S k k') :
    Forall₂ (fun e e' => R e.1 e'.1 ∧ S e.2 e'.2) (l.zip k) (l'.zip k') := by
  induction h generalizing k k' with
  | nil => exact .nil
  | cons hr _ ih =>
    cases h' with
    | nil => exact .nil
    | cons hs hk => exact .cons ⟨hr, hs⟩ (ih hk)

theorem mergeSort {le : α → α → Bool} {le' : α' → α' → Bool}
    (h : Forall₂ R l l') (hle : ∀ a a' b b', R a a' → R b b' → le a b = le' a' b') :
    Forall₂ R (l.mergeSort le) (l'.mergeSort le') := by
  have hzip := List.forall₂_iff_zip.mp h
  let pairs := l.zip l'
  have hl : pairs.map Prod.fst = l := List.map_fst_zip (Nat.le_of_eq hzip.1)
  have hl' : pairs.map Prod.snd = l' := List.map_snd_zip (Nat.le_of_eq hzip.1.symm)
  have hr : ∀ e ∈ pairs, R e.1 e.2 := fun e he => hzip.2 he
  let sorted := pairs.mergeSort fun a b => le a.1 b.1
  have hfst : sorted.map Prod.fst = l.mergeSort le := by
    rw [← hl]
    exact List.map_mergeSort fun _ _ _ _ => rfl
  have hsnd : sorted.map Prod.snd = l'.mergeSort le' := by
    rw [← hl']
    exact List.map_mergeSort fun a ha b hb => hle a.1 a.2 b.1 b.2 (hr a ha) (hr b hb)
  rw [← hfst, ← hsnd, List.forall₂_map_left_iff, List.forall₂_map_right_iff, List.forall₂_same]
  exact fun e he => hr e (List.mem_mergeSort.mp he)

theorem exists_left (h : ∀ b ∈ l', ∃ a, R a b) : ∃ l, Forall₂ R l l' := by
  induction l' with
  | nil => exact ⟨[], .nil⟩
  | cons b l' ih =>
    obtain ⟨a, ha⟩ := h b mem_cons_self
    obtain ⟨l, hl⟩ := ih fun b hb => h b (mem_cons_of_mem _ hb)
    exact ⟨a :: l, .cons ha hl⟩

theorem exists_map {g : β → α} {Q : β → β' → Prop} {l' : List β'}
    (h : Forall₂ (fun a b => ∃ c, a = g c ∧ Q c b) l l') : ∃ cs, l = cs.map g ∧ Forall₂ Q cs l' := by
  induction h with
  | nil => exact ⟨[], rfl, .nil⟩
  | cons ha _ ih =>
    obtain ⟨c, rfl, hc⟩ := ha
    obtain ⟨cs, rfl, hcs⟩ := ih
    exact ⟨c :: cs, rfl, .cons hc hcs⟩

theorem exists_of_mem (h : Forall₂ R l l') {a : α} (ha : a ∈ l) : ∃ b ∈ l', R a b := by
  obtain ⟨i, hi, rfl⟩ := getElem_of_mem ha
  have hi' : i < l'.length := by rw [← h.length_eq]; exact hi
  exact ⟨l'[i], getElem_mem hi', h.get hi hi'⟩

theorem exists_of_mem_right (h : Forall₂ R l l') {b : α'} (hb : b ∈ l') : ∃ a ∈ l, R a b := by
  obtain ⟨i, hi, rfl⟩ := getElem_of_mem hb
  have hi' : i < l.length := by rw [h.length_eq]; exact hi
  exact ⟨l[i], getElem_mem hi', h.get hi' hi⟩

end List.Forall₂

namespace MaskedTaint

namespace Table

variable {α α' : Type}

def Related (N : String → String → Prop) (P : String → α → α' → Prop) (t : Table α)
    (t' : Table α') : Prop :=
  List.Forall₂ (fun e e' => N e.1 e'.1 ∧ P e.1 e.2 e'.2) t t'

variable {N : String → String → Prop} {P : String → α → α' → Prop} {t : Table α} {t' : Table α'}

variable {n n' : String}

section

variable (h : Related N P t t') (hN : ∀ a a' b b', N a a' → N b b' → (a = b ↔ a' = b'))
  (hn : N n n')

include h hN hn

theorem Related.get? : Option.Rel (P n) (t.get? n) (t'.get? n') := by
  induction h with
  | nil => exact .none
  | @cons e e' t t' he _ ih =>
    have heq := hN _ _ _ _ he.1 hn
    by_cases hen : e.1 = n
    · rw [get?_cons_pos _ hen, get?_cons_pos _ (heq.mp hen)]
      exact .some (hen ▸ he.2)
    · rw [get?_cons_neg _ hen, get?_cons_neg _ (mt heq.mpr hen)]
      exact ih

theorem Related.has : t.has n = t'.has n' := (h.get? hN hn).isSome_eq

theorem Related.put {a : α} {a' : α'} (ha : P n a a') : Related N P (t.put n a) (t'.put n' a') := by
  induction h with
  | nil => exact List.Forall₂.cons ⟨hn, ha⟩ .nil
  | @cons e e' t t' he ht ih =>
    have heq := hN _ _ _ _ he.1 hn
    by_cases hen : e.1 = n
    · rw [put_cons_pos _ _ hen, put_cons_pos _ _ (heq.mp hen)]
      exact List.Forall₂.cons ⟨he.1, hen ▸ ha⟩ ht
    · rw [put_cons_neg _ _ hen, put_cons_neg _ _ (mt heq.mpr hen)]
      exact List.Forall₂.cons he ih

end

end Table

end MaskedTaint
