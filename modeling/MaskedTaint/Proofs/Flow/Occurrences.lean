import MaskedTaint.Flow.Structure

/-! The token occurrences of a structure, arguments inside calls included, and the names
they mention. -/

namespace MaskedTaint

namespace Token

mutual

/-- The token and the tokens inside it, in the order of the text. -/
def occurrences : Token → List Token
  | site id m => [site id m]
  | jump id m target args => jump id m target args :: occurrencesIn args

def occurrencesIn : List Token → List Token
  | [] => []
  | t :: ts => t.occurrences ++ occurrencesIn ts

end

def mentions : Token → List String
  | site _ m => [m.kind, m.scope]
  | jump _ m target _ => [m.kind, m.scope, target]

theorem mem_occurrences_self (t : Token) : t ∈ t.occurrences := by
  cases t <;> simp [occurrences]

theorem mem_occurrencesIn {t : Token} {ts : List Token} :
    t ∈ occurrencesIn ts ↔ ∃ u ∈ ts, t ∈ u.occurrences := by
  induction ts with
  | nil => simp [occurrencesIn]
  | cons u ts ih => simp [occurrencesIn, ih]

theorem length_le_occurrencesIn (ts : List Token) : ts.length ≤ (occurrencesIn ts).length := by
  induction ts with
  | nil => exact Nat.le_refl _
  | cons t ts ih =>
    have ht : 0 < t.occurrences.length := List.length_pos_of_mem t.mem_occurrences_self
    rw [occurrencesIn, List.length_append, List.length_cons]
    omega

mutual

theorem occurrences_within : ∀ (u : Token) {t : Token}, t ∈ u.occurrences →
    t.occurrences <:+: u.occurrences
  | site i m, t, h => by
    rw [occurrences, List.mem_singleton] at h
    exact h ▸ List.infix_rfl
  | jump i m target args, t, h => by
    rw [occurrences, List.mem_cons] at h
    rcases h with rfl | h
    · exact List.infix_rfl
    · exact (occurrencesIn_within args h).trans (List.suffix_cons _ _).isInfix

theorem occurrencesIn_within : ∀ (ts : List Token) {t : Token}, t ∈ occurrencesIn ts →
    t.occurrences <:+: occurrencesIn ts
  | [], t, h => by simp [occurrencesIn] at h
  | u :: ts, t, h => by
    rw [occurrencesIn, List.mem_append] at h
    rcases h with h | h
    · exact (occurrences_within u h).trans (List.prefix_append _ _).isInfix
    · exact (occurrencesIn_within ts h).trans (List.suffix_append _ _).isInfix

end

end Token

namespace Structure

/-- Scopes have names of their own, and so have the lists of each scope. -/
def Distinct (d : Structure) : Prop := d.names.Nodup ∧ ∀ e ∈ d, e.2.names.Nodup

instance (d : Structure) : Decidable d.Distinct := inferInstanceAs (Decidable (_ ∧ _))

def occurrences (d : Structure) : List Token :=
  d.flatMap fun e => e.2.flatMap fun l => Token.occurrencesIn l.2

/-- The special names, and every name that stands in the structure. -/
def vocabulary (d : Structure) : List String :=
  Special.all.map Special.name ++ d.names ++ d.flatMap (fun e => e.2.names) ++
    d.occurrences.flatMap Token.mentions

variable {d : Structure}

variable {t : Token} {e : String × Scope}

theorem mem_occurrences : t ∈ d.occurrences ↔ ∃ e ∈ d, ∃ l ∈ e.2, ∃ u ∈ l.2, t ∈ u.occurrences := by
  simp [occurrences, Token.mem_occurrencesIn]

theorem list_within (he : e ∈ d) {l : String × List Token} (hl : l ∈ e.2) :
    Token.occurrencesIn l.2 <:+: d.occurrences := by
  have hin : ∀ {α β : Type} (f : α → List β) {a : α} {l : List α}, a ∈ l → f a <:+: l.flatMap f :=
    fun f _ _ ha => List.infix_of_mem_flatten (List.mem_map_of_mem ha)
  exact (hin (fun l => Token.occurrencesIn l.2) hl).trans
    (hin (fun e => e.2.flatMap fun l => Token.occurrencesIn l.2) he)

theorem occurrences_within (h : t ∈ d.occurrences) : t.occurrences <:+: d.occurrences := by
  obtain ⟨e, he, l, hl, u, hu, ht⟩ := mem_occurrences.mp h
  have hlist := Token.occurrencesIn_within l.2 (Token.mem_occurrencesIn.mpr ⟨u, hu, ht⟩)
  exact hlist.trans (list_within he hl)

section

variable {i : Nat} {m : Mark} {target : String} {args : List Token}
  (h : .jump i m target args ∈ d.occurrences)

include h

theorem arg_mem_occurrences {a : Token} (ha : a ∈ args) : a ∈ d.occurrences := by
  refine (occurrences_within h).subset ?_
  rw [Token.occurrences]
  exact List.mem_cons_of_mem _ (Token.mem_occurrencesIn.mpr ⟨a, ha, a.mem_occurrences_self⟩)

theorem length_args_le : args.length ≤ d.occurrences.length := by
  have hwithin := (occurrences_within h).length_le
  rw [Token.occurrences, List.length_cons] at hwithin
  have hargs := Token.length_le_occurrencesIn args
  omega

end

theorem special_mem_vocabulary (p : Special) : p.name ∈ d.vocabulary := by
  have hp : p ∈ Special.all := by
    rcases p with _ | v | v | _ | _ | _ | _ <;> (try cases v) <;> decide
  simp only [vocabulary, List.mem_append, List.mem_map]
  exact .inl (.inl (.inl ⟨p, hp, rfl⟩))

theorem scope_mem_vocabulary (he : e ∈ d) : e.1 ∈ d.vocabulary := by
  simp only [vocabulary, List.mem_append]
  exact .inl (.inl (.inr (List.mem_map_of_mem he)))

theorem key_mem_vocabulary (he : e ∈ d) {l : String × List Token}
    (hl : l ∈ e.2) : l.1 ∈ d.vocabulary := by
  simp only [vocabulary, List.mem_append, List.mem_flatMap]
  exact .inl (.inr ⟨e, he, List.mem_map_of_mem hl⟩)

theorem mentions_subset_vocabulary (ht : t ∈ d.occurrences) : t.mentions ⊆ d.vocabulary := by
  intro n hn
  simp only [vocabulary, List.mem_append, List.mem_flatMap]
  exact .inr ⟨t, ht, hn⟩

end Structure

end MaskedTaint
