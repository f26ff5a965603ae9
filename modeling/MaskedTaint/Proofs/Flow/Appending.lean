import MaskedTaint.Proofs.Flow.Filling

/-! Lists that get longer. Appending to the list of a key leaves all other lists as they are. -/

namespace MaskedTaint

namespace Table

variable {α : Type} {t : Table α} {name : String} {a : α}

theorem put_of_get? (h : t.get? name = some a) : t.put name a = t := by
  induction t with
  | nil => cases h
  | cons e t ih =>
    by_cases he : e.1 = name
    · rw [get?_cons_pos t he] at h
      cases h
      rw [put_cons_pos t _ he]
    · rw [get?_cons_neg t he] at h
      rw [put_cons_neg t a he, ih h]

end Table

namespace Structure

variable {d : Structure} {scope key : String} {ts : List Token}

theorem tokens?_append_self (d : Structure) (scope key : String) (ts : List Token) :
    (d.append scope key ts).tokens? scope key = some ((d.tokens? scope key).getD [] ++ ts) :=
  tokens?_putTokens_self d scope key _

theorem tokens?_append_of_ne (d : Structure) {key key' : String} (ts : List Token) (h : key' ≠ key) :
    (d.append scope key ts).tokens? scope key' = d.tokens? scope key' :=
  tokens?_putTokens_of_ne d _ fun hkeys => h hkeys.2

theorem names_append (ts : List Token) (h : scope ∈ d.names) :
    (d.append scope key ts).names = d.names :=
  Table.names_put_of_mem _ h

theorem putTokens_of_tokens? (h : d.tokens? scope key = some ts) : d.putTokens scope key ts = d := by
  obtain ⟨s, hs, hl⟩ := Option.bind_eq_some_iff.mp h
  rw [putTokens, hs, Option.getD_some, Table.put_of_get? hl, Table.put_of_get? hs]

end Structure

end MaskedTaint
