import MaskedTaint.Proofs.Flow.Occurrences

/-! Numbering the tokens of a structure anew. Nothing but the numbers changes, and no two
occurrences get the same one. -/

namespace MaskedTaint

namespace Token

mutual

def numbered (n : Nat) : Token → Token × Nat
  | site _ m => (site n m, n + 1)
  | jump _ m target args =>
    (jump (numberedAll n args).2 m target (numberedAll n args).1, (numberedAll n args).2 + 1)

def numberedAll (n : Nat) : List Token → List Token × Nat
  | [] => ([], n)
  | t :: ts =>
    ((numbered n t).1 :: (numberedAll (numbered n t).2 ts).1, (numberedAll (numbered n t).2 ts).2)

end

end Token

namespace Structure

def numberedLists (n : Nat) : List (String × List Token) → List (String × List Token) × Nat
  | [] => ([], n)
  | (key, ts) :: ls =>
    ((key, (Token.numberedAll n ts).1) :: (numberedLists (Token.numberedAll n ts).2 ls).1,
      (numberedLists (Token.numberedAll n ts).2 ls).2)

def numberedScopes (n : Nat) : List (String × Scope) → List (String × Scope) × Nat
  | [] => ([], n)
  | (name, s) :: es =>
    ((name, (numberedLists n s).1) :: (numberedScopes ((numberedLists n s).2 + 1) es).1,
      (numberedScopes ((numberedLists n s).2 + 1) es).2)

def numbered (d : Structure) : Structure := (numberedScopes 0 d).1

theorem names_numberedLists (n : Nat) (ls : List (String × List Token)) :
    (numberedLists n ls).1.map Prod.fst = ls.map Prod.fst := by
  induction ls generalizing n with
  | nil => rfl
  | cons l ls ih => simp [numberedLists, ih]

theorem names_numberedScopes (n : Nat) (es : List (String × Scope)) :
    (numberedScopes n es).1.map Prod.fst = es.map Prod.fst := by
  induction es generalizing n with
  | nil => rfl
  | cons e es ih => simp [numberedScopes, ih]

end Structure

/-! ### What is kept -/

namespace Token

mutual

def unnumbered : Token → Token
  | site _ m => site 0 m
  | jump _ m target args => jump 0 m target (unnumberedAll args)

def unnumberedAll : List Token → List Token
  | [] => []
  | t :: ts => unnumbered t :: unnumberedAll ts

end

mutual

theorem unnumbered_numbered : ∀ (t : Token) (n : Nat), (t.numbered n).1.unnumbered = t.unnumbered
  | site i m, n => by simp [numbered, unnumbered]
  | jump i m target args, n => by simp [numbered, unnumbered, unnumberedAll_numberedAll args n]

theorem unnumberedAll_numberedAll : ∀ (ts : List Token) (n : Nat),
    unnumberedAll (numberedAll n ts).1 = unnumberedAll ts
  | [], n => rfl
  | t :: ts, n => by
    simp [numberedAll, unnumberedAll, unnumbered_numbered t, unnumberedAll_numberedAll ts]

end

mutual

theorem occurrences_unnumbered : ∀ t : Token,
    t.unnumbered.occurrences = t.occurrences.map unnumbered
  | site i m => rfl
  | jump i m target args => by
    simp [unnumbered, occurrences, occurrencesIn_unnumberedAll args]

theorem occurrencesIn_unnumberedAll : ∀ ts : List Token,
    occurrencesIn (unnumberedAll ts) = (occurrencesIn ts).map unnumbered
  | [] => rfl
  | t :: ts => by
    simp [unnumberedAll, occurrencesIn, occurrences_unnumbered t, occurrencesIn_unnumberedAll ts]

end

theorem occurrencesIn_numberedAll (ts : List Token) (n : Nat) :
    (occurrencesIn (numberedAll n ts).1).map unnumbered = (occurrencesIn ts).map unnumbered := by
  rw [← occurrencesIn_unnumberedAll, ← occurrencesIn_unnumberedAll, unnumberedAll_numberedAll]

theorem mark_unnumbered (t : Token) : t.unnumbered.mark = t.mark := by
  cases t <;> rfl

end Token

namespace Structure

theorem mem_numberedLists {ls : List (String × List Token)} {n : Nat} {l : String × List Token}
    (h : l ∈ (numberedLists n ls).1) : ∃ k ∈ ls, k.1 = l.1 ∧
      (Token.occurrencesIn l.2).map Token.unnumbered = (Token.occurrencesIn k.2).map Token.unnumbered := by
  induction ls generalizing n with
  | nil => cases h
  | cons k ls ih =>
    rcases List.mem_cons.mp h with rfl | h
    · exact ⟨k, by simp, rfl, Token.occurrencesIn_numberedAll k.2 n⟩
    · obtain ⟨k', hk, hsame⟩ := ih h
      exact ⟨k', List.mem_cons_of_mem k hk, hsame⟩

theorem mem_numberedScopes {es : List (String × Scope)} {n : Nat} {e : String × Scope}
    (h : e ∈ (numberedScopes n es).1) : ∃ f ∈ es, f.1 = e.1 ∧ f.2.names = e.2.names ∧
      ∀ l ∈ e.2, ∃ k ∈ f.2, k.1 = l.1 ∧ (Token.occurrencesIn l.2).map Token.unnumbered =
          (Token.occurrencesIn k.2).map Token.unnumbered := by
  induction es generalizing n with
  | nil => cases h
  | cons f es ih =>
    rcases List.mem_cons.mp h with rfl | h
    · exact ⟨f, by simp, rfl, (names_numberedLists n f.2).symm, fun l hl => mem_numberedLists hl⟩
    · obtain ⟨f', hf, hsame⟩ := ih h
      exact ⟨f', List.mem_cons_of_mem f hf, hsame⟩

variable {d : Structure}

theorem distinct_numbered (hd : d.Distinct) : d.numbered.Distinct := by
  refine ⟨?_, fun e he => ?_⟩
  · have hnames : d.numbered.names = d.names := names_numberedScopes 0 d
    exact hnames ▸ hd.1
  · obtain ⟨f, hf, _, hnames, _⟩ := mem_numberedScopes he
    exact hnames ▸ hd.2 f hf

theorem forall_numbered {Q : String → Token → Prop}
    (hQ : ∀ key t u, t.unnumbered = u.unnumbered → Q key t → Q key u)
    (h : ∀ e ∈ d, ∀ l ∈ e.2, ∀ t ∈ Token.occurrencesIn l.2, Q l.1 t) :
    ∀ e ∈ d.numbered, ∀ l ∈ e.2, ∀ t ∈ Token.occurrencesIn l.2, Q l.1 t := by
  intro e he l hl t ht
  obtain ⟨f, hf, _, _, hlists⟩ := mem_numberedScopes he
  obtain ⟨k, hk, hkey, hsame⟩ := hlists l hl
  have hmem := hsame ▸ List.mem_map_of_mem (f := Token.unnumbered) ht
  obtain ⟨u, hu, hut⟩ := List.mem_map.mp hmem
  exact hkey ▸ hQ k.1 u t hut (h f hf k hk u hu)

theorem occurrences_numbered (d : Structure) :
    d.numbered.occurrences.map Token.unnumbered = d.occurrences.map Token.unnumbered := by
  have hlists : ∀ (ls : List (String × List Token)) (n : Nat),
      ((numberedLists n ls).1.flatMap fun l => Token.occurrencesIn l.2).map Token.unnumbered =
        (ls.flatMap fun l => Token.occurrencesIn l.2).map Token.unnumbered := by
    intro ls
    induction ls with
    | nil => exact fun n => rfl
    | cons l ls ih =>
      intro n
      simp [numberedLists, Token.occurrencesIn_numberedAll, ← ih (Token.numberedAll n l.2).2,
        List.map_flatMap]
  have hscopes : ∀ (es : List (String × Scope)) (n : Nat),
      ((numberedScopes n es).1.flatMap fun e => e.2.flatMap fun l =>
          Token.occurrencesIn l.2).map Token.unnumbered =
        (es.flatMap fun e => e.2.flatMap fun l => Token.occurrencesIn l.2).map Token.unnumbered := by
    intro es
    induction es with
    | nil => exact fun n => rfl
    | cons e es ih =>
      intro n
      rw [numberedScopes, List.flatMap_cons, List.flatMap_cons, List.map_append, List.map_append,
        hlists, ih]
  exact hscopes d 0

end Structure

/-! ### Every number once -/

namespace Token

def NumberedFrom (n n' : Nat) (ts : List Token) : Prop :=
  n ≤ n' ∧ (∀ t ∈ ts, n ≤ t.id ∧ t.id < n') ∧ (ts.map id).Nodup

theorem NumberedFrom.append {n k n' : Nat} {ts us : List Token} (h : NumberedFrom n k ts)
    (h' : NumberedFrom k n' us) : NumberedFrom n n' (ts ++ us) := by
  obtain ⟨hle, hts, hnodup⟩ := h
  obtain ⟨hle', hus, hnodup'⟩ := h'
  refine ⟨by omega, fun t ht => ?_, ?_⟩
  · rcases List.mem_append.mp ht with ht | ht
    · have := hts t ht
      omega
    · have := hus t ht
      omega
  · rw [List.map_append, List.nodup_append]
    refine ⟨hnodup, hnodup', fun i hi j hj => ?_⟩
    obtain ⟨t, ht, rfl⟩ := List.mem_map.mp hi
    obtain ⟨u, hu, rfl⟩ := List.mem_map.mp hj
    have := hts t ht
    have := hus u hu
    omega

theorem NumberedFrom.mono {n k k' : Nat} {ts : List Token} (h : NumberedFrom n k ts)
    (hle : k ≤ k') : NumberedFrom n k' ts :=
  ⟨Nat.le_trans h.1 hle, fun t ht => ⟨(h.2.1 t ht).1, Nat.lt_of_lt_of_le (h.2.1 t ht).2 hle⟩, h.2.2⟩

mutual

theorem numberedFrom_numbered : ∀ (t : Token) (n : Nat),
    NumberedFrom n (t.numbered n).2 (t.numbered n).1.occurrences
  | site i m, n => by simp [numbered, occurrences, NumberedFrom, id]
  | jump i m target args, n => by
    obtain ⟨hle, hargs, hnodup⟩ := numberedFrom_numberedAll args n
    simp only [numbered, occurrences]
    refine ⟨by omega, fun t ht => ?_, ?_⟩
    · rcases List.mem_cons.mp ht with rfl | ht
      · simp only [id]
        omega
      · have := hargs t ht
        omega
    · rw [List.map_cons, List.nodup_cons]
      refine ⟨fun hmem => ?_, hnodup⟩
      obtain ⟨u, hu, hid⟩ := List.mem_map.mp hmem
      have hlt := (hargs u hu).2
      simp only [id] at hid hlt
      omega

theorem numberedFrom_numberedAll : ∀ (ts : List Token) (n : Nat),
    NumberedFrom n (numberedAll n ts).2 (occurrencesIn (numberedAll n ts).1)
  | [], n => by simp [numberedAll, occurrencesIn, NumberedFrom]
  | t :: ts, n => (numberedFrom_numbered t n).append (numberedFrom_numberedAll ts (t.numbered n).2)

end

end Token

namespace Structure

theorem numberedFrom_lists (ls : List (String × List Token)) (n : Nat) :
    Token.NumberedFrom n (numberedLists n ls).2
      ((numberedLists n ls).1.flatMap fun l => Token.occurrencesIn l.2) := by
  induction ls generalizing n with
  | nil => simp [numberedLists, Token.NumberedFrom]
  | cons l ls ih => exact (Token.numberedFrom_numberedAll l.2 n).append (ih _)

theorem numberedFrom_scopes (es : List (String × Scope)) (n : Nat) :
    Token.NumberedFrom n (numberedScopes n es).2
      ((numberedScopes n es).1.flatMap fun e => e.2.flatMap fun l => Token.occurrencesIn l.2) := by
  induction es generalizing n with
  | nil => simp [numberedScopes, Token.NumberedFrom]
  | cons e es ih =>
    exact ((numberedFrom_lists e.2 n).mono (Nat.le_succ _)).append (ih _)

theorem nodup_ids_numbered (d : Structure) : (d.numbered.occurrences.map Token.id).Nodup :=
  (numberedFrom_scopes d 0).2.2

end Structure

end MaskedTaint
