import MaskedTaint.Proofs.Flow.Filling

/-! Tokens stay where they are recorded. While a file is read, lists only get longer; the mark of a
joined text may still change, but not the number and the position of a token. -/

namespace MaskedTaint

namespace Structure

variable (d : Structure) (scope key : String)

/-- The tokens of a list; a list that is missing has none. -/
def list : List Token := (d.tokens? scope key).getD []

/-- Nothing but these tokens, in this list. -/
def only (ts : List Token) (s k : String) : List Token :=
  if s = scope ∧ k = key then ts else []

theorem list_append (ts : List Token) (s k : String) :
    (d.append scope key ts).list s k = d.list s k ++ only scope key ts s k := by
  unfold list only append
  split
  · rename_i hsame
    obtain ⟨rfl, rfl⟩ := hsame
    rw [tokens?_putTokens_self, Option.getD_some]
  · rename_i hsame
    rw [tokens?_putTokens_of_ne d _ hsame, List.append_nil]

def marked (id : Nat) (split : Label) (ts : List Token) : List Token :=
  ts.map fun t => if t.id = id then t.setSplit split else t

theorem tokens?_setSplit (id : Nat) (split : Label) (s k : String) :
    (d.setSplit scope id split).tokens? s k =
      if s = scope then (d.tokens? s k).map (marked id split) else d.tokens? s k := by
  unfold setSplit
  split
  · rename_i hs
    by_cases hscope : s = scope <;> simp [hscope, tokens?, hs]
  · rename_i sc hs
    by_cases hscope : s = scope
    · subst hscope
      simp only [tokens?, hs, Table.get?_put_self, Option.bind_some, Table.get?_mapValues, if_true]
      rfl
    · simp only [tokens?, Table.get?_put_of_ne _ _ hscope, if_neg hscope]

theorem list_setSplit (id : Nat) (split : Label) (s k : String) : (d.setSplit scope id split).list s k =
    if s = scope then marked id split (d.list s k) else d.list s k := by
  unfold list
  rw [tokens?_setSplit]
  split
  · cases d.tokens? s k <;> rfl
  · rfl

def Lists (id : Nat) (pos : Int) : Prop :=
  ∃ t ∈ (d.tokens? scope key).getD [], t.id = id ∧ t.pos = pos

def Keeps (d d' : Structure) : Prop :=
  ∀ scope key id pos, d.Lists scope key id pos → d'.Lists scope key id pos

theorem keeps_append (ts : List Token) : d.Keeps (d.append scope key ts) := by
  rintro scope' key' id pos ⟨t, ht, hid, hpos⟩
  refine ⟨t, ?_, hid, hpos⟩
  rw [← list, list_append]
  exact List.mem_append_left _ ht

theorem lists_append (t : Token) : (d.append scope key [t]).Lists scope key t.id t.pos := by
  refine ⟨t, ?_, rfl, rfl⟩
  rw [← list, list_append]
  simp [only]

theorem keeps_setSplit (id : Nat) (split : Label) : d.Keeps (d.setSplit scope id split) := by
  have hmarked : ∀ t : Token, (if t.id = id then t.setSplit split else t).id = t.id ∧
      (if t.id = id then t.setSplit split else t).pos = t.pos := by
    intro t
    split
    · cases t <;> exact ⟨rfl, rfl⟩
    · exact ⟨rfl, rfl⟩
  rintro scope' key id' pos ⟨t, ht, hid, hpos⟩
  unfold Lists
  rw [← list, list_setSplit]
  split
  · exact ⟨_, List.mem_map_of_mem ht, (hmarked t).1.trans hid, (hmarked t).2.trans hpos⟩
  · exact ⟨t, ht, hid, hpos⟩

theorem Fills.keeps {C : Contents} {scopes : List String} {d d' : Structure} (h : Fills C scopes d d') :
    d.Keeps d' := by
  induction h with
  | refl => exact fun _ _ _ _ h => h
  | append _ _ _ _ _ ih => exact fun s k i p h => keeps_append _ _ _ _ s k i p (ih s k i p h)
  | split _ _ id n ih => exact fun s k i p h => keeps_setSplit _ _ _ _ s k i p (ih s k i p h)

end Structure

end MaskedTaint
