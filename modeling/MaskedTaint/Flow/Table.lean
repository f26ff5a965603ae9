/-! Tables: named entries in the order in which their names were first used. -/

namespace MaskedTaint

abbrev Table (α : Type) : Type := List (String × α)

namespace Table

variable {α β : Type}

def empty : Table α := []

instance : Inhabited (Table α) := ⟨empty⟩

def names (t : Table α) : List String := t.map Prod.fst

def entries (t : Table α) : List (String × α) := t

def get? : Table α → String → Option α
  | [], _ => none
  | (n, a) :: t, name => if n = name then some a else get? t name

def has (t : Table α) (name : String) : Bool := (t.get? name).isSome

def put : Table α → String → α → Table α
  | [], name, a => [(name, a)]
  | (n, b) :: t, name, a => if n = name then (n, a) :: t else (n, b) :: put t name a

def ofEntries (es : List (String × α)) : Table α := es.foldl (fun t e => t.put e.1 e.2) empty

def mapValues (f : α → β) (t : Table α) : Table β := t.map fun e => (e.1, f e.2)

section

variable {e : String × α} {name : String} (t : Table α)

include t

theorem get?_cons_pos (h : e.1 = name) : get? (e :: t) name = some e.2 := if_pos h

theorem get?_cons_neg (h : e.1 ≠ name) : get? (e :: t) name = get? t name := if_neg h

theorem put_cons_pos (a : α) (h : e.1 = name) : put (e :: t) name a = (e.1, a) :: t := if_pos h

theorem put_cons_neg (a : α) (h : e.1 ≠ name) : put (e :: t) name a = e :: put t name a := if_neg h

end

theorem mem_of_get? {t : Table α} {name : String} {a : α} (h : t.get? name = some a) :
    (name, a) ∈ t := by
  induction t with
  | nil => cases h
  | cons e t ih =>
    by_cases he : e.1 = name
    · rw [get?_cons_pos t he] at h
      cases h
      exact he ▸ List.mem_cons_self
    · rw [get?_cons_neg t he] at h
      exact List.mem_cons_of_mem _ (ih h)

@[simp] theorem get?_empty (name : String) : (empty : Table α).get? name = none := rfl

theorem get?_put_self (t : Table α) (name : String) (a : α) : (t.put name a).get? name = some a := by
  induction t with
  | nil => simp [put, get?]
  | cons e t ih =>
    by_cases h : e.1 = name
    · simp [put, get?, h]
    · simpa [put, get?, h] using ih

theorem get?_put_of_ne (t : Table α) {name other : String} (a : α) (h : other ≠ name) :
    (t.put name a).get? other = t.get? other := by
  induction t with
  | nil => simp [put, get?, Ne.symm h]
  | cons e t ih =>
    by_cases he : e.1 = name
    · simp [put, get?, he, Ne.symm h]
    · simp [put, get?, he, ih]

theorem get?_map (f : String → α → β) (t : Table α) (name : String) :
    get? (t.map fun e => (e.1, f e.1 e.2)) name = (t.get? name).map (f name) := by
  induction t with
  | nil => rfl
  | cons e t ih =>
    by_cases h : e.1 = name
    · rw [get?_cons_pos t h, ← h]
      exact get?_cons_pos _ rfl
    · rw [get?_cons_neg t h, ← ih]
      exact get?_cons_neg _ h

theorem get?_mapValues (f : α → β) (t : Table α) (name : String) :
    (t.mapValues f).get? name = (t.get? name).map f := get?_map (fun _ => f) t name

theorem put_of_not_mem {t : Table α} {name : String} (a : α) (h : name ∉ t.names) :
    t.put name a = t ++ [(name, a)] := by
  induction t with
  | nil => rfl
  | cons e t ih =>
    simp only [names, List.map_cons, List.mem_cons, not_or] at h
    rw [put_cons_neg t a (Ne.symm h.1), ih h.2, List.cons_append]

theorem ofEntries_of_nodup {es : List (String × α)} (h : (es.map Prod.fst).Nodup) :
    ofEntries es = es := by
  have hfold : ∀ t : Table α, (t.names ++ es.map Prod.fst).Nodup →
      es.foldl (fun t e => t.put e.1 e.2) t = t ++ es := by
    clear h
    induction es with
    | nil => simp
    | cons e es ih =>
      intro t ht
      have hnew : e.1 ∉ t.names := fun hm =>
        (List.nodup_append.mp ht).2.2 _ hm _ (by simp) rfl
      rw [List.foldl_cons, put_of_not_mem _ hnew, ih _ (by simpa [names] using ht)]
      simp
  exact hfold empty (by simpa [names, empty] using h)

end Table

end MaskedTaint
