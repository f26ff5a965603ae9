import MaskedTaint.Wire.Json

/-! Values as texts, character by character. Whatever characters a value has, its text is written
in characters that take one byte each. -/

namespace MaskedTaint

namespace Json

def quoteRest (s : String) : List Char := s.toList.flatMap escape ++ ['"']

theorem toList_quote (s : String) : (quote s).toList = '"' :: quoteRest s := by
  simp [quote, quoteRest]

def joined (l : Layout) (depth : Nat) (parts : List String) : List Char :=
  ((l.between depth).intercalate parts).toList

section

variable (l : Layout) (depth : Nat)

include l depth

theorem joined_singleton (p : String) : joined l depth [p] = p.toList := by
  simp [joined]

theorem joined_cons (p q : String) (ps : List String) : joined l depth (p :: q :: ps) =
      p.toList ++ ((l.between depth).toList ++ joined l depth (q :: ps)) := by
  rw [joined, String.intercalate_cons_of_ne_nil (by simp)]
  simp [joined]

theorem toList_enclose (left right : String) (p : String) (ps : List String) :
    (enclose l depth left right (p :: ps)).toList = left.toList ++ ((l.opening depth).toList ++
      (joined l depth (p :: ps) ++ ((l.closing depth).toList ++ right.toList))) := by
  simp [enclose, joined]

theorem toList_field (name : String) (j : Json) : (quote name ++ ": " ++ write l depth j).toList =
      '"' :: (quoteRest name ++ ':' :: ' ' :: (write l depth j).toList) := by
  simp [toList_quote]

end

variable {l : Layout}

theorem exists_joined_head (l : Layout) (depth : Nat) {p : String} {c : Char} {cs : List Char}
    (h : p.toList = c :: cs) (ps : List String) : ∃ cs', joined l depth (p :: ps) = c :: cs' := by
  cases ps with
  | nil => exact ⟨cs, by rw [joined_singleton, h]⟩
  | cons q ps => exact ⟨_, by rw [joined_cons, h, List.cons_append]⟩

theorem toList_write_list (l : Layout) (depth : Nat) (j : Json) (js : List Json) :
    (write l depth (.list (j :: js))).toList = '[' :: ((l.opening depth).toList ++
      (joined l depth (writeItems l (depth + 1) (j :: js)) ++ ((l.closing depth).toList ++ [']']))) := by
  rw [write, writeItems, toList_enclose]
  rfl

theorem toList_write_object (l : Layout) (depth : Nat) (f : String × Json) (fs : List (String × Json)) :
    (write l depth (.object (f :: fs))).toList = '\x7b' :: ((l.opening depth).toList ++
      (joined l depth (writeFields l (depth + 1) (f :: fs)) ++
        ((l.closing depth).toList ++ ['\x7d']))) := by
  rw [write, writeFields, toList_enclose]
  rfl

variable {bs : List Char} {depth : Nat}

theorem joined_items (h : (l.between depth).toList = ',' :: bs)
    (j k : Json) (js : List Json) (rest : List Char) :
    joined l depth (writeItems l (depth + 1) (j :: k :: js)) ++ rest =
      (write l (depth + 1) j).toList ++
        ',' :: (bs ++ (joined l depth (writeItems l (depth + 1) (k :: js)) ++ rest)) := by
  rw [writeItems, writeItems, joined_cons, h]
  simp

theorem joined_fields (h : (l.between depth).toList = ',' :: bs)
    (name : String) (j : Json) (f : String × Json) (fs : List (String × Json)) (rest : List Char) :
    joined l depth (writeFields l (depth + 1) ((name, j) :: f :: fs)) ++ rest =
      '"' :: (quoteRest name ++ ':' :: ' ' :: ((write l (depth + 1) j).toList ++
        ',' :: (bs ++ (joined l depth (writeFields l (depth + 1) (f :: fs)) ++ rest)))) := by
  rw [writeFields, writeFields, joined_cons, h, toList_field]
  simp

theorem joined_field (l : Layout) (depth : Nat) (name : String) (j : Json) (rest : List Char) :
    joined l depth (writeFields l (depth + 1) [(name, j)]) ++ rest =
      '"' :: (quoteRest name ++ ':' :: ' ' :: ((write l (depth + 1) j).toList ++ rest)) := by
  rw [writeFields, writeFields, joined_singleton, toList_field]
  simp

/-! ### One byte a character -/

def OneByte (cs : List Char) : Prop := ∀ c ∈ cs, c.toNat < 128

theorem oneByte_append {as : List Char} (ha : OneByte as) (hb : OneByte bs) : OneByte (as ++ bs) :=
  fun c hc => (List.mem_append.mp hc).elim (ha c) (hb c)

theorem oneByte_hexDigit : ∀ n < 16, (hexDigit n).toNat < 128 := by decide

theorem oneByte_unitEscape (n : Nat) : OneByte (unitEscape n) := by
  intro c hc
  simp only [unitEscape, hex4, List.mem_cons, List.not_mem_nil, or_false] at hc
  rcases hc with rfl | rfl | rfl | rfl | rfl | rfl
  · decide
  · decide
  iterate 4 exact oneByte_hexDigit _ (by omega)

theorem oneByte_escape (c : Char) : OneByte (escape c) := by
  unfold escape
  iterate 7
    split
    · simp [OneByte]
  split
  · rename_i hplain
    intro d hd
    cases List.mem_singleton.mp hd
    omega
  split
  · exact oneByte_unitEscape _
  · exact oneByte_append (oneByte_unitEscape _) (oneByte_unitEscape _)

theorem oneByte_quote (s : String) : OneByte (quote s).toList := by
  rw [toList_quote, quoteRest, ← List.singleton_append]
  refine oneByte_append (by simp [OneByte]) (oneByte_append (fun c hc => ?_) (by simp [OneByte]))
  obtain ⟨d, _, hd⟩ := List.mem_flatMap.mp hc
  exact oneByte_escape d c hd

theorem oneByte_toString (n : Int) : OneByte (toString n).toList := by
  have hdigits : ∀ k, OneByte (Nat.toDigits 10 k) := by
    intro k c hc
    have hdigit := Nat.isDigit_of_mem_toDigits (by decide) (by decide) hc
    simp only [Char.isDigit, Bool.and_eq_true, decide_eq_true_eq] at hdigit
    have hle : c.toNat ≤ 57 := hdigit.2
    omega
  cases n with
  | ofNat k =>
    have hlist : (toString (Int.ofNat k)).toList = Nat.toDigits 10 k := Nat.toList_repr
    exact hlist ▸ hdigits k
  | negSucc k =>
    have hneg : toString (Int.negSucc k) = "-" ++ (k + 1).repr := rfl
    rw [hneg, String.toList_append, Nat.toList_repr]
    exact oneByte_append (by simp [OneByte]) (hdigits (k + 1))

theorem oneByte_joined (hl : OneByte (l.between depth).toList) {parts : List String}
    (h : ∀ p ∈ parts, OneByte p.toList) : OneByte (joined l depth parts) := by
  induction parts with
  | nil => simp [joined, OneByte]
  | cons p parts ih =>
    cases parts with
    | nil => exact joined_singleton l depth p ▸ h p (by simp)
    | cons q ps =>
      rw [joined_cons]
      refine oneByte_append (h p (by simp)) (oneByte_append hl (ih fun r hr => ?_))
      exact h r (List.mem_cons_of_mem p hr)

structure Layout.OneByte (l : Layout) : Prop where
  opening : ∀ depth, Json.OneByte (l.opening depth).toList
  between : ∀ depth, Json.OneByte (l.between depth).toList
  closing : ∀ depth, Json.OneByte (l.closing depth).toList

theorem Layout.oneByte_indented (width : Nat) : (Layout.indented width).OneByte := by
  have hline : ∀ depth, Json.OneByte ('\n' :: List.replicate (width * depth) ' ') := by
    intro depth c hc
    rcases List.mem_cons.mp hc with rfl | hc
    · decide
    · rw [List.eq_of_mem_replicate hc]
      decide
  refine ⟨fun depth => ?_, fun depth => ?_, fun depth => ?_⟩
  · simpa [indented] using hline (depth + 1)
  · simpa [indented] using oneByte_append (by simp [Json.OneByte] : Json.OneByte [',']) (hline (depth + 1))
  · simpa [indented] using hline depth

theorem oneByte_enclose (hl : l.OneByte) (depth : Nat) {left right : String}
    (hleft : OneByte left.toList) (hright : OneByte right.toList) {parts : List String}
    (h : ∀ p ∈ parts, OneByte p.toList) : OneByte (enclose l depth left right parts).toList := by
  cases parts with
  | nil =>
    rw [enclose, String.toList_append]
    exact oneByte_append hleft hright
  | cons p ps =>
    rw [toList_enclose]
    exact oneByte_append hleft (oneByte_append (hl.opening depth) (oneByte_append
      (oneByte_joined (hl.between depth) h) (oneByte_append (hl.closing depth) hright)))

mutual

theorem oneByte_write (hl : l.OneByte) : ∀ (j : Json) (depth : Nat), OneByte (write l depth j).toList
  | .null, depth => by simp [write, OneByte]
  | .bool b, depth => by cases b <;> simp [write, OneByte]
  | .number n, depth => by
    rw [write]
    exact oneByte_toString n
  | .text s, depth => by
    rw [write]
    exact oneByte_quote s
  | .list items, depth => by
    rw [write]
    exact oneByte_enclose hl depth (by simp [OneByte]) (by simp [OneByte]) (oneByte_writeItems hl items _)
  | .object fields, depth => by
    rw [write]
    exact oneByte_enclose hl depth (by simp [OneByte]) (by simp [OneByte])
      (oneByte_writeFields hl fields _)

theorem oneByte_writeItems (hl : l.OneByte) : ∀ (items : List Json) (depth : Nat),
    ∀ p ∈ writeItems l depth items, OneByte p.toList
  | [], depth => by simp [writeItems]
  | j :: js, depth => by
    rw [writeItems, List.forall_mem_cons]
    exact ⟨oneByte_write hl j depth, oneByte_writeItems hl js depth⟩

theorem oneByte_writeFields (hl : l.OneByte) : ∀ (fields : List (String × Json)) (depth : Nat),
    ∀ p ∈ writeFields l depth fields, OneByte p.toList
  | [], depth => by simp [writeFields]
  | (name, j) :: fs, depth => by
    rw [writeFields, List.forall_mem_cons]
    refine ⟨?_, oneByte_writeFields hl fs depth⟩
    rw [String.toList_append, String.toList_append]
    exact oneByte_append (oneByte_append (oneByte_quote name) (by simp [OneByte]))
      (oneByte_write hl j depth)

end

theorem oneByte_render (j : Json) (width : Nat) : OneByte (j.render (some width)).toList :=
  oneByte_write (Layout.oneByte_indented width) j 0

end Json

end MaskedTaint
