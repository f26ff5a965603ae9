import MaskedTaint.Proofs.Wire.Writing
import MaskedTaint.Wire.Reading

/-! Reading a value that was written gives it back, in every layout that puts only blanks and
commas between its parts. -/

namespace MaskedTaint

namespace Json

/-! ### Blanks -/

def Blanks (cs : List Char) : Prop := ∀ c ∈ cs, isBlank c = true

theorem blanks_nil : Blanks [] := by simp [Blanks]

theorem blanks_one : Blanks [' '] := by simp [Blanks, isBlank]

variable {bs cs rest : List Char} {c : Char} {n fuel : Nat} {items : List Json} {j : Json}
  {fields : List (String × Json)} {name : String}

theorem skipBlanks_append (h : Blanks bs) (cs : List Char) :
    skipBlanks (bs ++ cs) = skipBlanks cs := by
  induction bs with
  | nil => rfl
  | cons b bs ih =>
    have hb : isBlank b = true := h b (by simp)
    have hbs : Blanks bs := fun c hc => h c (by simp [hc])
    rw [List.cons_append, skipBlanks, List.dropWhile_cons, if_pos hb]
    exact ih hbs

theorem skipBlanks_cons (h : isBlank c = false) (cs : List Char) :
    skipBlanks (c :: cs) = c :: cs := by
  rw [skipBlanks, List.dropWhile_cons, h]
  rfl

/-! ### Quoted texts -/

theorem hexValue?_hexDigit : ∀ n < 16, hexValue? (hexDigit n) = some n := by decide

theorem unit?_hex4 (h : n < 0x10000) (rest : List Char) :
    unit? (hex4 n ++ rest) = some (n, rest) := by
  have hvalue : ((n / 4096 % 16 * 16 + n / 256 % 16) * 16 + n / 16 % 16) * 16 + n % 16 = n := by omega
  simp only [hex4, List.cons_append, List.nil_append, unit?,
    hexValue?_hexDigit _ (by omega : n / 4096 % 16 < 16),
    hexValue?_hexDigit _ (by omega : n / 256 % 16 < 16),
    hexValue?_hexDigit _ (by omega : n / 16 % 16 < 16),
    hexValue?_hexDigit _ (by omega : n % 16 < 16), bind, Option.bind, pure, hvalue]

theorem lowHalf?_unitEscape (h : 0xdc00 ≤ n) (h' : n < 0xe000) (rest : List Char) :
    lowHalf? (unitEscape n ++ rest) = some (n, rest) := by
  simp only [unitEscape, List.cons_append, lowHalf?, unit?_hex4 (by omega : n < 0x10000)]
  rw [if_pos ⟨h, h'⟩]

theorem readQuoted_unit (h : readUnit cs = some (c, rest)) (fuel : Nat) (done : List Char) :
    readQuoted (fuel + 1) done ('\\' :: 'u' :: cs) = readQuoted fuel (c :: done) rest := by
  simp [readQuoted, h]

theorem readQuoted_simple {d : Char} (h : simpleEscape? c = some d) (fuel : Nat)
    (done rest : List Char) :
    readQuoted (fuel + 1) done ('\\' :: c :: rest) = readQuoted fuel (d :: done) rest := by
  have hu : c ≠ 'u' := by
    rintro rfl
    cases h
  simp [readQuoted, h]

theorem readQuoted_escape (c : Char) (fuel : Nat) (done rest : List Char) :
    readQuoted (fuel + 1) done (escape c ++ rest) = readQuoted fuel (c :: done) rest := by
  have hvalid : c.toNat < 0xd800 ∨ 0xdfff < c.toNat ∧ c.toNat < 0x110000 := c.valid
  have hchar : Char.ofNat c.toNat = c := Char.ofNat_toNat c
  unfold escape
  iterate 7
    split
    · rename_i hc
      subst hc
      exact readQuoted_simple rfl fuel done rest
  split
  · rename_i hquote hslash _ _ _ _ _ hplain
    have hlow : ¬ c.toNat < 32 := by omega
    rw [List.singleton_append, readQuoted.eq_def]
    simp only [if_neg hquote, if_neg hslash, if_neg hlow]
  split
  · rename_i hplane
    rw [unitEscape, List.cons_append, List.cons_append]
    refine readQuoted_unit ?_ fuel done
    have hhigh : ¬ (0xd800 ≤ c.toNat ∧ c.toNat < 0xdc00) := by omega
    rw [readUnit, unit?_hex4 hplane]
    simp only [if_neg hhigh, hchar]
  · rename_i hplane
    -- both halves together count from the first character beyond the plane
    have hhalf : 0xd800 ≤ 0xd800 + (c.toNat - 0x10000) / 0x400 ∧
        0xd800 + (c.toNat - 0x10000) / 0x400 < 0xdc00 := by omega
    have hvalue : 0x10000 + (0xd800 + (c.toNat - 0x10000) / 0x400 - 0xd800) * 0x400 +
        (0xdc00 + (c.toNat - 0x10000) % 0x400 - 0xdc00) = c.toNat := by omega
    rw [List.append_assoc, unitEscape, List.cons_append, List.cons_append]
    refine readQuoted_unit ?_ fuel done
    have hlow := lowHalf?_unitEscape (n := 0xdc00 + (c.toNat - 0x10000) % 0x400) (by omega)
      (by omega) rest
    rw [readUnit, unit?_hex4 (by omega)]
    simp only [if_pos hhalf, hlow, hvalue, hchar]

theorem readQuoted_flatMap (cs : List Char) (h : cs.length < fuel) (done rest : List Char) :
    readQuoted fuel done (cs.flatMap escape ++ '"' :: rest) =
      some (String.ofList (done.reverse ++ cs), rest) := by
  induction cs generalizing fuel done with
  | nil =>
    obtain ⟨fuel, rfl⟩ := Nat.exists_eq_add_of_lt h
    simp [readQuoted]
  | cons c cs ih =>
    cases fuel with
    | zero => simp at h
    | succ fuel =>
      rw [List.flatMap_cons, List.append_assoc, readQuoted_escape, ih (by simpa using h)]
      simp

theorem length_le_escape (cs : List Char) : cs.length ≤ (cs.flatMap escape).length := by
  induction cs with
  | nil => simp
  | cons c cs ih =>
    have hpos : 0 < (escape c).length := by
      unfold escape unitEscape
      repeat' split
      all_goals simp
    simp only [List.flatMap_cons, List.length_append, List.length_cons]
    omega

theorem readQuoted_quoteRest (s : String) (rest : List Char) :
    readQuoted ((quoteRest s ++ rest).length + 1) [] (quoteRest s ++ rest) = some (s, rest) := by
  have hlen := length_le_escape s.toList
  have hfuel : s.toList.length < (s.toList.flatMap escape ++ '"' :: rest).length + 1 := by
    rw [List.length_append, List.length_cons]
    omega
  rw [quoteRest, List.append_assoc, List.singleton_append, readQuoted_flatMap _ hfuel]
  simp

/-! ### Numbers -/

def Behind (rest : List Char) : Prop :=
  ∀ c ∈ rest.head?, c.isDigit = false ∧ c ≠ '.' ∧ c ≠ 'e' ∧ c ≠ 'E'

theorem behind_nil : Behind [] := by simp [Behind]

theorem behind_cons (h : c.isDigit = false ∧ c ≠ '.' ∧ c ≠ 'e' ∧ c ≠ 'E')
    (cs : List Char) : Behind (c :: cs) := by
  intro d hd
  cases hd
  exact h

theorem exists_toDigits_head (n : Nat) : ∃ c cs, Nat.toDigits 10 n = c :: cs ∧ c.isDigit = true := by
  cases hd : Nat.toDigits 10 n with
  | nil => exact absurd hd Nat.toDigits_ne_nil
  | cons c cs =>
    exact ⟨c, cs, rfl, Nat.isDigit_of_mem_toDigits (by decide) (by decide) (hd ▸ List.mem_cons_self)⟩

theorem head?_toDigits (h : 0 < n) : (Nat.toDigits 10 n).head? ≠ some '0' := by
  induction n using Nat.strongRecOn with
  | ind n ih =>
    rw [Nat.toDigits_eq_if (by decide)]
    split
    · rename_i hn
      have hdigit : ∀ n < 10, 0 < n → [n.digitChar].head? ≠ some '0' := by decide
      exact hdigit n hn h
    · have hrest := ih (n / 10) (by omega) (by omega)
      obtain ⟨c, cs, hd, -⟩ := exists_toDigits_head (n / 10)
      rw [hd] at hrest ⊢
      exact hrest

theorem digitsValue_toDigits (n : Nat) : digitsValue (Nat.toDigits 10 n) = n := by
  have hstep : (fun (n : Nat) (c : Char) => n * 10 + (c.toNat - 48)) =
      fun n c => 10 * n + (c.toNat - '0'.toNat) := by
    funext n c
    rw [Nat.mul_comm]
    rfl
  rw [digitsValue, hstep]
  exact Nat.ofDigitChars_ten_toDigits

theorem readDigits_toDigits (n : Nat) (h : Behind rest) :
    readDigits (Nat.toDigits 10 n ++ rest) = some (n, rest) := by
  have hall : ∀ c ∈ Nat.toDigits 10 n, c.isDigit = true :=
    fun c hc => Nat.isDigit_of_mem_toDigits (by decide) (by decide) hc
  have hstop : rest.takeWhile Char.isDigit = [] ∧ rest.dropWhile Char.isDigit = rest := by
    cases rest with
    | nil => exact ⟨rfl, rfl⟩
    | cons c cs => simp [(h c rfl).1]
  have hzero : ((Nat.toDigits 10 n).isEmpty || ((Nat.toDigits 10 n).head? == some '0' &&
      decide ((Nat.toDigits 10 n).length > 1))) = false := by
    rcases Nat.eq_zero_or_pos n with rfl | hn
    · decide
    · have hhead := head?_toDigits hn
      simp [Nat.toDigits_ne_nil, hhead]
  unfold readDigits
  simp only [List.takeWhile_append_of_pos hall, List.dropWhile_append_of_pos hall, hstop.1, hstop.2,
    List.append_nil, hzero, Bool.false_eq_true, if_false, digitsValue_toDigits]
  split
  · exact absurd rfl (h _ rfl).2.1
  · exact absurd rfl (h _ rfl).2.2.1
  · exact absurd rfl (h _ rfl).2.2.2
  · rfl

def ValueHead (c : Char) : Prop := isBlank c = false ∧ c ≠ ']' ∧ c ≠ '\x7d'

instance (c : Char) : Decidable (ValueHead c) := inferInstanceAs (Decidable (_ ∧ _))

def NumberHead (c : Char) : Prop := c = '-' ∨ c.isDigit = true

instance (c : Char) : Decidable (NumberHead c) := inferInstanceAs (Decidable (_ ∨ _))

theorem NumberHead.ne {d : Char} (h : NumberHead c) (hd : ¬ NumberHead d) : c ≠ d := by
  rintro rfl
  exact hd h

theorem NumberHead.valueHead (h : NumberHead c) : ValueHead c := by
  refine ⟨?_, h.ne (by decide), h.ne (by decide)⟩
  simp [isBlank, h.ne (d := ' ') (by decide), h.ne (d := '\t') (by decide),
    h.ne (d := '\n') (by decide), h.ne (d := '\r') (by decide)]

theorem readNumber_toString (n : Int) (h : Behind rest) :
    (∃ c cs, (toString n).toList = c :: cs ∧ NumberHead c) ∧
      readNumber ((toString n).toList ++ rest) = some (.number n, rest) := by
  cases n with
  | ofNat k =>
    have hlist : (toString (Int.ofNat k)).toList = Nat.toDigits 10 k := Nat.toList_repr
    obtain ⟨c, cs, hd, hc⟩ := exists_toDigits_head k
    have hsign : c ≠ '-' := by
      rintro rfl
      exact absurd hc (by decide)
    have hread := readDigits_toDigits k h
    rw [hlist]
    rw [hd, List.cons_append] at hread ⊢
    refine ⟨⟨c, cs, rfl, .inr hc⟩, ?_⟩
    unfold readNumber
    split
    · rename_i heq
      exact absurd (List.cons.inj heq).1 hsign
    · rw [hread]
      rfl
  | negSucc k =>
    have hlist : (toString (Int.negSucc k)).toList = '-' :: Nat.toDigits 10 (k + 1) := by
      have hneg : toString (Int.negSucc k) = "-" ++ (k + 1).repr := rfl
      rw [hneg, String.toList_append, Nat.toList_repr]
      rfl
    rw [hlist]
    refine ⟨⟨'-', _, rfl, .inl rfl⟩, ?_⟩
    rw [List.cons_append, readNumber, readDigits_toDigits (k + 1) h]
    rfl

theorem readValue_number (h : NumberHead c) (cs : List Char) (fuel : Nat) :
    readValue (fuel + 1) (c :: cs) = readNumber (c :: cs) := by
  unfold readValue
  rw [skipBlanks_cons h.valueHead.1]
  split
  case h_7 => rfl
  -- Each other head is not that of a number.
  all_goals
    rename_i heq
    exact absurd (List.cons.inj heq).1 (h.ne (by decide))

/-! ### Values -/

structure Layout.Spaced (l : Layout) : Prop where
  opening : ∀ depth, Blanks (l.opening depth).toList
  between : ∀ depth, ∃ bs, Blanks bs ∧ (l.between depth).toList = ',' :: bs
  closing : ∀ depth, Blanks (l.closing depth).toList

theorem Layout.spaced_indented (width : Nat) : (Layout.indented width).Spaced := by
  have hline : ∀ depth, Blanks ('\n' :: List.replicate (width * depth) ' ') := by
    intro depth c hc
    rcases List.mem_cons.mp hc with rfl | hc
    · rfl
    · rw [List.eq_of_mem_replicate hc]
      rfl
  refine ⟨fun depth => ?_, fun depth => ⟨_, hline (depth + 1), ?_⟩, fun depth => ?_⟩
  · simpa [indented] using hline (depth + 1)
  · simp [indented]
  · simpa [indented] using hline depth

mutual

def Distinct : Json → Prop
  | list items => DistinctItems items
  | object fields => (fields.map Prod.fst).Nodup ∧ DistinctFields fields
  | _ => True

def DistinctItems : List Json → Prop
  | [] => True
  | j :: js => Distinct j ∧ DistinctItems js

def DistinctFields : List (String × Json) → Prop
  | [] => True
  | (_, j) :: fs => Distinct j ∧ DistinctFields fs

end

theorem DistinctItems.of_mem (h : DistinctItems items) (hj : j ∈ items) : j.Distinct := by
  induction items with
  | nil => cases hj
  | cons k js ih =>
    rcases List.mem_cons.mp hj with rfl | hj
    · exact h.1
    · exact ih h.2 hj

theorem DistinctFields.of_mem (h : DistinctFields fields)
    {f : String × Json} (hf : f ∈ fields) : f.2.Distinct := by
  induction fields with
  | nil => cases hf
  | cons g fs ih =>
    rcases List.mem_cons.mp hf with rfl | hf
    · exact h.1
    · exact ih h.2 hf

theorem putField_of_notMem {fs : List (String × Json)}
    (h : name ∉ fs.map Prod.fst) (j : Json) : putField fs name j = fs ++ [(name, j)] := by
  induction fs with
  | nil => rfl
  | cons f fs ih =>
    rw [List.map_cons, List.mem_cons, not_or] at h
    rw [putField, if_neg (Ne.symm h.1), ih h.2, List.cons_append]

theorem exists_write_head (l : Layout) (depth : Nat) (j : Json) :
    ∃ c cs, (write l depth j).toList = c :: cs ∧ ValueHead c := by
  have henclose : ∀ (c : Char) (left right : String) (parts : List String),
      left.toList = [c] → ∃ cs, (enclose l depth left right parts).toList = c :: cs := by
    intro c left right parts hleft
    cases parts with
    | nil => exact ⟨_, by rw [enclose, String.toList_append, hleft, List.singleton_append]⟩
    | cons p ps => exact ⟨_, by rw [toList_enclose, hleft, List.singleton_append]⟩
  cases j with
  | null => exact ⟨'n', _, by rw [write]; rfl, by decide⟩
  | bool b =>
    cases b with
    | true => exact ⟨'t', _, by rw [write]; rfl, by decide⟩
    | false => exact ⟨'f', _, by rw [write]; rfl, by decide⟩
  | number n =>
    obtain ⟨⟨c, cs, hlist, hc⟩, -⟩ := readNumber_toString n behind_nil
    exact ⟨c, cs, by rw [write, hlist], hc.valueHead⟩
  | text s => exact ⟨'"', _, by rw [write, toList_quote], by decide⟩
  | list items =>
    obtain ⟨cs, hcs⟩ := henclose '[' "[" "]" (writeItems l (depth + 1) items) rfl
    exact ⟨'[', cs, by rw [write, hcs], by decide⟩
  | object fields =>
    obtain ⟨cs, hcs⟩ := henclose '\x7b' "\x7b" "\x7d" (writeFields l (depth + 1) fields) rfl
    exact ⟨'\x7b', cs, by rw [write, hcs], by decide⟩

theorem readValue_blanks (h : Blanks bs) (cs : List Char) (fuel : Nat) :
    readValue fuel (bs ++ cs) = readValue fuel cs := by
  cases fuel with
  | zero => rfl
  | succ fuel =>
    unfold readValue
    rw [skipBlanks_append h]

theorem behind_blanks (h : Blanks bs) (hr : Behind rest) : Behind (bs ++ rest) := by
  cases bs with
  | nil => exact hr
  | cons b bs =>
    have hb : b = ' ' ∨ b = '\t' ∨ b = '\n' ∨ b = '\r' := by
      simpa [isBlank, or_assoc] using h b (by simp)
    refine behind_cons ?_ _
    rcases hb with rfl | rfl | rfl | rfl <;> decide

/-! ### Steps of the reader -/

theorem readValue_quote (s : String) (rest : List Char) (fuel : Nat) :
    readValue (fuel + 1) ('"' :: (quoteRest s ++ rest)) = some (.text s, rest) := by
  rw [readValue, skipBlanks_cons (by decide)]
  simp only [readQuoted_quoteRest, Option.map_some]

theorem readValue_list (hbs : Blanks bs) (hc : ValueHead c)
    (fuel : Nat) : readValue (fuel + 1) ('[' :: (bs ++ c :: cs)) = readItems fuel [] (c :: cs) := by
  rw [readValue, skipBlanks_cons (by decide)]
  simp only [skipBlanks_append hbs, skipBlanks_cons hc.1]
  split
  · rename_i heq
    exact absurd (List.cons.inj heq).1 hc.2.1
  · rfl

theorem readValue_object (hbs : Blanks bs) (hc : ValueHead c) (fuel : Nat) :
    readValue (fuel + 1) ('\x7b' :: (bs ++ c :: cs)) = readFields fuel [] (c :: cs) := by
  rw [readValue, skipBlanks_cons (by decide)]
  simp only [skipBlanks_append hbs, skipBlanks_cons hc.1]
  split
  · rename_i heq
    exact absurd (List.cons.inj heq).1 hc.2.2
  · rfl

theorem readItems_last (hbs : Blanks bs)
    (h : readValue fuel cs = some (j, bs ++ ']' :: rest)) (done : List Json) :
    readItems (fuel + 1) done cs = some (.list (done.reverse ++ [j]), rest) := by
  rw [readItems, h]
  simp only [skipBlanks_append hbs, skipBlanks_cons (by decide : isBlank ']' = false)]
  simp

theorem readItems_next (h : readValue fuel cs = some (j, ',' :: rest)) (done : List Json) :
    readItems (fuel + 1) done cs = readItems fuel (j :: done) rest := by
  rw [readItems, h]
  simp only [skipBlanks_cons (by decide : isBlank ',' = false)]

theorem readValue_blank : readValue fuel (' ' :: cs) = readValue fuel cs :=
  readValue_blanks blanks_one cs fuel

theorem readFields_last {bs' : List Char} (hbs : Blanks bs)
    (hbs' : Blanks bs') (h : readValue fuel cs = some (j, bs' ++ '\x7d' :: rest))
    (done : List (String × Json)) :
    readFields (fuel + 1) done (bs ++ '"' :: (quoteRest name ++ ':' :: ' ' :: cs)) =
      some (.object (putField done name j), rest) := by
  rw [readFields, skipBlanks_append hbs, skipBlanks_cons (by decide)]
  simp only [readQuoted_quoteRest, skipBlanks_cons (by decide : isBlank ':' = false),
    readValue_blank, h, skipBlanks_append hbs', skipBlanks_cons (by decide : isBlank '\x7d' = false)]

theorem readFields_next (hbs : Blanks bs) (h : readValue fuel cs = some (j, ',' :: rest))
    (done : List (String × Json)) :
    readFields (fuel + 1) done (bs ++ '"' :: (quoteRest name ++ ':' :: ' ' :: cs)) =
      readFields fuel (putField done name j) rest := by
  rw [readFields, skipBlanks_append hbs, skipBlanks_cons (by decide)]
  simp only [readQuoted_quoteRest, skipBlanks_cons (by decide : isBlank ':' = false),
    readValue_blank, h, skipBlanks_cons (by decide : isBlank ',' = false)]

/-! ### Reading what was written -/

variable {l : Layout}

/-- The value is read again from its text, whatever stands behind it. The length of the text
bounds how often the reader has to go on. -/
def Reads (l : Layout) (j : Json) : Prop :=
  ∀ (depth fuel : Nat) (rest : List Char), (write l depth j).toList.length ≤ fuel → Behind rest →
    readValue (fuel + 1) ((write l depth j).toList ++ rest) = some (j, rest)

theorem readItems_write (hl : l.Spaced) (hne : items ≠ [])
    (h : ∀ j ∈ items, Reads l j) (depth : Nat) (hbs : Blanks bs)
    (hfuel : (joined l depth (writeItems l (depth + 1) items)).length + 2 ≤ fuel)
    (done : List Json) (rest : List Char) :
    readItems fuel done (bs ++ (joined l depth (writeItems l (depth + 1) items) ++
      ((l.closing depth).toList ++ ']' :: rest))) = some (.list (done.reverse ++ items), rest) := by
  induction items generalizing fuel bs done with
  | nil => exact absurd rfl hne
  | cons j items ih =>
    obtain ⟨fuel, rfl⟩ : ∃ n, fuel = n + 2 := Nat.exists_eq_add_of_le' (by omega)
    cases items with
    | nil =>
      rw [writeItems, writeItems, joined_singleton] at hfuel ⊢
      refine readItems_last (hl.closing depth) ?_ done
      rw [readValue_blanks hbs]
      refine h j (by simp) (depth + 1) fuel _ (by omega) ?_
      exact behind_blanks (hl.closing depth) (behind_cons (by decide) rest)
    | cons k js =>
      obtain ⟨cs, hcs, hbetween⟩ := hl.between depth
      have hlen := congrArg List.length (joined_items hbetween j k js [])
      simp only [List.length_append, List.length_cons, List.length_nil] at hlen
      have hvalue := h j (by simp) (depth + 1) fuel (',' :: (cs ++
        (joined l depth (writeItems l (depth + 1) (k :: js)) ++
          ((l.closing depth).toList ++ ']' :: rest)))) (by omega) (behind_cons (by decide) _)
      rw [← readValue_blanks hbs] at hvalue
      have hrest : ∀ i ∈ k :: js, Reads l i := fun i hi => h i (List.mem_cons_of_mem j hi)
      rw [joined_items hbetween, readItems_next hvalue, ih (by simp) hrest hcs (by omega)]
      simp

theorem readFields_write (hl : l.Spaced) (hne : fields ≠ [])
    (h : ∀ f ∈ fields, Reads l f.2) (depth : Nat) (hbs : Blanks bs)
    (hfuel : (joined l depth (writeFields l (depth + 1) fields)).length + 2 ≤ fuel)
    {done : List (String × Json)} (hnames : ((done ++ fields).map Prod.fst).Nodup) (rest : List Char) :
    readFields fuel done (bs ++ (joined l depth (writeFields l (depth + 1) fields) ++
      ((l.closing depth).toList ++ '\x7d' :: rest))) = some (.object (done ++ fields), rest) := by
  induction fields generalizing fuel bs done with
  | nil => exact absurd rfl hne
  | cons f fields ih =>
    obtain ⟨fuel, rfl⟩ : ∃ n, fuel = n + 2 := Nat.exists_eq_add_of_le' (by omega)
    obtain ⟨name, j⟩ := f
    have hnew : name ∉ done.map Prod.fst := by
      rw [List.map_append, List.nodup_append] at hnames
      exact fun hmem => hnames.2.2 name hmem name (by simp) rfl
    have hj : Reads l j := h (name, j) (by simp)
    cases fields with
    | nil =>
      have hlen := congrArg List.length (joined_field l depth name j [])
      simp only [List.length_append, List.length_cons, List.length_nil] at hlen
      rw [joined_field, ← putField_of_notMem hnew j]
      refine readFields_last hbs (hl.closing depth) ?_ done
      refine hj (depth + 1) fuel _ (by omega) ?_
      exact behind_blanks (hl.closing depth) (behind_cons (by decide) rest)
    | cons f fs =>
      obtain ⟨cs, hcs, hbetween⟩ := hl.between depth
      have hlen := congrArg List.length (joined_fields hbetween name j f fs [])
      simp only [List.length_append, List.length_cons, List.length_nil] at hlen
      have hvalue := hj (depth + 1) fuel (',' :: (cs ++
        (joined l depth (writeFields l (depth + 1) (f :: fs)) ++
          ((l.closing depth).toList ++ '\x7d' :: rest)))) (by omega) (behind_cons (by decide) _)
      have hrest : ∀ g ∈ f :: fs, Reads l g.2 := fun g hg => h g (List.mem_cons_of_mem _ hg)
      rw [joined_fields hbetween, readFields_next hbs hvalue, putField_of_notMem hnew,
        ih (by simp) hrest hcs (by omega) (by simpa using hnames)]
      simp

theorem reads_list (hl : l.Spaced) (h : ∀ j ∈ items, Reads l j) : Reads l (.list items) := by
  intro depth fuel rest hfuel _
  cases items with
  | nil =>
    rw [write, writeItems, enclose]
    rfl
  | cons j js =>
    obtain ⟨c, cs, hj, hc⟩ := exists_write_head l (depth + 1) j
    obtain ⟨cs', hhead⟩ := exists_joined_head l depth hj (writeItems l (depth + 1) js)
    rw [toList_write_list] at hfuel ⊢
    simp only [List.length_cons, List.length_append, List.length_nil] at hfuel
    have hroom : (joined l depth (writeItems l (depth + 1) (j :: js))).length + 2 ≤ fuel := by omega
    have hitems := readItems_write hl (by simp) h depth blanks_nil hroom [] rest
    rw [List.nil_append, writeItems, hhead] at hitems
    rw [List.cons_append, List.append_assoc, List.append_assoc, List.append_assoc, writeItems, hhead]
    exact (readValue_list (hl.opening depth) hc fuel).trans hitems

theorem reads_object (hl : l.Spaced)
    (hnames : (fields.map Prod.fst).Nodup) (h : ∀ f ∈ fields, Reads l f.2) :
    Reads l (.object fields) := by
  intro depth fuel rest hfuel _
  cases fields with
  | nil =>
    rw [write, writeFields, enclose]
    rfl
  | cons f fs =>
    obtain ⟨name, j⟩ := f
    have hname := toList_field l (depth + 1) name j
    obtain ⟨cs', hhead⟩ := exists_joined_head l depth hname (writeFields l (depth + 1) fs)
    rw [toList_write_object] at hfuel ⊢
    simp only [List.length_cons, List.length_append, List.length_nil] at hfuel
    have hroom : (joined l depth (writeFields l (depth + 1) ((name, j) :: fs))).length + 2 ≤ fuel := by
      omega
    rw [← List.nil_append ((name, j) :: fs)] at hnames
    have hfields := readFields_write hl (by simp) h depth blanks_nil hroom hnames rest
    rw [List.nil_append, writeFields, hhead] at hfields
    rw [List.cons_append, List.append_assoc, List.append_assoc, List.append_assoc, writeFields, hhead]
    exact (readValue_object (hl.opening depth) (by decide) fuel).trans hfields

theorem sizeOf_lt_of_mem_fields {f : String × Json}
    (h : f ∈ fields) : sizeOf f.2 < sizeOf fields := by
  have hlt := List.sizeOf_lt_of_mem h
  obtain ⟨name, j⟩ := f
  rw [Prod.mk.sizeOf_spec] at hlt
  dsimp only
  omega

theorem reads_of_distinct (hl : l.Spaced) : ∀ {j : Json}, j.Distinct → Reads l j
  | .null, _ => fun depth fuel rest _ _ => by
    rw [write]
    rfl
  | .bool b, _ => fun depth fuel rest _ _ => by
    rw [write]
    cases b <;> rfl
  | .number n, _ => fun depth fuel rest _ hrest => by
    obtain ⟨⟨c, cs, hlist, hc⟩, hread⟩ := readNumber_toString n hrest
    rw [hlist, List.cons_append] at hread
    rw [write, hlist, List.cons_append, readValue_number hc, hread]
  | .text s, _ => fun depth fuel rest _ _ => by
    rw [write, toList_quote, List.cons_append, readValue_quote]
  | .list items, hd => reads_list hl fun j hj =>
    have := List.sizeOf_lt_of_mem hj
    reads_of_distinct hl (hd.of_mem hj)
  | .object fields, hd => reads_object hl hd.1 fun f hf =>
    have := sizeOf_lt_of_mem_fields hf
    reads_of_distinct hl (hd.2.of_mem hf)
termination_by j => j

theorem parse?_render (h : j.Distinct) (width : Nat) : parse? (j.render (some width)) = some j := by
  have hread := reads_of_distinct (Layout.spaced_indented width) h 0
    (write (.indented width) 0 j).toList.length [] (Nat.le_refl _) behind_nil
  rw [List.append_nil] at hread
  simp only [parse?, render, hread]
  rfl

end Json

end MaskedTaint
