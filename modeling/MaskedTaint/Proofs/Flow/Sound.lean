import Mathlib.Data.List.Infix
import MaskedTaint.Proofs.Flow.Occurrences
import MaskedTaint.Proofs.Masking.Books

/-! Sound structures: every scope lists its parameters, every list has one of a few keys, and
every token stands in its own scope, at a proper place, with calls that lead to functions that
have a number. The operations on structures keep this if what is put in fits. -/

namespace MaskedTaint

/-! ### Keys -/

def NamesVariable (s : String) : Prop := ['V', 'A', 'R'] <:+: s.toList

instance (s : String) : Decidable (NamesVariable s) :=
  inferInstanceAs (Decidable (['V', 'A', 'R'] <:+: s.toList))

def Special.keys : List Special := [params, call, imports, result, sink .xss, sink .sqli]

def IsKey (key : String) : Prop := key ∈ Special.keys.map Special.name ∨ NamesVariable key

structure IsPlainKey (key : String) : Prop where
  isKey : IsKey key
  ne_params : key ≠ Special.params.name
  ne_call : key ≠ Special.call.name
  ne_imports : key ≠ Special.imports.name

variable {key : String}

theorem NamesVariable.ne_special (h : NamesVariable key) (p : Special) : key ≠ p.name := by
  rintro rfl
  rcases p with _ | v | v | _ | _ | _ | _
  case sink => cases v <;> exact absurd h (by decide)
  case sanitizer => cases v <;> exact absurd h (by decide)
  all_goals exact absurd h (by decide)

theorem NamesVariable.isPlainKey (h : NamesVariable key) : IsPlainKey key :=
  ⟨.inr h, h.ne_special _, h.ne_special _, h.ne_special _⟩

theorem isPlainKey_result : IsPlainKey Special.result.name :=
  ⟨.inl (by decide), by decide, by decide, by decide⟩

theorem isPlainKey_sink (v : Vulnerability) : IsPlainKey (Special.sink v).name := by
  cases v <;> exact ⟨.inl (by decide), by decide, by decide, by decide⟩

namespace Symbol

theorem namesVariable {s : Symbol} (h : s.isVariable = true) : NamesVariable s.name := by
  unfold isVariable at h
  split at h
  · rename_i n
    refine ⟨[], n.repr.toList, ?_⟩
    simp [name, toString]
  · decide
  · decide
  · cases h

theorem underscore_notMem (n : Nat) : '_' ∉ n.repr.toList := by
  intro h
  rw [Nat.repr_eq_ofList_toDigits, String.toList_ofList] at h
  exact absurd (Nat.isDigit_of_mem_toDigits (by decide) (by decide) h) (by decide)

theorem name_notMem {s : Symbol} (h : s.IsListed) :
    s.name ∉ [Special.call.name, Special.imports.name] := by
  intro hname
  have hlist : s.name.toList = "FUNC_CALL".toList ∨ s.name.toList = "IMPORTS".toList := by
    simp only [List.mem_cons, List.not_mem_nil, or_false] at hname
    exact hname.imp (congrArg String.toList) (congrArg String.toList)
  cases s with
  | plain kind =>
    cases kind with
    | reserved name =>
      have hall : ∀ name ∈ reservedNames, name ∉ [Special.call.name, Special.imports.name] := by decide
      exact hall name (h _ rfl name rfl) hname
    | cast c => cases c <;> exact absurd hname (by decide)
    | sink v | sanitizer v => cases v <;> exact absurd hname (by decide)
    | _ => exact absurd hname (by decide)
  | func n =>
    -- the number would have to begin with an underscore
    have hdigits : n.repr.toList = ['_', 'C', 'A', 'L', 'L'] := by
      simpa [name, funcName, toString] using hlist
    exact underscore_notMem n (by simp [hdigits])
  | var n | op n => simp [name, toString] at hlist
  | call n => simp [name, funcName, toString] at hlist
  | endParens | endBlock | endFunction => exact absurd hname (by decide)

end Symbol

/-! ### Tokens -/

structure Mark.Within (scope : String) (m : Mark) : Prop where
  scope : m.scope = scope
  depth : 0 ≤ m.depth
  order : 0 ≤ m.order
  flow : -1 ≤ m.flow

namespace Token

inductive RecordedIn (scope : String) (count : Nat) : Token → Prop
  | site {i : Nat} {m : Mark} (hm : m.Within scope)
      (hkind : m.kind ∉ [Special.call.name, Special.imports.name]) :
      RecordedIn scope count (site i m)
  | call {i n : Nat} {m : Mark} {args : List Token} (hm : m.Within scope)
      (hkind : m.kind = Special.call.name) (hn : 1 ≤ n ∧ n ≤ count)
      (hargs : ∀ a ∈ args, RecordedIn scope count a) :
      RecordedIn scope count (jump i m (Symbol.funcName n) args)

inductive ImportedIn (scope : String) : Token → Prop
  | intro {i : Nat} {m : Mark} {target : String} (hm : m.Within scope)
      (hkind : m.kind = Kind.importWord.name) : ImportedIn scope (jump i m target [])

structure Fits (scope : String) (count : Nat) (key : String) (t : Token) : Prop where
  imported : key = Special.imports.name → t.ImportedIn scope
  recorded : key ≠ Special.imports.name → t.RecordedIn scope count
  call : key = Special.call.name → t.kind = Special.call.name
  param : key = Special.params.name → NamesVariable t.kind

variable {scope key : String} {count count' : Nat} {t : Token}

theorem RecordedIn.mono (hle : count ≤ count') (h : t.RecordedIn scope count) :
    t.RecordedIn scope count' := by
  induction h with
  | site hm hkind => exact .site hm hkind
  | call hm hkind hn hargs ih => exact .call hm hkind ⟨hn.1, hn.2.trans hle⟩ ih

theorem RecordedIn.setSplit (split : Label) (h : t.RecordedIn scope count) :
    (t.setSplit split).RecordedIn scope count := by
  cases h with
  | site hm hkind => exact .site ⟨hm.scope, hm.depth, hm.order, hm.flow⟩ hkind
  | call hm hkind hn hargs => exact .call ⟨hm.scope, hm.depth, hm.order, hm.flow⟩ hkind hn hargs

theorem RecordedIn.within (h : t.RecordedIn scope count) : t.mark.Within scope := by
  cases h with
  | site hm hkind => exact hm
  | call hm hkind hn hargs => exact hm

theorem RecordedIn.of_mem {u : Token} (h : t.RecordedIn scope count) (hu : u ∈ t.occurrences) :
    u.RecordedIn scope count := by
  induction h with
  | site hm hkind =>
    rw [occurrences, List.mem_singleton] at hu
    exact hu ▸ .site hm hkind
  | call hm hkind hn hargs ih =>
    rw [occurrences, List.mem_cons] at hu
    rcases hu with rfl | hu
    · exact .call hm hkind hn hargs
    · obtain ⟨a, ha, hu⟩ := mem_occurrencesIn.mp hu
      exact ih a ha hu

theorem Fits.mono (hle : count ≤ count') (h : t.Fits scope count key) : t.Fits scope count' key :=
  ⟨h.imported, fun hkey => (h.recorded hkey).mono hle, h.call, h.param⟩

theorem Fits.setSplit (split : Label) (h : t.Fits scope count key) :
    (t.setSplit split).Fits scope count key := by
  have hsame : (t.setSplit split).kind = t.kind := by cases t <;> rfl
  refine ⟨fun hkey => ?_, fun hkey => (h.recorded hkey).setSplit split, hsame ▸ h.call, hsame ▸ h.param⟩
  cases h.imported hkey with
  | intro hm hkind => exact .intro ⟨hm.scope, hm.depth, hm.order, hm.flow⟩ hkind

end Token

theorem IsPlainKey.fits {scope : String} {count : Nat} {t : Token} (hkey : IsPlainKey key)
    (h : t.RecordedIn scope count) : t.Fits scope count key :=
  ⟨fun hk => absurd hk hkey.ne_imports, fun _ => h, fun hk => absurd hk hkey.ne_call,
    fun hk => absurd hk hkey.ne_params⟩

/-! ### Tables -/

namespace Table

variable {α : Type} {t : Table α} {name : String} {a : α}

theorem mem_put {e : String × α} (h : e ∈ t.put name a) : e = (name, a) ∨ e ∈ t := by
  induction t with
  | nil => exact .inl (List.mem_singleton.mp h)
  | cons f t ih =>
    by_cases hf : f.1 = name
    · rw [put_cons_pos t a hf, List.mem_cons] at h
      rcases h with rfl | h
      · exact .inl (by rw [hf])
      · exact .inr (List.mem_cons_of_mem f h)
    · rw [put_cons_neg t a hf, List.mem_cons] at h
      rcases h with rfl | h
      · exact .inr List.mem_cons_self
      · exact (ih h).imp_right (List.mem_cons_of_mem f)

theorem has_put_self (t : Table α) (name : String) (a : α) : (t.put name a).has name = true := by
  simp [has, get?_put_self]

theorem has_put {other : String} (h : t.has other = true) : (t.put name a).has other = true := by
  by_cases ho : other = name
  · rw [ho]
    exact has_put_self t name a
  · rwa [has, get?_put_of_ne t a ho]

theorem names_put (t : Table α) (name : String) (a : α) : (t.put name a).names = t.names ∨
      name ∉ t.names ∧ (t.put name a).names = t.names ++ [name] := by
  by_cases h : name ∈ t.names
  · refine .inl ?_
    induction t with
    | nil => cases h
    | cons e t ih =>
      by_cases he : e.1 = name
      · rw [put_cons_pos t a he]
        rfl
      · have ht : name ∈ names t := (List.mem_cons.mp h).resolve_left (Ne.symm he)
        rw [put_cons_neg t a he]
        exact congrArg (e.1 :: ·) (ih ht)
  · exact .inr ⟨h, by simp [put_of_not_mem a h, names]⟩

theorem names_put_of_mem (a : α) (h : name ∈ t.names) : (t.put name a).names = t.names :=
  (t.names_put name a).resolve_right fun hnew => hnew.1 h

theorem has_iff_mem_names (t : Table α) (name : String) : t.has name = true ↔ name ∈ t.names := by
  induction t with
  | nil => simp [has, get?, names]
  | cons e t ih =>
    by_cases he : e.1 = name
    · simp [has, get?_cons_pos t he, names, he]
    · rw [has, get?_cons_neg t he, ← has, ih]
      simp [names, Ne.symm he]

theorem nodup_put (h : t.names.Nodup) : (t.put name a).names.Nodup := by
  rcases t.names_put name a with hsame | ⟨hnew, hadd⟩
  · rwa [hsame]
  · rw [hadd]
    exact List.nodup_append.mpr ⟨h, by simp, fun x hx y hy hxy => hnew (by simp_all)⟩

theorem names_mapValues {β : Type} (f : α → β) (t : Table α) : (t.mapValues f).names = t.names := by
  simp [names, mapValues]

theorem has_mapValues {β : Type} (f : α → β) (t : Table α) (name : String) :
    (t.mapValues f).has name = t.has name := by
  induction t with
  | nil => rfl
  | cons e t ih =>
    by_cases he : e.1 = name
    · simp [has, mapValues, get?, he]
    · simpa [has, mapValues, get?, he] using ih

end Table

/-! ### Structures -/

structure Scope.Lists (scope : String) (count : Nat) (s : Scope) : Prop where
  nodup : s.names.Nodup
  fits : ∀ l ∈ s, IsKey l.1 ∧ ∀ t ∈ l.2, t.Fits scope count l.1

theorem Scope.Lists.put {scope : String} {count : Nat} {s : Scope} {ts : List Token}
    (h : Scope.Lists scope count s) (hkey : IsKey key) (hts : ∀ t ∈ ts, t.Fits scope count key) :
    Scope.Lists scope count (s.put key ts) := by
  refine ⟨Table.nodup_put h.nodup, fun l hl => ?_⟩
  rcases Table.mem_put hl with rfl | hl
  · exact ⟨hkey, hts⟩
  · exact h.fits l hl

namespace Structure

structure Sound (d : Structure) (count : Nat) : Prop where
  nodup : d.names.Nodup
  params : ∀ e ∈ d, e.2.has Special.params.name = true
  lists : ∀ e ∈ d, Scope.Lists e.1 count e.2

variable {d : Structure} {count count' : Nat} {scope key : String} {ts : List Token}

theorem sound_empty (count : Nat) : Sound Table.empty count :=
  ⟨List.nodup_nil, by simp [Table.empty], by simp [Table.empty]⟩

theorem Sound.mono (hle : count ≤ count') (h : d.Sound count) : d.Sound count' :=
  ⟨h.nodup, h.params, fun e he => ⟨(h.lists e he).nodup, fun l hl =>
    ⟨((h.lists e he).fits l hl).1, fun t ht => (((h.lists e he).fits l hl).2 t ht).mono hle⟩⟩⟩

theorem Sound.put {s : Scope} (h : d.Sound count) (hparams : s.has Special.params.name = true)
    (hs : Scope.Lists scope count s) : Sound (d.put scope s) count := by
  refine ⟨Table.nodup_put h.nodup, fun e he => ?_, fun e he => ?_⟩
  · rcases Table.mem_put he with rfl | he
    · exact hparams
    · exact h.params e he
  · rcases Table.mem_put he with rfl | he
    · exact hs
    · exact h.lists e he

section

variable (h : d.Sound count)

include h

theorem Sound.tokens? (hts : d.tokens? scope key = some ts) : ∀ t ∈ ts, t.Fits scope count key := by
  obtain ⟨s, hs, hl⟩ := Option.bind_eq_some_iff.mp hts
  exact ((h.lists _ (Table.mem_of_get? hs)).fits _ (Table.mem_of_get? hl)).2

theorem Sound.getD_tokens? : ∀ t ∈ (d.tokens? scope key).getD [], t.Fits scope count key := by
  cases hts : d.tokens? scope key with
  | none => simp
  | some ts => exact h.tokens? hts

section

variable (hscope : d.has scope = true ∨ key = Special.params.name) (hkey : IsKey key)
  (hts : ∀ t ∈ ts, t.Fits scope count key)

include hscope hkey hts

theorem Sound.putTokens : (d.putTokens scope key ts).Sound count := by
  unfold Structure.putTokens
  cases hs : d.get? scope with
  | some s =>
    have hmem := Table.mem_of_get? hs
    exact h.put (Table.has_put (h.params _ hmem)) ((h.lists _ hmem).put hkey hts)
  | none =>
    have hparams : key = Special.params.name := hscope.resolve_left (by simp [Table.has, hs])
    have hempty : Scope.Lists scope count Table.empty :=
      ⟨List.nodup_nil, by simp [Table.empty]⟩
    refine h.put ?_ (hempty.put hkey hts)
    rw [Option.getD_none, hparams]
    exact Table.has_put_self _ _ _

theorem Sound.append : (d.append scope key ts).Sound count :=
  h.putTokens hscope hkey (List.forall_mem_append.mpr ⟨h.getD_tokens?, hts⟩)

end

theorem Sound.setSplit (scope : String) (id : Nat) (split : Label) :
    (d.setSplit scope id split).Sound count := by
  unfold Structure.setSplit
  split
  · exact h
  · rename_i s hs
    have hmem := Table.mem_of_get? hs
    refine h.put ?_ ⟨?_, fun l' hl' => ?_⟩
    · rw [Table.has_mapValues]
      exact h.params _ hmem
    · rw [Table.names_mapValues]
      exact (h.lists _ hmem).nodup
    · obtain ⟨l, hl, rfl⟩ := List.mem_map.mp hl'
      obtain ⟨hkey, hts⟩ := (h.lists _ hmem).fits l hl
      refine ⟨hkey, fun t' ht' => ?_⟩
      obtain ⟨t, ht, rfl⟩ := List.mem_map.mp ht'
      split
      · exact (hts t ht).setSplit split
      · exact hts t ht

end

theorem has_putTokens {other : String} (h : d.has other = true) :
    (d.putTokens scope key ts).has other = true := Table.has_put h

theorem has_setSplit {other : String} (h : d.has other = true) (id : Nat) (split : Label) :
    (d.setSplit scope id split).has other = true := by
  unfold Structure.setSplit
  split
  · exact h
  · exact Table.has_put h

end Structure

end MaskedTaint
