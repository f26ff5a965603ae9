import Mathlib
import MaskedTaint.Proofs.Flow.Sound

/-! Renaming masked names. Two maskers that have met different names before number the names of
the same text differently. The numbers of one become the numbers of the other by a renaming that
can be read off their tables, and step by step the two deliver the same symbols up to it. -/

namespace MaskedTaint

/-! ### Masked names -/

namespace Symbol

def isMasked : Symbol → Bool
  | var _ | op _ | func _ | call _ => true
  | _ => false

/-- The text is the name of a symbol that stands for a name. -/
def IsMaskedName (s : String) : Prop := ∃ x : Symbol, x.isMasked = true ∧ x.name = s

def endsInDigit (s : String) : Bool := (s.toList.getLast?.map Char.isDigit).getD false

theorem name_call (n : Nat) : (call n).name = "FUNC_CALL:FUNC" ++ n.repr := by
  rw [← String.toList_inj]
  simp [name, funcName, toString]

theorem endsInDigit_of_masked {x : Symbol} (h : x.isMasked = true) : endsInDigit x.name = true := by
  have happend : ∀ (s : String) (n : Nat), endsInDigit (s ++ n.repr) = true := by
    intro s n
    have hne : Nat.toDigits 10 n ≠ [] := Nat.toDigits_ne_nil
    have hdigit := Nat.isDigit_of_mem_toDigits (by decide) (by decide) (List.getLast_mem hne)
    rw [endsInDigit, String.toList_append, Nat.repr_eq_ofList_toDigits, String.toList_ofList,
      List.getLast?_append_of_ne_nil _ hne, List.getLast?_eq_some_getLast hne]
    exact hdigit
  cases x with
  | var n => exact happend "VAR" n
  | op n => exact happend "OP" n
  | func n => exact happend "FUNC" n
  | call n =>
    rw [name_call]
    exact happend _ n
  | _ => cases h

theorem not_isMaskedName {s : String} (h : endsInDigit s = false) : ¬ IsMaskedName s := by
  rintro ⟨x, hx, rfl⟩
  simp [endsInDigit_of_masked hx] at h

theorem not_isMaskedName_special (p : Special) : ¬ IsMaskedName p.name := by
  refine not_isMaskedName ?_
  rcases p with _ | v | v | _ | _ | _ | _ <;> (try cases v) <;> decide

theorem not_isMaskedName_plain {kind : Kind} (h : kind.IsListed) : ¬ IsMaskedName kind.name := by
  refine not_isMaskedName ?_
  cases kind with
  | reserved name =>
    have hall : ∀ name ∈ reservedNames, endsInDigit name = false := by decide
    exact hall name (h name rfl)
  | cast c => cases c <;> decide
  | sink v => cases v <;> decide
  | sanitizer v => cases v <;> decide
  | _ => decide

theorem masked_name_inj {x y : Symbol} (hx : x.isMasked = true) (hy : y.isMasked = true)
    (h : x.name = y.name) : x = y := by
  have hcancel : ∀ {m n : Nat}, m.repr.toList = n.repr.toList → m = n :=
    fun h => Nat.repr_inj.mp (String.toList_inj.mp h)
  have hlist := congrArg String.toList h
  cases x <;> cases y <;>
    try first | exact absurd hx Bool.false_ne_true | exact absurd hy Bool.false_ne_true
  case var.var m n => exact congrArg var (hcancel (by simpa [name, toString] using hlist))
  case op.op m n => exact congrArg op (hcancel (by simpa [name, toString] using hlist))
  case func.func m n => exact congrArg func (hcancel (by simpa [name, funcName, toString] using hlist))
  case call.call m n => exact congrArg call (hcancel (by simpa [name, funcName, toString] using hlist))
  -- the number would have to begin with an underscore
  case func.call m n =>
    have hdigits : m.repr.toList = "_CALL:FUNC".toList ++ n.repr.toList := by
      simpa [name, funcName, toString] using hlist
    exact absurd (hdigits ▸ by simp : '_' ∈ m.repr.toList) (underscore_notMem m)
  case call.func m n =>
    have hdigits : n.repr.toList = "_CALL:FUNC".toList ++ m.repr.toList := by
      simpa [name, funcName, toString] using hlist.symm
    exact absurd (hdigits ▸ by simp : '_' ∈ n.repr.toList) (underscore_notMem n)
  all_goals simp [name, funcName, toString] at hlist

end Symbol

/-! ### Renamings -/

/-- New numbers for the numbers of variables, operators and functions. -/
structure Renaming where
  vars : Nat → Nat
  ops : Nat → Nat
  funcs : Nat → Nat

namespace Renaming

/-- Different names stay different, and the assignment sign keeps its number. -/
structure Faithful (ρ : Renaming) : Prop where
  vars : Function.Injective ρ.vars
  ops : Function.Injective ρ.ops
  funcs : Function.Injective ρ.funcs
  assign : ρ.ops 0 = 0

def symbol (ρ : Renaming) : Symbol → Symbol
  | .var n => .var (ρ.vars n)
  | .op n => .op (ρ.ops n)
  | .func n => .func (ρ.funcs n)
  | .call n => .call (ρ.funcs n)
  | s => s

def masked (ρ : Renaming) (t : Masked) : Masked := { t with symbol := ρ.symbol t.symbol }

def block (ρ : Renaming) (c : CodeBlock) : CodeBlock :=
  match c.kind with
  | .function number => { c with kind := .function (number.map ρ.funcs) }
  | _ => c

open Classical in
noncomputable def text (ρ : Renaming) (s : String) : String :=
  if h : Symbol.IsMaskedName s then (ρ.symbol h.choose).name else s

variable {ρ : Renaming} {s : Symbol}

@[simp] theorem symbol_plain (ρ : Renaming) (kind : Kind) : ρ.symbol (.plain kind) = .plain kind := rfl

@[simp] theorem isMasked_symbol (ρ : Renaming) (s : Symbol) : (ρ.symbol s).isMasked = s.isMasked := by
  cases s <;> rfl

theorem symbol_of_not_masked (h : s.isMasked = false) : ρ.symbol s = s := by
  cases s <;> first | rfl | cases h

theorem symbol_injective (hρ : ρ.Faithful) : Function.Injective ρ.symbol := by
  intro x y h
  cases x <;> cases y <;> simp only [symbol, Symbol.var.injEq, Symbol.op.injEq, Symbol.func.injEq,
    Symbol.call.injEq, reduceCtorEq] at h
  case var.var m n => rw [hρ.vars h]
  case op.op m n => rw [hρ.ops h]
  case func.func m n => rw [hρ.funcs h]
  case call.call m n => rw [hρ.funcs h]
  all_goals first | exact h | rfl

theorem text_of_masked (h : s.isMasked = true) : ρ.text s.name = (ρ.symbol s).name := by
  have hs : Symbol.IsMaskedName s.name := ⟨s, h, rfl⟩
  rw [text, dif_pos hs, Symbol.masked_name_inj hs.choose_spec.1 h hs.choose_spec.2]

theorem text_of_not {x : String} (h : ¬ Symbol.IsMaskedName x) : ρ.text x = x := dif_neg h

theorem text_name (h : s.IsListed) : ρ.text s.name = (ρ.symbol s).name := by
  by_cases hs : s.isMasked = true
  · exact text_of_masked hs
  · rw [symbol_of_not_masked (Bool.eq_false_iff.mpr hs)]
    refine text_of_not ?_
    cases s with
    | plain kind => exact Symbol.not_isMaskedName_plain (h kind rfl)
    | endParens | endBlock | endFunction => exact Symbol.not_isMaskedName (by decide)
    | _ => exact absurd rfl hs

@[simp] theorem text_special (ρ : Renaming) (p : Special) : ρ.text p.name = p.name :=
  text_of_not (Symbol.not_isMaskedName_special p)

@[simp] theorem text_funcName (ρ : Renaming) (n : Nat) :
    ρ.text (Symbol.funcName n) = Symbol.funcName (ρ.funcs n) :=
  text_of_masked (s := .func n) rfl

theorem text_injective (hρ : ρ.Faithful) : Function.Injective ρ.text := by
  intro x y h
  by_cases hx : Symbol.IsMaskedName x <;> by_cases hy : Symbol.IsMaskedName y
  · obtain ⟨a, ha, rfl⟩ := hx
    obtain ⟨b, hb, rfl⟩ := hy
    rw [text_of_masked ha, text_of_masked hb] at h
    have hab := Symbol.masked_name_inj (by rwa [isMasked_symbol]) (by rwa [isMasked_symbol]) h
    rw [symbol_injective hρ hab]
  · obtain ⟨a, ha, rfl⟩ := hx
    rw [text_of_masked ha, text_of_not hy] at h
    exact absurd ⟨_, by rwa [isMasked_symbol], h⟩ hy
  · obtain ⟨b, hb, rfl⟩ := hy
    rw [text_of_masked hb, text_of_not hx] at h
    exact absurd ⟨_, by rwa [isMasked_symbol], h.symm⟩ hx
  · rwa [text_of_not hx, text_of_not hy] at h

end Renaming

/-! ### Between two tables -/

namespace Names

/-- The number in the first table of the name with this number in the second. Numbers without a
name in both go behind those of the first table. -/
def convert (N₁ N₂ : Names) : Nat → Nat
  | 0 => 0
  | n + 1 => (N₂[n]?.filter (· ∈ N₁)).elim (N₁.length + n + 1) fun x => N₁.idxOf x + 1

theorem convert_number {N₁ N₂ ns₁ ns₂ : Names} {x : String} (h₁ : (ns₁.number x).2 <+: N₁)
    (h₂ : (ns₂.number x).2 <+: N₂) : convert N₁ N₂ (ns₂.number x).1 = (ns₁.number x).1 := by
  have hx₁ : x ∈ N₁ := h₁.subset (ns₁.mem_number x)
  have hx₂ : x ∈ N₂ := h₂.subset (ns₂.mem_number x)
  have hget : N₂[N₂.idxOf x]? = some x := List.getElem?_idxOf hx₂
  rw [number_eq h₁, number_eq h₂, convert, hget, Option.filter_some_pos (by simpa using hx₁)]
  rfl

theorem convert_injective {N₁ N₂ : Names} (hnodup : N₂.Nodup) :
    Function.Injective (convert N₁ N₂) := by
  intro m n h
  cases m with
  | zero =>
    cases n with
    | zero => rfl
    | succ n => cases hn : N₂[n]?.filter (· ∈ N₁) <;> simp [convert, hn] at h
  | succ m =>
    cases n with
    | zero => cases hm : N₂[m]?.filter (· ∈ N₁) <;> simp [convert, hm] at h
    | succ n =>
      have hlt : ∀ {n : Nat} {x : String}, N₂[n]?.filter (· ∈ N₁) = some x →
          N₂[n]? = some x ∧ N₁.idxOf x < N₁.length := by
        intro n x hx
        obtain ⟨hget, hmem⟩ := Option.filter_eq_some_iff.mp hx
        exact ⟨hget, List.idxOf_lt_length_iff.mpr (by simpa using hmem)⟩
      cases hm : N₂[m]?.filter (· ∈ N₁) with
      | none =>
        cases hn : N₂[n]?.filter (· ∈ N₁) with
        | none =>
          simp only [convert, hm, hn, Option.elim] at h
          omega
        | some y =>
          have hy := (hlt hn).2
          simp only [convert, hm, hn, Option.elim] at h
          omega
      | some x =>
        obtain ⟨hx, hxlt⟩ := hlt hm
        cases hn : N₂[n]?.filter (· ∈ N₁) with
        | none =>
          simp only [convert, hm, hn, Option.elim] at h
          omega
        | some y =>
          obtain ⟨hy, -⟩ := hlt hn
          simp only [convert, hm, hn, Option.elim, Nat.add_right_cancel_iff] at h
          -- a name of the first table is found at its first place
          have hxy : x = y := (List.idxOf_inj (List.idxOf_lt_length_iff.mp hxlt)).mp h
          have hlen := (List.getElem?_eq_some_iff.mp hx).1
          rw [(List.getElem?_inj hlen hnodup).mp (hx.trans (hxy ▸ hy.symm))]

end Names

end MaskedTaint
