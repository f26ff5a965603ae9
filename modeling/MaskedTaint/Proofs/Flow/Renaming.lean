import MaskedTaint.Proofs.Flow.Filling
import MaskedTaint.Proofs.Flow.Signature
import MaskedTaint.Proofs.Masking.Renaming

/-! Renaming tokens and structures. The tokens of a file are known up to the numbers of names
and up to the numbers of the occurrences, which both depend on what was read before. A structure
that stands behind another one, with scopes of its own, behaves as it would alone. -/

namespace MaskedTaint

/-! ### Tables -/

namespace Table

variable {α β : Type}

def rename (f : String → String) (g : α → β) (t : Table α) : Table β := t.map fun e => (f e.1, g e.2)

section

variable {f : String → String} (hf : Function.Injective f) (g : α → β) (t : Table α) (name : String)

include hf g t name

theorem get?_rename : (t.rename f g).get? (f name) = (t.get? name).map g := by
  induction t with
  | nil => rfl
  | cons e t ih =>
    by_cases he : e.1 = name
    · simp [rename, get?, he]
    · simpa [rename, get?, he, hf.ne he] using ih

theorem put_rename (a : α) : (t.rename f g).put (f name) (g a) = (t.put name a).rename f g := by
  induction t with
  | nil => rfl
  | cons e t ih =>
    by_cases he : e.1 = name
    · simp [rename, put, he]
    · simpa [rename, put, he, hf.ne he] using ih

end

theorem names_rename (f : String → String) (g : α → β) (t : Table α) :
    (t.rename f g).names = t.names.map f := by
  simp [rename, names]

theorem get?_append {t : Table α} {name : String} (h : name ∉ t.names) (t' : Table α) :
    get? (t ++ t') name = t'.get? name := by
  induction t with
  | nil => rfl
  | cons e t ih =>
    simp only [names, List.map_cons, List.mem_cons, not_or] at h
    rw [List.cons_append, get?_cons_neg _ (Ne.symm h.1), ih h.2]

theorem put_append {t : Table α} {name : String} (h : name ∉ t.names) (t' : Table α) (a : α) :
    put (t ++ t') name a = t ++ t'.put name a := by
  induction t with
  | nil => rfl
  | cons e t ih =>
    simp only [names, List.map_cons, List.mem_cons, not_or] at h
    rw [List.cons_append, put_cons_neg _ a (Ne.symm h.1), ih h.2, List.cons_append]

end Table

/-! ### Tokens -/

namespace Renaming

noncomputable def mark (ρ : Renaming) (m : Mark) : Mark :=
  { m with kind := ρ.text m.kind, scope := ρ.text m.scope }

mutual

/-- Renames a token whose occurrence is counted from `k`. The target of a call is the name of a
function; that of an inclusion is a text of the program. -/
noncomputable def token (ρ : Renaming) (k : Nat) : Token → Token
  | .site id m => .site (id + k) (ρ.mark m)
  | .jump id m target args =>
    .jump (id + k) (ρ.mark m) (if m.kind = Special.call.name then ρ.text target else target)
      (tokens ρ k args)

noncomputable def tokens (ρ : Renaming) (k : Nat) : List Token → List Token
  | [] => []
  | t :: ts => token ρ k t :: tokens ρ k ts

end

variable {ρ : Renaming} {k : Nat}

theorem tokens_eq_map (ρ : Renaming) (k : Nat) (ts : List Token) : ρ.tokens k ts = ts.map (ρ.token k) := by
  induction ts with
  | nil => rfl
  | cons t ts ih => rw [tokens, ih, List.map_cons]

@[simp] theorem token_id (ρ : Renaming) (k : Nat) (t : Token) : (ρ.token k t).id = t.id + k := by
  cases t <;> rfl

theorem token_file (ρ : Renaming) (k : Nat) (t : Token) : (ρ.token k t).mark.file = t.mark.file := by
  cases t <;> rfl

theorem token_setSplit (ρ : Renaming) (k : Nat) (t : Token) (l : Label) :
    (ρ.token k t).setSplit l = ρ.token k (t.setSplit l) := by
  cases t <;> rfl

noncomputable def scope (ρ : Renaming) (k : Nat) (s : Scope) : Scope :=
  s.rename ρ.text fun ts => ts.map (ρ.token k)

noncomputable def flows (ρ : Renaming) (k : Nat) (d : Structure) : Structure :=
  d.rename ρ.text (ρ.scope k)

/-! ### Structures behind others -/

section

variable {base d : Structure} {scope : String} (hρ : ρ.Faithful)
  (hscope : ρ.text scope ∉ base.names)

include hρ hscope

theorem get?_flows : Table.get? (base ++ ρ.flows k d) (ρ.text scope) = (d.get? scope).map (ρ.scope k) := by
  rw [Table.get?_append hscope, flows, Table.get?_rename (text_injective hρ)]

variable (key : String)

theorem tokens?_flows : Structure.tokens? (base ++ ρ.flows k d) (ρ.text scope) (ρ.text key) =
    (d.tokens? scope key).map fun ts => ts.map (ρ.token k) := by
  unfold Structure.tokens?
  rw [get?_flows hρ hscope]
  cases d.get? scope with
  | none => rfl
  | some s => exact Table.get?_rename (text_injective hρ) _ s key

theorem putTokens_flows (ts : List Token) :
    Structure.putTokens (base ++ ρ.flows k d) (ρ.text scope) (ρ.text key) (ts.map (ρ.token k)) =
      base ++ ρ.flows k (d.putTokens scope key ts) := by
  have hgetD : ((d.get? scope).map (ρ.scope k)).getD Table.empty =
      ρ.scope k ((d.get? scope).getD Table.empty) := by
    cases d.get? scope <;> rfl
  have hput : ∀ s : Scope, (ρ.scope k s).put (ρ.text key) (ts.map (ρ.token k)) = ρ.scope k (s.put key ts) :=
    fun s => Table.put_rename (text_injective hρ) _ s key ts
  unfold Structure.putTokens
  rw [get?_flows hρ hscope, hgetD, Table.put_append hscope, hput]
  exact congrArg (base ++ ·) (Table.put_rename (text_injective hρ) (ρ.scope k) d scope _)

theorem getD_tokens?_flows :
    (Structure.tokens? (base ++ ρ.flows k d) (ρ.text scope) (ρ.text key)).getD [] =
      ((d.tokens? scope key).getD []).map (ρ.token k) := by
  rw [tokens?_flows hρ hscope]
  cases d.tokens? scope key <;> rfl

theorem append_flows (ts : List Token) :
    Structure.append (base ++ ρ.flows k d) (ρ.text scope) (ρ.text key) (ts.map (ρ.token k)) =
      base ++ ρ.flows k (d.append scope key ts) := by
  rw [Structure.append, getD_tokens?_flows hρ hscope, ← List.map_append, putTokens_flows hρ hscope,
    Structure.append]

omit hρ hscope in
theorem map_setSplit (ρ : Renaming) (k : Nat) (id : Nat) (l : Label) (ts : List Token) :
    (ts.map (ρ.token k)).map (fun t => if t.id = id + k then t.setSplit l else t) =
      (ts.map fun t => if t.id = id then t.setSplit l else t).map (ρ.token k) := by
  simp only [List.map_map]
  refine List.map_congr_left fun t _ => ?_
  simp only [Function.comp_apply, token_id, Nat.add_right_cancel_iff]
  split
  · exact token_setSplit ρ k t l
  · rfl

theorem setSplit_flows (id : Nat) (l : Label) :
    Structure.setSplit (base ++ ρ.flows k d) (ρ.text scope) (id + k) l =
      base ++ ρ.flows k (d.setSplit scope id l) := by
  unfold Structure.setSplit
  rw [get?_flows hρ hscope]
  cases d.get? scope with
  | none => rfl
  | some s =>
    have hmap : (ρ.scope k s).mapValues (fun ts =>
        ts.map fun t => if t.id = id + k then t.setSplit l else t) =
        ρ.scope k (s.mapValues fun ts => ts.map fun t => if t.id = id then t.setSplit l else t) := by
      simp only [Table.mapValues, Renaming.scope, Table.rename, List.map_map]
      refine List.map_congr_left fun e _ => ?_
      simp only [Function.comp_apply, map_setSplit]
    simp only [Option.map_some]
    rw [Table.put_append hscope, hmap]
    exact congrArg (base ++ ·) (Table.put_rename (text_injective hρ) (ρ.scope k) d scope _)

end

end Renaming

/-! ### Parameters that are alike -/

theorem Symbol.commaFree_name {s : Symbol} (h : s.IsListed) : CommaFree s.name := by
  have hdigits : ∀ n : Nat, ',' ∉ n.repr.toList := by
    intro n hn
    rw [Nat.repr_eq_ofList_toDigits, String.toList_ofList] at hn
    exact absurd (Nat.isDigit_of_mem_toDigits (by decide) (by decide) hn) (by decide)
  have happend : ∀ (p : String) (n : Nat), CommaFree p → CommaFree (p ++ n.repr) := by
    intro p n hp
    rw [CommaFree, String.toList_append, List.mem_append, not_or]
    exact ⟨hp, hdigits n⟩
  cases s with
  | plain kind =>
    cases kind with
    | reserved name =>
      have hall : ∀ name ∈ reservedNames, CommaFree name := by decide
      exact hall name (h _ rfl name rfl)
    | cast c => cases c <;> decide
    | sink v => cases v <;> decide
    | sanitizer v => cases v <;> decide
    | _ => decide
  | var n => exact happend "VAR" n (by decide)
  | op n => exact happend "OP" n (by decide)
  | func n => exact happend "FUNC" n (by decide)
  | call n =>
    rw [name_call]
    exact happend _ n (by decide)
  | _ => decide

namespace Token

structure IsSiteIn (file scope : String) (t : Token) : Prop where
  site : ∃ i m, t = site i m
  kind : ∃ s : Symbol, s.IsListed ∧ t.mark.kind = s.name
  line : ∃ n, t.mark.line = .number n
  split : ∃ n, t.mark.split = .number n
  scope : t.mark.scope = scope
  file : t.mark.file = file

variable {file scope : String}

theorem IsSiteIn.rename {t : Token} (h : t.IsSiteIn file scope) (ρ : Renaming)
    (k : Nat) : (ρ.token k t).IsSiteIn file (ρ.text scope) := by
  obtain ⟨i, m, rfl⟩ := h.site
  obtain ⟨s, hs, hkind⟩ := h.kind
  have hlisted : (ρ.symbol s).IsListed := by
    cases s with
    | plain kind => exact hs
    | _ => simp [Symbol.IsListed, Renaming.symbol]
  refine ⟨⟨_, _, rfl⟩, ⟨ρ.symbol s, hlisted, ?_⟩, h.line, h.split, ?_, h.file⟩
  · exact (congrArg ρ.text hkind).trans (Renaming.text_name hs)
  · exact congrArg ρ.text h.scope

theorem same_iff_mark {a b : Token} (ha : a.IsSiteIn file scope)
    (hb : b.IsSiteIn file scope) : a.same b = true ↔ a.mark = b.mark := by
  obtain ⟨i, m, rfl⟩ := ha.site
  obtain ⟨j, n, rfl⟩ := hb.site
  have hfree : ∀ {l : Nat} {x : Mark}, (site l x).IsSiteIn file scope → ∀ f ∈ front x, CommaFree f := by
    intro l x hx
    obtain ⟨s, hs, hkind⟩ := hx.kind
    have hcommas := Symbol.commaFree_name hs
    rw [← hkind] at hcommas
    exact commaFree_front hcommas hx.line hx.split
  constructor
  · intro h
    obtain ⟨hfields, -⟩ := front_of_same_site (hfree ha) (hfree hb) h
    rw [front, front] at hfields
    have hnum : ∀ x y : Int, toString x = toString y ↔ x = y := fun x y => Int.repr_inj
    obtain ⟨line, hline⟩ := ha.line
    obtain ⟨line', hline'⟩ := hb.line
    obtain ⟨split, hsplit⟩ := ha.split
    obtain ⟨split', hsplit'⟩ := hb.split
    have hscope := ha.scope.trans hb.scope.symm
    have hfile := ha.file.trans hb.file.symm
    simp only [mark] at hline hline' hsplit hsplit' hscope hfile ⊢
    simp only [hline, hline', hsplit, hsplit', Label.render, List.cons.injEq, hnum, and_true] at hfields
    obtain ⟨hkind, rfl, hpos, hdepth, horder, hflow, rfl⟩ := hfields
    cases m
    cases n
    simp_all
  · intro h
    simp only [mark] at h
    exact h ▸ same_site rfl rfl

theorem isIn_rename {ρ : Renaming} (hρ : ρ.Faithful) (k : Nat) {t : Token}
    {ts : List Token} (ht : t.IsSiteIn file scope) (hts : ∀ u ∈ ts, u.IsSiteIn file scope) :
    (ρ.token k t).isIn (ts.map (ρ.token k)) = t.isIn ts := by
  have hsame : ∀ u ∈ ts, (ρ.token k t).same (ρ.token k u) = t.same u := by
    intro u hu
    rw [Bool.eq_iff_iff, same_iff_mark (ht.rename ρ k) ((hts u hu).rename ρ k),
      same_iff_mark ht (hts u hu)]
    obtain ⟨i, m, rfl⟩ := ht.site
    obtain ⟨j, n, rfl⟩ := (hts u hu).site
    simp only [Renaming.token, mark, Renaming.mark]
    constructor
    · intro h
      simp only [Mark.mk.injEq] at h
      obtain ⟨hkind, hline, hpos, hdepth, horder, hflow, hsplit, hscope, hfile⟩ := h
      have hkind := Renaming.text_injective hρ hkind
      have hscope := Renaming.text_injective hρ hscope
      cases m
      cases n
      simp_all
    · rintro rfl
      rfl
  rw [isIn, isIn, List.any_map]
  induction ts with
  | nil => rfl
  | cons u ts ih =>
    rw [List.any_cons, List.any_cons, Function.comp_apply, hsame u List.mem_cons_self,
      ih (fun v hv => hts v (List.mem_cons_of_mem _ hv)) fun v hv => hsame v (List.mem_cons_of_mem _ hv)]

theorem merged_rename {ρ : Renaming} (hρ : ρ.Faithful) (k : Nat)
    {params known : List Token} (hp : ∀ u ∈ params, u.IsSiteIn file scope)
    (hk : ∀ u ∈ known, u.IsSiteIn file scope) :
    (params.map (ρ.token k)).foldl (fun ts t => if t.isIn ts then ts else ts ++ [t])
        (known.map (ρ.token k)) =
      (params.foldl (fun ts t => if t.isIn ts then ts else ts ++ [t]) known).map (ρ.token k) := by
  induction params generalizing known with
  | nil => rfl
  | cons p params ih =>
    have hp' : ∀ u ∈ params, u.IsSiteIn file scope := fun u hu => hp u (List.mem_cons_of_mem _ hu)
    rw [List.map_cons, List.foldl_cons, List.foldl_cons, isIn_rename hρ k (hp p List.mem_cons_self) hk]
    split
    · exact ih hp' hk
    · rw [← List.map_singleton, ← List.map_append]
      refine ih hp' fun u hu => ?_
      rcases List.mem_append.mp hu with hu | hu
      · exact hk u hu
      · exact List.mem_singleton.mp hu ▸ hp p List.mem_cons_self

end Token

end MaskedTaint
