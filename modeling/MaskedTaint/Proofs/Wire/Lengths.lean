import Mathlib.Algebra.Ring.Nat
import Mathlib.Tactic.SplitIfs
import Mathlib.Tactic.Tauto
import MaskedTaint.Proofs.Flow.Occurrences
import MaskedTaint.Proofs.Wire.Records
import MaskedTaint.Proofs.Wire.Writing

/-! How long written values get. The text of a value is bounded by the number of its parts and by
its longest text, so a structure with few tokens and short texts has a short text. -/

namespace MaskedTaint

namespace Json

mutual

/-- The values and field names in a value, itself included; each item counts twice, for what
stands before it. -/
def parts : Json → Nat
  | .list items => 1 + itemParts items
  | .object fields => 1 + fieldParts fields
  | _ => 1

def itemParts : List Json → Nat
  | [] => 0
  | j :: js => 1 + j.parts + itemParts js

def fieldParts : List (String × Json) → Nat
  | [] => 0
  | f :: fs => 1 + f.2.parts + fieldParts fs

end

mutual

/-- No text and no number in the value takes more characters. -/
def Within (n : Nat) : Json → Prop
  | .number k => (toString k).length ≤ n
  | .text s => s.length ≤ n
  | .list items => ItemsWithin n items
  | .object fields => FieldsWithin n fields
  | _ => True

def ItemsWithin (n : Nat) : List Json → Prop
  | [] => True
  | j :: js => j.Within n ∧ ItemsWithin n js

def FieldsWithin (n : Nat) : List (String × Json) → Prop
  | [] => True
  | f :: fs => f.1.length ≤ n ∧ f.2.Within n ∧ FieldsWithin n fs

end

theorem length_escape_le (c : Char) : (escape c).length ≤ 12 := by
  unfold escape
  split_ifs <;> simp [unitEscape, hex4]

theorem length_quote_le (s : String) : (quote s).length ≤ 12 * s.length + 2 := by
  have hchars : ∀ cs : List Char, (cs.flatMap escape).length ≤ 12 * cs.length := by
    intro cs
    induction cs with
    | nil => simp
    | cons c cs ih =>
      have hc := length_escape_le c
      rw [List.flatMap_cons, List.length_append, List.length_cons]
      omega
  have hs := hchars s.toList
  rw [← String.length_toList, toList_quote, quoteRest]
  rw [String.length_toList] at hs
  simp only [List.length_cons, List.length_append, List.length_nil]
  omega

theorem length_joined_le (l : Layout) (depth : Nat) (ps : List String) :
    (joined l depth ps).length ≤
      (ps.map String.length).sum + ps.length * (l.between depth).length := by
  induction ps with
  | nil => simp [joined]
  | cons p ps ih =>
    cases ps with
    | nil =>
      rw [joined_singleton, String.length_toList]
      simp
    | cons q ps =>
      rw [joined_cons]
      simp only [List.length_append, String.length_toList, List.map_cons, List.sum_cons,
        List.length_cons] at ih ⊢
      have hnext : (ps.length + 1 + 1) * (l.between depth).length =
          (ps.length + 1) * (l.between depth).length + (l.between depth).length := Nat.succ_mul _ _
      omega

theorem length_enclose_le (depth : Nat) {left right : String} (hleft : left.length = 1)
    (hright : right.length = 1) (ps : List String) :
    (enclose (.indented 4) depth left right ps).length ≤
      (ps.map String.length).sum + ps.length * (4 * depth + 6) + (8 * depth + 8) := by
  cases ps with
  | nil =>
    rw [enclose, String.length_append]
    simp [hleft, hright]
  | cons p ps =>
    have hjoined := length_joined_le (.indented 4) depth (p :: ps)
    have hbetween : ((Layout.indented 4).between depth).length = 4 * depth + 6 := by
      simp [Layout.indented, ← String.length_toList]
      omega
    have hopening : ((Layout.indented 4).opening depth).length = 4 * depth + 5 := by
      simp [Layout.indented, ← String.length_toList]
      omega
    have hclosing : ((Layout.indented 4).closing depth).length = 4 * depth + 1 := by
      simp [Layout.indented, ← String.length_toList]
    rw [← String.length_toList, toList_enclose]
    simp only [List.length_append, String.length_toList, hleft, hright, hopening, hclosing]
    rw [hbetween] at hjoined
    omega

mutual

theorem length_write_le {n : Nat} (width : Nat) : ∀ (j : Json) (depth : Nat), j.Within n →
    12 * n + 8 * (depth + j.parts) + 10 ≤ width →
    (write (.indented 4) depth j).length ≤ j.parts * width
  | .null, depth, _, hw => by
    have hlength : (write (.indented 4) depth .null).length = 4 := by
      rw [write]
      rfl
    have hparts : Json.null.parts = 1 := rfl
    rw [hlength, hparts]
    omega
  | .bool b, depth, _, hw => by
    have hlength : (write (.indented 4) depth (.bool b)).length ≤ 5 := by
      rw [write]
      cases b <;> decide
    have hparts : (Json.bool b).parts = 1 := rfl
    rw [hparts]
    omega
  | .number k, depth, h, hw => by
    have hlength : (write (.indented 4) depth (.number k)).length ≤ n := h
    have hparts : (Json.number k).parts = 1 := rfl
    rw [hparts]
    omega
  | .text s, depth, h, hw => by
    have hlength : (write (.indented 4) depth (.text s)).length ≤ 12 * s.length + 2 := length_quote_le s
    have hs : s.length ≤ n := h
    have hparts : (Json.text s).parts = 1 := rfl
    rw [hparts]
    omega
  | .list items, depth, h, hw => by
    rw [parts] at hw
    rw [write, parts, Nat.add_mul]
    have henclose := length_enclose_le depth (rfl : "[".length = 1) (rfl : "]".length = 1)
      (writeItems (.indented 4) (depth + 1) items)
    have hitems := length_writeItems_le width items depth h (by omega)
    omega
  | .object fields, depth, h, hw => by
    rw [parts] at hw
    rw [write, parts, Nat.add_mul]
    have henclose := length_enclose_le depth (rfl : "\x7b".length = 1) (rfl : "\x7d".length = 1)
      (writeFields (.indented 4) (depth + 1) fields)
    have hfields := length_writeFields_le width fields depth h (by omega)
    omega

theorem length_writeItems_le {n : Nat} (width : Nat) : ∀ (js : List Json) (depth : Nat), ItemsWithin n js →
    12 * n + 8 * (depth + 1 + itemParts js) + 10 ≤ width →
    ((writeItems (.indented 4) (depth + 1) js).map String.length).sum +
      (writeItems (.indented 4) (depth + 1) js).length * (4 * depth + 6) ≤ itemParts js * width
  | [], depth, _, _ => by simp [writeItems]
  | j :: js, depth, h, hw => by
    rw [itemParts] at hw
    have hfirst := length_write_le width j (depth + 1) h.1 (by omega)
    have hrest := length_writeItems_le width js depth h.2 (by omega)
    simp only [writeItems, itemParts, List.map_cons, List.sum_cons, List.length_cons, Nat.add_mul]
    omega

theorem length_writeFields_le {n : Nat} (width : Nat) : ∀ (fs : List (String × Json)) (depth : Nat),
    FieldsWithin n fs → 12 * n + 8 * (depth + 1 + fieldParts fs) + 10 ≤ width →
    ((writeFields (.indented 4) (depth + 1) fs).map String.length).sum +
      (writeFields (.indented 4) (depth + 1) fs).length * (4 * depth + 6) ≤ fieldParts fs * width
  | [], depth, _, _ => by simp [writeFields]
  | (name, j) :: fs, depth, h, hw => by
    have hn : name.length ≤ n := h.1
    have hname := length_quote_le name
    have hcolon : ": ".length = 2 := rfl
    simp only [fieldParts] at hw
    have hfirst := length_write_le width j (depth + 1) h.2.1 (by omega)
    have hrest := length_writeFields_le width fs depth h.2.2 (by omega)
    simp only [writeFields, fieldParts, List.map_cons, List.sum_cons, List.length_cons, Nat.add_mul,
      String.length_append, hcolon]
    omega

end

end Json

/-! ### Tokens and findings -/

namespace Token

def written : Token → List String
  | site i m => (site i m).fields ++ [m.file]
  | jump i m target args => (jump i m target args).fields ++ [m.file, target]

def Brief (n : Nat) (t : Token) : Prop := ∀ u ∈ t.occurrences, ∀ s ∈ u.written, s.length ≤ n

variable {n : Nat}

theorem brief_of_mem_args {i : Nat} {m : Mark} {g : String} {as : List Token}
    (h : (jump i m g as).Brief n) {a : Token} (ha : a ∈ as) : a.Brief n := fun u hu =>
  h u (List.mem_cons_of_mem _ (mem_occurrencesIn.mpr ⟨a, ha, hu⟩))

mutual

theorem parts_toJson_lt : ∀ t : Token, (toJson t).parts < 30 * t.occurrences.length
  | site i m => by
    cases hl : m.line <;> cases hs : m.split <;>
      simp [toJson, Form.fields, Form.siteFields, markValues, Json.parts, Json.fieldParts,
        occurrences, Label.toJson, hl, hs]
  | jump i m target args => by
    have hargs := itemParts_listToJson_le args
    cases hl : m.line <;> cases hs : m.split <;>
      simp only [toJson, Form.fields, Form.siteFields, markValues, Json.parts, Json.fieldParts,
        occurrences, Label.toJson, hl, hs, List.cons_append, List.nil_append, List.zip_cons_cons,
        List.zip_nil_left, List.length_cons] <;> omega

theorem itemParts_listToJson_le : ∀ ts : List Token,
    Json.itemParts (listToJson ts) ≤ 30 * (occurrencesIn ts).length
  | [] => by simp [listToJson, Json.itemParts]
  | t :: ts => by
    have hfirst := parts_toJson_lt t
    have hrest := itemParts_listToJson_le ts
    rw [listToJson, Json.itemParts, occurrencesIn, List.length_append]
    omega

end

theorem within_label {l : Label} (h : l.render.length ≤ n) : l.toJson.Within n := by
  cases l with
  | number k => exact h
  | text s => exact h

theorem fieldsWithin_mark (hn : 10 ≤ n) {m : Mark} {i : Nat}
    (h : ∀ s ∈ (site i m).written, s.length ≤ n) {rest : List (String × Json)}
    (hrest : Json.FieldsWithin n rest) :
    Json.FieldsWithin n (Form.site.fields.zip (markValues m) ++ rest) := by
  have hname : ∀ s ∈ Form.site.fields, s.length ≤ n := by
    have hten : ∀ s ∈ Form.site.fields, s.length ≤ 10 := by decide
    exact fun s hs => Nat.le_trans (hten s hs) hn
  simp only [written, fields, Token.mark, List.cons_append, List.nil_append, List.forall_mem_cons,
    List.not_mem_nil, false_imp_iff, implies_true, and_true] at h
  obtain ⟨hkind, hline, hpos, hdepth, horder, hflow, hsplit, hscope, hfile⟩ := h
  simp only [Form.fields, Form.siteFields, List.cons_append, List.nil_append, List.forall_mem_cons,
    List.not_mem_nil, false_imp_iff, implies_true, and_true] at hname
  obtain ⟨h₁, h₂, h₃, h₄, h₅, h₆, h₇, h₈, h₉⟩ := hname
  exact ⟨h₁, hkind, h₂, within_label hline, h₃, hpos, h₄, hdepth, h₅, horder, h₆, hflow, h₇,
    within_label hsplit, h₈, hscope, h₉, hfile, hrest⟩

mutual

theorem within_toJson (hn : 10 ≤ n) : ∀ t : Token, t.Brief n → (toJson t).Within n
  | site i m, h => by
    have hnone : Json.FieldsWithin n [] := trivial
    have hmark := fieldsWithin_mark hn (h (site i m) (mem_occurrences_self _)) hnone
    rwa [List.append_nil] at hmark
  | jump i m target args, h => by
    have hself := h (jump i m target args) (mem_occurrences_self _)
    have hargs := within_listToJson hn args fun a ha => brief_of_mem_args h ha
    have htarget : target.length ≤ n := hself target (by simp [written])
    have hmark : ∀ s ∈ (site i m).written, s.length ≤ n := fun s hs =>
      hself s (by
        simp only [written, fields, Token.mark, List.mem_append, List.mem_cons] at hs ⊢
        tauto)
    have hten : "scope_name".length ≤ n := hn
    have hnine : "arguments".length ≤ n := Nat.le_trans (by decide) hn
    rw [toJson_jump]
    exact fieldsWithin_mark hn hmark ⟨hten, htarget, hnine, hargs, trivial⟩

theorem within_listToJson (hn : 10 ≤ n) : ∀ ts : List Token, (∀ t ∈ ts, t.Brief n) →
    Json.ItemsWithin n (listToJson ts)
  | [], _ => trivial
  | t :: ts, h => ⟨within_toJson hn t (h t List.mem_cons_self),
      within_listToJson hn ts fun u hu => h u (List.mem_cons_of_mem _ hu)⟩

end

end Token

namespace Finding

mutual

theorem parts_ofToken_lt : ∀ t : Token, (toJson (ofToken t)).parts < 30 * t.occurrences.length
  | .site i m => by
    cases hl : m.line <;>
      simp [ofToken, toJson, Form.fields, Json.parts, Json.fieldParts, Token.occurrences,
        Label.toJson, hl]
  | .jump i m target [] => by
    cases hl : m.line <;>
      simp [ofToken, toJson, Form.fields, Json.parts, Json.fieldParts, Token.occurrences,
        Token.occurrencesIn, Label.toJson, hl]
  | .jump i m target (a :: args) => by
    have hfirst := parts_ofToken_lt a
    have hrest := itemParts_ofTokens_le args
    cases hl : m.line <;>
      simp only [ofToken, toJson, listToJson, Form.fields, Json.parts, Json.fieldParts,
        Json.itemParts, Token.occurrences, Token.occurrencesIn, Label.toJson, hl,
        List.zip_cons_cons, List.zip_nil_left, List.length_cons, List.length_append] <;> omega

theorem itemParts_ofTokens_le : ∀ ts : List Token,
    Json.itemParts (listToJson (ofTokens ts)) ≤ 30 * (Token.occurrencesIn ts).length
  | [] => by simp [ofTokens, listToJson, Json.itemParts]
  | t :: ts => by
    have hfirst := parts_ofToken_lt t
    have hrest := itemParts_ofTokens_le ts
    rw [ofTokens, listToJson, Json.itemParts, Token.occurrencesIn, List.length_append]
    omega

end

theorem within_finding {n : Nat} (hn : 10 ≤ n) {t : Token} (ht : ∀ s ∈ t.written, s.length ≤ n)
    {target args : Json} (htarget : target.Within n) (hargs : args.Within n) :
    (Json.object (Form.finding.fields.zip [.text t.mark.kind, t.mark.line.toJson,
      .number t.mark.pos, .text t.mark.file, target, args])).Within n := by
  have hname : ∀ s ∈ Form.finding.fields, s.length ≤ n := by
    have hten : ∀ s ∈ Form.finding.fields, s.length ≤ 10 := by decide
    exact fun s hs => Nat.le_trans (hten s hs) hn
  simp only [Form.fields, List.forall_mem_cons, List.not_mem_nil, false_imp_iff, implies_true,
    and_true] at hname
  obtain ⟨h₁, h₂, h₃, h₄, h₅, h₆⟩ := hname
  have hwritten : ∀ s ∈ t.fields ++ [t.mark.file], s.length ≤ n := by
    cases t with
    | site i m => exact ht
    | jump i m target args =>
      simp only [Token.written, List.forall_mem_append, List.forall_mem_cons] at ht
      exact List.forall_mem_append.mpr ⟨ht.1, by simpa [Token.mark] using ht.2.1⟩
  simp only [Token.fields, List.forall_mem_append, List.forall_mem_cons] at hwritten
  obtain ⟨⟨hkind, hline, hpos, -⟩, hfile, -⟩ := hwritten
  exact ⟨h₁, hkind, h₂, Token.within_label hline, h₃, hpos, h₄, hfile, h₅, htarget, h₆, hargs, trivial⟩

mutual

theorem within_ofToken {n : Nat} (hn : 10 ≤ n) : ∀ t : Token, t.Brief n → (toJson (ofToken t)).Within n
  | .site i m, h => by
    rw [ofToken, toJson]
    exact within_finding hn (h (.site i m) (Token.mem_occurrences_self _)) trivial trivial
  | .jump i m target [], h => by
    have hself := h (.jump i m target []) (Token.mem_occurrences_self _)
    rw [ofToken, toJson]
    exact within_finding hn hself (hself target (by simp [Token.written])) trivial
  | .jump i m target (a :: args), h => by
    have hself := h (.jump i m target (a :: args)) (Token.mem_occurrences_self _)
    have hfirst := within_ofToken hn a (Token.brief_of_mem_args h List.mem_cons_self)
    have hrest := within_ofTokens hn args fun b hb =>
      Token.brief_of_mem_args h (List.mem_cons_of_mem _ hb)
    rw [ofToken, toJson]
    exact within_finding hn hself (hself target (by simp [Token.written])) ⟨hfirst, hrest⟩

theorem within_ofTokens {n : Nat} (hn : 10 ≤ n) : ∀ ts : List Token, (∀ t ∈ ts, t.Brief n) →
    Json.ItemsWithin n (listToJson (ofTokens ts))
  | [], _ => trivial
  | t :: ts, h => ⟨within_ofToken hn t (h t List.mem_cons_self),
      within_ofTokens hn ts fun u hu => h u (List.mem_cons_of_mem _ hu)⟩

end

theorem length_pathsText_le {n : Nat} (hn : 10 ≤ n) {paths : List (List Token)}
    (hbrief : ∀ path ∈ paths, ∀ t ∈ path, t.Brief n) {k : Nat}
    (hk : 1 + 2 * paths.length + 30 * (paths.flatMap Token.occurrencesIn).length ≤ k) :
    (pathsText (paths.map ofTokens)).length ≤ k * (12 * n + 8 * k + 10) := by
  have hparts : ∀ ps : List (List Token),
      Json.itemParts ((ps.map ofTokens).map fun p => .list (listToJson p)) ≤
        2 * ps.length + 30 * (ps.flatMap Token.occurrencesIn).length := by
    intro ps
    induction ps with
    | nil => simp [Json.itemParts]
    | cons p ps ih =>
      have hfirst := itemParts_ofTokens_le p
      simp only [List.map_cons, Json.itemParts, Json.parts, List.length_cons, List.flatMap_cons,
        List.length_append] at ih ⊢
      omega
  have hwithin : ∀ ps : List (List Token), (∀ path ∈ ps, ∀ t ∈ path, t.Brief n) →
      Json.ItemsWithin n ((ps.map ofTokens).map fun p => .list (listToJson p)) := by
    intro ps hps
    induction ps with
    | nil => trivial
    | cons p ps ih =>
      exact ⟨within_ofTokens hn p (hps p List.mem_cons_self),
        ih fun q hq => hps q (List.mem_cons_of_mem _ hq)⟩
  have hle := hparts paths
  have hlength := Json.length_write_le (12 * n + 8 * k + 10)
    (.list ((paths.map ofTokens).map fun p => .list (listToJson p))) 0 (hwithin paths hbrief)
    (by rw [Json.parts]; omega)
  refine Nat.le_trans hlength (Nat.mul_le_mul_right _ ?_)
  rw [Json.parts]
  omega

end Finding

namespace Structure

def listFields (ls : Scope) : List (String × Json) :=
  ls.map fun l => (l.1, .list (Token.listToJson l.2))

def scopeFields (d : Structure) : List (String × Json) := d.map fun e => (e.1, .object (listFields e.2))

theorem fieldParts_listFields_le (ls : Scope) : Json.fieldParts (listFields ls) ≤
    2 * ls.length + 30 * (ls.flatMap fun l => Token.occurrencesIn l.2).length := by
  induction ls with
  | nil => simp [listFields, Json.fieldParts]
  | cons l ls ih =>
    have hfirst := Token.itemParts_listToJson_le l.2
    simp only [listFields, List.map_cons, Json.fieldParts, Json.parts, List.length_cons,
      List.flatMap_cons, List.length_append] at ih ⊢
    omega

theorem fieldParts_scopeFields_le (d : Structure) : Json.fieldParts d.scopeFields ≤
    2 * d.length + 2 * (d.map fun e => e.2.length).sum + 30 * d.occurrences.length := by
  induction d with
  | nil => simp [scopeFields, Json.fieldParts]
  | cons e d ih =>
    have hfirst := fieldParts_listFields_le e.2
    simp only [scopeFields, List.map_cons, Json.fieldParts, Json.parts, List.length_cons,
      List.sum_cons, occurrences, List.flatMap_cons, List.length_append] at ih ⊢
    omega

variable {n : Nat}

theorem within_listFields (hn : 10 ≤ n) {ls : Scope}
    (h : ∀ l ∈ ls, l.1.length ≤ n ∧ ∀ t ∈ l.2, t.Brief n) : Json.FieldsWithin n (listFields ls) := by
  induction ls with
  | nil => trivial
  | cons l ls ih =>
    obtain ⟨hname, htokens⟩ := h l List.mem_cons_self
    exact ⟨hname, Token.within_listToJson hn l.2 htokens,
      ih fun l hl => h l (List.mem_cons_of_mem _ hl)⟩

section

variable (hn : 10 ≤ n) {d : Structure}
  (h : ∀ e ∈ d, e.1.length ≤ n ∧ ∀ l ∈ e.2, l.1.length ≤ n ∧ ∀ t ∈ l.2, t.Brief n)

include hn h

theorem within_scopeFields : Json.FieldsWithin n d.scopeFields := by
  induction d with
  | nil => trivial
  | cons e d ih =>
    obtain ⟨hname, hlists⟩ := h e List.mem_cons_self
    exact ⟨hname, within_listFields hn hlists, ih fun e he => h e (List.mem_cons_of_mem _ he)⟩

theorem length_toText_le {k : Nat}
    (hk : 1 + 2 * d.length + 2 * (d.map fun e => e.2.length).sum + 30 * d.occurrences.length ≤ k) :
    d.toText.length ≤ k * (12 * n + 8 * k + 10) := by
  have hle := fieldParts_scopeFields_le d
  have hparts : (Json.object d.scopeFields).parts ≤ k := by
    rw [Json.parts]
    omega
  have hlength := Json.length_write_le (12 * n + 8 * k + 10) (.object d.scopeFields) 0
    (within_scopeFields hn h) (by omega)
  exact Nat.le_trans hlength (Nat.mul_le_mul_right _ hparts)

end

end Structure

end MaskedTaint
