import Mathlib
import MaskedTaint.Flow.Token

/-! Comparing tokens by their texts. Without commas in its fields a token can be read off
its signature: two tokens alike have the same marks, field by field as texts. -/

namespace MaskedTaint

def CommaFree (s : String) : Prop := ',' ∉ s.toList

instance (s : String) : Decidable (CommaFree s) := inferInstanceAs (Decidable (¬ _))

namespace Token

def texts : Token → List String
  | site _ m => [m.kind, m.line.render, m.split.render, m.scope, m.file]
  | jump _ m target _ => [m.kind, m.line.render, m.split.render, m.scope, m.file, target]

/-! ### Lists with commas between -/

variable {r r' : List Char} {m n : Mark} {i j : Nat}

theorem append_comma_inj {x y : List Char} (hx : ',' ∉ x) (hy : ',' ∉ y)
    (h : x ++ ',' :: r = y ++ ',' :: r') : x = y ∧ r = r' := by
  induction x generalizing y with
  | nil =>
    cases y with
    | nil => simpa using h
    | cons c y =>
      simp only [List.nil_append, List.cons_append, List.cons.injEq] at h
      exact absurd (h.1 ▸ List.mem_cons_self) hy
  | cons c x ih =>
    cases y with
    | nil =>
      simp only [List.nil_append, List.cons_append, List.cons.injEq] at h
      exact absurd (h.1 ▸ List.mem_cons_self) hx
    | cons c' y =>
      simp only [List.cons_append, List.cons.injEq] at h
      simp only [List.mem_cons, not_or] at hx hy
      obtain ⟨rfl, rfl⟩ := ih hx.2 hy.2 h.2
      exact ⟨by rw [h.1], rfl⟩

theorem append_comma_inj_right {x y : List Char} (hx : ',' ∉ x) (hy : ',' ∉ y)
    (h : r ++ ',' :: x = r' ++ ',' :: y) : r = r' ∧ x = y := by
  have hrev := congrArg List.reverse h
  simp only [List.reverse_append, List.reverse_cons, List.append_assoc, List.singleton_append] at hrev
  obtain ⟨hxy, hr⟩ := append_comma_inj (by simpa using hx) (by simpa using hy) hrev
  exact ⟨List.reverse_inj.mp hr, List.reverse_inj.mp hxy⟩

def row (fs : List String) : List Char := fs.flatMap fun f => f.toList ++ [',', ' ']

theorem toList_intercalate_append (fs : List String) (x : String) :
    (", ".intercalate (fs ++ [x])).toList = row fs ++ x.toList := by
  induction fs with
  | nil => simp [row]
  | cons f fs ih =>
    have hne : fs ++ [x] ≠ [] := by simp
    rw [List.cons_append, String.intercalate_cons_of_ne_nil hne, String.toList_append,
      String.toList_append, ih]
    simp [row]

theorem row_append_inj {fs gs : List String} (hlen : fs.length = gs.length)
    (hf : ∀ f ∈ fs, CommaFree f) (hg : ∀ g ∈ gs, CommaFree g)
    (h : row fs ++ r = row gs ++ r') : fs = gs ∧ r = r' := by
  induction fs generalizing gs with
  | nil =>
    obtain rfl := List.length_eq_zero_iff.mp hlen.symm
    exact ⟨rfl, h⟩
  | cons f fs ih =>
    cases gs with
    | nil => simp at hlen
    | cons g gs =>
      simp only [row, List.flatMap_cons, List.append_assoc, List.cons_append, List.nil_append] at h
      obtain ⟨hfg, hrest⟩ := append_comma_inj (hf f (by simp)) (hg g (by simp)) h
      obtain ⟨rfl, hr⟩ := ih (by simpa using hlen) (fun x hx => hf x (by simp [hx]))
        (fun x hx => hg x (by simp [hx])) (List.cons.inj hrest).2
      exact ⟨by rw [String.toList_inj.mp hfg], hr⟩

theorem count_row {fs : List String} (hf : ∀ f ∈ fs, CommaFree f) : (row fs).count ',' = fs.length := by
  induction fs with
  | nil => rfl
  | cons f fs ih =>
    have hfirst : f.toList.count ',' = 0 := List.count_eq_zero.mpr (hf f (by simp))
    have hrest := ih fun x hx => hf x (by simp [hx])
    simp only [row] at hrest
    simp [row, hfirst, hrest]

theorem toList_intercalate_ne_nil {fs : List String} (hne : fs ≠ []) (hf : ∀ f ∈ fs, f ≠ "") :
    (", ".intercalate fs).toList ≠ [] := by
  obtain ⟨fs, x, rfl⟩ := (List.eq_nil_or_concat' fs).resolve_left hne
  rw [toList_intercalate_append]
  intro h
  exact hf x (by simp) (String.toList_eq_nil_iff.mp (List.append_eq_nil_iff.mp h).2)

/-- The commas tell how many there are. -/
theorem intercalate_inj {fs gs : List String} (hf : ∀ f ∈ fs, CommaFree f ∧ f ≠ "")
    (hg : ∀ g ∈ gs, CommaFree g ∧ g ≠ "")
    (h : (", ".intercalate fs).toList = (", ".intercalate gs).toList) : fs = gs := by
  have hnil : (", ".intercalate []).toList = [] := rfl
  rcases List.eq_nil_or_concat' fs with rfl | ⟨fs, x, rfl⟩
  · by_contra hne
    exact toList_intercalate_ne_nil (Ne.symm hne) (fun g hg' => (hg g hg').2) (h.symm.trans hnil)
  · rcases List.eq_nil_or_concat' gs with rfl | ⟨gs, y, rfl⟩
    · exact absurd (h.trans hnil) (toList_intercalate_ne_nil (by simp) fun f hf' => (hf f hf').2)
    · rw [toList_intercalate_append, toList_intercalate_append] at h
      have hfree : ∀ f ∈ fs, CommaFree f := fun f hf' => (hf f (by simp [hf'])).1
      have hfree' : ∀ g ∈ gs, CommaFree g := fun g hg' => (hg g (by simp [hg'])).1
      have hcount := congrArg (List.count ',') h
      rw [List.count_append, List.count_append, count_row hfree, count_row hfree',
        List.count_eq_zero.mpr (hf x (by simp)).1, List.count_eq_zero.mpr (hg y (by simp)).1] at hcount
      obtain ⟨rfl, hxy⟩ := row_append_inj hcount hfree hfree' h
      rw [String.toList_inj.mp hxy]

/-! ### Signatures -/

theorem commaFree_toString (n : Int) : CommaFree (toString n) := by
  have hdigits : ∀ k : Nat, ',' ∉ k.repr.toList := by
    intro k hk
    rw [Nat.repr_eq_ofList_toDigits, String.toList_ofList] at hk
    exact absurd (Nat.isDigit_of_mem_toDigits (by decide) (by decide) hk) (by decide)
  cases n with
  | ofNat k => exact hdigits k
  | negSucc k =>
    have hneg : toString (Int.negSucc k) = "-" ++ (k + 1).repr := rfl
    rw [CommaFree, hneg, String.toList_append]
    simpa using hdigits (k + 1)

theorem commaFree_fields {t : Token} (h : ∀ s ∈ t.texts, CommaFree s) :
    ∀ f ∈ t.fields, CommaFree f := by
  have htexts : CommaFree t.mark.kind ∧ CommaFree t.mark.line.render ∧
      CommaFree t.mark.split.render ∧ CommaFree t.mark.scope := by
    cases t <;> simp_all [texts, mark]
  obtain ⟨hkind, hline, hsplit, hscope⟩ := htexts
  intro f hf
  simp only [fields, List.mem_cons, List.not_mem_nil, or_false] at hf
  rcases hf with rfl | rfl | rfl | rfl | rfl | rfl | rfl | rfl
  · exact hkind
  · exact hline
  iterate 4 exact commaFree_toString _
  · exact hsplit
  · exact hscope

theorem signature_site (i : Nat) (m : Mark) : (site i m).signature =
    "AbsToken(" ++ ", ".intercalate ((site i m).fields ++ [m.file]) ++ ")" := rfl

theorem toList_signature_site (i : Nat) (m : Mark) : (site i m).signature.toList =
      "AbsToken(".toList ++ (row (site i m).fields ++ (m.file.toList ++ [')'])) := by
  have hclose : ")".toList = [')'] := rfl
  simp only [signature_site, String.toList_append, toList_intercalate_append, List.append_assoc, hclose]

theorem row_append (fs gs : List String) : row (fs ++ gs) = row fs ++ row gs := List.flatMap_append

theorem row_concat (fs : List String) (f : String) : row (fs ++ [f]) = row fs ++ (f.toList ++ [',', ' ']) := by
  rw [row_append]
  simp [row]

def argNumbers (args : List Token) : String :=
  "[" ++ ", ".intercalate (args.map fun a => "#" ++ toString a.id) ++ "]"

theorem signature_jump (i : Nat) (m : Mark) (target : String) (args : List Token) :
    (jump i m target args).signature = "ScopeChangeToken(" ++ ", ".intercalate
      ((jump i m target args).fields ++ [target, argNumbers args, m.file]) ++ ")" := rfl

theorem toList_signature_jump (i : Nat) (m : Mark) (target : String) (args : List Token) :
    (jump i m target args).signature.toList =
      "ScopeChangeToken(".toList ++ (row ((jump i m target args).fields ++ [target]) ++
        ((argNumbers args).toList ++ ',' :: (' ' :: m.file.toList ++ [')']))) := by
  have hsplit : (jump i m target args).fields ++ [target, argNumbers args, m.file] =
      ((jump i m target args).fields ++ [target] ++ [argNumbers args]) ++ [m.file] := by simp
  have hclose : ")".toList = [')'] := rfl
  rw [signature_jump, hsplit, String.toList_append, String.toList_append, toList_intercalate_append,
    row_concat, hclose]
  simp only [List.append_assoc, List.cons_append, List.nil_append]

/-- What stands before the scope in the signature of a token. -/
def front (m : Mark) : List String :=
  [m.kind, m.line.render, toString m.pos, toString m.depth, toString m.order, toString m.flow,
    m.split.render]

theorem fields_site (i : Nat) (m : Mark) : (site i m).fields = front m ++ [m.scope] := rfl

/-- What stands before the file. -/
def heading : Token → List Char
  | site _ m => "AbsToken(".toList ++ (row (front m) ++ m.scope.toList)
  | jump i m g as =>
    "ScopeChangeToken(".toList ++ (row ((jump i m g as).fields ++ [g]) ++ (argNumbers as).toList)

theorem heading_site (i : Nat) (m : Mark) :
    (site i m).heading = "AbsToken(".toList ++ (row (front m) ++ m.scope.toList) := rfl

theorem heading_jump (i : Nat) (m : Mark) (g : String) (as : List Token) : (jump i m g as).heading =
    "ScopeChangeToken(".toList ++ (row ((jump i m g as).fields ++ [g]) ++ (argNumbers as).toList) := rfl

theorem toList_signature (t : Token) :
    t.signature.toList = t.heading ++ ',' :: (' ' :: t.mark.file.toList ++ [')']) := by
  cases t with
  | site i m =>
    rw [toList_signature_site, fields_site, row_concat, heading_site]
    simp only [mark, List.append_assoc, List.cons_append, List.nil_append]
  | jump i m g as =>
    rw [toList_signature_jump, heading_jump]
    simp only [mark, List.append_assoc]

theorem heading_of_same {a b : Token} (ha : CommaFree a.mark.file) (hb : CommaFree b.mark.file)
    (h : a.same b = true) : a.heading = b.heading ∧ a.mark.file = b.mark.file := by
  have hsig : a.signature.toList = b.signature.toList := by
    rw [same, beq_iff_eq] at h
    rw [h]
  rw [toList_signature, toList_signature] at hsig
  obtain ⟨hheading, hfile⟩ := append_comma_inj_right (x := ' ' :: a.mark.file.toList ++ [')'])
    (y := ' ' :: b.mark.file.toList ++ [')']) (by simpa [CommaFree] using ha)
    (by simpa [CommaFree] using hb) hsig
  exact ⟨hheading, String.toList_inj.mp (List.append_cancel_right (List.cons.inj hfile).2)⟩

theorem length_fields (t : Token) : t.fields.length = 8 := rfl

variable {as bs : List Token}

theorem fields_of_heading_jump {g g' : String}
    (ha : ∀ s ∈ (jump i m g as).texts, CommaFree s) (hb : ∀ s ∈ (jump j n g' bs).texts, CommaFree s)
    (h : (jump i m g as).heading = (jump j n g' bs).heading) :
    (jump i m g as).fields = (jump j n g' bs).fields ∧ g = g' ∧ argNumbers as = argNumbers bs := by
  have hfree : ∀ (k : Nat) (x : Mark) (target : String) (args : List Token),
      (∀ s ∈ (jump k x target args).texts, CommaFree s) →
      ∀ f ∈ (jump k x target args).fields ++ [target], CommaFree f := by
    intro k x target args hx f hf
    rcases List.mem_append.mp hf with hf | hf
    · exact commaFree_fields hx f hf
    · exact hx f (by simp [texts, List.mem_singleton.mp hf])
  rw [heading_jump, heading_jump, List.append_cancel_left_eq] at h
  obtain ⟨hrow, hargs⟩ := row_append_inj (by simp [length_fields]) (hfree _ _ _ _ ha) (hfree _ _ _ _ hb) h
  obtain ⟨hfields, htarget⟩ := List.append_inj hrow (by rw [length_fields, length_fields])
  exact ⟨hfields, List.singleton_inj.mp htarget, String.toList_inj.mp hargs⟩

theorem fields_of_same {a b : Token} (ha : ∀ s ∈ a.texts, CommaFree s)
    (hb : ∀ s ∈ b.texts, CommaFree s) (h : a.same b = true) :
    a.fields = b.fields ∧ a.mark.file = b.mark.file := by
  have hfile : ∀ t : Token, (∀ s ∈ t.texts, CommaFree s) → CommaFree t.mark.file := fun t ht => by
    cases t <;> exact ht _ (by simp [texts, mark])
  obtain ⟨hheading, hfiles⟩ := heading_of_same (hfile a ha) (hfile b hb) h
  refine ⟨?_, hfiles⟩
  cases a with
  | site i m =>
    cases b with
    | site j n =>
      rw [heading_site, heading_site, List.append_cancel_left_eq] at hheading
      obtain ⟨hfront, hscope⟩ := row_append_inj (by rfl)
        (fun f hf => commaFree_fields ha f (by simp [fields_site, hf]))
        (fun f hf => commaFree_fields hb f (by simp [fields_site, hf])) hheading
      rw [fields_site, fields_site, hfront, String.toList_inj.mp hscope]
    | jump j n g bs => simp [heading_site, heading_jump] at hheading
  | jump i m g as =>
    cases b with
    | site j n => simp [heading_site, heading_jump] at hheading
    | jump j n g' bs => exact (fields_of_heading_jump ha hb hheading).1

theorem commaFree_front (hkind : CommaFree m.kind) (hline : ∃ n, m.line = .number n)
    (hsplit : ∃ n, m.split = .number n) : ∀ f ∈ front m, CommaFree f := by
  obtain ⟨line, hline⟩ := hline
  obtain ⟨split, hsplit⟩ := hsplit
  simpa [front, hline, hsplit, hkind, Label.render] using ⟨commaFree_toString line,
    commaFree_toString m.pos, commaFree_toString m.depth, commaFree_toString m.order,
    commaFree_toString m.flow, commaFree_toString split⟩

theorem front_of_same_site (hm : ∀ f ∈ front m, CommaFree f)
    (hn : ∀ f ∈ front n, CommaFree f) (h : (site i m).same (site j n) = true) :
    front m = front n ∧ row [m.scope] ++ m.file.toList = row [n.scope] ++ n.file.toList := by
  have hrow : ∀ (l : Nat) (x : Mark), row (site l x).fields = row (front x) ++ row [x.scope] :=
    fun l x => by rw [fields_site, row_append]
  have hsig := congrArg String.toList (eq_of_beq h)
  rw [toList_signature_site, toList_signature_site, List.append_cancel_left_eq, hrow, hrow,
    List.append_assoc, List.append_assoc] at hsig
  obtain ⟨hfront, hrest⟩ := row_append_inj (by rfl : (front m).length = (front n).length) hm hn hsig
  rw [← List.append_assoc, ← List.append_assoc] at hrest
  exact ⟨hfront, List.append_cancel_right hrest⟩

theorem pos_of_same_site (hm : CommaFree m.kind ∧ CommaFree m.line.render)
    (hn : CommaFree n.kind ∧ CommaFree n.line.render) (h : (site i m).same (site j n) = true) :
    m.pos = n.pos := by
  have hrow : ∀ (k : Nat) (x : Mark), row (site k x).fields =
      row [x.kind, x.line.render, toString x.pos] ++ row [toString x.depth, toString x.order,
        toString x.flow, x.split.render, x.scope] := fun k x => by simp [row, fields, mark]
  have hsig := congrArg String.toList (eq_of_beq h)
  rw [toList_signature_site, toList_signature_site, List.append_cancel_left_eq, hrow, hrow,
    List.append_assoc, List.append_assoc] at hsig
  have hfree : ∀ x : Mark, CommaFree x.kind ∧ CommaFree x.line.render →
      ∀ f ∈ [x.kind, x.line.render, toString x.pos], CommaFree f := by
    rintro x ⟨hkind, hline⟩ f hf
    simp only [List.mem_cons, List.not_mem_nil, or_false] at hf
    rcases hf with rfl | rfl | rfl
    · exact hkind
    · exact hline
    · exact commaFree_toString _
  obtain ⟨hfirst, -⟩ := row_append_inj (by simp) (hfree m hm) (hfree n hn) hsig
  simp only [List.cons.injEq, and_true] at hfirst
  exact Int.repr_inj.mp hfirst.2.2

theorem fields_eq_iff {a b : Token} : a.fields = b.fields ↔
    a.kind = b.kind ∧ a.mark.line.render = b.mark.line.render ∧ a.pos = b.pos ∧
      a.mark.depth = b.mark.depth ∧ a.mark.order = b.mark.order ∧ a.mark.flow = b.mark.flow ∧
      a.split.render = b.split.render ∧ a.scope = b.scope := by
  have hnum : ∀ m n : Int, toString m = toString n ↔ m = n := fun m n => Int.repr_inj
  simp only [fields, List.cons.injEq, hnum, kind, pos, split, scope, and_true]

theorem same_site (hf : (site i m).fields = (site j n).fields)
    (hfile : m.file = n.file) : (site i m).same (site j n) = true := by
  rw [same, beq_iff_eq, signature_site, signature_site, hf, hfile]

theorem same_jump {g : String}
    (hf : (jump i m g as).fields = (jump j n g bs).fields) (hfile : m.file = n.file)
    (hargs : as.map Token.id = bs.map Token.id) : (jump i m g as).same (jump j n g bs) = true := by
  have hnumbers : argNumbers as = argNumbers bs := by
    have hmap := congrArg (List.map fun i : Nat => "#" ++ toString i) hargs
    rw [List.map_map, List.map_map] at hmap
    exact congrArg (fun ns => "[" ++ ", ".intercalate ns ++ "]") hmap
  rw [same, beq_iff_eq, signature_jump, signature_jump, hf, hfile, hnumbers]

/-! ### Tokens that are alike -/

theorem map_id_of_argNumbers (h : argNumbers as = argNumbers bs) :
    as.map Token.id = bs.map Token.id := by
  have hfree : ∀ ts : List Token, ∀ f ∈ ts.map fun a => "#" ++ toString a.id, CommaFree f ∧ f ≠ "" := by
    intro ts f hf
    obtain ⟨t, -, rfl⟩ := List.mem_map.mp hf
    have hid : CommaFree (toString t.id) := commaFree_toString t.id
    simpa [CommaFree, ← String.toList_inj] using hid
  have hinner : (", ".intercalate (as.map fun a => "#" ++ toString a.id)).toList =
      (", ".intercalate (bs.map fun a => "#" ++ toString a.id)).toList := by
    have hlist := congrArg String.toList h
    simp only [argNumbers, String.toList_append] at hlist
    exact List.append_cancel_left (List.append_cancel_right hlist)
  have hnumbers := intercalate_inj (hfree as) (hfree bs) hinner
  have hone : Function.Injective fun i : Nat => "#" ++ toString i := fun i j hij => by
    simpa using hij
  refine List.map_injective_iff.mpr hone ?_
  rw [List.map_map, List.map_map]
  exact hnumbers

end Token

/-- The line and the split are numbers, and no text has a comma. -/
structure Mark.Plain (m : Mark) : Prop where
  kind : CommaFree m.kind
  line : ∃ n, m.line = .number n
  split : ∃ n, m.split = .number n
  scope : CommaFree m.scope
  file : CommaFree m.file

namespace Token

theorem commaFree_texts_site (h : m.Plain) : ∀ s ∈ (site i m).texts, CommaFree s := by
  obtain ⟨k, hk⟩ := h.line
  obtain ⟨l, hl⟩ := h.split
  have hline : CommaFree m.line.render := hk ▸ commaFree_toString k
  have hsplit : CommaFree m.split.render := hl ▸ commaFree_toString l
  simpa [texts] using ⟨h.kind, hline, hsplit, h.scope, h.file⟩

theorem commaFree_texts_jump {g : String} {as : List Token} (h : m.Plain) (hg : CommaFree g) :
    ∀ s ∈ (jump i m g as).texts, CommaFree s := by
  intro s hs
  have hs : s ∈ (site i m).texts ++ [g] := hs
  rcases List.mem_append.mp hs with hs | hs
  · exact commaFree_texts_site h s hs
  · rwa [List.mem_singleton.mp hs]

theorem mark_of_same {a b : Token} (ha : a.mark.Plain) (hb : b.mark.Plain)
    (hfields : a.fields = b.fields) (hfile : a.mark.file = b.mark.file) : a.mark = b.mark := by
  have hnumber : ∀ l l' : Label, (∃ n, l = .number n) → (∃ n, l' = .number n) →
      l.render = l'.render → l = l' := by
    rintro _ _ ⟨n, rfl⟩ ⟨n', rfl⟩ h
    exact congrArg Label.number (Int.repr_inj.mp h)
  obtain ⟨hkind, hline, hpos, hdepth, horder, hflow, hsplit, hscope⟩ := fields_eq_iff.mp hfields
  have hline := hnumber _ _ ha.line hb.line hline
  have hsplit := hnumber _ _ ha.split hb.split hsplit
  cases hm : a.mark
  cases hn : b.mark
  simp_all [kind, pos, split, scope]

/-- Tokens are alike if and only if they agree in every field, where arguments count by their
numbers; this is so since no field can be mistaken for the next one. -/
theorem same_iff_fields :
    (∀ i j m n, m.Plain → n.Plain → ((site i m).same (site j n) = true ↔ m = n)) ∧
    (∀ i j m n g h as bs, m.Plain → n.Plain → CommaFree g → CommaFree h →
      ((jump i m g as).same (jump j n h bs) = true ↔
        m = n ∧ g = h ∧ as.map Token.id = bs.map Token.id)) ∧
    ∀ i j m n g as, (site i m).same (jump j n g as) = false ∧
      (jump j n g as).same (site i m) = false := by
  have hcross : ∀ i j m n g as, (site i m).signature ≠ (jump j n g as).signature := by
    intro i j m n g as h
    have hlist := congrArg String.toList h
    rw [toList_signature_site, toList_signature_jump] at hlist
    simp at hlist
  refine ⟨fun i j m n hm hn => ⟨fun h => ?_, ?_⟩,
    fun i j m n g h as bs hm hn hg hh => ⟨fun hsame => ?_, ?_⟩, fun i j m n g as => ?_⟩
  · obtain ⟨hfields, hfile⟩ := fields_of_same (commaFree_texts_site hm) (commaFree_texts_site hn) h
    exact mark_of_same (a := site i m) (b := site j n) hm hn hfields hfile
  · rintro rfl
    exact same_site rfl rfl
  · obtain ⟨hheading, hfile⟩ := heading_of_same (a := jump i m g as) (b := jump j n h bs) hm.file hn.file hsame
    obtain ⟨hfields, htarget, hargs⟩ := fields_of_heading_jump (commaFree_texts_jump hm hg)
      (commaFree_texts_jump hn hh) hheading
    exact ⟨mark_of_same (a := jump i m g as) (b := jump j n h bs) hm hn hfields hfile, htarget,
      map_id_of_argNumbers hargs⟩
  · rintro ⟨rfl, rfl, hargs⟩
    exact same_jump rfl rfl hargs
  · exact ⟨beq_eq_false_iff_ne.mpr (hcross i j m n g as),
      beq_eq_false_iff_ne.mpr (hcross i j m n g as).symm⟩

def farMark : Mark := ⟨"VAR1", .number 12, -3, 0, 1, 2, .number 345, "FUNC1", "lib/m.php"⟩

/-- The third call has arguments like those of the second, but one is another occurrence. -/
theorem same_iff_fields_calls :
    (site 8 farMark).same (site 9 { farMark with pos := 3 }) = false ∧
    (jump 3 farMark "FUNC2" [site 1 farMark, site 2 farMark]).same
      (jump 4 farMark "FUNC2" [site 1 farMark, site 2 farMark]) = true ∧
    (jump 4 farMark "FUNC2" [site 1 farMark, site 2 farMark]).same
      (jump 7 farMark "FUNC2" [site 1 farMark, site 5 farMark]) = false := by
  have hplain : farMark.Plain := ⟨by decide, ⟨_, rfl⟩, ⟨_, rfl⟩, by decide, by decide⟩
  have hplain' : Mark.Plain { farMark with pos := 3 } := ⟨hplain.1, hplain.2, hplain.3, hplain.4, hplain.5⟩
  have hfree : CommaFree "FUNC2" := by decide
  refine ⟨?_, (same_iff_fields.2.1 _ _ _ _ _ _ _ _ hplain hplain hfree hfree).mpr ⟨rfl, rfl, rfl⟩, ?_⟩
  · rw [← Bool.not_eq_true, same_iff_fields.1 _ _ _ _ hplain hplain']
    decide
  · rw [← Bool.not_eq_true, same_iff_fields.2.1 _ _ _ _ _ _ _ _ hplain hplain hfree hfree]
    decide

end Token

end MaskedTaint
