import MaskedTaint.Proofs.Flow.Numbering
import MaskedTaint.Proofs.Wire.Parsing
import MaskedTaint.Wire.Record

/-! Tokens, findings and structures that are written and read again. All that is lost are the
numbers of the tokens: they are given out anew, in the order in which the objects end in the
text. -/

namespace MaskedTaint

/-! ### Fields -/

def Label.toValue : Label → Value
  | number n => .number n
  | text s => .text s

@[simp] theorem Label.ofValue?_toValue (l : Label) : Label.ofValue? l.toValue = some l := by
  cases l <;> rfl

@[simp] theorem Value.decode_label (hook : Value.Hook) (n : Nat) (l : Label) :
    Value.decode hook n l.toJson = .ok (l.toValue, n) := by
  cases l <;> simp [Label.toJson, Value.decode, Label.toValue]

namespace Token

def markData (m : Mark) : List Value :=
  [.text m.kind, m.line.toValue, .number m.pos, .number m.depth, .number m.order, .number m.flow,
    m.split.toValue, .text m.scope, .text m.file]

@[simp] theorem markOf?_markData (m : Mark) : markOf? (markData m) = some m := by
  simp [markOf?, markData, Value.text?, Value.number?]

theorem decodeFields_mark (hook : Value.Hook) (n : Nat) (m : Mark) (rest : List (String × Json)) :
    Value.decodeFields hook n (Form.site.fields.zip (markValues m) ++ rest) =
      (Value.decodeFields hook n rest).map fun r =>
        (Form.site.fields.zip (markData m) ++ r.1, r.2) := by
  cases h : Value.decodeFields hook n rest <;>
    simp [Form.fields, Form.siteFields, markValues, markData, Value.decodeFields, Value.decode, h,
      bind, Except.bind, pure, Except.pure, Except.map]

theorem toJson_jump (i : Nat) (m : Mark) (target : String) (args : List Token) :
    toJson (jump i m target args) = .object (Form.site.fields.zip (markValues m) ++
      [("scope_name", .text target), ("arguments", .list (listToJson args))]) := by
  simp [toJson, Form.fields, Form.siteFields, markValues]

theorem apply_site (n : Nat) (m : Mark) :
    Value.Hook.tokens.apply n (Form.site.fields.zip (markData m)) =
      .ok (.record n .site (markData m)) := by
  simp [Value.Hook.apply, Value.recordOf, Value.require, Form.fields, Form.siteFields,
    Form.shownFields, markData, List.lookup_cons, List.lookup_nil, bind, Except.bind, pure, Except.pure]

theorem apply_jump (n : Nat) (m : Mark) (target : String) (args : List Value) :
    Value.Hook.tokens.apply n (Form.site.fields.zip (markData m) ++
      [("scope_name", .text target), ("arguments", .list args)]) =
      .ok (.record n .jump (markData m ++ [.text target, .list args])) := by
  simp [Value.Hook.apply, Value.recordOf, Value.require, Form.fields, Form.siteFields,
    Form.shownFields, markData, List.lookup_cons, List.lookup_nil, bind, Except.bind, pure, Except.pure]

/-! ### Tokens -/

mutual

theorem decode_toJson : ∀ (t : Token) (n : Nat), ∃ v,
    Value.decode .tokens n (toJson t) = .ok (v, (t.numbered n).2) ∧ ofValue? v = some (t.numbered n).1
  | site i m, n => by
    have hfields := decodeFields_mark .tokens n m []
    simp only [List.append_nil, Value.decodeFields, Except.map] at hfields
    refine ⟨.record n .site (markData m), ?_, ?_⟩
    · rw [toJson, Value.decode, hfields]
      simp only [bind, Except.bind, apply_site]
      rfl
    · simp [ofValue?, numbered]
  | jump i m target args, n => by
    obtain ⟨vs, hvs, hargs⟩ := decode_listToJson args n
    have hfields := decodeFields_mark .tokens n m
      [("scope_name", .text target), ("arguments", .list (listToJson args))]
    simp only [Value.decodeFields, Value.decode, hvs, bind, Except.bind, pure, Except.pure,
      Except.map] at hfields
    refine ⟨.record (numberedAll n args).2 .jump (markData m ++ [.text target, .list vs]), ?_, ?_⟩
    · rw [toJson_jump, Value.decode, hfields]
      simp only [bind, Except.bind, apply_jump]
      rfl
    · have hmark := markOf?_markData m
      rw [markData] at hmark
      simp [ofValue?, markData, hmark, hargs, Value.text?, numbered]

theorem decode_listToJson : ∀ (ts : List Token) (n : Nat), ∃ vs,
    Value.decodeItems .tokens n (listToJson ts) = .ok (vs, (numberedAll n ts).2) ∧
      listOfValues? vs = some (numberedAll n ts).1
  | [], n => ⟨[], by simp [listToJson, Value.decodeItems, numberedAll], rfl⟩
  | t :: ts, n => by
    obtain ⟨v, hv, ht⟩ := decode_toJson t n
    obtain ⟨vs, hvs, hts⟩ := decode_listToJson ts (t.numbered n).2
    refine ⟨v :: vs, ?_, ?_⟩
    · rw [listToJson, Value.decodeItems, hv]
      simp only [bind, Except.bind, hvs]
      rfl
    · simp [listOfValues?, ht, hts, numberedAll]

end

theorem nodup_fields (form : Form) : form.fields.Nodup := by cases form <;> decide

theorem names_zip_fields (form : Form) (js : List Json) (h : js.length = form.fields.length) :
    (form.fields.zip js).map Prod.fst = form.fields :=
  List.map_fst_zip (Nat.le_of_eq h.symm)

mutual

theorem distinct_toJson : ∀ t : Token, (toJson t).Distinct
  | site i m => by
    rw [toJson, Json.Distinct, names_zip_fields .site _ rfl]
    refine ⟨nodup_fields .site, ?_⟩
    cases hl : m.line <;> cases hs : m.split <;>
      simp [Form.fields, Form.siteFields, markValues, hl, hs, Label.toJson, Json.DistinctFields,
        Json.Distinct]
  | jump i m target args => by
    have hargs := distinct_listToJson args
    rw [toJson, Json.Distinct, names_zip_fields .jump _ rfl]
    refine ⟨nodup_fields .jump, ?_⟩
    cases hl : m.line <;> cases hs : m.split <;>
      simp [Form.fields, Form.siteFields, markValues, hl, hs, Label.toJson, Json.DistinctFields,
        Json.Distinct, hargs]

theorem distinct_listToJson : ∀ ts : List Token, Json.DistinctItems (listToJson ts)
  | [] => trivial
  | t :: ts => ⟨distinct_toJson t, distinct_listToJson ts⟩

end

end Token

/-! ### Structures -/

namespace Structure

def recordWords : List String := ["scope_name", "token_type"]

def Writable (d : Structure) : Prop :=
  d.Distinct ∧ (∀ w ∈ recordWords, w ∉ d.names) ∧ ∀ e ∈ d, ∀ w ∈ recordWords, w ∉ e.2.names

theorem lookup_eq_none {α : Type} {es : List (String × α)} {name : String}
    (h : name ∉ es.map Prod.fst) : es.lookup name = none := by
  rw [List.lookup_eq_none_iff]
  intro e he
  simpa using fun heq : name = e.1 => h (heq ▸ List.mem_map_of_mem he)

theorem apply_dict (es : List (String × Value)) (h : ∀ w ∈ recordWords, w ∉ es.map Prod.fst) (n : Nat) :
    Value.Hook.tokens.apply n es = .ok (.dict es) := by
  have hjump := lookup_eq_none (h "scope_name" (by decide))
  have hsite := lookup_eq_none (h "token_type" (by decide))
  simp [Value.Hook.apply, hjump, hsite, pure, Except.pure]

theorem decode_lists (n : Nat) (ls : List (String × List Token)) : ∃ vs,
    Value.decodeFields .tokens n (ls.map fun l => (l.1, .list (Token.listToJson l.2))) =
      .ok (vs, (numberedLists n ls).2) ∧ vs.map Prod.fst = ls.map Prod.fst ∧
    vs.mapM (fun e : String × Value =>
      match e.2 with
      | .list items =>
        match Token.listOfValues? items with
        | some ts => Except.ok (e.1, ts)
        | none => .error WireError.malformed
      | _ => .error .malformed) = .ok (numberedLists n ls).1 := by
  induction ls generalizing n with
  | nil => exact ⟨[], by simp [Value.decodeFields, numberedLists], rfl, rfl⟩
  | cons l ls ih =>
    obtain ⟨key, ts⟩ := l
    obtain ⟨items, hitems, hts⟩ := Token.decode_listToJson ts n
    obtain ⟨vs, hvs, hnames, hread⟩ := ih (Token.numberedAll n ts).2
    refine ⟨(key, .list items) :: vs, ?_, by simp [hnames], ?_⟩
    · rw [List.map_cons, Value.decodeFields, Value.decode, hitems]
      simp only [bind, Except.bind, pure, Except.pure, hvs]
      rfl
    · rw [List.mapM_cons, hread]
      simp only [hts]
      rfl

theorem decode_scopes (n : Nat) (es : List (String × Scope))
    (h : ∀ e ∈ es, e.2.names.Nodup ∧ ∀ w ∈ recordWords, w ∉ e.2.names) : ∃ vs,
    Value.decodeFields .tokens n (es.map fun e => (e.1, .object (e.2.map fun l =>
        (l.1, .list (Token.listToJson l.2))))) = .ok (vs, (numberedScopes n es).2) ∧
    vs.map Prod.fst = es.map Prod.fst ∧
    vs.mapM (fun e : String × Value => do return (e.1, ← scopeOfValue e.2)) =
      .ok (numberedScopes n es).1 := by
  induction es generalizing n with
  | nil => exact ⟨[], by simp [Value.decodeFields, numberedScopes], rfl, rfl⟩
  | cons e es ih =>
    obtain ⟨name, s⟩ := e
    obtain ⟨hnodup, hwords⟩ := h (name, s) (by simp)
    obtain ⟨ls, hls, hkeys, hlists⟩ := decode_lists n s
    obtain ⟨vs, hvs, hnames, hread⟩ := ih ((numberedLists n s).2 + 1) fun e he => h e (by simp [he])
    have hdict := apply_dict ls (fun w hw => hkeys ▸ hwords w hw) (numberedLists n s).2
    refine ⟨(name, .dict ls) :: vs, ?_, by simp [hnames], ?_⟩
    · rw [List.map_cons, Value.decodeFields, Value.decode]
      simp only [hls, bind, Except.bind, hdict, pure, Except.pure, hvs]
      rfl
    · have hscope : scopeOfValue (.dict ls) = .ok (numberedLists n s).1 := by
        have htable : Table.ofEntries (numberedLists n s).1 = (numberedLists n s).1 :=
          Table.ofEntries_of_nodup ((names_numberedLists n s).symm ▸ hnodup)
        exact (congrArg (fun r => r >>= fun lists => pure (Table.ofEntries lists)) hlists).trans
          (congrArg Except.ok htable)
      rw [List.mapM_cons, hread, hscope]
      rfl

variable {d : Structure}

theorem distinct_toJson (hd : d.Distinct) : d.toJson.Distinct := by
  have hlists : ∀ s : Scope, Json.DistinctFields (s.map fun l => (l.1, .list (Token.listToJson l.2))) := by
    intro s
    induction s with
    | nil => trivial
    | cons l s ih => exact ⟨Token.distinct_listToJson l.2, ih⟩
  have hscopes : ∀ es : List (String × Scope), (∀ e ∈ es, e.2.names.Nodup) → Json.DistinctFields
      (es.map fun e => (e.1, .object (e.2.entries.map fun l => (l.1, .list (Token.listToJson l.2))))) := by
    intro es hes
    induction es with
    | nil => trivial
    | cons e es ih =>
      refine ⟨⟨?_, hlists e.2⟩, ih fun e he => hes e (by simp [he])⟩
      have hnames := hes e (by simp)
      simpa [Table.names, Table.entries, Function.comp_def] using hnames
  refine ⟨?_, hscopes d hd.2⟩
  simpa [Table.names, Table.entries, Function.comp_def] using hd.1

theorem ofText_toText (h : d.Writable) : ofText d.toText = .ok d.numbered := by
  obtain ⟨hd, hnames, hkeys⟩ := h
  obtain ⟨vs, hvs, hvnames, hread⟩ := decode_scopes 0 d fun e he => ⟨hd.2 e he, hkeys e he⟩
  have hdict := apply_dict vs (fun w hw => hvnames ▸ hnames w hw) (numberedScopes 0 d).2
  have hdecode : Value.decode .tokens 0 d.toJson = .ok (.dict vs, (numberedScopes 0 d).2 + 1) := by
    rw [toJson, Value.decode]
    have hfields := congrArg (fun r => r >>= fun r => Value.Hook.tokens.apply r.2 r.1 >>= fun v =>
      pure (v, r.2 + 1)) hvs
    exact hfields.trans (by simp only [bind, Except.bind, hdict]; rfl)
  have htable : Table.ofEntries (numberedScopes 0 d).1 = d.numbered :=
    Table.ofEntries_of_nodup ((names_numberedScopes 0 d).symm ▸ hd.1)
  have hvalue : ofValue (.dict vs) = .ok d.numbered :=
    (congrArg (fun r => r >>= fun scopes => pure (Table.ofEntries scopes)) hread).trans
      (congrArg Except.ok htable)
  simp only [ofText, Value.read, toText, Json.parse?_render (distinct_toJson hd), hdecode, Except.map,
    bind, Except.bind, hvalue]

def unnumberedLists (ls : Scope) : Scope := ls.map fun l => (l.1, Token.unnumberedAll l.2)

/-- The structure without the numbers of its tokens: what tells its scopes, keys and tokens, with
all their fields and arguments, from those of another. -/
def unnumbered (d : Structure) : Structure := d.map fun e => (e.1, unnumberedLists e.2)

theorem unnumberedLists_numberedLists (n : Nat) (ls : Scope) :
    unnumberedLists (numberedLists n ls).1 = unnumberedLists ls := by
  induction ls generalizing n with
  | nil => rfl
  | cons l ls ih =>
    exact List.cons_eq_cons.mpr ⟨Prod.ext rfl (Token.unnumberedAll_numberedAll l.2 n), ih _⟩

theorem unnumbered_numberedScopes (n : Nat) (es : List (String × Scope)) :
    unnumbered (numberedScopes n es).1 = unnumbered es := by
  induction es generalizing n with
  | nil => rfl
  | cons e es ih =>
    exact List.cons_eq_cons.mpr ⟨Prod.ext rfl (unnumberedLists_numberedLists n e.2), ih _⟩

/-- The file of a structure is read as the structure, unless a scope or a key has the name of a
field that tokens are known by. -/
theorem ofText_toText_unnumbered {d : Structure} (hd : d.Distinct)
    (hnames : ∀ w ∈ recordWords, w ∉ d.names) (hkeys : ∀ e ∈ d, ∀ w ∈ recordWords, w ∉ e.2.names) :
    ∃ e, ofText d.toText = .ok e ∧ e.unnumbered = d.unnumbered :=
  ⟨_, ofText_toText ⟨hd, hnames, hkeys⟩, unnumbered_numberedScopes 0 d⟩

/-- A call inside a call, negative numbers, and names with quotes, commas and other characters. -/
def nestedCalls : Structure :=
  let mark (kind : String) (pos : Int) : Mark :=
    ⟨kind, .number (-3), pos, 0, 1, -2, .text "17", "päge, \"1\".php", "𝔭/päge, \"1\".php"⟩
  let argument := Token.jump 4 (mark "FUNC_CALL" 12) "token_pos"
    [.site 4 (mark "INPUT" 100000000000000000000)]
  [("päge, \"1\".php", [("FUNC_CALL", [.jump 9 (mark "FUNC_CALL" (-1)) "FUNC2" [argument, argument]]),
    ("split", [])]), ("", [])]

theorem ofText_toText_unnumbered_nestedCalls : nestedCalls.Distinct ∧
    ∃ e, ofText nestedCalls.toText = .ok e ∧ e.unnumbered = nestedCalls.unnumbered :=
  ⟨by decide, ofText_toText_unnumbered (by decide) (by decide) (by decide)⟩

theorem lookup_isSome {α : Type} {es : List (String × α)} {name : String}
    (h : name ∈ es.map Prod.fst) : (es.lookup name).isSome = true := by
  rw [List.lookup_isSome_iff]
  obtain ⟨e, he, rfl⟩ := List.mem_map.mp h
  exact ⟨e, he, by simp⟩

theorem apply_word {es : List (String × Value)} {w : String} (hw : w ∈ recordWords)
    (hname : w ∈ es.map Prod.fst) (n : Nat) : (∃ e, Value.Hook.tokens.apply n es = .error e) ∨
      ∃ form fields, Value.Hook.tokens.apply n es = .ok (.record n form fields) := by
  have hsome := lookup_isSome hname
  have hrecord : ∀ (form : Form) (names : List String),
      let r := Value.require es names >>= fun _ => pure (Value.recordOf n form es)
      (∃ e, r = .error e) ∨ ∃ form fields, r = .ok (.record n form fields) := by
    intro form names
    cases Value.require es names with
    | error e => exact .inl ⟨e, rfl⟩
    | ok u => exact .inr ⟨form, _, rfl⟩
  unfold Value.Hook.apply
  dsimp only
  split
  · exact hrecord .jump _
  · rename_i hjump
    have hword : w = "token_type" := by
      rcases List.mem_cons.mp hw with rfl | hw
      · exact absurd hsome hjump
      · exact List.mem_singleton.mp hw
    rw [if_pos (hword ▸ hsome)]
    exact hrecord .site _

theorem ofText_toText_error (hd : d.Distinct)
    (hkeys : ∀ e ∈ d, ∀ w ∈ recordWords, w ∉ e.2.names) {w : String} (hw : w ∈ recordWords)
    (hname : w ∈ d.names) : ∃ e, ofText d.toText = .error e := by
  obtain ⟨vs, hvs, hvnames, _⟩ := decode_scopes 0 d fun e he => ⟨hd.2 e he, hkeys e he⟩
  have hname : w ∈ vs.map Prod.fst := hvnames ▸ hname
  have happly := apply_word hw hname (numberedScopes 0 d).2
  have hdecode : Value.decode .tokens 0 d.toJson =
      Value.Hook.tokens.apply (numberedScopes 0 d).2 vs >>= fun v =>
        pure (v, (numberedScopes 0 d).2 + 1) := by
    rw [toJson, Value.decode]
    exact congrArg (fun r => r >>= fun r => Value.Hook.tokens.apply r.2 r.1 >>= fun v =>
      pure (v, r.2 + 1)) hvs
  simp only [ofText, Value.read, toText, Json.parse?_render (distinct_toJson hd), hdecode]
  rcases happly with ⟨e, he⟩ | ⟨form, fields, hf⟩
  · exact ⟨e, by simp only [he, bind, Except.bind, Except.map]⟩
  · simp only [hf, bind, Except.bind, Except.map, pure, Except.pure, ofValue]
    exact ⟨_, rfl⟩

end Structure

/-! ### Findings -/

namespace Finding

theorem apply_finding (n : Nat) (kind line pos file target args : Value) :
    Value.Hook.findings.apply n (Form.finding.fields.zip [kind, line, pos, file, target, args]) =
      .ok (.record n .finding [kind, line, pos, file, target, args]) := by
  simp [Value.Hook.apply, Value.recordOf, Value.require, Form.fields, List.lookup_cons,
    List.lookup_nil, bind, Except.bind, pure, Except.pure]

mutual

theorem decode_toJson : ∀ (f : Finding) (n : Nat), ∃ v n',
    Value.decode .findings n (toJson f) = .ok (v, n') ∧ ofValue? v = some f
  | mk kind line pos file target none, n => by
    refine ⟨.record n .finding [.text kind, line.toValue, .number pos, .text file,
      (target.map Value.text).getD .null, .null], n + 1, ?_, ?_⟩
    · have happly := apply_finding n (.text kind) line.toValue (.number pos) (.text file)
        ((target.map Value.text).getD .null) .null
      cases target <;>
        simp_all [toJson, Value.decode, Value.decodeFields, Form.fields, bind, Except.bind, pure,
          Except.pure]
    · cases target <;> simp [ofValue?, Value.text?, Value.number?]
  | mk kind line pos file target (some args), n => by
    obtain ⟨vs, n', hvs, hargs⟩ := decode_listToJson args n
    refine ⟨.record n' .finding [.text kind, line.toValue, .number pos, .text file,
      (target.map Value.text).getD .null, .list vs], n' + 1, ?_, ?_⟩
    · have happly := apply_finding n' (.text kind) line.toValue (.number pos) (.text file)
        ((target.map Value.text).getD .null) (.list vs)
      cases target <;>
        simp_all [toJson, Value.decode, Value.decodeFields, Form.fields, bind, Except.bind, pure,
          Except.pure]
    · cases target <;> simp [ofValue?, Value.text?, Value.number?, hargs]

theorem decode_listToJson : ∀ (fs : List Finding) (n : Nat), ∃ vs n',
    Value.decodeItems .findings n (listToJson fs) = .ok (vs, n') ∧ listOfValues? vs = some fs
  | [], n => ⟨[], n, by simp [listToJson, Value.decodeItems], rfl⟩
  | f :: fs, n => by
    obtain ⟨v, n₁, hv, hf⟩ := decode_toJson f n
    obtain ⟨vs, n', hvs, hfs⟩ := decode_listToJson fs n₁
    refine ⟨v :: vs, n', ?_, ?_⟩
    · rw [listToJson, Value.decodeItems, hv]
      simp only [bind, Except.bind, hvs]
      rfl
    · simp [listOfValues?, hf, hfs]

end

mutual

theorem distinct_toJson : ∀ f : Finding, (toJson f).Distinct
  | mk kind line pos file target none => by
    cases line <;> cases target <;>
      simp [toJson, Form.fields, Label.toJson, Json.DistinctFields, Json.Distinct]
  | mk kind line pos file target (some args) => by
    have hargs := distinct_listToJson args
    cases line <;> cases target <;>
      simp [toJson, Form.fields, Label.toJson, Json.DistinctFields, Json.Distinct, hargs]

theorem distinct_listToJson : ∀ fs : List Finding, Json.DistinctItems (listToJson fs)
  | [] => trivial
  | f :: fs => ⟨distinct_toJson f, distinct_listToJson fs⟩

end

theorem pathsOfText_render {α : Type} (items : α → List Json) (read : α → List Finding)
    (hd : ∀ a, Json.DistinctItems (items a))
    (hread : ∀ a n, ∃ vs n', Value.decodeItems .findings n (items a) = .ok (vs, n') ∧
      listOfValues? vs = some (read a)) (paths : List α) :
    pathsOfText ((Json.list (paths.map fun p => .list (items p))).render (some 4)) =
      .ok (paths.map read) := by
  have hdistinct : ∀ paths : List α, Json.DistinctItems (paths.map fun p => .list (items p)) := by
    intro paths
    induction paths with
    | nil => trivial
    | cons p paths ih => exact ⟨hd p, ih⟩
  have hdecode : ∀ (paths : List α) (n : Nat), ∃ vs n',
      Value.decodeItems .findings n (paths.map fun p => .list (items p)) = .ok (vs, n') ∧
        pathsOfValue (.list vs) = .ok (paths.map read) := by
    intro paths
    induction paths with
    | nil => exact fun n => ⟨[], n, by simp [Value.decodeItems], rfl⟩
    | cons p paths ih =>
      intro n
      obtain ⟨vs, n₁, hvs, hp⟩ := hread p n
      obtain ⟨ws, n', hws, hps⟩ := ih n₁
      refine ⟨.list vs :: ws, n', ?_, ?_⟩
      · rw [List.map_cons, Value.decodeItems, Value.decode, hvs]
        simp only [bind, Except.bind, pure, Except.pure, hws]
      · rw [pathsOfValue] at hps ⊢
        rw [List.mapM_cons, hps]
        simp only [hp]
        rfl
  obtain ⟨vs, n', hvs, hpaths⟩ := hdecode paths 0
  have hparse := Json.parse?_render (j := .list (paths.map fun p => .list (items p)))
    (hdistinct paths) 4
  simp only [pathsOfText, Value.read, hparse, Value.decode, hvs, bind, Except.bind, pure, Except.pure,
    Except.map, hpaths]

theorem pathsOfText_pathsText (paths : List (List Finding)) :
    pathsOfText (pathsText paths) = .ok paths := by
  have hread := pathsOfText_render listToJson id distinct_listToJson
    decode_listToJson paths
  rwa [List.map_id] at hread

mutual

def ofWritten : Token → Finding
  | .site _ m => mk m.kind m.line m.pos m.file none none
  | .jump _ m target args => mk m.kind m.line m.pos m.file (some target) (some (ofWrittenAll args))

def ofWrittenAll : List Token → List Finding
  | [] => []
  | t :: ts => ofWritten t :: ofWrittenAll ts

end

theorem apply_site (n : Nat) (m : Mark) :
    Value.Hook.findings.apply n (Form.site.fields.zip (Token.markData m)) = .ok (.record n .finding
      [.text m.kind, m.line.toValue, .number m.pos, .text m.file, .null, .null]) := by
  simp [Value.Hook.apply, Value.recordOf, Value.require, Form.fields, Form.siteFields, Token.markData,
    List.lookup_cons, List.lookup_nil, bind, Except.bind, pure, Except.pure]

theorem apply_jump (n : Nat) (m : Mark) (target : String) (args : List Value) :
    Value.Hook.findings.apply n (Form.site.fields.zip (Token.markData m) ++
      [("scope_name", .text target), ("arguments", .list args)]) = .ok (.record n .finding
      [.text m.kind, m.line.toValue, .number m.pos, .text m.file, .text target, .list args]) := by
  simp [Value.Hook.apply, Value.recordOf, Value.require, Form.fields, Form.siteFields, Token.markData,
    List.lookup_cons, List.lookup_nil, bind, Except.bind, pure, Except.pure]

mutual

theorem decode_written : ∀ (t : Token) (n : Nat), ∃ v n',
    Value.decode .findings n (Token.toJson t) = .ok (v, n') ∧ ofValue? v = some (ofWritten t)
  | .site i m, n => by
    have hfields := Token.decodeFields_mark .findings n m []
    simp only [List.append_nil, Value.decodeFields, Except.map] at hfields
    refine ⟨.record n .finding [.text m.kind, m.line.toValue, .number m.pos, .text m.file, .null,
      .null], n + 1, ?_, ?_⟩
    · rw [Token.toJson, Value.decode, hfields]
      simp only [bind, Except.bind, apply_site]
      rfl
    · simp [ofValue?, ofWritten, Value.text?, Value.number?]
  | .jump i m target args, n => by
    obtain ⟨vs, n', hvs, hargs⟩ := decode_writtenAll args n
    have hfields := Token.decodeFields_mark .findings n m
      [("scope_name", .text target), ("arguments", .list (Token.listToJson args))]
    simp only [Value.decodeFields, Value.decode, hvs, bind, Except.bind, pure, Except.pure,
      Except.map] at hfields
    refine ⟨.record n' .finding [.text m.kind, m.line.toValue, .number m.pos, .text m.file,
      .text target, .list vs], n' + 1, ?_, ?_⟩
    · rw [Token.toJson_jump, Value.decode, hfields]
      simp only [bind, Except.bind, apply_jump]
      rfl
    · simp [ofValue?, ofWritten, Value.text?, Value.number?, hargs]

theorem decode_writtenAll : ∀ (ts : List Token) (n : Nat), ∃ vs n',
    Value.decodeItems .findings n (Token.listToJson ts) = .ok (vs, n') ∧
      listOfValues? vs = some (ofWrittenAll ts)
  | [], n => ⟨[], n, by simp [Token.listToJson, Value.decodeItems], rfl⟩
  | t :: ts, n => by
    obtain ⟨v, n₁, hv, ht⟩ := decode_written t n
    obtain ⟨vs, n', hvs, hts⟩ := decode_writtenAll ts n₁
    refine ⟨v :: vs, n', ?_, ?_⟩
    · rw [Token.listToJson, Value.decodeItems, hv]
      simp only [bind, Except.bind, hvs]
      rfl
    · simp [listOfValues?, ofWrittenAll, ht, hts]

end

theorem pathsOfText_tokens (paths : List (List Token)) :
    pathsOfText (Token.pathsText paths) = .ok (paths.map ofWrittenAll) :=
  pathsOfText_render Token.listToJson ofWrittenAll Token.distinct_listToJson decode_writtenAll paths

end Finding

end MaskedTaint
