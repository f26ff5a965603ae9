import MaskedTaint.Audit.Analysis
import MaskedTaint.Proofs.Search.Agreement

/-! Where the tokens on a path come from. A search puts no tokens on its paths but those of the
structure and those it binds to parameters; so what holds of the former, and is kept by binding,
holds of every token on every path. This is the agreement of a search with itself. -/

namespace MaskedTaint

/-- The property says that a token does not lead to the imports; arguments have it too, and
binding to a parameter keeps it. -/
structure Lexicon.Keeps (lex : Lexicon) (P : Token → Prop) : Prop where
  kind : ∀ t, P t → lex.key t.kind ≠ lex.place .imports
  args : ∀ i m g as, P (.jump i m g as) → ∀ a ∈ as, P a
  site : ∀ p a, P p → P a → a.kind ≠ lex.word .call → P (.site a.id (Search.boundMark p.mark a.mark))
  jump : ∀ p i m g as, P p → P (.jump i m g as) → P (.jump i (Search.boundMark p.mark m) g as)

namespace Correspondence

variable {lex : Lexicon} {P : Token → Prop}

def within (P : Token → Prop) : Correspondence where
  token t t' := t = t' ∧ P t
  imported := Eq
  scope := Eq
  key := Eq

theorem within_faithful (hplace : ∀ p, p ≠ Special.imports → lex.place p ≠ lex.place .imports)
    (h : lex.Keeps P) : (within P).Faithful lex lex where
  scope_iff := by rintro a _ b _ rfl rfl; rfl
  key_iff := by rintro a _ b _ rfl rfl; rfl
  place _ := rfl
  imports_ne := hplace
  imported_of_token _ _ ht := ht.1
  token_of_imported u _ _ _ hu hk := absurd hk (h.kind u hu.2)
  target := by
    rintro t _ rfl
    cases t with
    | site i m => trivial
    | jump i m g as => exact rfl
  args := by
    rintro i m g as i' m' g' as' ⟨heq, hP⟩
    cases heq
    exact List.forall₂_same.mpr fun a ha => ⟨rfl, h.args i m g as hP a ha⟩
  pos_iff := by rintro a _ b _ rfl rfl; rfl
  kind := by rintro t _ ⟨rfl, _⟩; rfl
  home := by rintro t _ ⟨rfl, _⟩; rfl
  word_iff := by rintro t _ p ⟨rfl, _⟩; rfl
  home_iff := by rintro a _ b _ ⟨rfl, _⟩ ⟨rfl, _⟩; rfl
  depth_iff := by rintro a _ b _ ⟨rfl, _⟩ ⟨rfl, _⟩; rfl
  order_iff := by rintro a _ b _ ⟨rfl, _⟩ ⟨rfl, _⟩; rfl
  flow_iff := by rintro a _ b _ ⟨rfl, _⟩ ⟨rfl, _⟩; rfl
  split_iff := by rintro a _ b _ ⟨rfl, _⟩ ⟨rfl, _⟩; rfl
  bound_site := by
    rintro p _ a _ ⟨rfl, hp⟩ ⟨rfl, ha⟩ hk
    exact ⟨rfl, h.site p a hp ha hk⟩
  bound_jump := by
    rintro p _ i m g as i' m' g' as' ⟨rfl, hp⟩ ⟨heq, ha⟩
    cases heq
    exact ⟨rfl, h.jump p i m g as hp ha⟩
  same := by rintro a _ b _ ⟨rfl, _⟩ ⟨rfl, _⟩; rfl

theorem within_flows {d : Structure}
    (h : ∀ e ∈ d, ∀ l ∈ e.2, l.1 ≠ lex.place .imports → ∀ t ∈ l.2, P t) :
    (within P).Flows lex d d := by
  refine List.forall₂_same.mpr fun e he => ⟨rfl, ?_⟩
  refine List.forall₂_same.mpr fun l hl => ⟨rfl, ?_⟩
  refine List.forall₂_same.mpr fun t ht => ?_
  unfold held
  split
  · exact rfl
  · exact ⟨rfl, h e he l hl ‹_› t ht⟩

end Correspondence

namespace Audit

theorem search_agree {C : Correspondence} {lex lex' : Lexicon} {d e : Structure}
    (h : C.Faithful lex lex') (hflows : C.Flows lex d e) (vulnerability : String) :
    Act.SameOutcome (fun _ _ => True) C.PathLists (search lex vulnerability d)
      (search lex' vulnerability e) := by
  unfold search Search.detectNamed
  cases Vulnerability.ofName? vulnerability with
  | none => exact .error trivial
  | some v =>
    have hstart : C.Searches lex { flows := d } { flows := e } := ⟨hflows, .nil, .nil, .nil⟩
    have hsame := (h.detect Search.usualLimit v hstart).2
    dsimp only
    generalize (Search.detect lex Search.usualLimit v { flows := d }).1 = o at hsame
    generalize (Search.detect lex' Search.usualLimit v { flows := e }).1 = o' at hsame
    cases hsame with
    | ok hpaths => exact .ok hpaths
    | error _ => exact .error trivial

theorem search_within {lex : Lexicon} {P : Token → Prop} {d : Structure} {v : String} {paths : List Path}
    (hplace : ∀ p, p ≠ Special.imports → lex.place p ≠ lex.place .imports) (hP : lex.Keeps P)
    (hd : ∀ e ∈ d, ∀ l ∈ e.2, l.1 ≠ lex.place .imports → ∀ t ∈ l.2, P t)
    (h : search lex v d = .ok paths) : ∀ path ∈ paths, ∀ t ∈ path, P t := by
  have hagree := search_agree (Correspondence.within_faithful hplace hP)
    (Correspondence.within_flows hd) v
  rw [h] at hagree
  cases hagree with
  | ok hpaths =>
    intro path hpath t ht
    exact (List.forall₂_same.mp (List.forall₂_same.mp hpaths path hpath) t ht).2

end Audit

end MaskedTaint
