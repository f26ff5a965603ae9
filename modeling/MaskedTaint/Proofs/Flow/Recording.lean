import MaskedTaint.Proofs.Flow.Counters
import MaskedTaint.Proofs.Flow.Filling

/-! Recording keeps structures sound. Beside the structure itself the invariant speaks of what
the recorder is in the middle of: the counters of the open blocks, and the tokens that wait in
their tasks. Each kind of step keeps it, so it holds after every file, finished or not. -/

namespace MaskedTaint

structure Symbol.Known (count : Nat) (s : Symbol) : Prop where
  listed : s.IsListed
  call : ∀ n, s = .call n → 1 ≤ n ∧ n ≤ count

theorem Symbol.IsLexeme.known {s : Symbol} (h : s.IsLexeme) (count : Nat) : s.Known count := by
  obtain ⟨kind, rfl, hkind⟩ := h
  exact ⟨fun k hk => by cases hk; exact hkind, fun n hn => by cases hn⟩

theorem Masker.token_known {m m' : Masker} {t : Masked} (hm : m.IsListed)
    (h : token m = (.ok (some t), m')) : t.symbol.Known m'.funcs.length := by
  obtain ⟨u, b, hu, -, henters⟩ := token_enters hm h
  have hfuncs : m'.funcs = m'.books.funcs := rfl
  rw [hfuncs]
  generalize m'.books = b' at henters
  have hother : ∀ s : Symbol, (∀ kind, s ≠ .plain kind) → (∀ n, s ≠ .call n) → s.Known b'.funcs.length :=
    fun s hplain hcall => ⟨fun kind hk => absurd hk (hplain kind), fun n hn => absurd hn (hcall n)⟩
  cases henters with
  | call => exact ⟨by simp [Symbol.IsListed], fun n hn => by cases hn; exact b.funcs.number_bounds u.text⟩
  | name | assign | operator | endCall | endParens | leave | leaveFunction | declare =>
    exact hother _ (by simp) (by simp)
  | _ => exact hu.known _

namespace Contents

/-- The tokens of sound structures, when `count` functions have a number. -/
def sound (count : Nat) : Contents where
  listed scope key t := t.Fits scope count key
  argument scope t := t.RecordedIn scope count
  parameter scope t := t.RecordedIn scope count ∧ NamesVariable t.kind
  callee n := 1 ≤ n ∧ n ≤ count

theorem sound_closed (count : Nat) : (sound count).Closed := by
  refine ⟨fun _ _ _ n h => h.setSplit (.number n), fun _ _ h => ?_⟩
  exact ⟨fun hk => absurd hk (by decide), fun _ => h.1, fun hk => absurd hk (by decide), fun _ => h.2⟩

end Contents

theorem Structure.Fills.sound {count : Nat} {scopes : List String} {d d' : Structure}
    (h : Structure.Fills (.sound count) scopes d d') (hd : d.Sound count) : d'.Sound count := by
  induction h with
  | refl => exact hd
  | append _ _ hkey hopen hts ih => exact ih.append hopen hkey hts
  | split _ _ id n ih => exact ih.setSplit _ id _

namespace Recorder

variable {r : Recorder} {count count' : Nat} {b : Block} {t : Masked} {most : Int}

theorem admits_sound (hb : b.CountsTo most) (ht : t.symbol.Known count) :
    r.Admits (.sound count) b t := by
  have hwithin : ∀ scope kind, (r.markOf { b with scope := scope } t kind).Within scope :=
    fun _ _ => ⟨rfl, hb.depth.1, hb.order.1, hb.flow.1⟩
  have hsite : ∀ id scope, Token.RecordedIn scope count
      (.site id (r.markOf { b with scope := scope } t t.symbol.name)) := fun _ scope =>
    .site (hwithin scope _) (Symbol.name_notMem ht.listed)
  refine ⟨fun _ hkey => hkey.fits (hsite _ b.scope), hsite _ b.scope, ht.call,
    fun callee args hcallee hargs => ?_, ?_,
    fun scope hvar => ⟨hsite _ scope, Symbol.namesVariable hvar⟩⟩
  · have hcall : Token.RecordedIn b.scope count
        (.jump r.fresh (r.markOf b t Special.call.name) (Symbol.funcName callee) args) :=
      .call (hwithin b.scope _) rfl hcallee hargs
    refine ⟨hcall, fun key hkey => ?_⟩
    rcases hkey with rfl | hkey
    · exact ⟨fun hk => absurd hk (by decide), fun _ => hcall, fun _ => rfl, fun hk => absurd hk (by decide)⟩
    · exact hkey.fits hcall
  · exact ⟨fun _ => .intro (hwithin b.scope _) rfl, fun hk => absurd rfl hk,
      fun hk => absurd hk (by decide), fun hk => absurd hk (by decide)⟩

structure Sound (r : Recorder) (count : Nat) : Prop where
  flows : r.flows.Sound count
  filling : r.Filling (.sound count) r
  counts : ∃ most, 0 ≤ most ∧ r.CountsTo most

theorem Sound.mono (hle : count ≤ count') (h : r.Sound count) : r.Sound count' := by
  refine ⟨h.flows.mono hle, h.filling.renew (fun _ _ => And.imp_left (·.mono hle)) ?_, h.counts⟩
  intro scope task htask
  cases task with
  | collect key manner waiting => exact ⟨htask.1, fun t ht => (htask.2 t ht).mono hle⟩
  | arguments callee args =>
    exact ⟨⟨htask.1.1, htask.1.2.trans hle⟩, fun t ht => (htask.2 t ht).mono hle⟩
  | query waiting => exact fun t ht => (htask t ht).mono hle
  | _ => trivial

theorem Sound.next {r' : Recorder} (h : r.Sound count) (hfilling : r'.Filling (.sound count) r)
    (hcounts : ∃ most, 0 ≤ most ∧ r'.CountsTo most) : r'.Sound count :=
  ⟨hfilling.stored.flows.sound h.flows, hfilling.self, hcounts⟩

theorem Sound.take (h : r.Sound count) (ht : t.symbol.Known count) (place : Int) :
    (r.take t place).Sound count := by
  obtain ⟨most, hmost, hcounts⟩ := h.counts
  refine h.next (h.filling.take (Contents.sound_closed _) (fun b outer hb => ?_) place)
    ⟨_, ?_, hcounts.take place⟩
  · exact admits_sound (hcounts b (by simp [hb])) ht
  · split <;> omega

theorem Sound.takeEnd (h : r.Sound count) : (takeEnd r).2.Sound count := by
  obtain ⟨most, hmost, hcounts⟩ := h.counts
  exact h.next (h.filling.takeEnd (Contents.sound_closed _)) ⟨most, hmost, hcounts.takeEnd⟩

end Recorder

/-! ### Files -/

namespace Project

/-- What is stored is sound, and what was read ahead is listed. -/
structure Sound (p : Project) : Prop where
  listed : p.masker.IsListed
  flows : p.flows.Sound p.masker.funcs.length

variable {p : Project}

theorem Sound.recorder (h : p.Sound) (name : String) :
    (p.recorder name).Sound p.masker.funcs.length := by
  refine ⟨(fills_recorder (Contents.sound_closed _) p name).sound h.flows, filling_recorder _ p name,
    0, Int.le_refl 0, List.forall_mem_singleton.mpr ?_⟩
  exact ⟨by simp, by simp, by simp, by simp, by simp, by simp⟩

theorem Sound.recordFile (h : p.Sound) (name : String) (code : List Char) :
    (after (p.recordFile name code)).Sound := by
  let I : Recorder → Masker → Prop := fun r m => m.IsListed ∧ r.Sound m.funcs.length
  have hread : ∀ r m, I r m → I r (Masker.token m).2 := fun r m hI =>
    have hgrows := Masker.token_growing m
    ⟨hgrows.listed hI.1, hI.2.mono hgrows.funcs.kept.length_le⟩
  have hstep : ∀ r m r' m', Recorder.Steps r m r' m' → I r m → I r' m' := by
    rintro r m r' m' ⟨-, t, ht, rfl⟩ hI
    have hnext := hread r m hI
    have hknown := Masker.token_known hI.1 ht
    rw [ht] at hnext
    exact ⟨hnext.1, hnext.2.take hknown _⟩
  have hrun := Recorder.follow_keeps (I := I) (m := p.masker.loadFile code) (fun r m _ => hread r m)
    hstep (fun r m _ hI _ => ⟨hI.1, hI.2.takeEnd⟩) ⟨h.listed, h.recorder name⟩
  exact ⟨hrun.1, hrun.2.flows⟩

/-- The project after these files, one after the other, whether or not some of them fail. -/
def recordEach (p : Project) (files : List (String × List Char)) : Project :=
  files.foldl (fun p f => after (p.recordFile f.1 f.2)) p

theorem Sound.recordEach (h : p.Sound) (files : List (String × List Char)) :
    (p.recordEach files).Sound := by
  induction files generalizing p with
  | nil => exact h
  | cons f files ih => exact ih (h.recordFile f.1 f.2)

theorem sound_empty : Sound {} := ⟨fun t ht => by simp at ht, Structure.sound_empty _⟩

end Project

namespace Structure

/-- What can be relied on in a structure, when `count` functions have a number. -/
structure Represents (d : Structure) (count : Nat) : Prop where
  distinct : d.Distinct
  params : ∀ e ∈ d, e.2.has Special.params.name = true
  keys : ∀ e ∈ d, ∀ key ∈ e.2.names,
    key ∈ [Special.params, .call, .imports, .result, .sink .xss, .sink .sqli].map Special.name ∨
      NamesVariable key
  values : ∀ e ∈ d, ∀ s : Symbol, (s.isOperand || s.isSanitizer) = true → s.isVariable = false →
    s.name ∉ e.2.names
  places : ∀ e ∈ d, ∀ l ∈ e.2, ∀ t ∈ Token.occurrencesIn l.2,
    t.scope = e.1 ∧ 0 ≤ t.mark.depth ∧ 0 ≤ t.mark.order ∧ -1 ≤ t.mark.flow
  calls : ∀ e ∈ d, ∀ l ∈ e.2, l.1 = Special.call.name → ∀ t ∈ l.2,
    ∃ i m n args, t = .jump i m (Symbol.funcName n) args ∧ m.kind = Special.call.name ∧
      1 ≤ n ∧ n ≤ count
  imports : ∀ e ∈ d, ∀ l ∈ e.2, l.1 = Special.imports.name → ∀ t ∈ l.2,
    ∃ i m target args, t = .jump i m target args ∧ m.kind = Kind.importWord.name
  sites : ∀ t ∈ d.occurrences, ∀ i m, t = .site i m → m.kind ≠ Special.call.name

variable {d : Structure} {count : Nat}

theorem notMem_names_of_value {scope : String} {s : Scope} (h : Scope.Lists scope count s)
    {x : Symbol} (hvalue : (x.isOperand || x.isSanitizer) = true) (hvar : x.isVariable = false) :
    x.name ∉ s.names := by
  intro hmem
  obtain ⟨l, hl, hname⟩ := List.mem_map.mp hmem
  have hkey := (h.fits l hl).1
  rw [hname] at hkey
  have hnot : ∀ key : String, key ∉ Special.keys.map Special.name → ¬ NamesVariable key → ¬ IsKey key :=
    fun key hspecial hnames => not_or.mpr ⟨hspecial, hnames⟩
  unfold Symbol.isOperand Symbol.isSanitizer at hvalue
  split at hvalue
  case h_6 =>
    rw [hvar, Bool.false_or] at hvalue
    cases x with
    | plain kind =>
      cases kind with
      | sanitizer v => cases v <;> exact hnot _ (by decide) (by decide) hkey
      | _ => cases hvalue
    | _ => cases hvalue
  all_goals exact hnot _ (by decide) (by decide) hkey

theorem Sound.within (h : d.Sound count) {e : String × Scope} (he : e ∈ d) {l : String × List Token}
    (hl : l ∈ e.2) {t : Token} (ht : t ∈ Token.occurrencesIn l.2) : t.mark.Within e.1 := by
  obtain ⟨u, hu, ht⟩ := Token.mem_occurrencesIn.mp ht
  have hfits := ((h.lists e he).fits l hl).2 u hu
  by_cases hkey : l.1 = Special.imports.name
  · cases hfits.imported hkey with
    | intro hm hkind =>
      simp only [Token.occurrences, Token.occurrencesIn, List.mem_singleton] at ht
      exact ht ▸ hm
  · exact ((hfits.recorded hkey).of_mem ht).within

theorem Sound.kind_ne_call (h : d.Sound count) {i : Nat} {m : Mark} (ht : .site i m ∈ d.occurrences) :
    m.kind ≠ Special.call.name := by
  obtain ⟨e, he, l, hl, u, hu, ht⟩ := mem_occurrences.mp ht
  have hfits := ((h.lists e he).fits l hl).2 u hu
  by_cases hkey : l.1 = Special.imports.name
  · cases hfits.imported hkey with
    | intro hm hkind => simp [Token.occurrences, Token.occurrencesIn] at ht
  · cases (hfits.recorded hkey).of_mem ht with
    | site hm hkind => exact fun hcall => hkind (by simp [hcall])

theorem Sound.represents (h : d.Sound count) : d.Represents count where
  distinct := ⟨h.nodup, fun e he => (h.lists e he).nodup⟩
  params := h.params
  keys e he key hkey := by
    obtain ⟨l, hl, rfl⟩ := List.mem_map.mp hkey
    exact ((h.lists e he).fits l hl).1
  values e he s := notMem_names_of_value (h.lists e he)
  places e he l hl t ht :=
    have hm := h.within he hl ht
    ⟨hm.scope, hm.depth, hm.order, hm.flow⟩
  calls e he l hl hkey t ht := by
    have hfits := ((h.lists e he).fits l hl).2 t ht
    have hcall := hfits.call hkey
    cases hfits.recorded (by rw [hkey]; decide) with
    | site hm hkind => exact absurd (List.mem_cons.mpr (.inl hcall)) hkind
    | call hm hkind hn hargs => exact ⟨_, _, _, _, rfl, hkind, hn⟩
  imports e he l hl hkey t ht := by
    cases (((h.lists e he).fits l hl).2 t ht).imported hkey with
    | intro hm hkind => exact ⟨_, _, _, _, rfl, hkind⟩
  sites t ht i m hsite := h.kind_ne_call (hsite ▸ ht)

end Structure

namespace Project

/-- After every file, whether or not it or one before it failed, the structure of a project can
be relied on. -/
theorem recordEach_represents (files : List (String × List Char)) :
    (recordEach {} files).flows.Represents (recordEach {} files).masker.funcs.length :=
  (sound_empty.recordEach files).flows.represents

def brokenOff : List (String × List Char) :=
  [("a.php", "<?php function f($p) \x7b return $p; \x7d if ($a) \x7b $b = f($_GET['k'],".toList),
    ("b.php", "include 'a.php'; $c = f(f($b));".toList)]

theorem recordEach_represents_brokenOff :
    (recordEach {} brokenOff).flows.map (fun e => (e.1, e.2.names)) =
      [("a.php", ["ARGS"]), ("FUNC1", ["ARGS", "RETURN"]),
        ("b.php", ["ARGS", "IMPORTS", "FUNC_CALL", "VAR4"])] ∧
    (recordEach {} brokenOff).flows.Represents 1 := by
  have hcount : (recordEach {} brokenOff).masker.funcs.length = 1 := by decide +kernel
  refine ⟨by decide +kernel, ?_⟩
  have hrep := recordEach_represents brokenOff
  rwa [hcount] at hrep

end Project

end MaskedTaint
