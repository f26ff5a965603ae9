import MaskedTaint.Proofs.Flow.Appending
import MaskedTaint.Proofs.Script.Taint
import MaskedTaint.Proofs.Search.OneScope

/-! The structure of a script: one scope, with the events of each key in source order. A chain
along which the input is brought to an output stays recorded. -/

namespace MaskedTaint

theorem Table.length_flatMap_put {α β : Type} (f : α → List β) {t : Table α} {name : String} {a : α}
    {k : Nat} (h : (f a).length = (((t.get? name).map f).getD []).length + k) :
    ((t.put name a).flatMap fun e => f e.2).length = (t.flatMap fun e => f e.2).length + k := by
  induction t with
  | nil => simpa [Table.put, Table.get?] using h
  | cons e t ih =>
    by_cases he : e.1 = name
    · rw [Table.get?_cons_pos t he] at h
      rw [Table.put_cons_pos t a he]
      simp only [Option.map_some, Option.getD_some] at h
      simp only [List.flatMap_cons, List.length_append, h]
      omega
    · rw [Table.get?_cons_neg t he] at h
      rw [Table.put_cons_neg t a he]
      simp only [List.flatMap_cons, List.length_append, ih h]
      omega

namespace Structure

variable {d : Structure} {scope key : String}

theorem length_occurrences_append (d : Structure) (scope key : String) (i : Nat) (m : Mark) :
    (d.append scope key [.site i m]).occurrences.length = d.occurrences.length + 1 := by
  have hin : ∀ ts : List Token, (Token.occurrencesIn (ts ++ [.site i m])).length =
      (Token.occurrencesIn ts).length + 1 := by
    intro ts
    induction ts with
    | nil => rfl
    | cons t ts ih =>
      simp only [List.cons_append, Token.occurrencesIn, List.length_append, ih]
      omega
  refine Table.length_flatMap_put (fun s : Scope => s.flatMap fun l => Token.occurrencesIn l.2) ?_
  cases hs : d.get? scope with
  | none =>
    simp [Table.put, Table.empty, tokens?, hs, Token.occurrencesIn, Token.occurrences]
  | some s =>
    simp only [Option.getD_some, Option.map_some, tokens?, hs, Option.bind_some]
    refine Table.length_flatMap_put Token.occurrencesIn ?_
    cases hl : s.get? key with
    | none => rfl
    | some ts => exact hin ts

end Structure

namespace Script

variable {file : String} {N : Names} {s : Script} {l : Level} {n : Nat}

theorem tokens?_recorded (d : Structure) (es : List Event) (key : String) :
    (recorded file d es).tokens? file key =
      if es.filter (fun e => e.1 = key) = [] then d.tokens? file key
      else some ((d.tokens? file key).getD [] ++ (es.filter fun e => e.1 = key).map Prod.snd) := by
  induction es generalizing d with
  | nil => rfl
  | cons e es ih =>
    have hstep : recorded file d (e :: es) = recorded file (d.append file e.1 [e.2]) es := rfl
    rw [hstep, ih]
    by_cases he : e.1 = key
    · subst he
      rw [Structure.tokens?_append_self]
      by_cases hes : es.filter (fun x => x.1 = e.1) = [] <;> simp [hes]
    · rw [Structure.tokens?_append_of_ne _ _ (Ne.symm he), List.filter_cons_of_neg (by simpa using he)]

theorem names_recorded {d : Structure} (es : List Event) (h : d.names = [file]) :
    (recorded file d es).names = [file] := by
  induction es generalizing d with
  | nil => exact h
  | cons e es ih => exact ih ((Structure.names_append _ (by rw [h]; simp)).trans h)

variable {e : Event} {es : List Event} {a b : Int}

theorem shape_of_mem_events (h : e ∈ s.events (kindIn N) file l n) :
    (e.1 = (Special.sink .xss).name ∨ ∃ v, e.1 = kindIn N v) ∧
      ∃ i l' place value, e.2 = .site i (Level.mark l' file place (operandKind (kindIn N) value)) := by
  induction s generalizing l n with
  | done => cases h
  | assign target value place rest ih =>
    rcases List.mem_cons.mp h with rfl | h
    · exact ⟨.inr ⟨target, rfl⟩, n, l, place, value, rfl⟩
    · exact ih h
  | echo source place rest ih =>
    rcases List.mem_cons.mp h with rfl | h
    · exact ⟨.inl rfl, n, l, place, .copy source, rfl⟩
    · exact ih h
  | branch c yes no rest ihyes ihno ihrest =>
    simp only [events, List.mem_append] at h
    rcases h with h | h | h
    · exact ihyes h
    · exact ihno h
    · exact ihrest h

theorem key_ne (h : e ∈ s.events (kindIn N) file l n) {text : String}
    (hvar : text.toList.head? ≠ some 'V') (hsink : text ≠ (Special.sink .xss).name) :
    e.1 ≠ text := by
  rcases (shape_of_mem_events h).1 with hkey | ⟨v, hkey⟩
  · rw [hkey]
    exact hsink.symm
  · rw [hkey]
    exact kindIn_ne hvar

theorem length_occurrences_recorded (d : Structure) (h : ∀ e ∈ es, ∃ i m, e.2 = .site i m) :
    (recorded file d es).occurrences.length = d.occurrences.length + es.length := by
  induction es generalizing d with
  | nil => rfl
  | cons e es ih =>
    obtain ⟨i, m, hsite⟩ := h e List.mem_cons_self
    have hstep : recorded file d (e :: es) = recorded file (d.append file e.1 [e.2]) es := rfl
    rw [hstep, ih _ fun x hx => h x (List.mem_cons_of_mem _ hx), hsite,
      Structure.length_occurrences_append, List.length_cons]
    omega

/-! ### Positions -/

/-- The events come in the order of their positions, from `a` on and before `b`. -/
structure Within (es : List Event) (a b : Int) : Prop where
  ascending : es.Pairwise fun e e' => e.2.pos < e'.2.pos
  bounds : ∀ e ∈ es, a ≤ e.2.pos ∧ e.2.pos < b
  le : a ≤ b

theorem Within.append {fs : List Event} {c : Int} (h : Within es a b) (h' : Within fs b c) :
    Within (es ++ fs) a c := by
  have hab := h.le
  have hbc := h'.le
  refine ⟨List.pairwise_append.mpr ⟨h.ascending, h'.ascending, fun e he f hf => ?_⟩, fun e he => ?_,
    by omega⟩
  · have := h.bounds e he
    have := h'.bounds f hf
    omega
  · rcases List.mem_append.mp he with he | he
    · have := h.bounds e he
      omega
    · have := h'.bounds e he
      omega

theorem Within.mono {a' b' : Int} (h : Within es a b) (ha : a' ≤ a)
    (hb : b ≤ b') : Within es a' b' := by
  have hle := h.le
  refine ⟨h.ascending, fun e he => ?_, by omega⟩
  have := h.bounds e he
  omega

theorem eq_of_pos (h : es.Pairwise fun e e' => e.2.pos < e'.2.pos) {f : Event}
    (he : e ∈ es) (hf : f ∈ es) (hpos : e.2.pos = f.2.pos) : e = f := by
  have hnodup : (es.map fun e => e.2.pos).Nodup :=
    List.pairwise_map.mpr (h.imp fun hlt => Int.ne_of_lt hlt)
  exact List.inj_on_of_nodup_map hnodup he hf hpos

theorem within_singleton (ha : a ≤ e.2.pos) (hb : e.2.pos < b) : Within [e] a b :=
  ⟨List.pairwise_singleton _ e, fun x hx => by cases List.mem_singleton.mp hx; exact ⟨ha, hb⟩,
    by omega⟩

theorem pos_after (p : Position) (cs : List Char) : (p.after cs).pos = p.pos + cs.length := rfl

theorem pos_mark (i : Nat) (place : Position) (kind : String) :
    (Token.site i (l.mark file place kind)).pos = place.pos := rfl

theorem Reads.within {start : Position} {text : List Char} (h : Reads start s text)
    (file : String) (kindOf : Variable → String) (l : Level) (n : Nat) :
    Within (s.events kindOf file l n) start.pos (start.after text).pos := by
  induction h generalizing l n with
  | done h => exact ⟨List.Pairwise.nil, by simp [events], by simp [Position.after]⟩
  | assign h₁ h₂ h₃ h₄ hvalue hplace hrest ih | echo h₁ h₂ h₃ hplace hrest ih =>
    refine (Within.append (within_singleton ?_ ?_) (ih l (n + 1))).mono (Int.le_refl _) ?_ <;>
      simp only [pos_mark, hplace, pos_after, List.length_append, List.length_cons, List.length_nil] <;>
      omega
  | @branch start c yes rest gap gap₁ gap₂ gap₃ gap₄ body text h h₁ h₂ h₃ h₄ hyes hrest ihyes ihrest =>
    let l₁ := l.next.leave (yes.level (l.next.enter 1))
    have hfirst := ihyes (l.next.enter 1) n
    have hlast := ihrest (l₁.leave (l₁.enter (-1))) (n + yes.size)
    simp only [pos_after, List.length_append, List.length_cons, List.length_nil] at hfirst hlast ⊢
    exact ((hfirst.mono (by omega) (by omega)).append hlast).mono (Int.le_refl _) (by omega)
  | @branchElse start c yes no rest gap gap₁ gap₂ gap₃ gap₄ body gap₅ gap₆ other text h h₁ h₂ h₃ h₄ h₅ h₆
      hyes hno hrest ihyes ihno ihrest =>
    let l₁ := l.next.leave (yes.level (l.next.enter 1))
    let l₂ := l₁.leave (no.level (l₁.enter (-1)))
    have hfirst := ihyes (l.next.enter 1) n
    have hsecond := ihno (l₁.enter (-1)) (n + yes.size)
    have hlast := ihrest l₂ (n + yes.size + no.size)
    simp only [pos_after, List.length_append, List.length_cons, List.length_nil] at hfirst hsecond hlast ⊢
    exact ((hfirst.mono (by omega) (by omega)).append
      ((hsecond.mono (Int.le_refl _) (by omega)).append hlast)).mono (Int.le_refl _) (by omega)

/-! ### One scope -/

theorem tokens?_fresh (file key : String) :
    (fresh file).tokens? file key = if key = Special.params.name then some [] else none := by
  by_cases h : key = Special.params.name
  · simp [fresh, Structure.tokens?, Table.get?, h]
  · simp [fresh, Structure.tokens?, Table.get?, h, Ne.symm h]

variable {es : List Event} {key : String}

theorem entry_recorded {t : Token} :
    (recorded file (fresh file) es).Entry file key t ↔ (key, t) ∈ es := by
  have hmem : t ∈ (es.filter fun e => e.1 = key).map Prod.snd ↔ (key, t) ∈ es := by
    simp only [List.mem_map, List.mem_filter, decide_eq_true_eq]
    constructor
    · rintro ⟨e, ⟨he, rfl⟩, rfl⟩
      exact he
    · exact fun h => ⟨(key, t), ⟨h, rfl⟩, rfl⟩
  have hfresh : ((fresh file).tokens? file key).getD [] = [] := by
    rw [tokens?_fresh]
    split <;> rfl
  rw [Structure.Entry, tokens?_recorded, ← hmem]
  by_cases hes : es.filter (fun e => e.1 = key) = []
  · rw [if_pos hes, hes, tokens?_fresh]
    by_cases hkey : key = Special.params.name <;> simp [hkey]
  · rw [if_neg hes, hfresh]
    simp

theorem tokens?_recorded_eq_none (hkey : key ≠ Special.params.name) (hes : ∀ e ∈ es, e.1 ≠ key) :
    (recorded file (fresh file) es).tokens? file key = none := by
  have hnone : es.filter (fun e => e.1 = key) = [] :=
    List.filter_eq_nil_iff.mpr fun e he => by simpa using hes e he
  rw [tokens?_recorded, if_pos hnone, tokens?_fresh, if_neg hkey]

theorem commaFree_key (N : Names) (x : String) : CommaFree (N.key x) := by
  have hdigits : CommaFree (N.idxOf x + 1).repr := Token.commaFree_toString (N.idxOf x + 1 : Nat)
  rw [CommaFree, Names.toList_key]
  simpa [CommaFree] using hdigits

theorem commaFree_operandKind (value : Operand) : CommaFree (operandKind (kindIn N) value) := by
  cases value with
  | copy v => exact commaFree_key N v.name
  | literal => exact (by decide : CommaFree Kind.constantText.name)
  | input => exact (by decide : CommaFree Special.input.name)

theorem operandKind_ne {value : Operand} {text : String} (hvar : text.toList.head? ≠ some 'V')
    (htext : text ≠ Kind.constantText.name) (hinput : text ≠ Special.input.name) :
    operandKind (kindIn N) value ≠ text := by
  cases value with
  | copy v => exact kindIn_ne hvar
  | literal => exact htext.symm
  | input => exact hinput.symm

structure IsPlain (file : String) (e : Event) : Prop where
  calls : e.1 ≠ Special.call.name
  imports : e.1 ≠ Special.imports.name
  kind : e.2.kind ≠ Special.call.name
  commas : CommaFree e.2.kind
  site : ∃ i m, e.2 = .site i m ∧ m.scope = file ∧ ∃ line, m.line = .number line

theorem single_recorded (hes : ∀ e ∈ es, IsPlain file e)
    (hascending : es.Pairwise fun e e' => e.2.pos < e'.2.pos) :
    (recorded file (fresh file) es).Single file where
  names := names_recorded _ rfl
  calls := tokens?_recorded_eq_none (by decide) fun e he => (hes e he).calls
  imports := tokens?_recorded_eq_none (by decide) fun e he => (hes e he).imports
  kind _ _ ht := (hes _ (entry_recorded.mp ht)).kind
  apart key t key' u ht hu hsame := by
    have hplain : ∀ {key t}, (recorded file (fresh file) es).Entry file key t → IsPlain file (key, t) :=
      fun h => hes _ (entry_recorded.mp h)
    have hpos : t.pos = u.pos := by
      have htcommas := (hplain ht).commas
      have hucommas := (hplain hu).commas
      obtain ⟨i, m, rfl, -, line, hline⟩ := (hplain ht).site
      obtain ⟨i', m', rfl, -, line', hline'⟩ := (hplain hu).site
      exact Token.pos_of_same_site ⟨htcommas, hline ▸ Token.commaFree_toString _⟩
        ⟨hucommas, hline' ▸ Token.commaFree_toString _⟩ hsame
    exact (Prod.mk.inj (eq_of_pos hascending (entry_recorded.mp ht) (entry_recorded.mp hu) hpos)).2
  ascending key ts hts := by
    rw [tokens?_recorded, tokens?_fresh] at hts
    split at hts
    · split at hts
      · cases hts
        exact List.Pairwise.nil
      · cases hts
    · cases hts
      have hlist : (es.filter fun e => e.1 = key).Pairwise fun e e' => e.2.pos < e'.2.pos :=
        hascending.filter _
      split <;> simpa [List.pairwise_map] using hlist
  scope key t ht := by
    obtain ⟨i, m, rfl, hscope, -⟩ := (hes _ (entry_recorded.mp ht)).site
    exact hscope

theorem oneScope_recorded {start : Position} {text : List Char} (h : Reads start s text) (l : Level)
    (n : Nat) : (recorded file (fresh file) (s.events (kindIn N) file l n)).OneScope file := by
  refine ⟨single_recorded (fun e he => ?_) (h.within file (kindIn N) l n).ascending, ?_⟩
  · obtain ⟨-, i, l', place, value, hsite⟩ := shape_of_mem_events he
    refine ⟨key_ne he (by decide) (by decide), key_ne he (by decide) (by decide), ?_, ?_,
      i, _, hsite, rfl, place.line, rfl⟩
    · rw [hsite]
      exact operandKind_ne (by decide) (by decide) (by decide)
    · rw [hsite]
      exact commaFree_operandKind value
  · intro key t key' u ht hu
    obtain ⟨-, i, l', place, value, rfl⟩ := shape_of_mem_events (entry_recorded.mp ht)
    obtain ⟨-, i', l'', place', value', rfl⟩ := shape_of_mem_events (entry_recorded.mp hu)
    rfl

/-! ### Unbroken chains -/

section Unbroken

variable {past later : List Event} {a b : Int}

def Latest (past : List Event) (key : String) (p : Path) : Prop :=
  ∃ u r, p = u :: r ∧ (key, u) ∈ past ∧ ∀ w, (key, w) ∈ past → u.pos < w.pos → ¬ u.SameBranch w

variable {e : Event}

theorem Within.pos_lt {x : Event} (h : Within (past.reverse ++ e :: later) a b) (hx : x ∈ past) :
    x.2.pos < e.2.pos :=
  (List.pairwise_append.mp h.ascending).2.2 x (List.mem_reverse.mpr hx) e List.mem_cons_self

theorem Within.mem_past {x : Event} (h : Within (past.reverse ++ e :: later) a b)
    (hx : x ∈ past.reverse ++ e :: later) (hlt : x.2.pos < e.2.pos) : x ∈ past := by
  rcases List.mem_append.mp hx with hx | hx
  · exact List.mem_reverse.mp hx
  · rcases List.mem_cons.mp hx with rfl | hx
    · omega
    · have := (List.pairwise_cons.mp (List.pairwise_append.mp h.ascending).2.1).1 x hx
      omega

theorem latest_cons {u : Token} (h : Within (past.reverse ++ (key, u) :: later) a b) (p : Path) :
    Latest ((key, u) :: past) key (u :: p) := by
  refine ⟨u, p, rfl, List.mem_cons_self, fun w hw hlt => ?_⟩
  rcases List.mem_cons.mp hw with hw | hw
  · cases hw
    omega
  · have hearlier : w.pos < u.pos := h.pos_lt hw
    omega

theorem unbroken_cons {p : Path} (h : Within (past.reverse ++ e :: later) a b)
    (hlatest : Latest past e.2.kind p)
    (hp : (recorded file (fresh file) (past.reverse ++ e :: later)).Unbroken file p) :
    (recorded file (fresh file) (past.reverse ++ e :: later)).Unbroken file (e.2 :: p) := by
  obtain ⟨u, r, rfl, hu, hlast⟩ := hlatest
  refine .step (entry_recorded.mpr (by simp [hu])) (h.pos_lt hu) (fun w hw huw hwe => ?_) hp
  exact hlast w (h.mem_past (entry_recorded.mp hw) hwe) huw

theorem Brings.unbroken {p : Path} (hp : Brings past key p) (h : Within (past.reverse ++ later) a b)
    (hinput : ∀ e ∈ past.reverse ++ later, e.1 ≠ Special.input.name) :
    (recorded file (fresh file) (past.reverse ++ later)).Unbroken file p ∧ Latest past key p := by
  induction hp generalizing later with
  | @input es key u hkind =>
    rw [List.reverse_cons, List.append_assoc, List.singleton_append] at h hinput ⊢
    refine ⟨.last ?_, latest_cons h []⟩
    rw [hkind]
    exact tokens?_recorded_eq_none (by decide) hinput
  | @copy es key u p hp ih =>
    rw [List.reverse_cons, List.append_assoc, List.singleton_append] at h hinput ⊢
    obtain ⟨hunbroken, hlatest⟩ := ih h hinput
    exact ⟨unbroken_cons h hlatest hunbroken, latest_cons h p⟩
  | @past es e key u p he hp ih =>
    rw [List.reverse_cons, List.append_assoc, List.singleton_append] at h hinput ⊢
    obtain ⟨hunbroken, u', r, hpath, hu, hlast⟩ := ih h hinput
    cases hpath
    refine ⟨hunbroken, u, p, rfl, List.mem_cons_of_mem _ hu, fun w hw hlt => ?_⟩
    rcases List.mem_cons.mp hw with hw | hw
    · subst hw
      exact he rfl
    · exact hlast w hw hlt

end Unbroken

end Script

end MaskedTaint
