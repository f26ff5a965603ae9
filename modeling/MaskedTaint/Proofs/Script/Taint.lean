import MaskedTaint.Proofs.Flow.Signature
import MaskedTaint.Proofs.Script.Recording
import MaskedTaint.Proofs.Search.Traces

/-! Where the input goes. No two blocks of a script have the same branch mark, so what a run
leaves out cannot break a chain: if a run of a script prints a value from the input, then there is a chain
of recorded tokens back to the input in which each token is the last one of its branch. -/

namespace MaskedTaint

/-! ### Keys -/

namespace Names

def key (N : Names) (x : String) : String := (Symbol.var (N.idxOf x + 1)).name

theorem toList_key (N : Names) (x : String) :
    (N.key x).toList = ['V', 'A', 'R'] ++ (N.idxOf x + 1).repr.toList := by
  simp only [key, Symbol.name, toString]
  simp

theorem key_inj {N : Names} {x y : String} (hx : x ∈ N) (h : N.key x = N.key y) : x = y := by
  have hlist : (N.key x).toList = (N.key y).toList := by rw [h]
  rw [toList_key, toList_key, List.append_cancel_left_eq, String.toList_inj, Nat.repr_inj] at hlist
  exact (List.idxOf_inj hx).mp (by omega)

theorem key_ne {N : Names} {x text : String} (h : text.toList.head? ≠ some 'V') : N.key x ≠ text := by
  rintro rfl
  exact h (by rw [toList_key]; rfl)

end Names

/-! ### Branches -/

namespace Level

/-- How many control structures there have been whose blocks are `k + 1` levels further in. -/
def count (l : Level) : Nat → Int
  | 0 => l.counter
  | k + 1 => l.deeper.getD k 0

theorem count_enter (l : Level) (flow : Int) (k : Nat) : (l.enter flow).count k = l.count (k + 1) := by
  cases k with
  | zero => simp [count, enter, List.head?_eq_getElem?, List.getD_eq_getElem?_getD]
  | succ k => simp [count, enter, List.getD_eq_getElem?_getD]

theorem count_leave (l inner : Level) (k : Nat) : (l.leave inner).count (k + 1) = inner.count k := by
  cases k <;> simp [count, leave, List.getD_eq_getElem?_getD]

def Past (l : Level) (t : Token) : Prop :=
  ∀ k : Nat, t.mark.depth = l.depth + 1 + k → t.mark.order ≤ l.count k

def Own (l : Level) (t : Token) : Prop :=
  t.mark.depth = l.depth ∧ t.mark.order = l.order ∧ t.mark.flow = l.flow

variable {l : Level} {t : Token}

theorem Own.past (h : l.Own t) : l.Past t := by
  intro k hk
  have := h.1
  omega

def Between (l l' : Level) (t : Token) : Prop :=
  ∃ k : Nat, t.mark.depth = l.depth + 1 + k ∧ l.count k < t.mark.order ∧ t.mark.order ≤ l'.count k

theorem count_le_next (l : Level) (k : Nat) : l.count k ≤ l.next.count k := by
  cases k with
  | zero => exact Int.le_add_one (Int.le_refl _)
  | succ k => exact Int.le_refl _

theorem count_le_leave {inner : Level} {flow : Int}
    (h : ∀ k, (l.enter flow).count k ≤ inner.count k) (k : Nat) :
    l.count k ≤ (l.leave inner).count k := by
  cases k with
  | zero => exact Int.le_refl _
  | succ k =>
    have := h k
    rw [count_enter] at this
    rwa [count_leave]

theorem Between.mono {l₀ l₁ l₂ l₃ : Level} (h : l₁.Between l₂ t)
    (hdepth : l₁.depth = l₀.depth) (hlow : ∀ k, l₀.count k ≤ l₁.count k)
    (hhigh : ∀ k, l₂.count k ≤ l₃.count k) : l₀.Between l₃ t := by
  obtain ⟨k, hd, h₁, h₂⟩ := h
  exact ⟨k, hdepth ▸ hd, Int.lt_of_le_of_lt (hlow k) h₁, Int.le_trans h₂ (hhigh k)⟩

theorem Between.of_block (l₀ : Level) {inner : Level} {flow : Int}
    (h : (l.enter flow).Own t ∨ (l.enter flow).Between inner t) (hdepth : l.depth = l₀.depth)
    (hnew : l₀.counter < l.counter) (hlow : ∀ k, l₀.count k ≤ l.count k) :
    l₀.Between (l.leave inner) t := by
  rcases h with ⟨hd, ho, -⟩ | ⟨k, hd, h₁, h₂⟩
  · simp only [enter] at hd ho
    exact ⟨0, by omega, by simpa [ho, count] using hnew, by simp [ho, count, leave]⟩
  · rw [count_enter] at h₁
    rw [← count_leave l] at h₂
    simp only [enter] at hd
    exact ⟨k + 1, by omega, Int.lt_of_le_of_lt (hlow _) h₁, h₂⟩

theorem Past.enter (h : l.Past t) (l' : Level) (hdepth : l'.depth = l.depth)
    (hnew : l.counter < l'.counter) (hle : ∀ k, l.count k ≤ l'.count k) (flow : Int) :
    (l'.enter flow).Past t ∧ ¬ (l'.enter flow).Own t := by
  constructor
  · intro k hk
    rw [count_enter]
    simp only [Level.enter] at hk
    exact Int.le_trans (h (k + 1) (by omega)) (hle (k + 1))
  · rintro ⟨hd, ho, -⟩
    simp only [Level.enter] at hd ho
    have hcount : t.mark.order ≤ l.counter := h 0 (by omega)
    omega

end Level

namespace Script

variable {kindOf : Variable → String} {file : String} {s : Script} {l : Level} {n : Nat} {t : Token}

theorem level_depth (s : Script) (l : Level) : (s.level l).depth = l.depth := by
  induction s generalizing l with
  | done => rfl
  | assign target value place rest ih => exact ih l
  | echo source place rest ih => exact ih l
  | branch c yes no rest _ _ ih => exact ih _

theorem count_le_level (s : Script) (l : Level) (k : Nat) : l.count k ≤ (s.level l).count k := by
  induction s generalizing l k with
  | done => exact Int.le_refl _
  | assign target value place rest ih => exact ih l k
  | echo source place rest ih => exact ih l k
  | branch c yes no rest ihyes ihno ihrest =>
    calc l.count k ≤ l.next.count k := l.count_le_next k
      _ ≤ _ := Level.count_le_leave (ihyes (l.next.enter 1)) k
      _ ≤ _ := Level.count_le_leave (ihno _) k
      _ ≤ _ := ihrest _ k

theorem past_level (h : l.Past t) : (s.level l).Past t := by
  intro k hk
  rw [level_depth] at hk
  exact Int.le_trans (h k hk) (count_le_level s l k)

variable {e : Event} {es : List Event} {v : Variable}

theorem own_or_between (h : e ∈ s.events kindOf file l n) :
    l.Own e.2 ∨ l.Between (s.level l) e.2 := by
  induction s generalizing l n with
  | done => cases h
  | assign target value place rest ih | echo source place rest ih =>
    rcases List.mem_cons.mp h with rfl | h
    · exact .inl ⟨rfl, rfl, rfl⟩
    · exact ih h
  | branch c yes no rest ihyes ihno ihrest =>
    let l₁ := l.next.leave (yes.level (l.next.enter 1))
    let l₂ := l₁.leave (no.level (l₁.enter (-1)))
    have hfirst : ∀ k, l.count k ≤ l₁.count k := fun k =>
      Int.le_trans (l.count_le_next k) (Level.count_le_leave (count_le_level yes _) k)
    have hmid : ∀ k, l₁.count k ≤ l₂.count k := Level.count_le_leave (count_le_level no _)
    have hlast : ∀ k, l₂.count k ≤ ((branch c yes no rest).level l).count k := count_le_level rest l₂
    rcases List.mem_append.mp h with h | h
    · have hblock := Level.Between.of_block l (ihyes h) rfl (Int.lt_add_one_of_le (Int.le_refl _))
        l.count_le_next
      exact .inr (hblock.mono rfl (fun k => Int.le_refl _) fun k => Int.le_trans (hmid k) (hlast k))
    · rcases List.mem_append.mp h with h | h
      · have hblock := Level.Between.of_block l (ihno h) rfl
          (Int.lt_add_one_of_le (Int.le_refl _)) hfirst
        exact .inr (hblock.mono rfl (fun k => Int.le_refl _) hlast)
      · rcases ihrest h with hown | hbetween
        · exact .inl hown
        · exact .inr (hbetween.mono rfl (fun k => Int.le_trans (hfirst k) (hmid k))
            fun k => Int.le_refl _)

theorem past_of_mem_events (h : e ∈ s.events kindOf file l n) : (s.level l).Past e.2 := by
  intro k hk
  rw [level_depth] at hk
  rcases own_or_between h with ⟨hdepth, -⟩ | ⟨j, hdepth, -, hle⟩
  · omega
  · have hjk : j = k := by omega
    exact hjk ▸ hle

theorem not_sameBranch_of_mem_events (hpast : l.Past t) (hown : ¬ l.Own t)
    (h : e ∈ s.events kindOf file l n) : ¬ t.SameBranch e.2 := by
  rintro ⟨hdepth, horder, hflow⟩
  rcases own_or_between h with ⟨hd, ho, hf⟩ | ⟨k, hd, hlow, -⟩
  · exact hown ⟨hdepth.trans hd, horder.trans ho, hflow.trans hf⟩
  · have := hpast k (hdepth.trans hd)
    omega

theorem second_of_mem_first (h : e ∈ s.events kindOf file (l.enter 1) n) :
    ((l.leave (s.level (l.enter 1))).enter (-1)).Past e.2 ∧
      ¬ ((l.leave (s.level (l.enter 1))).enter (-1)).Own e.2 := by
  constructor
  · intro k hk
    have hdepth := level_depth s (l.enter 1)
    rw [Level.count_enter, Level.count_leave]
    refine past_of_mem_events h k ?_
    rw [hdepth]
    exact hk
  · rintro ⟨hd, -, hf⟩
    simp only [Level.enter, Level.leave] at hd hf
    rcases own_or_between h with ⟨-, -, hflow⟩ | ⟨k, hdepth, -⟩
    · simp only [Level.enter] at hflow
      omega
    · simp only [Level.enter] at hdepth
      omega

/-! ### Runs -/

/-- The events, the latest one first, bring the input to a key along a path. Between a token and the
use of its key there may be other tokens for the key, on other branches. -/
inductive Brings : List Event → String → Path → Prop
  | input {es : List Event} {key : String} {u : Token} (h : u.kind = Special.input.name) :
      Brings ((key, u) :: es) key [u]
  | copy {es : List Event} {key : String} {u : Token} {p : Path} (h : Brings es u.kind p) :
      Brings ((key, u) :: es) key (u :: p)
  | past {es : List Event} {e : Event} {key : String} {u : Token} {p : Path}
      (he : e.1 = key → ¬ u.SameBranch e.2) (h : Brings es key (u :: p)) :
      Brings (e :: es) key (u :: p)

theorem Brings.exists_mem {key : String} {p : Path} (h : Brings es key p) :
    ∃ u r, p = u :: r ∧ (key, u) ∈ es := by
  induction h with
  | input h | copy h => exact ⟨_, _, rfl, List.mem_cons_self⟩
  | past he h ih =>
    obtain ⟨u, r, hp, hmem⟩ := ih
    exact ⟨u, r, hp, List.mem_cons_of_mem _ hmem⟩

theorem Brings.input_mem {key : String} {p : Path} (h : Brings es key p) :
    ∃ u ∈ p, u.kind = Special.input.name := by
  induction h with
  | input h => exact ⟨_, List.mem_cons_self, h⟩
  | copy h ih =>
    obtain ⟨u, hu, hkind⟩ := ih
    exact ⟨u, List.mem_cons_of_mem _ hu, hkind⟩
  | past he h ih => exact ih

def Held (N : Names) (e : Env) (past : List Event) : Prop :=
  ∀ v : Variable, e v.name = true → v.name ∈ N ∧ ∃ p, Brings past (kindIn N v) p

variable {N : Names} {e : Env} {past : List Event}

theorem Held.skip (h : Held N e past)
    (hes : ∀ x ∈ es, ∀ y ∈ past, ¬ y.2.SameBranch x.2) : Held N e (es.reverse ++ past) := by
  intro v hv
  obtain ⟨hN, p, hp⟩ := h v hv
  obtain ⟨u, r, rfl, hmem⟩ := hp.exists_mem
  refine ⟨hN, u :: r, ?_⟩
  clear h
  induction es using List.reverseRecOn with
  | nil => exact hp
  | append_singleton es x ih =>
    rw [List.reverse_append, List.reverse_singleton, List.append_assoc, List.singleton_append]
    exact (ih fun y hy => hes y (by simp [hy])).past fun _ => hes x (by simp) _ hmem

theorem kindIn_inj {w : Variable} (hv : v.name ∈ N) (h : kindIn N v = kindIn N w) :
    v.name = w.name := Names.key_inj hv h

theorem kindIn_ne {text : String} (h : text.toList.head? ≠ some 'V') :
    kindIn N v ≠ text := Names.key_ne h

theorem sink_head : (Special.sink .xss).name.toList.head? ≠ some 'V' := by decide

theorem mem_of_number {ns : Names} (h : (ns.number v.name).2 <+: N) : v.name ∈ N :=
  h.subset (ns.mem_number v.name)

theorem Held.assign (h : Held N e past) {target : Variable} (htarget : target.name ∈ N)
    {value : Operand} {u : Token} (hu : u.kind = operandKind (kindIn N) value) :
    Held N (e.assign target (tainted e value)) ((kindIn N target, u) :: past) := by
  intro v hv
  by_cases hname : v.name = target.name
  · have hkind : kindIn N v = kindIn N target := by rw [kindIn, kindIn, hname]
    rw [Env.assign, if_pos hname] at hv
    refine ⟨hname ▸ htarget, ?_⟩
    rw [hkind]
    cases value with
    | copy w =>
      obtain ⟨-, p, hp⟩ := h w hv
      exact ⟨u :: p, .copy (hu ▸ hp)⟩
    | literal => cases hv
    | input => exact ⟨[u], .input hu⟩
  · rw [Env.assign, if_neg hname] at hv
    obtain ⟨hN, p, hp⟩ := h v hv
    obtain ⟨w, r, rfl, -⟩ := hp.exists_mem
    exact ⟨hN, w :: r, hp.past fun hkey => absurd (kindIn_inj htarget hkey).symm hname⟩

theorem Held.echo (h : Held N e past) (u : Token) :
    Held N e (((Special.sink .xss).name, u) :: past) := by
  intro v hv
  obtain ⟨hN, p, hp⟩ := h v hv
  obtain ⟨w, r, rfl, -⟩ := hp.exists_mem
  exact ⟨hN, w :: r, hp.past fun hkey => absurd hkey.symm (kindIn_ne sink_head)⟩

/-- The events of a script have an output at the place that the input is brought to. -/
def Reaches (es past : List Event) (place : Position) : Prop :=
  ∃ pre t post, es = pre ++ ((Special.sink .xss).name, t) :: post ∧
    t.mark.line = .number place.line ∧ t.pos = place.pos ∧ ∃ p, Brings (pre.reverse ++ past) t.kind p

theorem Reaches.later (es : List Event) {fs past : List Event} {place : Position}
    (h : Reaches fs (es.reverse ++ past) place) : Reaches (es ++ fs) past place := by
  obtain ⟨pre, t, post, rfl, hline, hpos, p, hp⟩ := h
  exact ⟨es ++ pre, t, post, by simp, hline, hpos, p, by simpa using hp⟩

theorem Reaches.earlier {fs past : List Event} {place : Position} (h : Reaches es past place) :
    Reaches (es ++ fs) past place := by
  obtain ⟨pre, t, post, rfl, hrest⟩ := h
  exact ⟨pre, t, post ++ fs, by simp, hrest⟩

theorem branch_past (c : Variable) (yes no : Script) (hpast : ∀ x ∈ past, l.Past x.2) :
    let l₁ := l.next.leave (yes.level (l.next.enter 1))
    let l₂ := l₁.leave (no.level (l₁.enter (-1)))
    let first := yes.events kindOf file (l.next.enter 1) n
    let second := no.events kindOf file (l₁.enter (-1)) (n + yes.size)
    (∀ x ∈ past, (l.next.enter 1).Past x.2 ∧ ¬ (l.next.enter 1).Own x.2) ∧
      (∀ x ∈ first.reverse ++ past, (l₁.enter (-1)).Past x.2 ∧ ¬ (l₁.enter (-1)).Own x.2) ∧
      ∀ x ∈ second.reverse ++ (first.reverse ++ past), l₂.Past x.2 := by
  intro l₁ l₂ first second
  have hnew : l.counter < l.next.counter := Int.lt_add_one_of_le (Int.le_refl _)
  have hcount : ∀ k, l.count k ≤ l₁.count k := fun k =>
    Int.le_trans (l.count_le_next k) (Level.count_le_leave (count_le_level yes _) k)
  refine ⟨fun x hx => (hpast x hx).enter l.next rfl hnew l.count_le_next 1, fun x hx => ?_,
    fun x hx => ?_⟩
  · rcases List.mem_append.mp hx with hx | hx
    · exact second_of_mem_first (List.mem_reverse.mp hx)
    · exact (hpast x hx).enter l₁ rfl hnew hcount (-1)
  · -- Behind the branch the level is that of a script that ends there.
    have hall : ∀ y ∈ first ++ (second ++ []), l₂.Past y.2 := fun y hy =>
      past_of_mem_events (s := branch c yes no .done) (n := n) hy
    simp only [List.mem_append, List.mem_reverse] at hx
    rcases hx with hx | hx | hx
    iterate 2 exact hall x (by simp [hx])
    · exact past_level (s := branch c yes no .done) (hpast x hx)

theorem Run.held {e' : Env} {out : List (Position × Bool)} {ns : Names} (h : Run s e out e')
    (file : String) (hN : s.names ns <+: N) (hpast : ∀ x ∈ past, l.Past x.2) (he : Held N e past) :
    Held N e' ((s.events (kindIn N) file l n).reverse ++ past) ∧
      ∀ place, (place, true) ∈ out → Reaches (s.events (kindIn N) file l n) past place := by
  induction h generalizing l n ns past with
  | done => exact ⟨he, fun place hplace => by cases hplace⟩
  | @assign target value place rest e e' out h ih =>
    have htarget := mem_of_number (((operandNames_extends _ value).trans (names_extends rest _)).trans hN)
    let u : Event := (kindIn N target, .site n (l.mark file place (operandKind (kindIn N) value)))
    have hpast' : ∀ x ∈ u :: past, l.Past x.2 :=
      List.forall_mem_cons.mpr ⟨Level.Own.past ⟨rfl, rfl, rfl⟩, hpast⟩
    obtain ⟨hheld, hout⟩ := ih (n := n + 1) hN hpast' (he.assign htarget rfl)
    refine ⟨by simpa [events] using hheld, fun place hplace => ?_⟩
    exact Reaches.later [u] (hout place hplace)
  | @echo source place rest e e' out h ih =>
    let u : Event := ((Special.sink .xss).name, .site n (l.mark file place (kindIn N source)))
    have hpast' : ∀ x ∈ u :: past, l.Past x.2 :=
      List.forall_mem_cons.mpr ⟨Level.Own.past ⟨rfl, rfl, rfl⟩, hpast⟩
    obtain ⟨hheld, hout⟩ := ih (n := n + 1) hN hpast' (he.echo u.2)
    refine ⟨by simpa [events] using hheld, fun place' hplace => ?_⟩
    rcases List.mem_cons.mp hplace with hplace | hplace
    · obtain ⟨rfl, htainted⟩ := Prod.mk.inj hplace
      obtain ⟨-, p, hp⟩ := he source htainted.symm
      exact ⟨[], u.2, rest.events (kindIn N) file l (n + 1), rfl, rfl, rfl, p, hp⟩
    · exact Reaches.later [u] (hout place' hplace)
  | @yes c yes no rest e₁ e₂ e₃ out₁ out₂ hyes hrest ihyes ihrest =>
    obtain ⟨hfirst, hsecond, hbehind⟩ := branch_past c yes no hpast
    obtain ⟨hheld, hout⟩ := ihyes (n := n)
      (((names_extends no _).trans (names_extends rest _)).trans hN) (fun x hx => (hfirst x hx).1) he
    obtain ⟨hheld', hout'⟩ := ihrest (n := n + yes.size + no.size) hN hbehind
      (hheld.skip fun x hx y hy => not_sameBranch_of_mem_events (hsecond y hy).1 (hsecond y hy).2 hx)
    refine ⟨by simpa [events] using hheld', fun place hplace => ?_⟩
    rcases List.mem_append.mp hplace with hplace | hplace
    · exact (hout place hplace).earlier
    · exact Reaches.later _ (Reaches.later _ (hout' place hplace))
  | @no c yes no rest e₁ e₂ e₃ out₁ out₂ hno hrest ihno ihrest =>
    obtain ⟨hfirst, hsecond, hbehind⟩ := branch_past c yes no hpast
    obtain ⟨hheld, hout⟩ := ihno (n := n + yes.size) ((names_extends rest _).trans hN)
      (fun x hx => (hsecond x hx).1)
      (he.skip fun x hx y hy => not_sameBranch_of_mem_events (hfirst y hy).1 (hfirst y hy).2 hx)
    obtain ⟨hheld', hout'⟩ := ihrest (n := n + yes.size + no.size) hN hbehind hheld
    refine ⟨by simpa [events] using hheld', fun place hplace => ?_⟩
    rcases List.mem_append.mp hplace with hplace | hplace
    · exact Reaches.later _ (hout place hplace).earlier
    · exact Reaches.later _ (Reaches.later _ (hout' place hplace))

end Script

end MaskedTaint
