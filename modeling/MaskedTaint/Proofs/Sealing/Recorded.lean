import MaskedTaint.Proofs.Flow.Stamps
import MaskedTaint.Proofs.Sealing.Handover
import MaskedTaint.Proofs.Search.Safety

/-! The structure of a recorded project can be handed over: scopes and lists have names of their
own, no scope is empty, calls are told by their kind, and every token has a file of the project. -/

namespace MaskedTaint

namespace Token

theorem RecordedIn.regular {scope : String} {count : Nat} {t : Token} (h : t.RecordedIn scope count) :
    t.Regular := by
  cases h with
  | site hm hkind => simpa [Regular, not_or] using hkind
  | call hm hkind hn hargs => exact hkind

theorem mark_of_unnumbered {t u : Token} (h : t.unnumbered = u.unnumbered) : t.mark = u.mark := by
  rw [← mark_unnumbered t, h, mark_unnumbered]

theorem Regular.of_unnumbered {t u : Token} (h : t.unnumbered = u.unnumbered) (ht : t.Regular) :
    u.Regular := by
  have hkind := congrArg Mark.kind (mark_of_unnumbered h)
  cases t with
  | site i m =>
    cases u with
    | site j n => exact ⟨fun hn => ht.1 (hkind.trans hn), fun hn => ht.2 (hkind.trans hn)⟩
    | jump j n g as => cases h
  | jump i m f as =>
    cases u with
    | site j n => cases h
    | jump j n g bs => exact hkind.symm.trans ht

end Token

namespace Structure

variable {names : List String} {d : Structure}

structure RecordedFrom (names : List String) (d : Structure) : Prop where
  distinct : d.Distinct
  full : d ≠ [] ∧ ∀ e ∈ d, e.2 ≠ []
  regular : ∀ e ∈ d, ∀ l ∈ e.2, l.1 ≠ Special.imports.name →
    ∀ t ∈ Token.occurrencesIn l.2, t.Regular
  stamped : ∀ t ∈ d.occurrences, t.Stamped names

theorem length_occurrences_numbered (d : Structure) :
    d.numbered.occurrences.length = d.occurrences.length := by
  have hlength := congrArg List.length (occurrences_numbered d)
  rwa [List.length_map, List.length_map] at hlength

theorem mem_numbered {t : Token} (h : t ∈ d.numbered.occurrences) :
    ∃ u ∈ d.occurrences, t.mark = u.mark := by
  have hmem := occurrences_numbered d ▸ List.mem_map_of_mem h
  obtain ⟨u, hu, hut⟩ := List.mem_map.mp hmem
  exact ⟨u, hu, Token.mark_of_unnumbered hut.symm⟩

theorem inRange_numbered (h : ∀ t ∈ d.occurrences, t.InRange) :
    ∀ t ∈ d.numbered.occurrences, t.InRange := by
  intro t ht
  obtain ⟨u, hu, hmark⟩ := mem_numbered ht
  have hpos : t.pos = u.pos := congrArg Mark.pos hmark
  unfold Token.InRange
  rw [hpos, hmark]
  exact h u hu

section

variable (h : d.RecordedFrom names)

include h

theorem RecordedFrom.numbered : d.numbered.RecordedFrom names where
  distinct := distinct_numbered h.distinct
  full := by
    have hnames : d.numbered.names = d.names := names_numberedScopes 0 d
    refine ⟨fun hnil => h.full.1 ?_, fun e he hnil => ?_⟩
    · rw [hnil] at hnames
      exact List.map_eq_nil_iff.mp hnames.symm
    · obtain ⟨f, hf, _, hkeys, _⟩ := mem_numberedScopes he
      rw [hnil] at hkeys
      exact h.full.2 f hf (List.map_eq_nil_iff.mp hkeys)
  regular := by
    have hall := forall_numbered (d := d) (Q := fun key t => key ≠ Special.imports.name → t.Regular)
      (fun key t u htu ht hkey => (ht hkey).of_unnumbered htu)
      fun e he l hl t ht hkey => h.regular e he l hl hkey t ht
    exact fun e he l hl hkey t ht => hall e he l hl t ht hkey
  stamped := by
    intro t ht
    obtain ⟨u, hu, hmark⟩ := mem_numbered ht
    unfold Token.Stamped
    rw [hmark]
    exact h.stamped u hu

theorem RecordedFrom.orderly (hrange : ∀ t ∈ d.occurrences, t.InRange) : d.numbered.Orderly where
  distinct := h.numbered.distinct
  ids := nodup_ids_numbered d
  regular := h.numbered.regular
  inRange := inRange_numbered hrange
  splits t ht u hu hsplit := by
    -- numbers that are written alike are equal
    obtain ⟨m, hm⟩ := (h.numbered.stamped t ht).split
    obtain ⟨n, hn⟩ := (h.numbered.stamped u hu).split
    rw [Token.split, Token.split, hm, hn] at hsplit ⊢
    exact congrArg Label.number (Int.repr_inj.mp hsplit)

theorem RecordedFrom.commaFree_split : ∀ t ∈ d.occurrences, CommaFree t.split.render := by
  intro t ht
  obtain ⟨n, hn⟩ := (h.stamped t ht).split
  rw [Token.split, hn]
  exact Token.commaFree_toString n

theorem RecordedFrom.reportable
    (hnames : ∀ n ∈ names, AsciiText n ∧ n.length < 2 ^ 32) {t : Token} (ht : d.Flows t) :
    t.Reportable d.sealedNames := by
  have hfile := (h.stamped t ht.mem_occurrences).file
  have hsub := names_subset_sealedNames ht.mem_occurrences
  obtain ⟨e, he, l, hl, hkey, hin⟩ := ht
  exact ⟨h.regular e he l hl hkey t hin, hsub, hnames _ hfile⟩

end

theorem Sound.key_notMem {count : Nat} (h : d.Sound count) {e : String × Scope} (he : e ∈ d) :
    ∀ w ∈ recordWords, w ∉ e.2.names := by
  intro w hw hmem
  obtain ⟨l, hl, rfl⟩ := List.mem_map.mp hmem
  rcases ((h.lists e he).fits l hl).1 with hkey | hkey
  · have hno : ∀ w ∈ recordWords, w ∉ Special.keys.map Special.name := by decide
    exact hno _ hw hkey
  · have hno : ∀ w ∈ recordWords, ¬ NamesVariable w := by decide
    exact hno _ hw hkey

end Structure

namespace Project

theorem recordedFrom {files : List (String × List Char)} {p : Project} (hfiles : files ≠ [])
    (h : recordAll {} files = .ok p) : p.flows.RecordedFrom (files.map Prod.fst) := by
  have hsound := (Search.recordAll_sound sound_empty files h).flows
  refine ⟨⟨hsound.nodup, fun e he => (hsound.lists e he).nodup⟩,
    ⟨flows_ne_nil hfiles h, fun e he hnil => ?_⟩, fun e he l hl hkey t ht => ?_,
    occurrences_stamped h⟩
  · have hparams := hsound.params e he
    rw [hnil] at hparams
    cases hparams
  · obtain ⟨u, hu, ht⟩ := Token.mem_occurrencesIn.mp ht
    have hfits := ((hsound.lists e he).fits l hl).2 u hu
    exact ((hfits.recorded hkey).of_mem ht).regular

end Project

end MaskedTaint
