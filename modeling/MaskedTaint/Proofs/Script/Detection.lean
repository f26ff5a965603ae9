import MaskedTaint.Proofs.Script.Structure
import MaskedTaint.Proofs.Search.StraightLine

/-! Detection on scripts. For every output that prints a value from the input in some run the
search records a path back to the input. Whether it reports one depends on the nearest of the
recorded paths. -/

namespace MaskedTaint

namespace Script

variable {file : String} {N : Names} {s : Script} {l : Level} {n : Nat}

theorem meetsInput_of_entries {p : Path} {t : Token} (ht : t ∈ p)
    (hkind : t.kind = Special.input.name)
    (hp : ∀ u ∈ p, ∃ key, (recorded file (fresh file) (s.events (kindIn N) file l n)).Entry file key u) :
    Search.MeetsInput .xss p := by
  obtain ⟨before, after, rfl⟩ := List.append_of_mem ht
  refine ⟨before, t, after, rfl, hkind, fun u hu => ?_⟩
  obtain ⟨key, hu⟩ := hp u (by simp [hu])
  obtain ⟨-, i, l', place, value, rfl⟩ := shape_of_mem_events (entry_recorded.mp hu)
  exact operandKind_ne (by decide) (by decide) (by decide)

theorem length_occurrences_events :
    (recorded file (fresh file) (s.events (kindIn N) file l n)).occurrences.length = s.size := by
  rw [length_occurrences_recorded _ fun e he => ?_, length_events]
  · exact Nat.zero_add _
  · obtain ⟨-, i, l, place, value, hsite⟩ := shape_of_mem_events he
    exact ⟨i, _, hsite⟩

theorem exists_path_of_printsInput {start : Position} {text : List Char} (h : Reads start s text)
    {place : Position} (hprints : s.PrintsInput place) :
    let d := recorded file (fresh file) (s.events (kindIn (s.names [])) file {} 0)
    ∃ t ∈ d.sinks .xss file, t.mark.line = .number place.line ∧ t.pos = place.pos ∧
      ∃ p ∈ d.paths file t, Search.MeetsInput .xss p := by
  intro d
  obtain ⟨out, e, hrun, hout⟩ := hprints
  have hone : d.OneScope file := oneScope_recorded h {} 0
  have hstart : Held (s.names []) (fun _ => false) [] := fun v hv => by cases hv
  obtain ⟨-, hreaches⟩ := hrun.held file (l := {}) (n := 0) List.prefix_rfl (by simp) hstart
  obtain ⟨pre, t, post, hes, hline, hpos, p, hp⟩ := hreaches place hout
  rw [List.append_nil] at hp
  have hwithin := h.within file (kindIn (s.names [])) {} 0
  have hinput : ∀ x ∈ s.events (kindIn (s.names [])) file {} 0, x.1 ≠ Special.input.name :=
    fun x hx => key_ne hx (by decide) (by decide)
  have hentry : d.Entry file (Special.sink .xss).name t := entry_recorded.mpr (by simp [hes])
  have hunbroken : d.Unbroken file (t :: p) := by
    rw [hes, ← List.reverse_reverse pre] at hwithin hinput
    obtain ⟨hchain, hlatest⟩ := hp.unbroken hwithin hinput
    have hd : d = recorded file (fresh file)
        (pre.reverse.reverse ++ ((Special.sink .xss).name, t) :: post) := by
      rw [List.reverse_reverse, ← hes]
    rw [hd]
    exact unbroken_cons hwithin hlatest hchain
  have hpath := hone.mem_paths_of_unbroken ⟨_, hentry⟩ hunbroken
  obtain ⟨u, hu, hkind⟩ := hp.input_mem
  refine ⟨t, ?_, hline, hpos, t :: p, hpath, ?_⟩
  · obtain ⟨ts, hts, ht⟩ := hentry
    rw [Structure.sinks, hts]
    exact ht
  · exact meetsInput_of_entries (List.mem_cons_of_mem _ hu) hkind fun w hw =>
      Structure.entry_of_mem_paths ⟨_, hentry⟩ hpath hw

/-- A file that reads as a script is recorded and searched without failure. For every output that
prints a value from the input in some run a path back to the input is recorded. The output is
reported if and only if one of its recorded paths back to the input is the nearest one, or passes
by a branch that the nearest one takes. -/
theorem reported_iff_candidate (file : String) (s : Script) (text : List Char) (blank : Char)
    (limit : Limit) (hblank : Pattern.isBlank blank = true)
    (hreads : Reads (Position.after ⟨1, 0⟩ (Masker.openTag blank)) s text)
    (hdepth : s.size < limit.depth) (hwidth : s.size < limit.width) :
    let recording := Project.recordFile {} file (Masker.openTag blank ++ text)
    let d := recording.recorder.flows
    recording.failure = none ∧
      ∃ paths, (Search.detect .plain limit .xss { flows := d }).1 = .ok paths ∧
        (∀ place, s.PrintsInput place →
          ∃ t ∈ d.sinks .xss file, t.mark.line = .number place.line ∧ t.pos = place.pos ∧
            ∃ p ∈ d.paths file t, Search.MeetsInput .xss p) ∧
        ∀ t ∈ d.sinks .xss file, (∃ p ∈ paths, p.head? = some t) ↔
          ∃ p, Search.MeetsInput .xss p ∧ p ∈ d.paths file t ∧
            ∃ q, Catalog.IsNearest (d.paths file t) q ∧
              (p = q ∨ ∃ u ∈ q, t.mark.depth < u.mark.depth ∧ Catalog.bypasses u p = true) := by
  intro recording d
  obtain ⟨hfailure, hflows⟩ := recordFile_of_reads file hblank hreads
  have hd : d = recorded file (fresh file) (s.events (kindIn (s.names [])) file {} 0) := hflows
  have hone : d.OneScope file := hd ▸ oneScope_recorded hreads {} 0
  have hsize : d.occurrences.length = s.size := hd ▸ length_occurrences_events
  refine ⟨hfailure, _, Search.detect_eq hone (by omega) (by omega) rfl, ?_, ?_⟩
  · intro place hprints
    rw [hd]
    exact exists_path_of_printsInput hreads hprints
  · intro t ht
    constructor
    · rintro ⟨p, hp, hhead⟩
      obtain ⟨hvulnerable, t', ht', hcandidate⟩ := (Search.mem_vulnerablePaths hone p).mp hp
      have heq := (Structure.head?_of_mem_paths hcandidate.1).symm.trans hhead
      cases heq
      exact ⟨p, Search.meetsInput_of_isVulnerable hvulnerable, hcandidate⟩
    · rintro ⟨p, hinput, hcandidate⟩
      exact ⟨p, (Search.mem_vulnerablePaths hone p).mpr
        ⟨Search.isVulnerable_of_meetsInput hinput, t, ht, hcandidate⟩,
        Structure.head?_of_mem_paths hcandidate.1⟩

/-! ### Scripts without branches -/

def Straight : Script → Prop
  | done => True
  | assign _ _ _ rest => rest.Straight
  | echo _ _ rest => rest.Straight
  | branch .. => False

theorem Straight.level (h : s.Straight) {e : Event} (he : e ∈ s.events (kindIn N) file l n) :
    ∃ i place kind, e.2 = .site i (l.mark file place kind) := by
  induction s generalizing n with
  | done => cases he
  | branch => cases h
  | assign target value place rest ih | echo source place rest ih =>
    rcases List.mem_cons.mp he with rfl | he
    · exact ⟨n, place, _, rfl⟩
    · exact ih h he

/-- In a script without branches, in which variables are assigned before they are read, the reported
paths are the chains of the outputs that meet an input. A chain goes on with the last assignment
before the token, so no overwritten value is reported. -/
theorem detect_straight (file : String) (text : List Char) (blank : Char) (limit : Limit)
    (hblank : Pattern.isBlank blank = true)
    (hreads : Reads (Position.after ⟨1, 0⟩ (Masker.openTag blank)) s text) (hs : s.Straight)
    (hdepth : s.size < limit.depth) (hwidth : s.size < limit.width) :
    let recording := Project.recordFile {} file (Masker.openTag blank ++ text)
    let d := recording.recorder.flows
    recording.failure = none ∧ (d.Defined file → (Search.detect .plain limit .xss { flows := d }).1 =
      .ok (((d.sinks .xss file).map (d.chain file)).filter fun p => Search.MeetsInput .xss p)) := by
  intro recording d
  obtain ⟨hfailure, hflows⟩ := recordFile_of_reads file hblank hreads
  have hd : d = recorded file (fresh file) (s.events (kindIn (s.names [])) file {} 0) := hflows
  have hsize : d.occurrences.length = s.size := hd ▸ length_occurrences_events
  refine ⟨hfailure, fun hdefined => Search.detect_copies ⟨hd ▸ oneScope_recorded hreads {} 0, ?_, hdefined⟩
    (by omega) (by omega) .xss⟩
  rw [hd]
  intro key t key' u ht hu
  obtain ⟨i, place, kind, rfl⟩ := hs.level (entry_recorded.mp ht)
  obtain ⟨i', place', kind', rfl⟩ := hs.level (entry_recorded.mp hu)
  exact ⟨rfl, rfl, rfl⟩

def letter (c : Char) (h : isNameStart c = true) : Variable :=
  ⟨['$', c], ⟨c, [], rfl, h, by simp⟩, by
    have hlength : ∀ x ∈ taintedVariables, x.length ≠ 2 := by decide
    intro hmem
    exact hlength _ hmem (by rw [String.length_ofList]; rfl)⟩

def guardedText : List Char := "$a = $_GET['k']; if ($c) \x7b $a = 'x'; \x7d echo $a;".toList

def guarded : Script :=
  .assign (letter 'a' rfl) .input ⟨1, 11⟩
    (.branch (letter 'c' rfl) (.assign (letter 'a' rfl) .literal ⟨1, 38⟩ .done) .done
      (.echo (letter 'a' rfl) ⟨1, 50⟩ .done))

theorem spells_input : Spells .input "$_GET['k']".toList :=
  @Spells.input [] [] [] ['k'] (by decide) (by decide) (by decide) (.plain (by decide) .nil)

theorem spells_literal : Spells .literal "'x'".toList := .literal (.plain (by decide) .nil)

theorem reads_guarded : Reads (Position.after ⟨1, 0⟩ (Masker.openTag ' ')) guarded guardedText := by
  have hs : Blank [' '] := by decide
  have hn : Blank [] := by decide
  have hecho : Reads ⟨1, 44⟩ (.echo (letter 'a' rfl) ⟨1, 50⟩ .done) " echo $a;".toList :=
    @Reads.echo ⟨1, 44⟩ ⟨1, 50⟩ (letter 'a' rfl) .done [' '] [' '] [] [] hs hs hn (by decide)
      (.done hn)
  have hyes : Reads ⟨1, 32⟩ (.assign (letter 'a' rfl) .literal ⟨1, 38⟩ .done) " $a = 'x'; ".toList :=
    @Reads.assign ⟨1, 32⟩ ⟨1, 38⟩ (letter 'a' rfl) .literal .done [' '] [' '] [' '] [] _ [' ']
      hs hs hs hn spells_literal (by decide) (.done hs)
  have hbranch : Reads ⟨1, 22⟩ (.branch (letter 'c' rfl)
      (.assign (letter 'a' rfl) .literal ⟨1, 38⟩ .done) .done (.echo (letter 'a' rfl) ⟨1, 50⟩ .done))
      " if ($c) \x7b $a = 'x'; \x7d echo $a;".toList :=
    @Reads.branch ⟨1, 22⟩ (letter 'c' rfl) _ _ [' '] [' '] [] [] [' '] _ _ hs hs hn hn hs hyes
      hecho
  exact @Reads.assign _ ⟨1, 11⟩ (letter 'a' rfl) .input _ [] [' '] [' '] [] _ _ hn hs hs hn spells_input
    (by decide) hbranch

theorem printsInput_guarded : guarded.PrintsInput ⟨1, 50⟩ := by
  refine ⟨_, _, .assign (.no .done (.echo .done)), ?_⟩
  simp [Env.assign, tainted]

theorem flows_guarded :
    (Project.recordFile {} "g.php" (Masker.openTag ' ' ++ guardedText)).recorder.flows =
      recorded "g.php" (fresh "g.php") (guarded.events (kindIn (guarded.names [])) "g.php" {} 0) :=
  (recordFile_of_reads "g.php" rfl reads_guarded).2

/-- The branch need not be taken, so the output is reported. -/
theorem reported_iff_candidate_guarded :
    guarded.PrintsInput ⟨1, 50⟩ ∧
      let d := (Project.recordFile {} "g.php" (Masker.openTag ' ' ++ guardedText)).recorder.flows
      ∃ t u, (Search.detect .plain Search.usualLimit .xss { flows := d }).1 = .ok [[t, u]] ∧
        t.pos = 50 ∧ u.kind = Special.input.name ∧
        ∃ p, Search.MeetsInput .xss p ∧ p ∈ d.paths "g.php" t ∧
          ∃ q, Catalog.IsNearest (d.paths "g.php" t) q ∧
            (p = q ∨ ∃ u ∈ q, t.mark.depth < u.mark.depth ∧ Catalog.bypasses u p = true) := by
  refine ⟨printsInput_guarded, ?_⟩
  intro d
  let t : Token := .site 2 ⟨"VAR1", .number 1, 50, 0, 0, 0, .number 0, "g.php", "g.php"⟩
  let u : Token := .site 0 ⟨"INPUT", .number 1, 11, 0, 0, 0, .number 0, "g.php", "g.php"⟩
  have hdetect : (Search.detect .plain Search.usualLimit .xss { flows := d }).1 = .ok [[t, u]] := by
    rw [show d = _ from flows_guarded]
    with_unfolding_all rfl
  have hsink : t ∈ d.sinks .xss "g.php" := by
    rw [show d = _ from flows_guarded]
    exact List.mem_singleton.mpr rfl
  obtain ⟨-, paths, hpaths, -, hreported⟩ := reported_iff_candidate "g.php" guarded guardedText ' '
    Search.usualLimit rfl reads_guarded (by decide) (by decide)
  cases hpaths.symm.trans hdetect
  exact ⟨t, u, hdetect, rfl, rfl, (hreported t hsink).mp ⟨_, List.mem_singleton.mpr rfl, rfl⟩⟩

/-- An input that comes in on a branch and is copied behind it. -/
def copiedText : List Char := "$a = 'x'; if ($c) \x7b $a = $_GET['k']; \x7d $b = $a; echo $b;".toList

def copied : Script :=
  .assign (letter 'a' rfl) .literal ⟨1, 11⟩
    (.branch (letter 'c' rfl) (.assign (letter 'a' rfl) .input ⟨1, 31⟩ .done) .done
      (.assign (letter 'b' rfl) (.copy (letter 'a' rfl)) ⟨1, 50⟩
        (.echo (letter 'b' rfl) ⟨1, 59⟩ .done)))

theorem reads_copied : Reads (Position.after ⟨1, 0⟩ (Masker.openTag ' ')) copied copiedText := by
  have hs : Blank [' '] := by decide
  have hn : Blank [] := by decide
  have hecho : Reads ⟨1, 53⟩ (.echo (letter 'b' rfl) ⟨1, 59⟩ .done) " echo $b;".toList :=
    @Reads.echo ⟨1, 53⟩ ⟨1, 59⟩ (letter 'b' rfl) .done [' '] [' '] [] [] hs hs hn (by decide)
      (.done hn)
  have hcopy : Reads ⟨1, 44⟩ (.assign (letter 'b' rfl) (.copy (letter 'a' rfl)) ⟨1, 50⟩
      (.echo (letter 'b' rfl) ⟨1, 59⟩ .done)) " $b = $a; echo $b;".toList :=
    @Reads.assign ⟨1, 44⟩ ⟨1, 50⟩ (letter 'b' rfl) (.copy (letter 'a' rfl)) _ [' '] [' '] [' '] [] _ _
      hs hs hs hn (.copy (letter 'a' rfl)) (by decide) hecho
  have hyes : Reads ⟨1, 25⟩ (.assign (letter 'a' rfl) .input ⟨1, 31⟩ .done)
      " $a = $_GET['k']; ".toList :=
    @Reads.assign ⟨1, 25⟩ ⟨1, 31⟩ (letter 'a' rfl) .input .done [' '] [' '] [' '] [] _ [' ']
      hs hs hs hn spells_input (by decide) (.done hs)
  exact @Reads.assign _ ⟨1, 11⟩ (letter 'a' rfl) .literal _ [] [' '] [' '] [] _ _ hn hs hs hn
    spells_literal (by decide)
    (@Reads.branch ⟨1, 15⟩ (letter 'c' rfl) _ _ [' '] [' '] [] [] [' '] _ _ hs hs hn hn hs hyes
      hcopy)

/-- If the branch is taken the output prints the input, but no path is reported: the nearest one
goes round the branch, and nothing on it is deeper than the output. -/
theorem exists_print_unreported :
    Reads (Position.after ⟨1, 0⟩ (Masker.openTag ' ')) copied copiedText ∧
      copied.PrintsInput ⟨1, 59⟩ ∧
      (Search.detect .plain Search.usualLimit .xss { flows :=
        (Project.recordFile {} "m.php" (Masker.openTag ' ' ++ copiedText)).recorder.flows }).1 =
          .ok [] := by
  refine ⟨reads_copied, ⟨_, _, .assign (.yes (.assign .done) (.assign (.echo .done))), ?_⟩, ?_⟩
  · simp [Env.assign, tainted]
  · rw [(recordFile_of_reads "m.php" rfl reads_copied).2]
    with_unfolding_all rfl

/-- The operands of a joined text have another split than the sink, so they do not hide what their
variable had before: the input is reported, although `$a` is overwritten before it is read. -/
theorem overwritten_input_is_reported : (Search.detect .plain Search.usualLimit .xss
    { flows := (Project.recordFile {} "m.php"
      "<?php $a = $_GET['x']; $a = 'y' . 'z'; $b = $a; echo $b;".toList).recorder.flows }).1.toOption.map
        (List.map (List.map Token.pos)) = some [[53, 44, 11]] := by
  decide +kernel

end Script

end MaskedTaint
