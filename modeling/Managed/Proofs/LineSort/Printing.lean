import Managed.Proofs.LineSort.Correctness

/-!
# What a sort prints

Lines are printed in their order, each followed by a line feed, so that as many lines are printed as
were read (`run_prints_lines`). There is one exception: an output is not ended by a line feed if it is
empty, so nothing is printed of a single line that is empty.
-/

namespace Managed

namespace Text

/-- Lines as a text, each followed by a line feed. -/
def unlines (lines : List String) : String :=
  String.join (lines.map (· ++ "\n"))

theorem unlines_cons (line : String) (lines : List String) :
    unlines (line :: lines) = line ++ "\n" ++ unlines lines := by
  simp [unlines]

theorem unlines_eq {lines : List String} (hne : lines ≠ []) :
    unlines lines = String.intercalate "\n" lines ++ "\n" := by
  induction lines with
  | nil => exact absurd rfl hne
  | cons line rest ih =>
    rw [unlines_cons]
    cases rest with
    | nil => simp [unlines]
    | cons next rest =>
      rw [ih (List.cons_ne_nil next rest), String.intercalate_cons_cons, ← String.append_assoc]

theorem intercalate_eq_empty {lines : List String} :
    String.intercalate "\n" lines = "" ↔ lines = [] ∨ lines = [""] := by
  cases lines with
  | nil => simp
  | cons line rest =>
    cases rest with
    | nil => simp
    | cons next rest => simp

/-- An output is ended by a line feed unless it is empty, which it is if there is no line or an empty one
by itself. -/
theorem ended_intercalate (lines : List String) :
    (if (String.intercalate "\n" lines).isEmpty then "" else String.intercalate "\n" lines ++ "\n") =
      if lines = [""] then "" else unlines lines := by
  by_cases hempty : String.intercalate "\n" lines = ""
  · rw [if_pos (String.isEmpty_iff.mpr hempty)]
    rcases intercalate_eq_empty.mp hempty with rfl | rfl
    · rfl
    · rfl
  · have hne := not_or.mp (mt intercalate_eq_empty.mpr hempty)
    rw [if_neg (mt String.isEmpty_iff.mp hempty), if_neg hne.2, unlines_eq hne.1]

theorem not_mem_linesAfter {started text line : List Char} (hs : '\n' ∉ started)
    (hline : line ∈ linesAfter started text) : '\n' ∉ line := by
  fun_induction linesAfter started text with
  | case1 started _ => cases hline
  | case2 started _ =>
    rw [List.mem_singleton.mp hline, List.mem_reverse]
    exact hs
  | case3 started text ended ih =>
    rcases List.mem_cons.mp hline with rfl | hline
    · rw [List.mem_reverse]
      intro hmem
      dsimp only [ended] at hmem
      split at hmem
      · exact hs (List.mem_of_mem_tail hmem)
      · exact hs hmem
    · exact ih List.not_mem_nil hline
  | case4 started c text hc ih =>
    refine ih (fun hmem => ?_) hline
    rcases List.mem_cons.mp hmem with rfl | hmem
    · exact hc rfl
    · exact hs hmem

theorem not_mem_of_mem_lines {text line : String} (hline : line ∈ lines text) :
    '\n' ∉ line.toList := by
  obtain ⟨chars, hchars, rfl⟩ := List.mem_map.mp hline
  rw [String.toList_ofList]
  exact not_mem_linesAfter List.not_mem_nil hchars

theorem count_unlines {lines : List String} (hlines : ∀ line ∈ lines, '\n' ∉ line.toList) :
    (unlines lines).toList.count '\n' = lines.length := by
  induction lines with
  | nil => rfl
  | cons line rest ih =>
    have hline := List.count_eq_zero.mpr (hlines line List.mem_cons_self)
    have hrest := ih fun l hl => hlines l (List.mem_cons_of_mem line hl)
    rw [unlines_cons, String.toList_append, String.toList_append, List.count_append,
      List.count_append, hline, hrest, List.length_cons, Nat.zero_add, Nat.add_comm]
    rfl

end Text

namespace LineSort

open Space

variable {o : Options} {text output : String}

/-- What is printed by a sort that ends well. -/
theorem sortText_eq_ok (hsep : o.separator = none) (hchar : o.has .char = false)
    (hnum : o.has .numeric = false) {limits : SpaceLimits}
    (hok : sortText o limits text = .ok output) :
    ∃ sorted, Sorted o (Text.lines text) sorted ∧
      output = if Text.lines text = [""] then "" else Text.unlines sorted := by
  have hbetween : o.between = "\n" := by
    rw [Options.between, hsep, hchar]
    rfl
  have horder : o.order ≠ .numeric := by
    rw [Options.order, hnum]
    cases o.has .caseless <;> decide
  simp only [sortText, if_neg horder] at hok
  cases hsort : sortLines o text (.ofLimits limits) with
  | error e s =>
    rw [hsort] at hok
    cases hok
  | ok rendered s =>
    rw [hsort] at hok
    obtain ⟨sorted, hsorted, rfl⟩ := sortLines_eq_ok horder hsort
    have hblank : sorted = [""] ↔ Text.lines text = [""] := by
      constructor
      · rintro rfl
        exact List.perm_singleton.mp hsorted.perm.symm
      · intro h
        rw [h] at hsorted
        exact List.perm_singleton.mp hsorted.perm
    refine ⟨sorted, hsorted, ?_⟩
    rw [hbetween] at hok
    simp only [← hblank, ← Text.ended_intercalate]
    exact (Except.ok.inj hok).symm

/-- What the program prints is what the sort of its input gives within the limits that it reads. -/
theorem exists_sortText {grammar : Grammar} {read : Source → Id (Option ByteArray)}
    {arguments : List String} (hparse : grammar.command? arguments = some (.sort o))
    (hread : Id.run (readInput read o).run = .ok text)
    (hrun : Id.run (runWith grammar read arguments) = .printed output) :
    ∃ limits, sortText o limits text = .ok output := by
  simp only [runWith, hparse, Id.run_bind] at hrun
  cases hsort : Id.run (runSort grammar read o).run with
  | error e =>
    rw [hsort] at hrun
    cases hrun
  | ok printed =>
    rw [hsort] at hrun
    cases hrun
    simp only [runSort, ExceptT.run_bind, Id.run_bind] at hsort
    cases hlimits : Id.run (readLimits grammar read o).run with
    | error e =>
      rw [hlimits] at hsort
      cases hsort
    | ok limits =>
      simp only [hlimits, hread, Id.run_bind] at hsort
      exact ⟨limits, hsort⟩

/-- A sort prints its lines in order, each followed by a line feed, and so as many as it read. Of a
single line that is empty it prints nothing. How command lines and limits are written does not matter. -/
theorem run_prints_lines {grammar : Grammar} {read : Source → Id (Option ByteArray)}
    {arguments : List String} (hparse : grammar.command? arguments = some (.sort o))
    (hsep : o.separator = none) (hchar : o.has .char = false) (hnum : o.has .numeric = false)
    (hread : Id.run (readInput read o).run = .ok text)
    (hrun : Id.run (runWith grammar read arguments) = .printed output) :
    ∃ sorted, Sorted o (Text.lines text) sorted ∧
      (Text.lines text = [""] → output = "") ∧
      (Text.lines text ≠ [""] → output = Text.unlines sorted ∧
        output.toList.count '\n' = (Text.lines text).length) := by
  obtain ⟨limits, hok⟩ := exists_sortText hparse hread hrun
  obtain ⟨sorted, hsorted, hout⟩ := sortText_eq_ok hsep hchar hnum hok
  refine ⟨sorted, hsorted, fun hblank => ?_, fun hlines => ?_⟩
  · rw [hout, if_pos hblank]
  · rw [if_neg hlines] at hout
    have hfeeds : ∀ line ∈ sorted, '\n' ∉ line.toList := fun line hline =>
      Text.not_mem_of_mem_lines (hsorted.perm.mem_iff.mp hline)
    exact ⟨hout, by rw [hout, Text.count_unlines hfeeds, hsorted.perm.length_eq]⟩

/-- An empty line among others is printed as such. -/
theorem run_prints_lines_caseless :
    let read : Source → Id (Option ByteArray) := fun _ => some "b\n\nA".toUTF8
    let arguments := ["-s", "--reverse", "--caseless"]
    let o : Options := { flags := [.caseless, .reverse, .stable] }
    Command.parse? arguments = some (.sort o) ∧ o.separator = none ∧ o.has .char = false ∧
      o.has .numeric = false ∧ Id.run (readInput read o).run = .ok "b\n\nA" ∧
      Id.run (run read arguments) = .printed "b\nA\n\n" ∧
      ∃ sorted, Sorted o ["b", "", "A"] sorted ∧ "b\nA\n\n" = Text.unlines sorted := by
  intro read arguments o
  have hparse : Command.parse? arguments = some (.sort o) := by decide
  have hread : Id.run (readInput read o).run = .ok "b\n\nA" := by decide +kernel
  have hrun : Id.run (run read arguments) = .printed "b\nA\n\n" := by decide +kernel
  have hlines : Text.lines "b\n\nA" = ["b", "", "A"] := by decide +kernel
  have hcommand : Grammar.standard.command? arguments = some (.sort o) := hparse
  obtain ⟨sorted, hsorted, _, hout⟩ :=
    run_prints_lines hcommand rfl (by decide) (by decide) hread hrun
  rw [hlines] at hsorted hout
  exact ⟨hparse, rfl, by decide, by decide, hread, hrun, sorted, hsorted, (hout (by decide)).1⟩

/-- Of one empty line nothing is printed, although its text is not empty. -/
theorem blank_line_not_printed :
    let read : Source → Id (Option ByteArray) := fun _ => some "\n".toUTF8
    Command.parse? [] = some (.sort {}) ∧ Id.run (readInput read {}).run = .ok "\n" ∧
      Id.run (run read []) = .printed "" ∧
      ∀ sorted, Sorted {} (Text.lines "\n") sorted → "" ≠ Text.unlines sorted := by
  intro read
  refine ⟨by decide, by decide +kernel, by decide +kernel, fun sorted hsorted => ?_⟩
  have hlines : Text.lines "\n" = [""] := by decide +kernel
  rw [hlines] at hsorted
  rw [List.perm_singleton.mp hsorted.perm]
  decide

end LineSort

end Managed
