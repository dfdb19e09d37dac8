import Mathlib.Data.List.Nodup
import Storyboard.Source.Bindings

/-!
# The lines of a scan

The lines that a scan lists are numbered in increasing order, so a number stands for one line.  A
line that neither starts a definition nor lies in a class body is a use; on every other line, an
operation counts as part of a definition, whatever it works on.
-/

namespace Storyboard.Source

/-! ## Numbers -/

theorem le_number_of_mem_scanFrom {blocks : List Block} {number : Nat} {raws : List (List Char)}
    {line : Line} (h : line ∈ scanFrom blocks number raws) : number ≤ line.number := by
  induction raws generalizing blocks number with
  | nil => exact absurd h List.not_mem_nil
  | cons raw rest ih =>
    rw [scanFrom] at h
    dsimp only at h
    split at h
    next => exact Nat.le_of_succ_le (ih h)
    next =>
      rcases List.mem_cons.mp h with rfl | h
      · exact Nat.le_refl number
      · exact Nat.le_of_succ_le (ih h)

/-- Lines are numbered in increasing order. -/
theorem scanFrom_pairwise (blocks : List Block) (number : Nat) (raws : List (List Char)) :
    (scanFrom blocks number raws).Pairwise fun a b => a.number < b.number := by
  induction raws generalizing blocks number with
  | nil => exact .nil
  | cons raw rest ih =>
    rw [scanFrom]
    dsimp only
    split
    next => exact ih _ _
    next => exact .cons (fun line hline => le_number_of_mem_scanFrom hline) (ih _ _)

/-- No two lines have the same number. -/
theorem eq_of_number_eq {code : String} {a b : Line} (ha : a ∈ scan code) (hb : b ∈ scan code)
    (h : a.number = b.number) : a = b := by
  have hnodup : ((scan code).map Line.number).Nodup :=
    List.pairwise_map.mpr ((scanFrom_pairwise _ _ _).imp Nat.ne_of_lt)
  exact List.inj_on_of_nodup_map hnodup ha hb h

/-! ## Uses -/

/-- The line neither starts a definition nor lies in a class body. -/
def Line.isUse (line : Line) : Bool := !line.isHeader && !line.inClass

/-- Away from uses, every operation is part of a definition. -/
theorem Line.isDefinition_of_isUse {line : Line} (h : line.isUse = false)
    (receiver operand : Option (List Char)) : line.isDefinition receiver operand = true := by
  have hdefinition : (line.isHeader || line.inClass) = true := by
    rw [isUse, ← Bool.not_or, Bool.not_eq_false'] at h
    exact h
  rw [isDefinition, hdefinition, Bool.true_or, Bool.true_or]

/-- Bindings are added to the lines, and no line is lost. -/
theorem map_fst_boundLinesFrom (bindings : Bindings) (lines : List Line) :
    (boundLinesFrom bindings lines).map Prod.fst = lines := by
  induction lines generalizing bindings with
  | nil => rfl
  | cons line rest ih => rw [boundLinesFrom, List.map_cons, ih]

/-- The number is that of a use among the lines. -/
def IsUseIn (lines : List (Line × Bindings)) (number : Nat) : Prop :=
  ∃ entry ∈ lines, entry.1.isUse = true ∧ entry.1.number = number

theorem IsUseIn.cons {lines : List (Line × Bindings)} {number : Nat} (h : IsUseIn lines number)
    (entry : Line × Bindings) : IsUseIn (entry :: lines) number := by
  obtain ⟨use, hmem, huse⟩ := h
  exact ⟨use, List.mem_cons_of_mem entry hmem, huse⟩

/-- The number of a use stands for a line of the scan, and for no header and no line in a class
body. -/
theorem IsUseIn.of_boundLines {code : String} {number : Nat} (h : IsUseIn (boundLines code) number) :
    (∃ line ∈ scan code, line.number = number) ∧
      ∀ line ∈ scan code, line.number = number → line.isHeader = false ∧ line.inClass = false := by
  obtain ⟨use, hmem, huse, rfl⟩ := h
  have hscan : use.1 ∈ scan code := by
    have hfst := List.mem_map_of_mem (f := Prod.fst) hmem
    rw [boundLines, map_fst_boundLinesFrom] at hfst
    exact hfst
  refine ⟨⟨use.1, hscan, rfl⟩, fun line hline hnumber => ?_⟩
  obtain rfl := eq_of_number_eq hline hscan hnumber
  rw [Line.isUse, Bool.and_eq_true, Bool.not_eq_true', Bool.not_eq_true'] at huse
  exact huse

end Storyboard.Source
