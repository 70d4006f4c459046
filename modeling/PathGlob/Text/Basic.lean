/-! Texts as lists of characters.

Patterns, names and paths are texts; a position in one counts characters. A text is cut at a
separator by `List.splitOn`, and no piece holds the separator (`not_mem_of_mem_splitOn`). -/
namespace PathGlob

abbrev Text := List Char

theorem Text.not_mem_of_mem_splitOn (sep : Char) (s : Text) : ∀ p ∈ s.splitOn sep, sep ∉ p := by
  induction s with
  | nil => simp
  | cons c s ih =>
    rw [List.splitOn_cons_eq_if_modifyHead]
    split
    · simpa using ih
    · rename_i hc
      have hne : sep ≠ c := fun h => hc (beq_iff_eq.2 h.symm)
      obtain ⟨p, ps, hs⟩ := List.exists_cons_of_ne_nil (List.splitOn_ne_nil sep s)
      rw [hs] at ih ⊢
      simpa [hne] using ih

end PathGlob
