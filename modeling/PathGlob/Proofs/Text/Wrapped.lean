import PathGlob.Text.Wrap

/-! What becomes of a line on a page.

No line of a page is longer than the page is wide (`length_le_of_wrapped`), and a line that fits
stands on it as it is (`wrapped_of_length_le`), since its words are put on one line of the page
one after the other. -/
namespace PathGlob.Text
variable {width : Nat} {line s : Text}

/-! ### Words -/

/-- A line is blank, or it is its first word and a rest that starts with no blank. -/
theorem words_cases (s : Text) : (∀ c ∈ s, isBlank c = true) ∧ words s = [] ∨
    ∃ word rest, s = word ++ rest ∧ word ≠ [] ∧ (∀ c ∈ rest.head?, isBlank c = false) ∧
      words s = word :: words rest := by
  generalize hlead : s.takeWhile isBlank = lead
  generalize hbody : s.dropWhile isBlank = body
  generalize hshown : body.takeWhile (!isBlank ·) = shown
  generalize hrest : body.dropWhile (!isBlank ·) = rest
  have hs : s = lead ++ body := by rw [← hlead, ← hbody, List.takeWhile_append_dropWhile]
  have hb : body = shown ++ rest := by rw [← hshown, ← hrest, List.takeWhile_append_dropWhile]
  rw [words, hlead, hbody, hshown, hrest]
  by_cases hnil : shown = []
  · refine .inl ⟨fun c hc => ?_, if_pos hnil⟩
    have hhead := List.head?_dropWhile_not isBlank s
    rw [hbody] at hhead
    cases body with
    | nil =>
      rw [hs, List.append_nil, ← hlead] at hc
      exact List.all_eq_true.1 List.all_takeWhile c hc
    | cons d body =>
      rw [← hshown, List.takeWhile_cons_of_pos (by simpa using hhead)] at hnil
      cases hnil
  · refine .inr ⟨lead ++ shown ++ rest.takeWhile isBlank, rest.dropWhile isBlank, ?_, ?_, ?_,
      if_neg hnil⟩
    · rw [List.append_assoc, List.takeWhile_append_dropWhile, hs, hb, List.append_assoc]
    · simp [hnil]
    · intro c hc
      have hhead := List.head?_dropWhile_not isBlank rest
      rw [hc] at hhead
      exact hhead

/-- The words of a line that is not blank are the line, cut into pieces. -/
theorem flatten_words (h : words s ≠ []) : (words s).flatten = s := by
  induction hlen : s.length using Nat.strongRecOn generalizing s with
  | ind n ih =>
    obtain ⟨-, hnil⟩ | ⟨word, rest, rfl, hword, hhead, hwords⟩ := words_cases s
    · exact absurd hnil h
    · have hpos := List.length_pos_iff.2 hword
      rw [List.length_append] at hlen
      rw [hwords, List.flatten_cons]
      congr 1
      by_cases hrest : words rest = []
      · -- What is left starts with no blank, so it has words unless it is empty.
        cases rest with
        | nil => rw [hrest, List.flatten_nil]
        | cons c rest =>
          obtain ⟨hblank, -⟩ | ⟨_, _, -, -, -, hcons⟩ := words_cases (c :: rest)
          · have hc := hhead c rfl
            rw [hblank c List.mem_cons_self] at hc
            cases hc
          · rw [hrest] at hcons
            cases hcons
      · exact ih _ (by omega) hrest rfl

theorem length_trimmed_le (s : Text) : (trimmed s).length ≤ s.length := by
  rw [trimmed, List.length_reverse, ← s.length_reverse]
  exact (List.dropWhile_sublist isBlank).length_le

namespace Wrapping

/-- Where all words fit, none of them starts a new line. -/
theorem foldl_of_length_le {current : Text} {ws : List Text}
    (h : (current ++ ws.flatten).length ≤ width) :
    ws.foldl (add width) ⟨[], current⟩ = ⟨[], current ++ ws.flatten⟩ := by
  induction ws generalizing current with
  | nil => rw [List.foldl_nil, List.flatten_nil, List.append_nil]
  | cons word ws ih =>
    have hlen := length_trimmed_le word
    rw [List.flatten_cons, ← List.append_assoc] at h ⊢
    have hroom : current.length + (trimmed word).length ≤ width := by
      simp only [List.length_append] at h
      omega
    rw [List.foldl_cons, add, if_pos hroom]
    exact ih h

end Wrapping

/-! ### Lines on a page -/

/-- What sticks out of the page is cut off. -/
theorem fitted_eq_take (width : Nat) (line : Text) : fitted width line = line.take width := by
  rw [fitted, List.take_take, List.take_eq_take_iff]
  omega

theorem length_le_of_wrapLine : ∀ l ∈ wrapLine width line, l.length ≤ width := by
  have hfitted : ∀ l : Text, (fitted width l).length ≤ width := by
    intro l
    rw [fitted_eq_take, List.length_take]
    exact Nat.min_le_left _ _
  rw [wrapLine]
  split
  · exact List.forall_mem_singleton.2 (hfitted line)
  · exact List.forall_mem_map.2 fun l _ => hfitted l

/-- A line that fits the page stands on it as it is. -/
theorem wrapLine_of_length_le (h : line.length ≤ width) : wrapLine width line = [line] := by
  have hfitted : fitted width line = line := by rw [fitted_eq_take, List.take_of_length_le h]
  rw [wrapLine]
  split
  · rw [hfitted]
  · rename_i hne
    have hflat := flatten_words hne
    have hfold : (words line).foldl (Wrapping.add width) {} = ⟨[], [] ++ (words line).flatten⟩ :=
      Wrapping.foldl_of_length_le (by rwa [List.nil_append, hflat])
    rw [hfold, hflat]
    exact congrArg (fun l => [l]) hfitted

theorem length_le_of_wrapped : ∀ l ∈ wrapped width s, l.length ≤ width := by
  intro l hl
  obtain ⟨line, -, hline⟩ := List.mem_flatMap.1 hl
  exact length_le_of_wrapLine l hline

theorem wrapped_of_length_le (hs : '\n' ∉ s) (h : s.length ≤ width) : wrapped width s = [s] := by
  rw [wrapped, List.splitOn_eq_singleton hs, List.flatMap_singleton, wrapLine_of_length_le h]

end PathGlob.Text
