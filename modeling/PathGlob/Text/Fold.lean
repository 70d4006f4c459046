import PathGlob.Text.Basic
import PathGlob.Text.FoldTable

/-! Comparing characters with and without regard to case.

Two characters agree without regard to case when their full case foldings are the
same text, so agreement is an equivalence. On ASCII the folding is the lower-case
letter (`fold_of_ascii`); some characters beyond it fold into ASCII, as the Kelvin
sign does to `k`, but none to a dot or a separator (`fold_eq_mark`). -/
namespace PathGlob.Text

def isAscii (c : Char) : Bool := c.toNat < 0x80

def isAsciiLetter (c : Char) : Bool := c.isAlpha

/-- Full case folding of one character: one to three characters. -/
def fold (c : Char) : Text :=
  if isAscii c then [c.toLower]
  else match foldExpansions.lookup c.toNat with
    | some codes => codes.map Char.ofNat
    | none => match foldRuns.find? (·.covers c.toNat) with
      | some run => [Char.ofNat (c.toNat + run.shift).toNat]
      | none => [c]

theorem fold_of_ascii {c : Char} (h : isAscii c = true) : fold c = [c.toLower] := by
  simp [fold, h]

theorem ofNat_ne_mark {n : Nat} {m : Char} (hm : m = '.' ∨ m = '/') (h : 0x30 ≤ n) :
    Char.ofNat n ≠ m := by
  intro he
  by_cases hv : n.isValidChar
  · have hn : (Char.ofNat n).toNat = n := by
      rw [Char.ofNat, dif_pos hv]
      rfl
    have hlow : m.toNat < 0x30 := by rcases hm with rfl | rfl <;> decide
    rw [he] at hn
    omega
  · rw [Char.ofNat, dif_neg hv] at he
    rcases hm with rfl | rfl <;> exact absurd he (by decide)

theorem eq_mark_of_toLower :
    ∀ n < 0x80, ∀ m, m = '.' ∨ m = '/' → (Char.ofNat n).toLower = m → n = m.toNat := by
  simp only [forall_eq_or_imp, forall_eq]
  decide

/-- Nothing but a dot folds to a dot, and nothing but a separator to a separator. -/
theorem fold_eq_mark {c m : Char} (hm : m = '.' ∨ m = '/') : fold c = [m] ↔ c = m := by
  refine ⟨fun h => ?_, by rintro rfl; rcases hm with rfl | rfl <;> rfl⟩
  unfold fold at h
  split at h
  case isTrue ha =>
    have hlow : (Char.ofNat c.toNat).toLower = m := by
      rw [Char.ofNat_toNat]
      exact List.head_eq_of_cons_eq h
    have hn := eq_mark_of_toLower _ (by simpa [isAscii] using ha) m hm hlow
    rw [← Char.ofNat_toNat c, hn, Char.ofNat_toNat]
  case isFalse =>
    split at h
    · rename_i codes hc
      obtain ⟨before, after, he, -⟩ := List.lookup_eq_some_iff.1 hc
      have hlen := List.all_eq_true.1 foldExpansions_longer (c.toNat, codes) (by simp [he])
      have := congrArg List.length h
      simp at hlen this
      omega
    · split at h
      · rename_i run hr
        have hlow := List.all_eq_true.1 foldRuns_above_marks run (List.mem_of_find?_eq_some hr)
        have hcover := List.find?_some hr
        simp only [FoldRun.covers, Bool.and_eq_true, decide_eq_true_eq] at hlow hcover
        exact absurd (List.head_eq_of_cons_eq h) (ofNat_ne_mark hm (by omega))
      · exact List.head_eq_of_cons_eq h

/-- Agreement of two characters, with or without regard to case. -/
def same (caseSensitive : Bool) (a b : Char) : Bool :=
  a == b || (!caseSensitive && fold a == fold b)

theorem same_sensitive (a b : Char) : same true a b = true ↔ a = b := by
  simp [same]

theorem same_insensitive (a b : Char) : same false a b = true ↔ fold a = fold b := by
  simp only [same, Bool.not_false, Bool.true_and, Bool.or_eq_true, beq_iff_eq, or_iff_right_iff_imp]
  exact congrArg fold

theorem same_mark {caseSensitive : Bool} {a b m : Char} (hm : m = '.' ∨ m = '/')
    (h : same caseSensitive a b = true) : a = m ↔ b = m := by
  cases caseSensitive with
  | true => rw [(same_sensitive a b).1 h]
  | false => rw [← fold_eq_mark hm, (same_insensitive a b).1 h, fold_eq_mark hm]

theorem same_separator {caseSensitive : Bool} {a b : Char} (h : same caseSensitive a b = true) :
    a = '/' ↔ b = '/' :=
  same_mark (.inr rfl) h

theorem same_self (caseSensitive : Bool) (a : Char) : same caseSensitive a a = true := by
  simp [same]

end PathGlob.Text
