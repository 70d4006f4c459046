import PathGlob.Pattern.Basic

/-! Sources of patterns that stand for one given text.

Each character with a meaning of its own goes into a set of one. -/
namespace PathGlob.Pattern

def isMeta (c : Char) : Bool := c ∈ ['?', '*', '[', ']']

def escape (text : Text) : Text :=
  text.flatMap fun c => if isMeta c then ['[', c, ']'] else [c]

theorem escape_append (s t : Text) : escape (s ++ t) = escape s ++ escape t := by
  simp [escape]

theorem escape_eq_self {text : Text} (h : ∀ c ∈ text, isMeta c = false) : escape text = text := by
  induction text with
  | nil => rfl
  | cons c s ih => simp_all [escape]

end PathGlob.Pattern
