import PathGlob.Text.Blank

/-! Breaking a text into lines of at most a given width.

A line is a row of words, each carrying the blanks after it; the first also carries
the blanks before it. A word goes onto the current line when its visible part fits,
else onto a fresh one; a word wider than a whole line is cut into pieces that fill
their lines. Blanks beyond the width are dropped at the end. -/
namespace PathGlob.Text

/-- The words of a line. A line of blanks alone has none. -/
def words (s : Text) : List Text :=
  let lead := s.takeWhile isBlank
  let body := s.dropWhile isBlank
  let visible := body.takeWhile (!isBlank ·)
  let rest := body.dropWhile (!isBlank ·)
  if visible = [] then []
  else (lead ++ visible ++ rest.takeWhile isBlank) :: words (rest.dropWhile isBlank)
termination_by s.length
decreasing_by
  have h₀ : body.length ≤ s.length := (List.dropWhile_sublist isBlank).length_le
  have h₁ : visible.length + rest.length = body.length := by
    rw [← List.length_append, List.takeWhile_append_dropWhile]
  have h₂ : (rest.dropWhile isBlank).length ≤ rest.length :=
    (List.dropWhile_sublist isBlank).length_le
  have h₃ : 0 < visible.length := List.length_pos_iff.2 ‹_›
  change (rest.dropWhile isBlank).length < s.length
  omega

def trimmed (s : Text) : Text := (s.reverse.dropWhile isBlank).reverse

/-- Pieces of `width` characters, the last one possibly shorter. -/
def chunks (width : Nat) (s : Text) : List Text :=
  if width = 0 ∨ s.length ≤ width then [s]
  else s.take width :: chunks width (s.drop width)
termination_by s.length
decreasing_by simp only [List.length_drop]; omega

/-- Lines already broken off, and the one being filled. -/
structure Wrapping where
  broken : List Text := []
  current : Text := []

namespace Wrapping

/-- Break the line off, unless nothing stands on it yet. -/
def close (w : Wrapping) : List Text :=
  if w.current = [] then w.broken else w.broken ++ [w.current]

def add (width : Nat) (w : Wrapping) (word : Text) : Wrapping :=
  let visible := (trimmed word).length
  if w.current.length + visible ≤ width then { w with current := w.current ++ word }
  else if width < visible then
    let cut := chunks width word
    ⟨w.close ++ cut.dropLast, cut.getLast?.getD []⟩
  else ⟨w.close, word⟩

end Wrapping

/-- The line without the blanks that stick out, cut to the width. -/
def fitted (width : Nat) (line : Text) : Text :=
  let blanks := (line.reverse.takeWhile isBlank).length
  (line.take (line.length - min blanks (line.length - width))).take width

def wrapLine (width : Nat) (line : Text) : List Text :=
  match words line with
  | [] => [fitted width line]
  | ws =>
    let w := ws.foldl (Wrapping.add width) {}
    (w.broken ++ [w.current]).map (fitted width)

/-- A text as printed on a page of the given width: its own lines, each broken. -/
def wrapped (width : Nat) (s : Text) : List Text :=
  (s.splitOn '\n').flatMap (wrapLine width)

end PathGlob.Text
