import PathGlob.Text.Printing
import PathGlob.Text.Wrap

/-! The console that is printed on, as a parameter.

What is printed on a console, and how a value looks in print, is decided elsewhere: the
program hands over texts and values and reads nothing back. A `Console` is those functions,
and `Console.Lawful` is what is known of them. Columns are not characters: `cells` says how
many columns a text takes. `Console.typewriter` is a console on which the two are the same. -/
namespace PathGlob

/-- A value to print: one text, or parts between two brackets. -/
inductive Value where
  | atom (text : Text)
  | row (opening closing : Text) (parts : List Text)

namespace Value

/-- The value on one line. -/
def flat : Value → Text
  | atom text => text
  | row opening closing parts => opening ++ ", ".toList.intercalate parts ++ closing

/-- The value with a line for each of its parts. -/
def spread : Value → List Text
  | atom text => [text]
  | row opening closing parts =>
    let indented := parts.map ("    ".toList ++ ·)
    opening :: (indented.dropLast.map (· ++ [',']) ++ indented.getLast?.toList) ++ [closing]

/-- The columns that a value may take on one line. -/
def columns : Nat := 80

/-- The lines of a value: one if that is not too wide, whatever the console. -/
def laid (cells : Text → Nat) (v : Value) : List Text :=
  if cells v.flat ≤ columns then [v.flat] else v.spread

end Value

structure Console where
  width : Nat
  /-- How many columns a text takes. -/
  cells : Text → Nat
  /-- A value as a text of one or more lines. -/
  pretty : Value → Text
  /-- The lines that a text takes in print. If it is `unbroken`, its own lines are left as
  they are, and otherwise they are broken to the width. -/
  print : (unbroken : Bool) → Text → List Text

/-- A line of printable characters that does not end in a blank. -/
structure Text.Clear (line : Text) : Prop where
  printable : line.printable = true
  getLast?_ne : ∃ c, line.getLast? = some c ∧ c ≠ ' '

/-- A text can stand on one line of the console: it takes no more columns than there are, and
if it ends in a blank it has no more characters either. -/
structure Console.Fits (c : Console) (s : Text) : Prop where
  cells_le : c.cells s ≤ c.width
  length_le : s.getLast? = some ' ' → s.length ≤ c.width

/-- What is known of consoles. A console without columns prints nothing at all. -/
structure Console.Lawful (c : Console) : Prop where
  pretty_eq : ∀ v, c.pretty v = ['\n'].intercalate (v.laid c.cells)
  /-- A text that fits on a line is printed as it is. -/
  print_of_fits : ∀ s : Text, 0 < c.width → s.printable = true → c.Fits s →
    c.print false s = [s]
  /-- Broken lines are not too wide. -/
  cells_le_of_print : ∀ s : Text, 0 < c.width → s.printable = true →
    ∀ line ∈ c.print false s, c.cells line ≤ c.width
  /-- Blanks at the end are dropped as long as there are more characters than columns. -/
  print_ne_of_blank : ∀ s : Text, 0 < c.width → s.printable = true → s.getLast? = some ' ' →
    c.width < s.length → c.print false s ≠ [s]
  /-- Unbroken lines are printed as they are. -/
  print_unbroken : ∀ lines : List Text, 0 < c.width → lines ≠ [] →
    (∀ line ∈ lines, Text.Clear line) → c.print true (['\n'].intercalate lines) = lines
  print_of_width_zero : ∀ unbroken s, c.width = 0 → c.print unbroken s = []

namespace Console

/-- Print a value behind a label, its lines unbroken. -/
def dump (c : Console) (label : Text) (v : Value) : List Text :=
  c.print true (label ++ " = ".toList ++ c.pretty v)

/-- A console on which every character takes one column. -/
def typewriter (width : Nat) : Console where
  width := width
  cells := List.length
  pretty := fun v => ['\n'].intercalate (v.laid List.length)
  print := fun unbroken s =>
    if width = 0 then []
    else if unbroken then s.splitOn '\n'
    else s.wrapped width

end Console
end PathGlob
