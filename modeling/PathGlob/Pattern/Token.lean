import PathGlob.Options
import PathGlob.Text.Fold
import PathGlob.Text.Quoted

/-! What a pattern is made of once it is read.

A token stands for one given character, for one character of a choice, or for a
stretch of text. -/
namespace PathGlob

/-- A single character when the ends are equal, else the characters between them. -/
structure Span where
  low : Char
  high : Char
deriving DecidableEq

/-- A choice of characters, written in brackets. -/
structure Bracket where
  spans : List Span
  negated : Bool
deriving DecidableEq

inductive Token where
  | char (c : Char)
  /-- `?`: any one character. -/
  | one
  /-- `*`: any stretch. -/
  | run
  /-- `**`: any stretch of whole path components. -/
  | deep
  | bracket (b : Bracket)
deriving DecidableEq

namespace Span

def single (c : Char) : Span := ⟨c, c⟩

/-- An interval of code points; without regard to case, two ASCII letters also span
the letters between them in the other case. -/
def holds (caseSensitive : Bool) (c : Char) (s : Span) : Bool :=
  if s.low = s.high then Text.same caseSensitive c s.low
  else (s.low ≤ c && c ≤ s.high) ||
    (!caseSensitive && Text.isAscii c && Text.isAsciiLetter s.low && Text.isAsciiLetter s.high &&
      s.low.toLower ≤ c.toLower && c.toLower ≤ s.high.toLower)

theorem holds_single (caseSensitive : Bool) (c d : Char) :
    (single d).holds caseSensitive c = Text.same caseSensitive c d := if_pos rfl

def debugText (s : Span) : Text :=
  '(' :: Text.quoted [s.low] ++ ", ".toList ++ Text.quoted [s.high] ++ [')']

end Span

namespace Bracket

/-- Whether a span holds the character, negated or not. -/
def holds (caseSensitive : Bool) (c : Char) (b : Bracket) : Bool :=
  b.spans.any (·.holds caseSensitive c)

def accepts (caseSensitive : Bool) (c : Char) (b : Bracket) : Bool :=
  b.holds caseSensitive c != b.negated

def debugText (b : Bracket) : Text :=
  (if b.negated then "AnyExcept([" else "AnyWithin([").toList ++
    ", ".toList.intercalate (b.spans.map Span.debugText) ++ "])".toList

end Bracket

/-- Whether a wildcard may stand for `c`; `lead` says that `c` starts a name. -/
def Options.allows (o : Options) (lead : Bool) (c : Char) : Bool :=
  !(o.literalSeparator && c == '/') && !(lead && o.literalLeadingDot && c == '.')

namespace Token

/-- Whether the token stands for the one character `c`. A stretch is no single character. -/
def covers (o : Options) (lead : Bool) (c : Char) : Token → Bool
  | char d => Text.same o.caseSensitive c d
  | one => o.allows lead c
  | bracket b => o.allows lead c && b.accepts o.caseSensitive c
  | run => false
  | deep => false

def isChar : Token → Bool
  | char _ => true
  | _ => false

/-- One `deep` for each row of them. -/
def merged : List Token → List Token
  | [] => []
  | t :: ts => if t = deep && ts.head? = some deep then merged ts else t :: merged ts

def debugText : Token → Text
  | char c => Text.quoted [c]
  | one => "AnyChar".toList
  | run => "AnySequence".toList
  | deep => "AnyRecursiveSequence".toList
  | bracket b => b.debugText

def debugTexts (ts : List Token) : Text :=
  '[' :: ", ".toList.intercalate (ts.map debugText) ++ [']']

end Token
end PathGlob
