/-! The switches of matching.

Off, `literalSeparator` lets wildcards cover a separator and `literalLeadingDot`
lets them cover a dot at the start of a name. -/
namespace PathGlob

structure Options where
  caseSensitive : Bool := true
  /-- No `*`, `?` or set covers a separator. -/
  literalSeparator : Bool := false
  /-- A dot at the start of a name is covered by a dot of the pattern only. -/
  literalLeadingDot : Bool := false
deriving DecidableEq

end PathGlob
