import PathGlob.Path
import PathGlob.Pattern.Basic

/-! Deciding whether a pattern covers a whole text, by backtracking.

A wildcard tries the shortest stretch first and grows it. An attempt that fails says
how: `stuck` leaves longer stretches to the wildcards before it, while `exhausted`
means that the text ended first. Taking more of it away cannot help, so no wildcard
before it tries further. -/
namespace PathGlob

/-- How an attempt to cover the rest of a text ended. -/
inductive Verdict where
  | matched
  | stuck
  | exhausted
deriving DecidableEq

namespace Token

/-- Grow the stretch of a wildcard over `s`, one character at a time, with `next`
deciding about what follows it. A deep stretch ends after a separator or with the text. -/
def grow (o : Options) (isDeep : Bool) (next : Bool → Text → Verdict) : Bool → Text → Verdict
  | lead, [] => next lead []
  | lead, c :: s =>
    let isSeparator := c == '/'
    if lead && o.literalLeadingDot && c == '.' then .stuck
    else if isDeep && !isSeparator then grow o isDeep next isSeparator s
    else if !isDeep && o.literalSeparator && isSeparator then .stuck
    else match next isSeparator s with
      | .stuck => grow o isDeep next isSeparator s
      | verdict => verdict

/-- A wildcard that starts here: nothing first, then ever longer stretches. -/
def sweep (o : Options) (isDeep : Bool) (next : Bool → Text → Verdict) (lead : Bool) (s : Text) :
    Verdict :=
  match next lead s with
  | .stuck => grow o isDeep next lead s
  | verdict => verdict

/-- Cover the text by the tokens; `lead` says that the text starts a name. -/
def matchFrom (o : Options) : List Token → Bool → Text → Verdict
  | [], _, s => if s.isEmpty then .matched else .stuck
  | run :: ts, lead, s => sweep o false (matchFrom o ts) lead s
  | deep :: ts, lead, s => sweep o true (matchFrom o ts) lead s
  | _ :: _, _, [] => .exhausted
  | t :: ts, lead, c :: s => if t.covers o lead c then matchFrom o ts (c == '/') s else .stuck

end Token

/-- Whether the pattern covers the whole text. -/
def Pattern.covers (o : Options) (p : Pattern) (text : Text) : Bool :=
  Token.matchFrom o p.tokens true text = .matched

/-- Whether the pattern covers the text of a path. -/
def Pattern.coversPath (o : Options) (p : Pattern) (path : Path) : Bool := p.covers o path.text

end PathGlob
