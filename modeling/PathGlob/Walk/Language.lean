import PathGlob.Walk.Live

/-! Which ways of names a row of components covers, said without positions.

The names are shared out in order: one to each plain component, any number to each
recursive one. -/
namespace PathGlob

inductive Splits (o : Options) : List Pattern → List Text → Prop where
  | nil : Splits o [] []
  | plain {c : Pattern} {cs : List Pattern} {name : Text} {names : List Text} :
    c.isRecursive = false → c.covers o name = true → Splits o cs names →
      Splits o (c :: cs) (name :: names)
  | leave {c : Pattern} {cs : List Pattern} {names : List Text} :
    c.isRecursive = true → Splits o cs names → Splits o (c :: cs) names
  | more {c : Pattern} {cs : List Pattern} {name : Text} {names : List Text} :
    c.isRecursive = true → (o.literalLeadingDot && isHidden name) = false →
      Splits o (c :: cs) names → Splits o (c :: cs) (name :: names)

/-- The live positions after a way of names. -/
def Live.after (o : Options) (cs : List Pattern) (names : List Text) : Live :=
  names.foldl (fun live name => advance o cs name live) (start cs)

end PathGlob
