import PathGlob.Pattern.Match

/-! Live positions: how much of a pattern the names on the way down may have used up.

A position counts components gone by. A plain component takes one name; a recursive
one takes any number, none included, so the positions behind it are live as soon as
its own is (`closure`). Positions are kept in increasing order, each once. -/
namespace PathGlob

abbrev Live := List Nat

/-- Whether the name starts with a dot. -/
def isHidden (name : Text) : Bool := name.head? == some '.'

namespace Live
variable (o : Options) (cs : List Pattern)

/-- The positions with a property, up to the one behind all components. -/
def positions (p : Nat → Bool) : Live := (List.range (cs.length + 1)).filter p

/-- Whether position `j` is reached from `i` without a name. -/
def skips (i j : Nat) : Bool := i ≤ j && ((cs.take j).drop i).all Pattern.isRecursive

/-- The positions reached without a name. -/
def closure (live : Live) : Live := positions cs fun j => live.any (skips cs · j)

/-- The positions before any name. -/
def start : Live := closure cs [0]

/-- Whether the component at `i` takes the name and leads to position `j`. -/
def takes (name : Text) (i j : Nat) : Bool :=
  match cs[i]? with
  | none => false
  | some c =>
    if c.isRecursive then j == i && !(o.literalLeadingDot && isHidden name)
    else j == i + 1 && c.covers o name

/-- The positions after one more name. -/
def advance (name : Text) (live : Live) : Live :=
  closure cs (positions cs fun j => live.any (takes o cs name · j))

/-- The components that may take the next name. -/
def pending (live : Live) : List Pattern := live.filterMap (cs[·]?)

/-- Whether the names so far may be all that the pattern asks for. -/
def isFinal (live : Live) : Bool := cs.length ∈ live

theorem mem_positions {p : Nat → Bool} {j : Nat} :
    j ∈ positions cs p ↔ j ≤ cs.length ∧ p j = true := by
  simp only [positions, List.mem_filter, List.mem_range, Nat.lt_succ_iff]

theorem mem_closure {live : Live} {j : Nat} :
    j ∈ closure cs live ↔ j ≤ cs.length ∧ ∃ i ∈ live, skips cs i j = true := by
  simp [closure, mem_positions]

/-- A recursive component takes names and stays; a plain one takes a name that it covers. -/
theorem takes_iff {name : Text} {i j : Nat} : takes o cs name i j = true ↔
    ∃ c, cs[i]? = some c ∧
      (c.isRecursive = true ∧ j = i ∧ (o.literalLeadingDot && isHidden name) = false ∨
        c.isRecursive = false ∧ j = i + 1 ∧ c.covers o name = true) := by
  unfold takes
  generalize (o.literalLeadingDot && isHidden name) = left
  cases cs[i]? with
  | none => simp
  | some c => cases hr : c.isRecursive <;> simp [hr]

theorem mem_advance {name : Text} {live : Live} {j : Nat} :
    j ∈ advance o cs name live ↔ j ≤ cs.length ∧
      ∃ k ≤ cs.length, (∃ i ∈ live, takes o cs name i k = true) ∧ skips cs k j = true := by
  simp [advance, mem_closure, mem_positions, and_assoc]

theorem sorted_positions (p : Nat → Bool) : (positions cs p).Pairwise (· < ·) :=
  List.Pairwise.filter _ List.pairwise_lt_range

end Live
end PathGlob
