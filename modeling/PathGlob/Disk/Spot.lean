import PathGlob.Disk.Node

/-! Where a node stands: in the tree below the root, or in a tree cut off from it.

A node that is taken out of its folder, or replaced there, is the top of a tree of its
own from then on. Whoever stood in it stands in that tree, and the way up from its top
leads to the folder that it was in, which may itself be in a tree cut off before. -/
namespace PathGlob

inductive Spot where
  /-- At the end of a way of names from the root. -/
  | rooted (way : List Text)
  /-- At the end of a way of names in a tree that was cut off from the folder `parent`. -/
  | severed (tree : Node) (way : List Text) (parent : Spot)

namespace Spot

/-- The names from the top of its tree on, with no links or dots among them. -/
def way : Spot → List Text
  | rooted way => way
  | severed _ way _ => way

/-- The tree that the spot is in. -/
def tree (root : Node) : Spot → Node
  | rooted _ => root
  | severed tree _ _ => tree

def node? (root : Node) (s : Spot) : Option Node := (s.tree root).find? s.way

def child (name : Text) : Spot → Spot
  | rooted way => rooted (way ++ [name])
  | severed tree way parent => severed tree (way ++ [name]) parent

/-- One step up; the root is its own parent. -/
def parent : Spot → Spot
  | rooted way => rooted way.dropLast
  | severed _ [] parent => parent
  | severed tree way parent => severed tree way.dropLast parent

/-- How many cuts there are between the spot and the root. -/
def cuts : Spot → Nat
  | rooted _ => 0
  | severed _ _ parent => parent.cuts + 1

/-- The greatest height of the trees cut off between the spot and the root. -/
def height : Spot → Nat
  | rooted _ => 0
  | severed tree _ parent => max tree.height parent.height

@[simp] theorem way_child (name : Text) (s : Spot) : (s.child name).way = s.way ++ [name] := by
  cases s <;> rfl

@[simp] theorem tree_child (root : Node) (name : Text) (s : Spot) :
    (s.child name).tree root = s.tree root := by
  cases s <;> rfl

/-! ### Changes

One entry of a folder changes at a time: another node stands under its name, or none. -/

/-- The same spot in its tree after an entry of the folder at the end of `place` has changed. -/
def edited (place : List Text) (name : Text) (n : Option Node) : Spot → Spot
  | rooted way => rooted way
  | severed tree way parent => severed (tree.edit (Node.setEntry name n) place) way parent

/-- A spot in the tree of a folder after an entry of the folder has changed. What stood at
the entry is cut off, and the spot with it if it is there or below. -/
def moved (root : Node) (folder : Spot) (name : Text) (n : Option Node) (s : Spot) : Spot :=
  match (folder.way ++ [name]).isPrefixOf? s.way, (folder.child name).node? root with
  | some rest, some old => severed old rest (folder.edited folder.way name n)
  | _, _ => s.edited folder.way name n

/-- A spot after an entry of a folder has changed, in its own tree or in one on the way
from there to the root. -/
def after (root : Node) (folder : Spot) (name : Text) (n : Option Node) : Spot → Spot
  | rooted way =>
    if folder.cuts = 0 then moved root folder name n (rooted way) else rooted way
  | severed tree way parent =>
    if folder.cuts = parent.cuts + 1 then moved root folder name n (severed tree way parent)
    else severed tree way (after root folder name n parent)

end Spot
end PathGlob
