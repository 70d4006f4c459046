import PathGlob.Disk.Basic

/-! Trees written down as lines, one entry a line.

`a/b` is a file, `a/b/` a folder, and `a/b -> target` a link. The folders on the way
to an entry need no line of their own. -/
namespace PathGlob

namespace Node

def emptyFolder : Node := folder [] none none

/-- Put a node at the end of a way of names, with the folders that lead there. -/
def plant (n : Node) : List Text → Node → Node
  | [], _ => n
  | name :: way, folder entries listing search =>
    folder (putEntry name (plant n way ((entries.lookup name).getD emptyFolder)) entries)
      listing search
  | name :: way, _ => folder [(name, plant n way emptyFolder)] none none

end Node

namespace Disk

/-- The two sides of an arrow, if there is one. -/
def sides : Text → Option (Text × Text)
  | ' ' :: '-' :: '>' :: ' ' :: rest => some ([], rest)
  | c :: s => (sides s).map fun r => (c :: r.1, r.2)
  | [] => none

/-- One more entry, as a line describes it. -/
def addLine (tree : Node) (line : Text) : Node :=
  match sides line with
  | some (path, target) => Node.plant (.link target) (steps path) tree
  | none =>
    if line.getLast? = some '/' then Node.plant .emptyFolder (steps line) tree
    else Node.plant .file (steps line) tree

/-- The tree that lines describe; an empty line describes nothing. -/
def ofLines (lines : List Text) : Disk :=
  { root := (lines.filter (· ≠ [])).foldl addLine .emptyFolder }

end Disk
end PathGlob
