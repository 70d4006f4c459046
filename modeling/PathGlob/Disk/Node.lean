import PathGlob.Text.Basic

/-! Trees of files, links and folders.

A folder keeps its entries in order and may refuse to be listed or to be searched. -/
namespace PathGlob

inductive Node where
  | file
  | link (target : Text)
  /-- `listing` and `search` are the error numbers of a folder that refuses. -/
  | folder (entries : List (Text × Node)) (listing search : Option Int)

namespace Node

def isFolder : Node → Bool
  | folder .. => true
  | _ => false

mutual

/-- The number of folders on the longest way down. -/
def height : Node → Nat
  | file => 0
  | link _ => 0
  | folder entries _ _ => heights entries + 1

/-- The greatest height among entries. -/
def heights : List (Text × Node) → Nat
  | [] => 0
  | (_, n) :: rest => max n.height (heights rest)

end

/-- The node below `n` at the end of a way of names. -/
def find? (n : Node) : List Text → Option Node
  | [] => some n
  | name :: way =>
    match n with
    | folder entries _ _ =>
      match entries.lookup name with
      | some child => child.find? way
      | none => none
    | _ => none

theorem find?_append (n : Node) (way rest : List Text) :
    n.find? (way ++ rest) = (n.find? way).bind (·.find? rest) := by
  induction way generalizing n with
  | nil => rfl
  | cons name way ih =>
    cases n with
    | folder entries listing search =>
      cases h : entries.lookup name with
      | none => simp [find?, h]
      | some child => simp [find?, h, ih]
    | file => rfl
    | link target => rfl

/-- Change the entries of the folder at the end of a way of names. -/
def edit (change : List (Text × Node) → List (Text × Node)) : List Text → Node → Node
  | [], folder entries listing search => folder (change entries) listing search
  | name :: way, folder entries listing search =>
    folder (entries.map fun e => if e.1 = name then (e.1, e.2.edit change way) else e)
      listing search
  | _, n => n

/-- The entry under its name: in the place of an older one, else at the end. -/
def putEntry (name : Text) (n : Node) : List (Text × Node) → List (Text × Node)
  | [] => [(name, n)]
  | e :: rest => if e.1 = name then (name, n) :: rest else e :: putEntry name n rest

def removeEntry (name : Text) (entries : List (Text × Node)) : List (Text × Node) :=
  entries.filter (·.1 ≠ name)

/-- Let a node stand under the name, or nothing. -/
def setEntry (name : Text) : Option Node → List (Text × Node) → List (Text × Node)
  | some n => putEntry name n
  | none => removeEntry name

end Node
end PathGlob
