import PathGlob.Disk.Spot
import PathGlob.SystemError

/-! A tree with a working folder, and finding the node a path leads to.

A path is followed name by name from the root or the working folder. Links are
followed on the way, and at the end if asked to; at most forty of them. The first
obstacle is the error, and it is about the path as it was given. The working folder
stays the same folder when it is taken out of the tree. -/
namespace PathGlob

structure Disk where
  root : Node
  /-- Where relative paths start. -/
  here : Spot := .rooted []

namespace Disk

def node? (d : Disk) (s : Spot) : Option Node := s.node? d.root

/-- The greatest height of the trees that paths lead through. -/
def height (d : Disk) : Nat := max d.root.height d.here.height

def linkLimit : Nat := 40

/-- The names to follow; dots are followed too. -/
def steps (path : Text) : List Text := (path.splitOn '/').filter (· ≠ [])

def isAbsolute (path : Text) : Bool := path.head? == some '/'

def nameBytes (name : Text) : Nat := (String.ofList name).utf8ByteSize

/-- The spot where a path or the target of a link starts. -/
def base (path : Text) (relative : Spot) : Spot :=
  if isAbsolute path then .rooted [] else relative

/-- Go by names from a spot. A link that is to be followed is left to `jump`, along
with the names that remain. The error is a number. -/
def descend (d : Disk) (last : Bool) (jump : Spot → List Text → Except Int Spot) :
    Spot → List Text → Except Int Spot
  | spot, [] => .ok spot
  | spot, name :: rest =>
    match d.node? spot with
    | none => .error SystemError.notFound
    | some (.folder entries _ search) =>
      match search with
      | some code => .error code
      | none =>
        if 255 < nameBytes name then .error SystemError.nameTooLong
        else if name = ['.'] then d.descend last jump spot rest
        else if name = ['.', '.'] then d.descend last jump spot.parent rest
        else match entries.lookup name with
          | none => .error SystemError.notFound
          | some (.link target) =>
            if last || !rest.isEmpty then jump (base target spot) (steps target ++ rest)
            else .ok (spot.child name)
          | some _ => d.descend last jump (spot.child name) rest
    | some _ => .error SystemError.notFolder

/-- Go by names from a spot, through at most the given number of links. -/
def follow (d : Disk) (last : Bool) : Nat → Spot → List Text → Except Int Spot
  | 0 => d.descend last fun _ _ => .error SystemError.tooManyLinks
  | links + 1 => d.descend last (d.follow last links)

/-- Where a path leads; a link at its end is followed iff `last`. -/
def resolve (d : Disk) (last : Bool) (path : Text) : Except SystemError Spot :=
  (d.follow last linkLimit (base path d.here) (steps path)).mapError (SystemError.about path)

/-- Whether something is at the path; a link at its end is not followed. -/
def exists? (d : Disk) (path : Text) : Bool := (d.resolve false path).isOk

def isFolderAt (d : Disk) (s : Spot) : Bool := (d.node? s).any Node.isFolder

/-- Whether the path leads to a folder; no obstacle is told apart. -/
def isFolder (d : Disk) (path : Text) : Bool :=
  match d.resolve true path with
  | .ok spot => d.isFolderAt spot
  | .error _ => false

/-! ### Listing -/

/-- An entry of a listed folder. Whether a link leads to a folder may be an error. -/
structure Entry where
  name : Text
  isFolder : Except SystemError Bool

/-- The path of an entry as the file system is asked about it. -/
def entryPath (path name : Text) : Text :=
  if path.getLast? = some '/' then path ++ name else path ++ '/' :: name

/-- A link that leads nowhere is no folder; any other obstacle is an error. -/
def entryIsFolder (d : Disk) (path name : Text) : Node → Except SystemError Bool
  | .file => .ok false
  | .folder .. => .ok true
  | .link _ =>
    match d.resolve true (entryPath path name) with
    | .ok spot => .ok (d.isFolderAt spot)
    | .error e => if e.code = SystemError.notFound then .ok false else .error e

/-- The entries of the folder at the path, in order. -/
def list (d : Disk) (path : Text) : Except SystemError (List Entry) :=
  match d.resolve true path with
  | .error e => .error e
  | .ok spot =>
    match d.node? spot with
    | some (.folder entries none _) =>
      .ok (entries.map fun e => ⟨e.1, d.entryIsFolder path e.1 e.2⟩)
    | some (.folder _ (some code) _) => .error (.about path code)
    | _ => .error (.about path SystemError.notFolder)

/-! ### Changes -/

/-- Let a node stand under the name in a folder, or nothing. -/
def set (d : Disk) (folder : Spot) (name : Text) (n : Option Node) : Disk where
  root := match folder with
    | .rooted way => d.root.edit (Node.setEntry name n) way
    | .severed .. => d.root
  here := Spot.after d.root folder name n d.here

def put (d : Disk) (path name : Text) (n : Node) : Except SystemError Disk :=
  match d.resolve true path with
  | .error e => .error e
  | .ok folder =>
    if d.isFolderAt folder then .ok (d.set folder name (some n))
    else .error (.about path SystemError.notFolder)

/-- Nothing is in what is no folder, and taking nothing away is no error. -/
def remove (d : Disk) (path name : Text) : Except SystemError Disk :=
  (d.resolve true path).map fun folder => d.set folder name none

/-- Make the node at the path the start of relative paths. -/
def enter (d : Disk) (path : Text) : Except SystemError Disk :=
  (d.resolve true path).map fun spot => { d with here := spot }

end Disk
end PathGlob
