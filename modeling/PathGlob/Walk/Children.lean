import PathGlob.Disk.Basic
import PathGlob.Walk.Event
import PathGlob.Walk.Plan

/-! The entries of a folder that a walk looks at.

Either the folder is listed, or each name that is asked for is looked up, once and in
the order of the live positions. A name that is absent is passed over; any other
obstacle to a look-up stands for the folder as a whole. -/
namespace PathGlob

/-- An entry on the way: its path, and whether it is a folder if that could be told. -/
structure Child where
  path : Path
  isFolder : Bool
  error : Option SystemError

/-- What was asked about a folder, and its children or the error that hides them. -/
structure Reading where
  calls : List Call
  children : Except SystemError (List Child)

namespace Plan

/-- Look the names up below a folder. -/
def probe (d : Disk) (folder : Path) : List Text → Reading
  | [] => ⟨[], .ok []⟩
  | name :: names =>
    let path := folder.join name
    match d.resolve false path.text with
    | .ok _ =>
      let rest := probe d folder names
      ⟨.lookup path.text :: rest.calls,
        rest.children.map (⟨path, d.isFolder path.text, none⟩ :: ·)⟩
    | .error e =>
      if e.isAbsence then
        let rest := probe d folder names
        ⟨.lookup path.text :: rest.calls, rest.children⟩
      else ⟨[.lookup path.text], .error e⟩

/-- An entry of a listed folder as a child. -/
def childOf (folder : Path) (entry : Disk.Entry) : Child :=
  match entry.isFolder with
  | .ok isFolder => ⟨folder.join entry.name, isFolder, none⟩
  | .error e => ⟨folder.join entry.name, false, some e⟩

/-- The children of a folder with the given live positions. -/
def read (p : Plan) (d : Disk) (folder : Path) (live : Live) : Reading :=
  if p.probes live then
    probe d folder ((live.pending p.components).map Pattern.source).eraseDups
  else ⟨[.list folder.text], (d.list folder.text).map fun entries => entries.map (childOf folder)⟩

end Plan
end PathGlob
