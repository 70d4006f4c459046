import PathGlob.Path
import PathGlob.SystemError

/-! What can be seen of a walk: what it asks the file system for and what it finds. -/
namespace PathGlob

/-- An entry that could not be read. -/
structure EntryError where
  path : Path
  cause : SystemError
deriving DecidableEq

namespace EntryError

def message (e : EntryError) : Text :=
  "attempting to read `".toList ++ e.path.text ++ "` resulted in an error: ".toList ++
    e.cause.message

def debugText (e : EntryError) : Text :=
  "EntryError(path=".toList ++ e.path.debugText ++ ", error=".toList ++ e.cause.debugText ++ [')']

end EntryError

/-- A result of a walk: a path of the pattern, or one that could not be read. -/
structure Finding where
  path : Path
  error : Option EntryError
deriving DecidableEq

namespace Finding

def success (path : Path) : Finding := ⟨path, none⟩

def failure (path : Path) (cause : SystemError) : Finding := ⟨path, some ⟨path, cause⟩⟩

def isSuccess (f : Finding) : Bool := f.error.isNone

/-- The paths found, in order, without those that could not be read. -/
def paths (fs : List Finding) : List Path := (fs.filter isSuccess).map path

end Finding

/-- A question to the file system. -/
inductive Call where
  | list (path : Text)
  | lookup (path : Text)
deriving DecidableEq

inductive Event where
  | call (c : Call)
  | found (f : Finding)
deriving DecidableEq

namespace Event

def finding? : Event → Option Finding
  | found f => some f
  | call _ => none

def call? : Event → Option Call
  | call c => some c
  | found _ => none

/-- The findings among events, in order. -/
def findings (events : List Event) : List Finding := events.filterMap finding?

/-- The calls among events, in order. -/
def calls (events : List Event) : List Call := events.filterMap call?

theorem findings_append (a b : List Event) : findings (a ++ b) = findings a ++ findings b :=
  List.filterMap_append

theorem findings_flatMap {α : Type} (as : List α) (f : α → List Event) :
    findings (as.flatMap f) = as.flatMap fun a => findings (f a) :=
  List.filterMap_flatMap

theorem findings_calls (calls : List Call) : findings (calls.map call) = [] := by
  rw [findings, List.filterMap_map]
  exact List.filterMap_eq_nil_iff.2 fun _ _ => rfl

theorem calls_append (a b : List Event) : calls (a ++ b) = calls a ++ calls b :=
  List.filterMap_append

end Event
end PathGlob
