import PathGlob.Walk.Basic

/-! A tree that changes while several walks over it are in progress.

Walks are kept under labels; each step answers and leaves the tree and the walks as
they are then. The calls of a step are those made while it was answered. -/
namespace PathGlob

/-- What can be done in a session. -/
inductive Step where
  | glob (label : Text) (source : Text) (options : Options)
  /-- Pull results off a walk, without a limit if none is given. -/
  | take (label : Text) (wanted : Option Nat)
  /-- Pull one result and insist that it is a path. -/
  | unwrap (label : Text)
  | describe (label : Text)
  | put (folder name : Text) (node : Node)
  | remove (folder name : Text)
  | enter (folder : Text)

inductive Answer where
  | planned (p : Plan)
  | refused (e : PatternError)
  | taken (findings : List Finding) (ended : Bool)
  | unwrapped (path : Path)
  | unreadable (e : EntryError)
  | ended
  | described (p : Plan)
  | done
  | failed (e : SystemError)
  /-- There is no walk under the label. -/
  | unknown

structure Session where
  disk : Disk
  walks : List (Text × Walk) := []

namespace Session

def set (s : Session) (label : Text) (w : Walk) : Session :=
  { s with walks := (label, w) :: s.walks.filter (·.1 ≠ label) }

theorem lookup_set (s : Session) (label : Text) (w : Walk) :
    (s.set label w).walks.lookup label = some w := by
  simp [set]

/-- Pull results off the walk under a label. -/
def pull (s : Session) (label : Text) (wanted : Option Nat) : Option (Haul × Session) :=
  (s.walks.lookup label).map fun w =>
    let haul := w.pull s.disk wanted
    (haul, s.set label { w with tasks := haul.left })

/-- A change of the tree, or the error that prevents it. -/
def change (s : Session) (r : Except SystemError Disk) : Answer × Session :=
  match r with
  | .error e => (.failed e, s)
  | .ok d => (.done, { s with disk := d })

/-- The answer to a step, the calls made for it, and the session after it. -/
def step (s : Session) : Step → Answer × List Call × Session
  | .glob label source o =>
    match Plan.ofSource o source with
    | .error e => (.refused e, [], s)
    | .ok p => (.planned p, [], s.set label (Walk.begin p))
  | .take label wanted =>
    match s.pull label wanted with
    | none => (.unknown, [], s)
    | some (haul, s) => (.taken (Event.findings haul.events) haul.ended, Event.calls haul.events, s)
  | .unwrap label =>
    match s.pull label (some 1) with
    | none => (.unknown, [], s)
    | some (haul, s) =>
      let answer := match Event.findings haul.events with
        | [] => .ended
        | f :: _ => match f.error with
          | none => .unwrapped f.path
          | some e => .unreadable e
      (answer, Event.calls haul.events, s)
  | .describe label =>
    match s.walks.lookup label with
    | none => (.unknown, [], s)
    | some w => (.described w.plan, [], s)
  | .put folder name node =>
    let (answer, s) := s.change (s.disk.put folder name node)
    (answer, [], s)
  | .remove folder name =>
    let (answer, s) := s.change (s.disk.remove folder name)
    (answer, [], s)
  | .enter folder =>
    let (answer, s) := s.change (s.disk.enter folder)
    (answer, [], s)

/-- The answers to steps one after the other, each with its calls. -/
def run (s : Session) : List Step → List (Answer × List Call)
  | [] => []
  | first :: rest =>
    let (answer, calls, s) := s.step first
    (answer, calls) :: s.run rest

end Session
end PathGlob
