import PathGlob.Walk.Children

/-! Walks that find one result at a time.

What is left of a walk is an agenda of tasks. A task asks the file system, finds at
most one thing, and leaves tasks to be done before the others: so results come in the
order of the tree, each folder before what is in it, and a folder is read only when a
result beyond the folder itself is wanted. The tree may change between two results. -/
namespace PathGlob

inductive Task where
  /-- Look at the root. -/
  | start
  /-- Decide about a child of a folder with these live positions. -/
  | visit (child : Child) (live : Live)
  /-- Read a folder with these live positions. -/
  | expand (folder : Path) (live : Live)

/-- What one task does. -/
structure Turn where
  calls : List Call := []
  finding : Option Finding := none
  next : List Task := []

def Turn.events (t : Turn) : List Event :=
  t.calls.map .call ++ (t.finding.map Event.found).toList

/-- Arrive at a path: it may be a result, and it may have to be read. -/
def Plan.arrive (p : Plan) (reported : Bool) (path : Path) (isFolder : Bool) (live : Live) : Turn :=
  { finding := if reported && p.accepts live isFolder then some (.success path) else none
    next := if p.descends live isFolder then [.expand path live] else [] }

def Task.run (p : Plan) (d : Disk) : Task → Turn
  | start =>
    if d.exists? p.root.text then
      p.arrive p.includesRoot p.root (d.isFolder p.root.text) (Live.start p.components)
    else {}
  | visit child live =>
    match child.error with
    | some e => { finding := some (.failure child.path e) }
    | none =>
      p.arrive true child.path child.isFolder
        (Live.advance p.options p.components child.path.name live)
  | expand folder live =>
    let reading := p.read d folder live
    match reading.children with
    | .error e => { calls := reading.calls, finding := some (.failure folder e) }
    | .ok children => { calls := reading.calls, next := children.map (.visit · live) }

/-! ### Pulling results -/

/-- What came of pulling. -/
structure Haul where
  events : List Event := []
  /-- How many more results are wanted; any number if none is given. -/
  wanted : Option Nat
  /-- What is left to be done for them. -/
  left : List Task := []

/-- Nothing was left before all results wanted had been found. -/
def Haul.ended (h : Haul) : Bool := h.wanted ≠ some 0

/-- Work on tasks in turn, with `work` working on one of them. -/
def Haul.each (work : Option Nat → Task → Haul) : Option Nat → List Task → Haul
  | wanted, [] => { wanted }
  | wanted, t :: ts =>
    let first := work wanted t
    let rest := each work first.wanted ts
    ⟨first.events ++ rest.events, rest.wanted, first.left ++ rest.left⟩

/-- Work on a task and on all it leads to, as long as results are wanted. Tasks that
lead on through more than `room` others are dropped. -/
def Task.pull (p : Plan) (d : Disk) : (room : Nat) → Option Nat → Task → Haul
  | 0, wanted, _ => { wanted }
  | room + 1, wanted, t =>
    if wanted = some 0 then { wanted, left := [t] }
    else
      let turn := t.run p d
      let wanted := if turn.finding.isSome then wanted.map (· - 1) else wanted
      let below := Haul.each (Task.pull p d room) wanted turn.next
      { below with events := turn.events ++ below.events }

/-- A bound on how many tasks lead from one to the next. A path that can be read goes
down at most a whole tree's height between two links, climbs at most once for each
component, and takes two tasks for each name. -/
def Plan.room (p : Plan) (d : Disk) : Nat :=
  2 * ((Disk.linkLimit + 1) * (d.height + 1) + 2 * p.components.length) + 4

/-- A walk in progress. -/
structure Walk where
  plan : Plan
  tasks : List Task

namespace Walk

/-- A walk that has not yet asked for anything. -/
def begin (p : Plan) : Walk := ⟨p, [.start]⟩

/-- Pull results off a walk on the tree as it is now, all of them if no number is given. -/
def pull (d : Disk) (wanted : Option Nat) (w : Walk) : Haul :=
  Haul.each (Task.pull w.plan d (w.plan.room d)) wanted w.tasks

/-- All that is left of a walk on an unchanging tree. -/
def drain (d : Disk) (w : Walk) : List Event := (w.pull d none).events

end Walk

namespace Plan

/-- All that happens in a walk of the plan on an unchanging tree. -/
def events (p : Plan) (d : Disk) : List Event := (Walk.begin p).drain d

def findings (p : Plan) (d : Disk) : List Finding := Event.findings (p.events d)

def calls (p : Plan) (d : Disk) : List Call := Event.calls (p.events d)

end Plan
end PathGlob
