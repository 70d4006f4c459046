import PathGlob.Walk.Basic

/-! The order of a walk on an unchanging tree, by recursion on the tree.

First what is asked about the root, then its own result; then what is asked about its
entries, and for each of them in turn its own result and all that lies below it. No
number bounds the depth, so a tree that would keep a walk busy for ever has no
outline. -/
namespace PathGlob.Outline
variable (p : Plan) (d : Disk)

/-- The result that a path is, if it is one. -/
def own (reported : Bool) (path : Path) (isFolder : Bool) (live : Live) : List Event :=
  if reported && live.isFinal p.components && (isFolder || !p.foldersOnly) then
    [.found (.success path)]
  else []

mutual

/-- Reading a folder, and all that comes of it. -/
inductive Folder : Path → Live → List Event → Prop where
  | refused {path : Path} {live : Live} {e : SystemError} :
    (p.read d path live).children = .error e →
      Folder path live ((p.read d path live).calls.map .call ++ [.found (.failure path e)])
  | opened {path : Path} {live : Live} {children : List Child} {events : List Event} :
    (p.read d path live).children = .ok children → Children live children events →
      Folder path live ((p.read d path live).calls.map .call ++ events)

/-- The children of a folder, one after the other. -/
inductive Children : Live → List Child → List Event → Prop where
  | nil {live : Live} : Children live [] []
  | unreadable {live : Live} {child : Child} {rest : List Child} {e : SystemError}
    {events : List Event} :
    child.error = some e → Children live rest events →
      Children live (child :: rest) (.found (.failure child.path e) :: events)
  | readable {live : Live} {child : Child} {rest : List Child} {first events : List Event} :
    child.error = none →
      Arrival true child.path child.isFolder
        (Live.advance p.options p.components child.path.name live) first →
      Children live rest events → Children live (child :: rest) (first ++ events)

/-- A path with its own result, and what lies below it. -/
inductive Arrival : Bool → Path → Bool → Live → List Event → Prop where
  | leaf {reported : Bool} {path : Path} {isFolder : Bool} {live : Live} :
    (isFolder = false ∨ live.pending p.components = []) →
      Arrival reported path isFolder live (own p reported path isFolder live)
  | folder {reported : Bool} {path : Path} {live : Live} {events : List Event} :
    live.pending p.components ≠ [] → Folder path live events →
      Arrival reported path true live (own p reported path true live ++ events)

end

/-- The whole walk. -/
inductive Whole : List Event → Prop where
  | absent : d.exists? p.root.text = false → Whole []
  | present {events : List Event} :
    d.exists? p.root.text = true →
      Arrival p d p.includesRoot p.root (d.isFolder p.root.text) (Live.start p.components) events →
      Whole events

end PathGlob.Outline
