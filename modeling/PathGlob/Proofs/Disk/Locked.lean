import PathGlob.Disk.Basic

/-! Folders that are locked: they refuse to be listed, and nothing else about them changes.

What stands at a spot of the locked tree is what stood there, locked (`node?_lock`). To
follow a path no folder has to be listed, so every path leads where it led
(`resolve_lock`), and whatever is told of it is told as before. Only listing tells that a
folder is locked (`list_lock`). -/
namespace PathGlob

/-- The error numbers of locked folders, by the tree that a folder is in and its way from
the top of that tree. A tree is told apart from others by the cuts between it and the root. -/
abbrev Locks := Nat → List Text → Option Int

namespace Node

mutual

/-- The tree with its folders locked, but for those that refuse to be listed already. -/
def lock (f : List Text → Option Int) : Node → Node
  | file => file
  | link target => link target
  | folder entries listing search => folder (lockEntries f entries) (listing.or (f [])) search

/-- The entries of a folder with the trees below them locked. -/
def lockEntries (f : List Text → Option Int) : List (Text × Node) → List (Text × Node)
  | [] => []
  | (name, n) :: rest => (name, n.lock fun way => f (name :: way)) :: lockEntries f rest

end

variable {f : List Text → Option Int}

theorem lookup_lockEntries (entries : List (Text × Node)) (name : Text) :
    (lockEntries f entries).lookup name =
      (entries.lookup name).map (lock fun way => f (name :: way)) := by
  induction entries with
  | nil => rfl
  | cons e rest ih =>
    obtain ⟨first, n⟩ := e
    rw [lockEntries, List.lookup_cons, List.lookup_cons]
    by_cases h : name = first
    · simp [h]
    · have hne : (name == first) = false := beq_eq_false_iff_ne.2 h
      rw [hne]
      exact ih

/-- What is found in a locked tree is what is found there, locked. -/
theorem find?_lock (n : Node) (way : List Text) :
    (n.lock f).find? way = (n.find? way).map (lock fun rest => f (way ++ rest)) := by
  induction way generalizing n f with
  | nil => rfl
  | cons name way ih =>
    cases n with
    | file => rfl
    | link target => rfl
    | folder entries listing search =>
      rw [lock, find?, find?, lookup_lockEntries]
      cases entries.lookup name with
      | none => rfl
      | some child => exact ih child

theorem isFolder_lock (n : Node) : (n.lock f).isFolder = n.isFolder := by
  cases n <;> rfl

mutual

theorem height_lock (f : List Text → Option Int) : ∀ n : Node, (n.lock f).height = n.height
  | file => rfl
  | link _ => rfl
  | folder entries _ _ => congrArg (· + 1) (heights_lockEntries f entries)

theorem heights_lockEntries (f : List Text → Option Int) :
    ∀ entries : List (Text × Node), heights (lockEntries f entries) = heights entries
  | [] => rfl
  | (name, n) :: rest => by
    rw [lockEntries, heights, heights, height_lock _ n, heights_lockEntries f rest]

end

end Node

namespace Spot
variable (L : Locks)

/-- The spot in the locked trees. -/
def lock : Spot → Spot
  | rooted way => rooted way
  | severed tree way parent => severed (tree.lock (L (parent.cuts + 1))) way parent.lock

theorem way_lock (s : Spot) : (s.lock L).way = s.way := by
  cases s <;> rfl

theorem child_lock (s : Spot) (name : Text) : (s.lock L).child name = (s.child name).lock L := by
  cases s <;> rfl

theorem parent_lock (s : Spot) : (s.lock L).parent = s.parent.lock L := by
  cases s with
  | rooted way => rfl
  | severed tree way parent => cases way <;> rfl

theorem tree_lock (root : Node) (s : Spot) :
    (s.lock L).tree (root.lock (L 0)) = (s.tree root).lock (L s.cuts) := by
  cases s <;> rfl

theorem height_lock (s : Spot) : (s.lock L).height = s.height := by
  induction s with
  | rooted way => rfl
  | severed tree way parent ih => rw [lock, height, height, Node.height_lock, ih]

end Spot

namespace Disk
variable {d : Disk} {L : Locks}

/-- The disk with folders locked. -/
def lock (L : Locks) (d : Disk) : Disk := ⟨d.root.lock (L 0), d.here.lock L⟩

theorem height_lock : (d.lock L).height = d.height := by
  rw [height, lock, Node.height_lock, Spot.height_lock]
  rfl

theorem node?_lock (s : Spot) :
    (d.lock L).node? (s.lock L) =
      (d.node? s).map (Node.lock fun rest => L s.cuts (s.way ++ rest)) := by
  show ((s.lock L).tree (d.root.lock (L 0))).find? (s.lock L).way = _
  rw [Spot.tree_lock, Spot.way_lock]
  exact Node.find?_lock _ _

/-! ### Following paths -/

theorem base_lock (path : Text) (s : Spot) : base path (s.lock L) = (base path s).lock L := by
  unfold base
  split <;> rfl

theorem descend_lock {last : Bool} {jump jump' : Spot → List Text → Except Int Spot}
    (h : ∀ s names, jump' (s.lock L) names = (jump s names).map (Spot.lock L)) (s : Spot)
    (names : List Text) :
    (d.lock L).descend last jump' (s.lock L) names =
      (d.descend last jump s names).map (Spot.lock L) := by
  induction names generalizing s with
  | nil => rfl
  | cons name rest ih =>
    rw [descend, descend, node?_lock]
    cases d.node? s with
    | none => rfl
    | some n =>
      cases n with
      | file => rfl
      | link target => rfl
      | folder entries listing search =>
        cases search with
        | some code => rfl
        | none =>
          show (if _ then _ else if _ then _ else if _ then _ else _) =
            Except.map _ (if _ then _ else if _ then _ else if _ then _ else _)
          by_cases hb : 255 < nameBytes name
          · rw [if_pos hb, if_pos hb]
            rfl
          by_cases hdot : name = ['.']
          · rw [if_neg hb, if_neg hb, if_pos hdot, if_pos hdot]
            exact ih s
          by_cases hup : name = ['.', '.']
          · rw [if_neg hb, if_neg hb, if_neg hdot, if_neg hdot, if_pos hup, if_pos hup,
              Spot.parent_lock]
            exact ih s.parent
          rw [if_neg hb, if_neg hb, if_neg hdot, if_neg hdot, if_neg hup, if_neg hup,
            Node.lookup_lockEntries, Spot.child_lock]
          cases entries.lookup name with
          | none => rfl
          | some child =>
            cases child with
            | file => exact ih (s.child name)
            | folder => exact ih (s.child name)
            | link target =>
              show (if _ then _ else _) = Except.map _ (if _ then _ else _)
              split
              · rw [base_lock]
                exact h _ _
              · rfl

theorem follow_lock (last : Bool) (links : Nat) (s : Spot) (names : List Text) :
    (d.lock L).follow last links (s.lock L) names =
      (d.follow last links s names).map (Spot.lock L) := by
  induction links generalizing s names with
  | zero => exact descend_lock (fun _ _ => rfl) s names
  | succ links ih => exact descend_lock ih s names

/-- **Every path leads where it led.** -/
theorem resolve_lock (last : Bool) (path : Text) :
    (d.lock L).resolve last path = (d.resolve last path).map (Spot.lock L) := by
  show Except.mapError _ ((d.lock L).follow last linkLimit (base path (d.here.lock L)) _) = _
  rw [base_lock, follow_lock, resolve]
  cases d.follow last linkLimit (base path d.here) (steps path) <;> rfl

theorem exists?_lock (path : Text) : (d.lock L).exists? path = d.exists? path := by
  rw [exists?, exists?, resolve_lock]
  cases d.resolve false path <;> rfl

theorem isFolderAt_lock (s : Spot) : (d.lock L).isFolderAt (s.lock L) = d.isFolderAt s := by
  rw [isFolderAt, isFolderAt, node?_lock]
  cases d.node? s with
  | none => rfl
  | some n => exact Node.isFolder_lock n

theorem isFolder_lock (path : Text) : (d.lock L).isFolder path = d.isFolder path := by
  rw [isFolder, isFolder, resolve_lock]
  cases d.resolve true path with
  | error e => rfl
  | ok s => exact isFolderAt_lock s

theorem entryIsFolder_lock {f : List Text → Option Int} (path name : Text) (n : Node) :
    (d.lock L).entryIsFolder path name (n.lock f) = d.entryIsFolder path name n := by
  cases n with
  | file => rfl
  | folder => rfl
  | link target =>
    rw [Node.lock, entryIsFolder, entryIsFolder, resolve_lock]
    cases d.resolve true (entryPath path name) with
    | error e => rfl
    | ok s => exact congrArg Except.ok (isFolderAt_lock s)

/-! ### Listing -/

/-- The error number with which the path is locked, if it leads to a folder that can be
listed otherwise. -/
def lockAt (L : Locks) (d : Disk) (path : Text) : Option Int :=
  match d.resolve true path with
  | .error _ => none
  | .ok s =>
    match d.node? s with
    | some (.folder _ none _) => L s.cuts s.way
    | _ => none

theorem entries_lock {f : List Text → Option Int} (path : Text) (entries : List (Text × Node)) :
    (Node.lockEntries f entries).map
        (fun e => (⟨e.1, (d.lock L).entryIsFolder path e.1 e.2⟩ : Entry)) =
      entries.map fun e => ⟨e.1, d.entryIsFolder path e.1 e.2⟩ := by
  induction entries with
  | nil => rfl
  | cons e rest ih =>
    obtain ⟨name, n⟩ := e
    rw [Node.lockEntries, List.map_cons, List.map_cons, ih, entryIsFolder_lock]

/-- **A locked folder is not listed, and every other one is listed as before.** -/
theorem list_lock (path : Text) :
    (d.lock L).list path =
      match d.lockAt L path with
      | none => d.list path
      | some code => .error (.about path code) := by
  rw [list, list, lockAt, resolve_lock]
  cases d.resolve true path with
  | error e => rfl
  | ok s =>
    dsimp only [Except.map]
    rw [node?_lock]
    cases d.node? s with
    | none => rfl
    | some n =>
      cases n with
      | file => rfl
      | link target => rfl
      | folder entries listing search =>
        cases listing with
        | some code => rfl
        | none =>
          dsimp only [Option.map, Node.lock, Option.or]
          rw [List.append_nil]
          cases L s.cuts s.way with
          | some code => rfl
          | none => exact congrArg Except.ok (entries_lock path entries)

/-- What is locked could be listed. -/
theorem exists_list_of_lockAt {path : Text} {code : Int} (h : d.lockAt L path = some code) :
    ∃ entries, d.list path = .ok entries := by
  unfold lockAt at h
  split at h
  · cases h
  · rename_i hs
    split at h
    · rename_i hn
      simp only [list, hs, hn]
      exact ⟨_, rfl⟩
    · cases h

end Disk
end PathGlob
