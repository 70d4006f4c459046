import PathGlob.Disk.Basic

/-! What holds all over a tree, and the trees that a disk is made of.

A property of single nodes holds all over a disk if it holds of every node below the
root and in the trees that the working folder was cut off with. These are the trees
that any path leads through, so the node at its end has the property too
(`Holds.all_node`), and is no deeper than the height of the disk lets it be
(`Holds.depth_le`). That all entries have proper names is such a property (`WellNamed`),
and so is that no folder has two of one name (`Tidy`). -/
namespace PathGlob

namespace Node

mutual

/-- Whether a property holds of a node and of every node below it. -/
def all (f : Node → Bool) : Node → Bool
  | file => f file
  | link target => f (link target)
  | folder entries listing search => f (folder entries listing search) && allEntries f entries

/-- Whether a property holds of the nodes of entries and of every node below them. -/
def allEntries (f : Node → Bool) : List (Text × Node) → Bool
  | [] => true
  | (_, n) :: rest => n.all f && allEntries f rest

end

variable {f : Node → Bool} {n m : Node} {entries : List (Text × Node)} {name : Text}

theorem of_all (h : n.all f = true) : f n = true := by
  cases n with
  | file => exact h
  | link target => exact h
  | folder entries listing search =>
    rw [all, Bool.and_eq_true] at h
    exact h.1

theorem allEntries_iff : allEntries f entries = true ↔ ∀ e ∈ entries, e.2.all f = true := by
  induction entries with
  | nil => simp [allEntries]
  | cons e rest ih => rw [allEntries, Bool.and_eq_true, ih, List.forall_mem_cons]

/-- What is looked up in a list is a member of it. -/
theorem mem_of_lookup (h : entries.lookup name = some n) : (name, n) ∈ entries := by
  obtain ⟨front, back, he, -⟩ := List.lookup_eq_some_iff.1 h
  simp [he]

mutual

theorem all_mono {g : Node → Bool} (h : ∀ n, f n = true → g n = true) :
    ∀ n : Node, n.all f = true → n.all g = true
  | file, hn => h _ hn
  | link _, hn => h _ hn
  | folder entries listing search, hn => by
    rw [all, Bool.and_eq_true] at hn ⊢
    exact ⟨h _ hn.1, allEntries_mono h entries hn.2⟩

theorem allEntries_mono {g : Node → Bool} (h : ∀ n, f n = true → g n = true) :
    ∀ entries : List (Text × Node), allEntries f entries = true → allEntries g entries = true
  | [], _ => rfl
  | (_, n) :: rest, hn => by
    rw [allEntries, Bool.and_eq_true] at hn ⊢
    exact ⟨all_mono h n hn.1, allEntries_mono h rest hn.2⟩

end

theorem height_le_heights {e : Text × Node} (h : e ∈ entries) : e.2.height ≤ heights entries := by
  induction entries with
  | nil => cases h
  | cons first rest ih =>
    rw [heights]
    rcases List.mem_cons.1 h with rfl | h
    · exact Nat.le_max_left _ _
    · exact Nat.le_trans (ih h) (Nat.le_max_right _ _)

/-- A way down goes through folders, and its first name is an entry of the first of them. -/
theorem find?_cons_eq_some {way : List Text} : n.find? (name :: way) = some m ↔
    ∃ entries listing search child, n = folder entries listing search ∧
      entries.lookup name = some child ∧ child.find? way = some m := by
  cases n with
  | file => simp [find?]
  | link target => simp [find?]
  | folder entries listing search =>
    cases h : entries.lookup name with
    | none => simp [find?, h]
    | some child => simp [find?, h]

theorem all_find? {way : List Text} (h : n.all f = true) (hm : n.find? way = some m) :
    m.all f = true := by
  induction way generalizing n with
  | nil => exact Option.some.inj hm ▸ h
  | cons name way ih =>
    obtain ⟨entries, listing, search, child, rfl, hl, hc⟩ := find?_cons_eq_some.1 hm
    rw [all, Bool.and_eq_true, allEntries_iff] at h
    exact ih (h.2 _ (mem_of_lookup hl)) hc

theorem length_add_height_le {way : List Text} (hm : n.find? way = some m) :
    way.length + m.height ≤ n.height := by
  induction way generalizing n with
  | nil => simp [Option.some.inj hm]
  | cons name way ih =>
    obtain ⟨entries, listing, search, child, rfl, hl, hc⟩ := find?_cons_eq_some.1 hm
    have hle : child.height ≤ heights entries := height_le_heights (mem_of_lookup hl)
    have := ih hc
    rw [height, List.length_cons]
    omega

end Node

/-! ### The trees of a disk -/

/-- The trees that were cut off between the spot and the root. -/
def Spot.trees : Spot → List Node
  | rooted _ => []
  | severed tree _ parent => tree :: parent.trees

namespace Disk

/-- The trees that paths lead through. -/
def trees (d : Disk) : List Node := d.root :: d.here.trees

/-- Whether a property holds of every node of the disk. -/
def all (f : Node → Bool) (d : Disk) : Bool := d.trees.all (Node.all f)

/-- The spot stands in trees of the disk only. -/
def Holds (d : Disk) (s : Spot) : Prop := s.trees ⊆ d.trees

theorem height_le_of_mem_trees {d : Disk} {t : Node} (h : t ∈ d.trees) : t.height ≤ d.height := by
  have hs : ∀ s : Spot, t ∈ s.trees → t.height ≤ s.height := by
    intro s
    induction s with
    | rooted way => simp [Spot.trees]
    | severed tree way parent ih =>
      intro ht
      rw [Spot.height]
      rcases List.mem_cons.1 ht with rfl | ht
      · exact Nat.le_max_left _ _
      · exact Nat.le_trans (ih ht) (Nat.le_max_right _ _)
  rw [height]
  rcases List.mem_cons.1 h with rfl | h
  · exact Nat.le_max_left _ _
  · exact Nat.le_trans (hs _ h) (Nat.le_max_right _ _)

variable {d : Disk} {s : Spot}

theorem holds_rooted (way : List Text) : d.Holds (.rooted way) := by
  simp [Holds, Spot.trees]

theorem holds_here : d.Holds d.here := List.subset_cons_self _ _

theorem Holds.child (h : d.Holds s) (name : Text) : d.Holds (s.child name) := by
  cases s with
  | rooted way => exact holds_rooted _
  | severed tree way parent => exact h

theorem Holds.parent (h : d.Holds s) : d.Holds s.parent := by
  cases s with
  | rooted way => exact holds_rooted _
  | severed tree way parent =>
    cases way with
    | nil => exact (List.cons_subset.1 h).2
    | cons name way => exact h

theorem Holds.base (h : d.Holds s) (path : Text) : d.Holds (base path s) := by
  unfold Disk.base
  split
  · exact holds_rooted _
  · exact h

theorem Holds.tree_mem (h : d.Holds s) : s.tree d.root ∈ d.trees := by
  cases s with
  | rooted way => exact List.mem_cons_self
  | severed tree way parent => exact h List.mem_cons_self

/-- What holds all over a disk holds all over what stands at a spot of it. -/
theorem Holds.all_node {f : Node → Bool} {n : Node} (h : d.Holds s) (hd : d.all f = true)
    (hn : d.node? s = some n) : n.all f = true :=
  Node.all_find? (List.all_eq_true.1 hd _ h.tree_mem) hn

theorem Holds.depth_le {n : Node} (h : d.Holds s) (hn : d.node? s = some n) :
    s.way.length + n.height ≤ d.height :=
  Nat.le_trans (Node.length_add_height_le hn) (height_le_of_mem_trees h.tree_mem)

end Disk

/-! ### Names of entries -/

/-- Whether a name can be that of an entry: dots alone name other folders. -/
def Text.isEntryName (name : Text) : Bool :=
  name ≠ [] && name ≠ ['.'] && name ≠ ['.', '.'] && !name.contains '/'

/-- Whether every entry of a folder has a name that an entry can have. -/
def Node.hasEntryNames : Node → Bool
  | folder entries _ _ => entries.all fun e => e.1.isEntryName
  | _ => true

/-- All entries have names such as a file system lists: none of the dots is listed, and no
name holds a separator. -/
def Disk.WellNamed (d : Disk) : Prop := d.all Node.hasEntryNames = true

instance (d : Disk) : Decidable d.WellNamed := inferInstanceAs (Decidable (_ = true))

/-- Whether the entries of a folder have different names, each of them one that an entry
can have. -/
def Node.isTidy : Node → Bool
  | folder entries _ _ =>
    (entries.map Prod.fst).Nodup && entries.all fun e => e.1.isEntryName
  | _ => true

/-- All folders name their entries apart, with names such as a file system lists. -/
def Disk.Tidy (d : Disk) : Prop := d.all Node.isTidy = true

instance (d : Disk) : Decidable d.Tidy := inferInstanceAs (Decidable (_ = true))

theorem Node.isTidy_folder {entries : List (Text × Node)} {listing search : Option Int}
    (h : (folder entries listing search).isTidy = true) :
    (entries.map Prod.fst).Nodup ∧ ∀ e ∈ entries, e.1.isEntryName = true := by
  simpa [isTidy] using h

theorem Disk.Tidy.wellNamed {d : Disk} (hd : d.Tidy) : d.WellNamed := by
  have hnames : ∀ n : Node, n.isTidy = true → n.hasEntryNames = true := by
    intro n hn
    cases n with
    | file => rfl
    | link target => rfl
    | folder entries listing search => exact List.all_eq_true.2 (Node.isTidy_folder hn).2
  exact List.all_eq_true.2 fun t ht => Node.all_mono hnames t (List.all_eq_true.1 hd t ht)

end PathGlob
