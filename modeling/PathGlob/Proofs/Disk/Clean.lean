import PathGlob.Proofs.Disk.Opened

/-! Disks on which nothing stands in the way.

A clean disk has no links and no folders that refuse, and the names in a folder are
different and not too long. A path that leads anywhere leads to a node there
(`Clean.isSome_node`). A name below a folder leads to the entry of that name and fails
only where there is none (`FolderAt.resolve_concat`), and a folder is listed as it is
(`FolderAt.list_eq`). -/
namespace PathGlob

namespace Node
/-- A file, or a folder that refuses nothing and has different names, none too long. -/
def isClean : Node → Bool
  | file => true
  | link _ => false
  | folder entries listing search =>
    listing.isNone && search.isNone && (entries.map Prod.fst).Nodup &&
      entries.all fun e => e.1.isEntryName && Disk.nameBytes e.1 ≤ 255

theorem isClean_folder {entries : List (Text × Node)} {listing search : Option Int}
    (h : (folder entries listing search).isClean = true) :
    listing = none ∧ search = none ∧ (entries.map Prod.fst).Nodup ∧
      ∀ e ∈ entries, e.1.isEntryName = true ∧ Disk.nameBytes e.1 ≤ 255 := by
  simpa [isClean, and_assoc] using h

theorem eq_folder {n : Node} (h : n.isClean = true) (hf : n.isFolder = true) :
    ∃ entries, n = folder entries none none := by
  cases n with
  | file => cases hf
  | link target => cases hf
  | folder entries listing search =>
    obtain ⟨rfl, rfl, -⟩ := isClean_folder h
    exact ⟨entries, rfl⟩

theorem hasEntryNames_of_isClean {n : Node} (h : n.isClean = true) : n.hasEntryNames = true := by
  cases n with
  | file => rfl
  | link target => rfl
  | folder entries listing search =>
    exact List.all_eq_true.2 fun e he => ((isClean_folder h).2.2.2 e he).1

theorem isLinkless_of_isClean {n : Node} (h : n.isClean = true) : n.isLinkless = true := by
  cases n with
  | file | folder => rfl
  | link target => exact h

theorem isSome_find?_dropLast {n : Node} {way : List Text} (h : (n.find? way).isSome) :
    (n.find? way.dropLast).isSome := by
  rcases List.eq_nil_or_concat way with rfl | ⟨front, name, rfl⟩
  · exact h
  · rw [List.concat_eq_append] at h ⊢
    rw [find?_append] at h
    rw [List.dropLast_concat]
    exact Option.isSome_of_isSome_bind h

end Node

namespace Spot
variable {root : Node} {s : Spot}

/-- Wherever a tree was cut off there is a node still, as is plain of a spot in the tree
below the root. -/
def Grounded (root : Node) : Spot → Prop
  | rooted _ => True
  | severed _ _ parent => (parent.node? root).isSome ∧ parent.Grounded root

theorem Grounded.child (h : s.Grounded root) (name : Text) : (s.child name).Grounded root := by
  cases s <;> exact h

theorem Grounded.parent (h : s.Grounded root) : s.parent.Grounded root := by
  cases s with
  | rooted way => exact h
  | severed tree way parent =>
    cases way with
    | nil => exact h.2
    | cons name way => exact h

/-- What has a node has one above it. -/
theorem Grounded.node?_parent (h : s.Grounded root) (hn : (s.node? root).isSome) :
    (s.parent.node? root).isSome := by
  cases s with
  | rooted way => exact Node.isSome_find?_dropLast hn
  | severed tree way parent =>
    cases way with
    | nil => exact h.1
    | cons name way => exact Node.isSome_find?_dropLast hn

end Spot

namespace Disk
variable {d : Disk} {s : Spot} {p : Path} {entries : List (Text × Node)} {n : Text} {node : Node}

/-- There are no links, nothing refuses, and there is a folder at the root. -/
structure Clean (d : Disk) : Prop where
  nodes : d.all Node.isClean = true
  root : d.root.isFolder = true
  here : d.here.Grounded d.root

theorem Clean.wellNamed (hd : d.Clean) : d.WellNamed :=
  List.all_eq_true.2 fun t ht =>
    Node.all_mono (fun _ => Node.hasEntryNames_of_isClean) t (List.all_eq_true.1 hd.nodes t ht)

theorem Clean.not_link (hd : d.Clean) (hs : d.Holds s) {target : Text}
    (h : d.Stands s n (.link target)) : False := by
  obtain ⟨-, -, -, entries, listing, hn, hl⟩ := h
  have hall := hs.all_node hd.nodes hn
  rw [Node.all, Bool.and_eq_true, Node.allEntries_iff] at hall
  cases Node.of_all (hall.2 _ (Node.mem_of_lookup hl))

/-- Without links it does not matter what becomes of a link at the end. -/
theorem Clean.leads (hd : d.Clean) {last last' : Bool} {links links' : Nat} {s' : Spot}
    {names : List Text} (hs : d.Holds s) (h : d.Leads last links s names links' s') :
    d.Leads last' links s names links' s' := by
  induction h with
  | here => exact .here
  | dot hn _ ih => exact .dot hn (ih hs)
  | up hn _ ih => exact .up hn (ih hs.parent)
  | down hn hlink _ ih => exact .down hn hlink (ih (hs.child _))
  | stop hn => exact (hd.not_link hs hn).elim
  | jump hn => exact (hd.not_link hs hn).elim

theorem Clean.resolve_last (hd : d.Clean) {last last' : Bool} {path : Text}
    (h : d.resolve last path = .ok s) : d.resolve last' path = .ok s := by
  obtain ⟨links, hl⟩ := leads_of_follow (resolve_iff.1 h)
  exact resolve_iff.2 (hd.leads (holds_here.base path) hl).follow

theorem Leads.isSome {last : Bool} {links links' : Nat} {s' : Spot} {names : List Text}
    (h : d.Leads last links s names links' s') (hg : s.Grounded d.root)
    (hn : (d.node? s).isSome) : (d.node? s').isSome := by
  induction h with
  | here => exact hn
  | dot _ _ ih => exact ih hg hn
  | up _ _ ih => exact ih hg.parent (hg.node?_parent hn)
  | down hs _ _ ih =>
    obtain ⟨-, -, -, entries, listing, hn, hl⟩ := hs
    apply ih (hg.child _)
    rw [node?_child hn, hl]
    rfl
  | stop hs _ =>
    obtain ⟨-, -, -, entries, listing, hn, hl⟩ := hs
    rw [node?_child hn, hl]
    rfl
  | @jump _ _ spot _ _ target _ _ _ _ ih =>
    by_cases ha : isAbsolute target = true
    · rw [base, if_pos ha] at ih
      exact ih trivial rfl
    · rw [base, if_neg ha] at ih
      exact ih hg hn

/-- Names that lead anywhere start where something is. -/
theorem Leads.isSome_start {last : Bool} {links links' : Nat} {s' : Spot} {names : List Text}
    (h : d.Leads last links s names links' s') (hne : names ≠ []) : (d.node? s).isSome := by
  cases h with
  | here => exact absurd rfl hne
  | dot hs | up hs =>
    obtain ⟨entries, listing, hn⟩ := hs
    rw [hn]
    rfl
  | down hs | stop hs | jump hs =>
    obtain ⟨-, -, -, entries, listing, hn, -⟩ := hs
    rw [hn]
    rfl

/-- A path that leads anywhere leads to a node. -/
theorem Clean.isSome_node (hd : d.Clean) {last : Bool} (hp : p.Named)
    (h : d.resolve last p.text = .ok s) : (d.node? s).isSome := by
  by_cases hne : p = ⟨.here, []⟩
  · subst hne
    obtain ⟨⟨entries, listing, hn⟩, rfl⟩ := resolve_dot.1 h
    rw [hn]
    rfl
  · obtain ⟨links, hl⟩ := (resolve_eq_ok hp hne).1 h
    have hstart : (d.origin p).Grounded d.root ∧ (d.node? (d.origin p)).isSome := by
      by_cases ha : p.anchor = .here
      · have hnames : p.names ≠ [] := fun hn => hne (by cases p; simp_all)
        refine ⟨?_, hl.isSome_start hnames⟩
        rw [origin, if_pos ha]
        exact hd.here
      · rw [origin, if_neg ha]
        exact ⟨trivial, rfl⟩
    exact Leads.isSome hl hstart.1 hstart.2

/-- A path without names leads to a folder. -/
theorem Clean.isFolder_of_names_nil (hd : d.Clean) {last : Bool} (hp : p.names = [])
    (h : d.resolve last p.text = .ok s) (hn : d.node? s = some node) : node.isFolder = true := by
  have hnamed : p.Named := fun n hm => by simp [hp] at hm
  by_cases hne : p = ⟨.here, []⟩
  · subst hne
    obtain ⟨⟨entries, listing, hf⟩, rfl⟩ := resolve_dot.1 h
    rw [hf] at hn
    exact Option.some.inj hn ▸ rfl
  · obtain ⟨links, hl⟩ := (resolve_eq_ok hnamed hne).1 h
    rw [Reaches, hp, origin, if_neg fun ha => hne (by cases p; simp_all)] at hl
    cases hl
    exact Option.some.inj hn ▸ hd.root

/-- The path leads to the spot, where a folder with the entries stands. -/
structure FolderAt (d : Disk) (p : Path) (s : Spot) (entries : List (Text × Node)) : Prop where
  named : p.Named
  resolve : d.resolve true p.text = .ok s
  node : d.node? s = some (.folder entries none none)

theorem FolderAt.openAt (h : d.FolderAt p s entries) : d.OpenAt p s entries none :=
  ⟨h.named, h.resolve, h.node⟩

theorem FolderAt.names (hd : d.Clean) (h : d.FolderAt p s entries) :
    (entries.map Prod.fst).Nodup ∧ ∀ e ∈ entries, e.1.isEntryName = true ∧ nameBytes e.1 ≤ 255 :=
  (Node.isClean_folder (Node.of_all (h.openAt.all_node hd.nodes))).2.2

theorem FolderAt.isClean (hd : d.Clean) (h : d.FolderAt p s entries) {e : Text × Node}
    (he : e ∈ entries) : e.2.isClean = true :=
  h.openAt.all_entry hd.nodes he

/-- One name below a folder leads to its entry; there is nothing else in the way. -/
theorem FolderAt.resolve_concat (hd : d.Clean) (h : d.FolderAt p s entries) (hn : Plain n)
    (hup : n ≠ ['.', '.']) (hb : nameBytes n ≤ 255) (last : Bool) :
    d.resolve last (Path.text { p with names := p.names ++ [n] }) =
      match entries.lookup n with
      | some _ => .ok (s.child n)
      | none => .error (.about (Path.text { p with names := p.names ++ [n] })
          SystemError.notFound) := by
  cases hm : entries.lookup n with
  | some node => exact hd.resolve_last (h.openAt.resolve_name hn hup hb hm)
  | none => exact h.openAt.resolve_absent hn hup hb hm

theorem FolderAt.isFolder_concat (hd : d.Clean) (h : d.FolderAt p s entries) (hn : Plain n)
    (hup : n ≠ ['.', '.']) (hb : nameBytes n ≤ 255) (hm : entries.lookup n = some node) :
    d.isFolder (Path.text { p with names := p.names ++ [n] }) = node.isFolder := by
  unfold isFolder
  rw [h.resolve_concat hd hn hup hb, hm]
  show (d.node? (s.child n)).any Node.isFolder = _
  rw [node?_child h.node, hm]
  rfl

/-- A folder in a folder is at the path with one more name. -/
theorem FolderAt.child (hd : d.Clean) (h : d.FolderAt p s entries) {inner : List (Text × Node)}
    {listing search : Option Int} (hm : entries.lookup n = some (.folder inner listing search)) :
    d.FolderAt { p with names := p.names ++ [n] } (s.child n) inner := by
  have he := Node.mem_of_lookup hm
  obtain ⟨hname, hb⟩ := (h.names hd).2 _ he
  obtain ⟨hn, hup⟩ := Text.plain_of_isEntryName hname
  obtain ⟨rfl, rfl, -⟩ := Node.isClean_folder (h.isClean hd he)
  refine ⟨h.named.concat hn, ?_, (node?_child h.node n).trans hm⟩
  rw [h.resolve_concat hd hn hup hb, hm]

/-- A folder lists its entries. -/
theorem FolderAt.list_eq (hd : d.Clean) (h : d.FolderAt p s entries) :
    d.list p.text = .ok (entries.map fun e => ⟨e.1, .ok e.2.isFolder⟩) := by
  rw [h.openAt.list]
  refine congrArg Except.ok (List.map_congr_left fun e he => ?_)
  rw [entryIsFolder_of_linkless (Node.isLinkless_of_isClean (h.isClean hd he))]

end Disk
end PathGlob
