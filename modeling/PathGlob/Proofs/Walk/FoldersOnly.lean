import PathGlob.Disk.Manifest
import PathGlob.Proofs.Walk.Abreast
import PathGlob.Proofs.Walk.Extent
import PathGlob.Proofs.Walk.Found
import PathGlob.Proofs.Walk.Refused

/-! A separator at the end of a source.

It adds an empty piece, which is no component, so the plan is the same but for the wish that only
folders be found. A walk asks for what it asks for without the wish, and in the same order, for the
positions live and the folders to be read do not depend on it. Only the paths found are fewer
(`events_foldersOnly`): those stay whose entry is a folder, links followed (`Disk.standsFolder`).
What a child was told to be when its folder was read is what its entry is, in whichever way it was
read (`Plan.standsFolder_of_read`). -/
namespace PathGlob

/-! ### Entries that are folders -/

namespace Disk
variable {d : Disk} {folder : Path} {n : Text}

/-- The entry that a path names, in the folder that the names before the last lead to. -/
def entryAt (d : Disk) (path : Path) : Option Node :=
  match path.names.getLast?,
    d.resolve true (Path.text { path with names := path.names.dropLast }) with
  | some n, .ok s => d.node? (s.child n)
  | _, _ => none

/-- Whether the entry of a path is a folder; a link is if it leads to one. A path that names no
entry is asked about as it is. -/
def standsFolder (d : Disk) (path : Path) : Bool :=
  match d.entryAt path with
  | some .file => false
  | some (.folder ..) => true
  | _ => d.isFolder path.text

theorem entryAt_below {s : Spot} (hs : d.resolve true folder.text = .ok s) (n : Text) :
    d.entryAt (folder.below [n]) = d.node? (s.child n) := by
  simp [entryAt, Path.below, hs]

/-- What leads somewhere is a folder just if its entry is one. -/
theorem standsFolder_of_resolve {spot : Spot} (hd : d.Tidy) (hf : folder.Named) (hn : Plain n)
    (h : d.resolve false (folder.below [n]).text = .ok spot) :
    d.standsFolder (folder.below [n]) = d.isFolder (folder.below [n]).text := by
  obtain ⟨s, entries, listing, hopen⟩ := exists_openAt hf hn h
  rw [standsFolder, entryAt_below hopen.resolve, node?_child hopen.node]
  cases hm : entries.lookup n with
  | none => rfl
  | some node =>
    have hup : n ≠ ['.', '.'] := ((hopen.entryNames hd).2 _ (Node.mem_of_lookup hm)).2
    have hb : nameBytes n ≤ 255 := by
      by_contra hlong
      rw [hopen.resolve_long hn (Nat.not_le.1 hlong)] at h
      cases h
    cases node with
    | link target => rfl
    | file | folder => exact (hopen.isFolder_of_listed hn hup hb hm rfl).symm

theorem standsFolder_of_exists {path : Path} (hd : d.Tidy) (hp : path.Named)
    (h : d.exists? path.text = true) : d.standsFolder path = d.isFolder path.text := by
  obtain ⟨anchor, names⟩ := path
  rcases List.eq_nil_or_concat' names with rfl | ⟨front, n, rfl⟩
  · rfl
  · obtain ⟨hfront, hn⟩ : Path.Named ⟨anchor, front⟩ ∧ _ := List.forall_mem_append.1 hp
    have hplain : Plain n := hn n (List.mem_singleton_self n)
    cases hr : d.resolve false (Path.text ⟨anchor, front ++ [n]⟩) with
    | error e =>
      rw [exists?, hr] at h
      cases h
    | ok spot => exact standsFolder_of_resolve hd hfront hplain hr

/-- What a listing tells of an entry is what the entry is. -/
theorem standsFolder_of_listed {s : Spot} {entries : List (Text × Node)}
    {listing search : Option Int} {e : Text × Node} {isFolder : Bool} (hf : folder.Named)
    (hs : d.resolve true folder.text = .ok s)
    (hnode : d.node? s = some (.folder entries listing search)) (hn : Plain e.1)
    (hm : entries.lookup e.1 = some e.2) (he : d.entryIsFolder folder.text e.1 e.2 = .ok isFolder) :
    d.standsFolder (folder.below [e.1]) = isFolder := by
  rw [standsFolder, entryAt_below hs, node?_child hnode, hm]
  generalize e.2 = node at he
  cases node with
  | file | folder => exact Except.ok.inj he
  | link target => exact isFolder_of_listed_link hf hn he

end Disk

namespace Plan
variable {p : Plan} {d : Disk} {folder : Path} {live : Live} {children : List Child} {child : Child}

/-- **A child is told to be a folder just if its entry is one**, whether it was listed or looked
up. -/
theorem standsFolder_of_read (hd : d.Tidy) (hp : p.Named) (hf : folder.Named)
    (h : (p.read d folder live).children = .ok children) (hc : child ∈ children)
    (he : child.error = none) : d.standsFolder child.path = child.isFolder := by
  cases hprobes : p.probes live with
  | true =>
    rw [read_of_probes hprobes] at h
    obtain ⟨n, -, hplain, hpath, s, hs⟩ := exists_below hp h hc
    rw [(of_mem_probe h hc).2, hpath]
    exact Disk.standsFolder_of_resolve hd hf hplain hs
  | false =>
    rw [read_of_lists hprobes] at h
    obtain ⟨es, hes, rfl⟩ := map_eq_ok.1 h
    obtain ⟨s, entries, search, hs, hnode, rfl⟩ := Disk.exists_of_list hes
    obtain ⟨entry, hentry, rfl⟩ := List.mem_map.1 hc
    obtain ⟨e, hmem, rfl⟩ := List.mem_map.1 hentry
    obtain ⟨links, hl⟩ := Disk.reaches_of_resolve hf hs
    obtain ⟨hnodup, hnames⟩ := Node.isTidy_folder (Node.of_all (hl.holds.all_node hd hnode))
    have hplain : Plain e.1 := (Text.plain_of_isEntryName (hnames e hmem)).1
    rw [path_childOf, folder.join_plain hplain]
    unfold childOf at he ⊢
    cases hfolder : d.entryIsFolder folder.text e.1 e.2 with
    | error cause =>
      rw [hfolder] at he
      cases he
    | ok isFolder =>
      have hm := Node.lookup_of_mem hnodup hmem
      exact Disk.standsFolder_of_listed hf hs hnode hplain hm hfolder

/-! ### The walk -/

/-- The same plan, but for folders only. -/
def folders (p : Plan) : Plan := { p with source := p.source ++ ['/'], foldersOnly := true }

/-- Whether a finding stays where only folders are found. -/
def keepsFolders (d : Disk) (f : Finding) : Bool := !f.isSuccess || d.standsFolder f.path

/-- A task that knows whether its path is a folder. -/
structure Informed (p : Plan) (d : Disk) (t : Task) : Prop where
  named : (t.top p).Named
  isFolder : ∀ child live, t = .visit child live → child.error = none →
    d.standsFolder child.path = child.isFolder

theorem abreast_folders (hd : d.Tidy) (hp : p.Named) (hsource : p.source ≠ [])
    (hall : p.foldersOnly = false) {t t' : Task} (ht : t' = t ∧ p.Informed d t) :
    Turn.Abreast (fun t t' => t' = t ∧ p.Informed d t) (keepsFolders d) (t.run p d)
      (t'.run p.folders d) := by
  obtain ⟨rfl, ht⟩ := ht
  have harrive : ∀ (reported isFolder : Bool) (path : Path) (live : Live), path.Named →
      d.standsFolder path = isFolder →
      Turn.Abreast (fun t t' => t' = t ∧ p.Informed d t) (keepsFolders d)
        (p.arrive reported path isFolder live) (p.folders.arrive reported path isFolder live) := by
    intro reported isFolder path live hnamed hfolder
    refine abreast_arrive reported ?_ rfl ⟨rfl, hnamed, nofun⟩
    have hkeep : keepsFolders d (.success path) = isFolder := hfolder
    rw [accepts, accepts, hall, hkeep]
    show (live.isFinal p.components && (isFolder || !true)) = _
    rw [Bool.not_true, Bool.or_false, Bool.not_false, Bool.or_true, Bool.and_true]
  cases t' with
  | start =>
    rw [Task.run, Task.run]
    have hroot : p.folders.includesRoot = p.includesRoot := by
      have hne : p.source ++ ['/'] ≠ [] :=
        List.append_ne_nil_of_right_ne_nil _ (List.cons_ne_nil _ _)
      rw [includesRoot, includesRoot, decide_eq_true hsource]
      show (decide (p.source ++ ['/'] ≠ []) && _) = _
      rw [decide_eq_true hne]
      rfl
    rw [hroot]
    show Turn.Abreast _ _ (if d.exists? p.root.text then _ else _)
      (if d.exists? p.root.text then _ else _)
    split
    case isTrue hex => exact harrive _ _ _ _ hp.root (Disk.standsFolder_of_exists hd hp.root hex)
    case isFalse => exact ⟨rfl, rfl, .nil⟩
  | visit child live =>
    rw [Task.run, Task.run]
    cases he : child.error with
    | some e => exact ⟨rfl, rfl, .nil⟩
    | none => exact harrive _ _ _ _ ht.named (ht.isFolder child live rfl he)
  | expand folder live =>
    refine Task.abreast_expand rfl (fun e => rfl) fun children hr child hc => ⟨rfl, ?_, ?_⟩
    · obtain ⟨n, hpath⟩ := exists_join hr hc
      exact show child.path.Named from hpath ▸ Path.Named.join ht.named n
    · intro child' live' hq he
      cases hq
      exact standsFolder_of_read hd hp ht.named hr hc he

theorem events_folders (hd : d.Tidy) (hp : p.Named) (hsource : p.source ≠ [])
    (hall : p.foldersOnly = false) :
    p.folders.events d = (p.events d).filter (Event.stays (keepsFolders d)) :=
  events_abreast (abreast_folders hd hp hsource hall) ⟨rfl, hp.root, nofun⟩ hd.wellNamed hp
    ⟨hp.root, hp.components⟩

/-! ### Sources -/

variable {o : Options} {source : Text}

theorem pieces_separator (source : Text) :
    List.splitOn '/' (source ++ ['/']) = List.splitOn '/' source ++ [[]] :=
  List.splitOn_append_cons_self source []

/-- A separator at the end only says that folders are wanted. -/
theorem ofSource_separator (hnames : Path.namesOf source ≠ []) (hp : ofSource o source = .ok p) :
    ofSource o (source ++ ['/']) = .ok p.folders := by
  obtain ⟨cs, hcs⟩ := exists_of_pieces hp
  obtain ⟨empty, hempty⟩ : ∃ c : Pattern, c.source = [] :=
    ⟨⟨[], [], Token.ofSource_eq_ok.2 ⟨[], .nil, rfl⟩⟩, rfl⟩
  have hcs' : (cs ++ [empty]).map Pattern.source = List.splitOn '/' (source ++ ['/']) := by
    rw [List.map_append, hcs, pieces_separator, List.map_singleton, hempty]
  have hhead : (source ++ ['/']).head? = source.head? := by
    cases source with
    | nil => exact absurd rfl hnames
    | cons c source => rfl
  have hsome : (cs.filter fun c => c.source ≠ [] && c.source ≠ ['.']).isEmpty = false := by
    rw [Path.namesOf, ← hcs, List.filter_map] at hnames
    exact List.isEmpty_eq_false_iff.2 fun hq => hnames (List.map_eq_nil_iff.2 hq)
  have hq := ofSource_pieces (o := o) hcs'
  rw [List.filter_append, List.filter_cons_of_neg (by simp [hempty]), List.filter_nil,
    List.append_nil, hhead, hsome, List.getLast?_concat] at hq
  rw [hq, ← Except.ok.inj ((ofSource_pieces hcs).symm.trans hp)]
  rfl

theorem exists_of_separator {q : Plan} (hq : ofSource o (source ++ ['/']) = .ok q) :
    ∃ p, ofSource o source = .ok p := by
  obtain ⟨cs, hcs⟩ := exists_of_pieces hq
  rw [pieces_separator] at hcs
  obtain ⟨front, -, -, hfront, -⟩ := List.map_eq_append_iff.1 hcs
  exact ⟨_, ofSource_pieces hfront⟩

end Plan

/-- **A separator at the end leaves out what is no folder, and changes nothing else.** The source is
refused with it just if it is refused without. If it is not, the same is asked in the same order,
and the same is found but for the paths whose entries are no folders. All errors are found. -/
theorem events_foldersOnly {o : Options} {source : Text} {d : Disk}
    (hend : source.getLast? ≠ some '/') (hnames : Path.namesOf source ≠ []) (hd : d.Tidy) :
    ((∃ e, Plan.ofSource o (source ++ ['/']) = .error e) ↔ ∃ e, Plan.ofSource o source = .error e) ∧
      ∀ p, Plan.ofSource o source = .ok p → ∃ q, Plan.ofSource o (source ++ ['/']) = .ok q ∧
        q.calls d = p.calls d ∧
        q.findings d = (p.findings d).filter fun f => !f.isSuccess || d.standsFolder f.path := by
  constructor
  · -- a plan of either source gives one of the other
    have hiff : (∃ q, Plan.ofSource o (source ++ ['/']) = .ok q) ↔
        ∃ p, Plan.ofSource o source = .ok p := by
      constructor
      · rintro ⟨q, hq⟩
        exact Plan.exists_of_separator hq
      · rintro ⟨p, hp⟩
        exact ⟨p.folders, Plan.ofSource_separator hnames hp⟩
    have hrefused : ∀ s, (∃ e, Plan.ofSource o s = .error e) ↔ ¬∃ p, Plan.ofSource o s = .ok p := by
      intro s
      cases Plan.ofSource o s <;> simp
    rw [hrefused, hrefused, hiff]
  · intro p hp
    refine ⟨p.folders, Plan.ofSource_separator hnames hp, ?_⟩
    have hparts := Plan.parts_of_ofSource hp
    have hsource : p.source ≠ [] := by
      rw [hparts.source_eq]
      rintro rfl
      exact hnames rfl
    have hall : p.foldersOnly = false :=
      Bool.eq_false_iff.2 fun hfolders => hend (hparts.foldersOnly_iff.1 hfolders).2
    rw [Plan.calls, Plan.findings, Plan.events_folders hd (Plan.named_of_ofSource hp) hsource hall]
    exact ⟨Event.calls_stays, Event.findings_stays⟩

/-- A file, a folder, and a link to each. -/
def linked : Disk where
  root := .folder [("a".toList, .file), ("b".toList, .emptyFolder), ("c".toList, .link "a".toList),
    ("d".toList, .link "b".toList)] none none

theorem events_foldersOnly_linked :
    ∃ q, Plan.ofSource {} "*/".toList = .ok q ∧ q.calls linked = [.list ".".toList] ∧
      q.findings linked = [.success (.ofText "b".toList), .success (.ofText "d".toList)] := by
  have hrun : Token.ofSource "*".toList = .ok [.run] := by cbv
  have hp := Plan.ofSource_of_components (o := {}) [⟨_, _, hrun⟩] hrun rfl
  have hend : "*".toList.getLast? ≠ some '/' := by decide
  have htidy : linked.Tidy := by cbv
  obtain ⟨-, hsame⟩ := events_foldersOnly (o := {}) hend (by decide) htidy
  obtain ⟨q, hq, hcalls, hfindings⟩ := hsame _ hp
  refine ⟨q, hq, ?_, ?_⟩
  · rw [hcalls]
    cbv
  · rw [hfindings]
    cbv

end PathGlob
