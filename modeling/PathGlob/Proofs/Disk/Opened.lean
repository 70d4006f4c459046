import PathGlob.Proofs.Disk.Leading

/-! Folders that let themselves be searched, and where a name in them leads.

A path with one name more is followed to the end of the path first and on from there
(`resolve_below`). In a folder that can be searched a name of fair length leads to the entry
of that name and fails only where there is none (`OpenAt.resolve_name`). A listing asks about
an entry by a text that may differ from that of its path but leads to the same
(`resolve_entryPath`), so whether an entry is a folder is told alike, if it can be told
(`OpenAt.isFolder_of_listed`). -/
namespace PathGlob

/-- Whether the node is no folder that refuses to be searched. -/
def Node.isSearchable : Node → Bool
  | folder _ _ search => search.isNone
  | _ => true

/-- All folders let themselves be searched. -/
def Disk.Searchable (d : Disk) : Prop := d.all Node.isSearchable = true

instance (d : Disk) : Decidable d.Searchable := inferInstanceAs (Decidable (_ = true))

/-- Whether the node is no folder that refuses to be listed. -/
def Node.isListable : Node → Bool
  | folder _ listing _ => listing.isNone
  | _ => true

/-- All folders let themselves be listed. -/
def Disk.Listable (d : Disk) : Prop := d.all Node.isListable = true

instance (d : Disk) : Decidable d.Listable := inferInstanceAs (Decidable (_ = true))

def Node.isLinkless : Node → Bool
  | link _ => false
  | _ => true

/-- There are no links. -/
def Disk.Linkless (d : Disk) : Prop := d.all Node.isLinkless = true

instance (d : Disk) : Decidable d.Linkless := inferInstanceAs (Decidable (_ = true))

namespace Disk
variable {d : Disk} {last : Bool} {links links' : Nat} {spot spot' s : Spot} {p : Path}
  {entries : List (Text × Node)} {listing : Option Int} {n : Text} {names : List Text} {node : Node}

/-! ### Names below a path -/

theorem node?_child {search : Option Int} (h : d.node? s = some (.folder entries listing search))
    (n : Text) : d.node? (s.child n) = entries.lookup n := by
  change (s.tree d.root).find? s.way = _ at h
  show ((s.child n).tree d.root).find? (s.child n).way = _
  rw [Spot.tree_child, Spot.way_child, Node.find?_append, h, Option.bind_some, Node.find?]
  cases entries.lookup n <;> rfl

/-- Where a path leads, a name below it is looked up there. -/
theorem resolve_below (hp : p.Named) (h : d.resolve true p.text = .ok s) :
    ∃ links, ∀ {n : Text} (last : Bool), Plain n → d.resolve last (p.below [n]).text =
      (d.follow last links s [n]).mapError (.about (p.below [n]).text) := by
  obtain ⟨links, hl⟩ := reaches_of_resolve hp h
  refine ⟨links, fun {n} last hn => ?_⟩
  have hne : p.below [n] ≠ ⟨.here, []⟩ := by simp [Path.below]
  have hfollow : d.follow last linkLimit (d.origin p) (p.names ++ [n]) = d.follow last links s [n] :=
    hl.follow_append (List.cons_ne_nil _ _)
  rw [resolve, base_text (hp.below hn), Path.steps_text (hp.below hn), if_neg hne]
  exact congrArg _ hfollow

/-- What can be gone through can be gone to. -/
theorem Leads.stops (h : d.Leads true links spot names links' spot') :
    ∃ links' spot', d.Leads false links spot names links' spot' := by
  induction h with
  | here => exact ⟨_, _, .here⟩
  | dot hs _ ih =>
    obtain ⟨_, _, h⟩ := ih
    exact ⟨_, _, .dot hs h⟩
  | up hs _ ih =>
    obtain ⟨_, _, h⟩ := ih
    exact ⟨_, _, .up hs h⟩
  | down hn hlink _ ih =>
    obtain ⟨_, _, h⟩ := ih
    exact ⟨_, _, .down hn hlink h⟩
  | stop _ hlast => cases hlast
  | @jump _ _ _ _ _ _ rest hn _ _ ih =>
    cases rest with
    | nil => exact ⟨_, _, .stop hn rfl⟩
    | cons first rest =>
      obtain ⟨_, _, h⟩ := ih
      exact ⟨_, _, .jump hn rfl h⟩

theorem exists?_of_resolve {path : Text} (h : d.resolve true path = .ok s) :
    d.exists? path = true := by
  obtain ⟨_, hl⟩ := leads_of_follow (resolve_iff.1 h)
  obtain ⟨_, _, hl⟩ := hl.stops
  rw [exists?, resolve_iff.2 hl.follow]
  rfl

theorem resolve_of_isFolder {path : Text} (h : d.isFolder path = true) :
    ∃ s, d.resolve true path = .ok s ∧ d.isFolderAt s = true := by
  unfold isFolder at h
  split at h
  case h_1 s hs => exact ⟨s, hs, h⟩
  case h_2 => cases h

theorem exists?_of_isFolder {path : Text} (h : d.isFolder path = true) : d.exists? path = true := by
  obtain ⟨s, hs, -⟩ := resolve_of_isFolder h
  exact exists?_of_resolve hs

/-! ### Searching a folder -/

/-- The path leads to the spot, where a folder with the entries stands that can be searched. -/
structure OpenAt (d : Disk) (p : Path) (s : Spot) (entries : List (Text × Node))
    (listing : Option Int) : Prop where
  named : p.Named
  resolve : d.resolve true p.text = .ok s
  node : d.node? s = some (.folder entries listing none)

theorem search_eq_none {search : Option Int} (hd : d.Searchable) (hp : p.Named)
    (hs : d.resolve true p.text = .ok s) (hnode : d.node? s = some (.folder entries listing search)) :
    search = none := by
  obtain ⟨links, hl⟩ := reaches_of_resolve hp hs
  have hsearch : Node.isSearchable (.folder entries listing search) = true :=
    Node.of_all (hl.holds.all_node hd hnode)
  exact Option.isNone_iff_eq_none.1 hsearch

/-- A path that is listed leads to a folder, and the listing tells its entries. -/
theorem exists_of_list {path : Text} {es : List Entry} (h : d.list path = .ok es) :
    ∃ s entries search, d.resolve true path = .ok s ∧
      d.node? s = some (.folder entries none search) ∧
      es = entries.map fun e => ⟨e.1, d.entryIsFolder path e.1 e.2⟩ := by
  unfold list at h
  split at h
  case h_1 => cases h
  case h_2 s hs =>
    split at h
    case h_1 entries search hnode => exact ⟨s, entries, search, hs, hnode, (Except.ok.inj h).symm⟩
    all_goals cases h

/-- Where no folder refuses to be searched, one that is listed is open, and is listed as it is. -/
theorem openAt_of_list (hd : d.Searchable) (hp : p.Named) {es : List Entry}
    (h : d.list p.text = .ok es) : ∃ s entries, d.OpenAt p s entries none ∧
      es = entries.map fun e => ⟨e.1, d.entryIsFolder p.text e.1 e.2⟩ := by
  obtain ⟨s, entries, search, hs, hnode, hes⟩ := exists_of_list h
  obtain rfl := search_eq_none hd hp hs hnode
  exact ⟨s, entries, ⟨hp, hs, hnode⟩, hes⟩

theorem openAt_of_isFolder (hd : d.Searchable) (hp : p.Named) (h : d.isFolder p.text = true) :
    ∃ s entries listing, d.OpenAt p s entries listing := by
  obtain ⟨s, hs, hfolder⟩ := resolve_of_isFolder h
  obtain ⟨node, hnode, hfolder⟩ := (Option.any_eq_true ..).1 hfolder
  cases node with
  | file | link => cases hfolder
  | folder entries listing search =>
    obtain rfl := search_eq_none hd hp hs hnode
    exact ⟨s, entries, listing, hp, hs, hnode⟩

/-- A name leads somewhere only in a folder that can be searched. -/
theorem exists_openAt (hp : p.Named) (hn : Plain n) (h : d.resolve last (p.below [n]).text = .ok s) :
    ∃ spot entries listing, d.OpenAt p spot entries listing := by
  obtain ⟨links, hl⟩ := reaches_of_resolve (hp.below hn) h
  obtain ⟨mid, spot, hfront, hname⟩ := reaches_of_concat hl
  have hsearched : d.Searched spot := by
    cases hname with
    | dot hs | up hs => exact hs
    | down hs | stop hs | jump hs =>
      obtain ⟨-, -, -, entries, listing, hnode, -⟩ := hs
      exact ⟨entries, listing, hnode⟩
  have hresolve : d.resolve true p.text = .ok spot := by
    by_cases hne : p = ⟨.here, []⟩
    · subst hne
      cases hfront
      exact resolve_dot.2 ⟨hsearched, rfl⟩
    · exact (resolve_eq_ok hp hne).2 ⟨mid, hfront⟩
  obtain ⟨entries, listing, hnode⟩ := hsearched
  exact ⟨spot, entries, listing, hp, hresolve, hnode⟩

namespace OpenAt
variable (h : d.OpenAt p s entries listing)
include h

theorem isFolder : d.isFolder p.text = true := by
  rw [Disk.isFolder, h.resolve]
  show (d.node? s).any Node.isFolder = true
  rw [h.node]
  rfl

theorem searched : d.Searched s := ⟨entries, listing, h.node⟩

theorem all_node {f : Node → Bool} (hd : d.all f = true) :
    (Node.folder entries listing none).all f = true := by
  obtain ⟨links, hl⟩ := reaches_of_resolve h.named h.resolve
  exact hl.holds.all_node hd h.node

/-- What holds all over a disk holds of the entries of an open folder. -/
theorem all_entry {f : Node → Bool} (hd : d.all f = true) {e : Text × Node} (he : e ∈ entries) :
    f e.2 = true := by
  have hall := h.all_node hd
  rw [Node.all, Bool.and_eq_true, Node.allEntries_iff] at hall
  exact Node.of_all (hall.2 e he)

theorem entryNames (hd : d.Tidy) : (entries.map Prod.fst).Nodup ∧
    ∀ e ∈ entries, Plain e.1 ∧ e.1 ≠ ['.', '.'] := by
  obtain ⟨hnodup, hnames⟩ := Node.isTidy_folder (Node.of_all (h.all_node hd))
  exact ⟨hnodup, fun e he => Text.plain_of_isEntryName (hnames e he)⟩

theorem listing_eq_none (hd : d.Listable) : listing = none :=
  Option.isNone_iff_eq_none.1 (Node.of_all (h.all_node hd))

/-- If the folder can be listed, it is listed as it is. -/
theorem list_eq {es : List Entry} (hl : d.list p.text = .ok es) :
    es = entries.map fun e => ⟨e.1, d.entryIsFolder p.text e.1 e.2⟩ := by
  obtain ⟨s', entries', search, hs, hnode, rfl⟩ := exists_of_list hl
  obtain rfl := Except.ok.inj (hs.symm.trans h.resolve)
  rw [h.node] at hnode
  cases hnode
  rfl

/-- A name that is too long cannot be asked for. -/
theorem resolve_long (hn : Plain n) (hb : 255 < nameBytes n) :
    d.resolve last (p.below [n]).text =
      .error (.about (p.below [n]).text SystemError.nameTooLong) := by
  obtain ⟨links, hbelow⟩ := resolve_below h.named h.resolve
  rw [hbelow last hn, follow_cons, h.node]
  show (if _ then _ else _ : Except Int Spot).mapError _ = _
  rw [if_pos hb]
  rfl

/-- A name that no entry has leads nowhere. -/
theorem resolve_absent (hn : Plain n) (hup : n ≠ ['.', '.']) (hb : nameBytes n ≤ 255)
    (hm : entries.lookup n = none) :
    d.resolve last (p.below [n]).text =
      .error (.about (p.below [n]).text SystemError.notFound) := by
  obtain ⟨links, hbelow⟩ := resolve_below h.named h.resolve
  rw [hbelow last hn, follow_cons, h.node]
  show (if _ then _ else _ : Except Int Spot).mapError _ = _
  rw [if_neg (Nat.not_lt.2 hb), if_neg hn.ne_dot, if_neg hup, hm]
  rfl

/-- The name of an entry leads to it. -/
theorem resolve_name (hn : Plain n) (hup : n ≠ ['.', '.']) (hb : nameBytes n ≤ 255)
    (hm : entries.lookup n = some node) :
    d.resolve false (p.below [n]).text = .ok (s.child n) := by
  obtain ⟨links, hbelow⟩ := resolve_below h.named h.resolve
  have hs : d.Stands s n node := ⟨hb, hn.ne_dot, hup, entries, listing, h.node, hm⟩
  rw [hbelow false hn]
  cases node with
  | link target => rw [follow_link hs]; rfl
  | file | folder =>
    rw [follow_entry hs nofun, follow_nil]
    rfl

/-- The one name that is no entry leads to the folder above. -/
theorem resolve_up : d.resolve last (p.below [['.', '.']]).text = .ok s.parent := by
  obtain ⟨links, hbelow⟩ := resolve_below h.named h.resolve
  rw [hbelow last ⟨by simp, by simp, by simp⟩, follow_up h.searched, follow_nil]
  rfl

/-- A name of fair length is found, or it is absent. -/
theorem exists_or_absent (hn : Plain n) (hb : nameBytes n ≤ 255) :
    (∃ spot, d.resolve false (p.below [n]).text = .ok spot) ∨
      d.resolve false (p.below [n]).text =
        .error (.about (p.below [n]).text SystemError.notFound) := by
  by_cases hup : n = ['.', '.']
  · subst hup
    exact .inl ⟨_, h.resolve_up⟩
  · cases hm : entries.lookup n with
    | none => exact .inr (h.resolve_absent hn hup hb hm)
    | some node => exact .inl ⟨_, h.resolve_name hn hup hb hm⟩

end OpenAt

/-- An open folder that does not refuse is listed as it is. -/
theorem OpenAt.list (h : d.OpenAt p s entries none) :
    d.list p.text = .ok (entries.map fun e => ⟨e.1, d.entryIsFolder p.text e.1 e.2⟩) := by
  rw [Disk.list, h.resolve]
  simp only [h.node]

/-! ### What a listing asks about an entry -/

/-- What is no link is told by a listing to be a folder or not. -/
theorem entryIsFolder_of_linkless (h : node.isLinkless = true) (path : Text) :
    d.entryIsFolder path n node = .ok node.isFolder := by
  cases node with
  | file | folder => rfl
  | link => cases h

theorem steps_append_separator (path more : Text) :
    steps (path ++ '/' :: more) = steps path ++ steps more := by
  rw [steps, List.splitOn_append_cons_self, List.filter_append, steps, steps]

theorem steps_entryPath (path name : Text) : steps (entryPath path name) = steps path ++ steps name := by
  rw [entryPath]
  split
  case isTrue hlast =>
    obtain ⟨front, rfl⟩ := List.getLast?_eq_some_iff.1 hlast
    rw [List.append_assoc, List.singleton_append, steps_append_separator, steps_append_separator]
    exact congrArg (· ++ steps name) (List.append_nil _).symm
  case isFalse => exact steps_append_separator path name

theorem isAbsolute_entryPath {path : Text} (hne : path ≠ []) (name : Text) :
    isAbsolute (entryPath path name) = isAbsolute path := by
  obtain ⟨c, path, rfl⟩ := List.exists_cons_of_ne_nil hne
  rw [entryPath]
  split <;> rfl

/-- In the folder itself a name is looked up as it is without the dot. -/
theorem follow_dot_name (links : Nat) (spot : Spot) (n : Text) :
    d.follow last links spot [['.'], n] = d.follow last links spot [n] := by
  cases hnode : d.node? spot with
  | none => rw [follow_cons, follow_cons, hnode]
  | some node =>
    cases node with
    | file | link => rw [follow_cons, follow_cons, hnode]
    | folder entries listing search =>
      cases search with
      | some code => rw [follow_cons, follow_cons, hnode]
      | none => exact follow_dot ⟨entries, listing, hnode⟩

/-- The text by which a listing asks about an entry leads where the path of the entry does. An
error is about the text that was asked for. -/
theorem resolve_entryPath (hp : p.Named) (hn : Plain n) (last : Bool) :
    d.resolve last (entryPath p.text n) =
      (d.resolve last (p.below [n]).text).mapError fun e => .about (entryPath p.text n) e.code := by
  have hbase : base (entryPath p.text n) d.here = d.origin p := by
    rw [base, isAbsolute_entryPath (Path.text_ne_nil hp), ← base, base_text hp]
  have hsteps : steps (['/'].intercalate [n]) = [n] :=
    Path.steps_names (List.forall_mem_singleton.2 hn)
  rw [List.intercalate_singleton] at hsteps
  have hfollow : d.follow last linkLimit (d.origin p) (steps (entryPath p.text n)) =
      d.follow last linkLimit (d.origin p) (p.names ++ [n]) := by
    rw [steps_entryPath, hsteps, Path.steps_text hp]
    split
    case isTrue hdot =>
      subst hdot
      exact follow_dot_name _ _ _
    case isFalse => rfl
  have hbelow : p.below [n] ≠ ⟨.here, []⟩ := by simp [Path.below]
  rw [resolve, hbase, hfollow, resolve, base_text (hp.below hn), Path.steps_text (hp.below hn),
    if_neg hbelow]
  show _ = Except.mapError _ (Except.mapError _ (d.follow last linkLimit (d.origin p) (p.names ++ [n])))
  cases d.follow last linkLimit (d.origin p) (p.names ++ [n]) <;> rfl

/-- A listing tells a link to be a folder if its target can be told to be one or is missing. -/
theorem entryIsFolder_link (hp : p.Named) (hn : Plain n) (target : Text) :
    d.entryIsFolder p.text n (.link target) =
      match d.resolve true (p.below [n]).text with
      | .ok spot => .ok (d.isFolderAt spot)
      | .error e =>
        if e.code = SystemError.notFound then .ok false
        else .error (.about (entryPath p.text n) e.code) := by
  rw [entryIsFolder, resolve_entryPath hp hn]
  cases d.resolve true (p.below [n]).text <;> rfl

/-- What a listing tells of a link is told of its path. -/
theorem isFolder_of_listed_link {target : Text} {isFolder : Bool} (hp : p.Named) (hn : Plain n)
    (he : d.entryIsFolder p.text n (.link target) = .ok isFolder) :
    d.isFolder (p.below [n]).text = isFolder := by
  rw [entryIsFolder_link hp hn] at he
  rw [Disk.isFolder]
  cases hr : d.resolve true (p.below [n]).text with
  | ok spot =>
    rw [hr] at he
    exact Except.ok.inj he
  | error e =>
    rw [hr] at he
    dsimp only at he
    split at he
    · exact Except.ok.inj he
    · cases he

/-- What a listing tells of an entry is told of its path. -/
theorem OpenAt.isFolder_of_listed {isFolder : Bool} (h : d.OpenAt p s entries listing)
    (hn : Plain n) (hup : n ≠ ['.', '.']) (hb : nameBytes n ≤ 255)
    (hm : entries.lookup n = some node) (he : d.entryIsFolder p.text n node = .ok isFolder) :
    d.isFolder (p.below [n]).text = isFolder := by
  have hplace : ∀ links, (∀ target, node ≠ .link target) →
      d.follow true links s [n] = .ok (s.child n) := fun links hlink =>
    (follow_entry ⟨hb, hn.ne_dot, hup, entries, listing, h.node, hm⟩ hlink).trans (follow_nil _ _)
  have hstands : (∀ target, node ≠ .link target) →
      d.isFolder (p.below [n]).text = node.isFolder := by
    intro hlink
    obtain ⟨links, hbelow⟩ := resolve_below h.named h.resolve
    rw [Disk.isFolder, hbelow true hn, hplace links hlink]
    show (d.node? (s.child n)).any Node.isFolder = _
    rw [node?_child h.node, hm]
    rfl
  cases node with
  | file | folder =>
    rw [hstands nofun]
    exact Except.ok.inj he
  | link target => exact isFolder_of_listed_link h.named hn he

end Disk
end PathGlob
