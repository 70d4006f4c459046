import PathGlob.Proofs.Disk.Opened
import PathGlob.Proofs.Lists
import PathGlob.Proofs.Walk.Planned
import PathGlob.Walk.Children

/-! The children that come of reading a folder.

Each is the folder with one more name: the name of an entry when the folder was listed
(`mem_list`), a name that was asked for and found when names were looked up
(`mem_probe`). A folder that has children is there (`mem_read`). No name comes up twice
(`read_names`). In a folder that lets itself be searched, the names that come up of those
asked for are just the names of its entries (`children_probe`). -/
namespace PathGlob.Plan
variable {p : Plan} {d : Disk} {folder : Path} {live : Live} {children : List Child} {child : Child}

theorem path_childOf (folder : Path) (e : Disk.Entry) : (childOf folder e).path = folder.join e.name := by
  unfold childOf
  split <;> rfl

/-! ### Names that are asked for -/

/-- The names that are looked up in a folder with these live positions. -/
def asked (p : Plan) (live : Live) : List Text :=
  ((live.pending p.components).map Pattern.source).eraseDups

theorem read_of_probes (h : p.probes live = true) : p.read d folder live = probe d folder (p.asked live) :=
  if_pos h

theorem read_of_lists (h : p.probes live = false) : p.read d folder live =
    ⟨[.list folder.text], (d.list folder.text).map fun entries => entries.map (childOf folder)⟩ := by
  rw [read, h]
  rfl

theorem mem_asked {n : Text} : n ∈ p.asked live ↔ ∃ c ∈ live.pending p.components, c.source = n := by
  rw [asked, List.mem_eraseDups, List.mem_map]

theorem nodup_asked (p : Plan) (live : Live) : (p.asked live).Nodup := nodup_eraseDups _

theorem mem_of_pending {c : Pattern} (h : c ∈ live.pending p.components) : c ∈ p.components := by
  obtain ⟨i, -, hi⟩ := List.mem_filterMap.1 h
  exact List.mem_of_getElem? hi

/-- The names that are asked for are sources of components. -/
theorem forall_asked {P : Text → Prop} (h : ∀ c ∈ p.components, P c.source) :
    ∀ n ∈ p.asked live, P n := by
  intro n hn
  obtain ⟨c, hc, rfl⟩ := mem_asked.1 hn
  exact h c (mem_of_pending hc)

theorem plain_of_asked (hp : p.Named) {n : Text} (hn : n ∈ p.asked live) : Plain n :=
  forall_asked hp.components n hn

/-- A name that is looked up is found, absent, or the obstacle that ends the reading. -/
theorem children_probe_cons {name : Text} {names : List Text} :
    (probe d folder (name :: names)).children = .ok children ↔
      (∃ rest, (probe d folder names).children = .ok rest ∧
        ∃ s, d.resolve false (folder.join name).text = .ok s ∧
          children = ⟨folder.join name, d.isFolder (folder.join name).text, none⟩ :: rest) ∨
      ((∃ e, d.resolve false (folder.join name).text = .error e ∧ e.isAbsence = true) ∧
        (probe d folder names).children = .ok children) := by
  rw [probe]
  cases d.resolve false (folder.join name).text with
  | ok s =>
    show Except.map _ _ = _ ↔ _
    rw [map_eq_ok]
    constructor
    · intro hq
      obtain ⟨rest, hr, rfl⟩ := hq
      exact .inl ⟨rest, hr, s, rfl, rfl⟩
    · intro hq
      rcases hq with ⟨rest, hr, -, -, rfl⟩ | ⟨⟨e, he, -⟩, -⟩
      · exact ⟨rest, hr, rfl⟩
      · cases he
  | error e =>
    by_cases h : e.isAbsence = true
    · simp [h]
    · simp [h]

theorem mem_probe {names : List Text} (h : (probe d folder names).children = .ok children)
    (hc : child ∈ children) : ∃ name ∈ names, child.path = folder.join name ∧
      (∃ s, d.resolve false (folder.join name).text = .ok s) := by
  induction names generalizing children with
  | nil =>
    cases h
    cases hc
  | cons name names ih =>
    rcases children_probe_cons.1 h with ⟨rest, hr, s, hs, rfl⟩ | ⟨-, hr⟩
    · rcases List.mem_cons.1 hc with rfl | hc
      · exact ⟨name, List.mem_cons_self, rfl, s, hs⟩
      · obtain ⟨name', hn, hrest⟩ := ih hr hc
        exact ⟨name', List.mem_cons_of_mem _ hn, hrest⟩
    · obtain ⟨name', hn, hrest⟩ := ih hr hc
      exact ⟨name', List.mem_cons_of_mem _ hn, hrest⟩

/-- What was found of the names that are asked for is a name below the folder. -/
theorem exists_below (hp : p.Named) (h : (probe d folder (p.asked live)).children = .ok children)
    (hc : child ∈ children) :
    ∃ n ∈ p.asked live, Plain n ∧ child.path = folder.below [n] ∧
      ∃ s, d.resolve false (folder.below [n]).text = .ok s := by
  obtain ⟨n, hn, hpath, hs⟩ := mem_probe h hc
  have hplain := plain_of_asked hp hn
  rw [folder.join_plain hplain] at hpath hs
  exact ⟨n, hn, hplain, hpath, hs⟩

/-- Nothing is ever wrong with a name that was found. What cannot be told to be a folder is
taken to be none. -/
theorem of_mem_probe {names : List Text} (h : (probe d folder names).children = .ok children)
    (hc : child ∈ children) : child.error = none ∧ child.isFolder = d.isFolder child.path.text := by
  induction names generalizing children with
  | nil =>
    cases h
    cases hc
  | cons name names ih =>
    rcases children_probe_cons.1 h with ⟨rest, hr, s, -, rfl⟩ | ⟨-, hr⟩
    · rcases List.mem_cons.1 hc with rfl | hc
      · exact ⟨rfl, rfl⟩
      · exact ih hr hc
    · exact ih hr hc

/-- Where looking names up meets no obstacle, each is found or absent. -/
theorem exists_of_probe {name : Text} {names : List Text}
    (h : (probe d folder names).children = .ok children) (hn : name ∈ names) :
    (∃ child ∈ children, child.path = folder.join name) ∨
      ∃ e, d.resolve false (folder.join name).text = .error e ∧ e.isAbsence = true := by
  induction names generalizing children with
  | nil => cases hn
  | cons first names ih =>
    rcases children_probe_cons.1 h with ⟨rest, hr, s, -, rfl⟩ | ⟨habsent, hr⟩
    · rcases List.mem_cons.1 hn with rfl | hn
      · exact .inl ⟨_, List.mem_cons_self, rfl⟩
      · exact (ih hr hn).imp_left fun ⟨child, hc, hpath⟩ => ⟨child, List.mem_cons_of_mem _ hc, hpath⟩
    · rcases List.mem_cons.1 hn with rfl | hn
      · exact .inr habsent
      · exact ih hr hn

/-- The children of a listed folder are its entries, in their order. -/
theorem paths_list (h : (d.list folder.text).map (fun es => es.map (childOf folder)) = .ok children) :
    ∃ s entries search, d.resolve true folder.text = .ok s ∧
      d.node? s = some (.folder entries none search) ∧
      children.map Child.path = (entries.map Prod.fst).map folder.join := by
  obtain ⟨es, hes, rfl⟩ := map_eq_ok.1 h
  obtain ⟨s, entries, search, hs, hn, rfl⟩ := Disk.exists_of_list hes
  refine ⟨s, entries, search, hs, hn, ?_⟩
  rw [List.map_map, List.map_map, List.map_map]
  exact List.map_congr_left fun e _ => path_childOf _ _

theorem mem_list (h : (d.list folder.text).map (fun es => es.map (childOf folder)) = .ok children)
    (hc : child ∈ children) :
    ∃ s entries search, d.resolve true folder.text = .ok s ∧
      d.node? s = some (.folder entries none search) ∧
      ∃ e ∈ entries, child.path = folder.join e.1 := by
  obtain ⟨s, entries, search, hs, hn, hpaths⟩ := paths_list h
  have hmem := List.mem_map_of_mem (f := Child.path) hc
  rw [hpaths, List.map_map] at hmem
  obtain ⟨e, he, hpath⟩ := List.mem_map.1 hmem
  exact ⟨s, entries, search, hs, hn, e, he, hpath.symm⟩

/-- A child is a text joined to its folder, on any tree. -/
theorem exists_join (h : (p.read d folder live).children = .ok children) (hc : child ∈ children) :
    ∃ s, child.path = folder.join s := by
  cases hprobes : p.probes live with
  | true =>
    rw [read_of_probes hprobes] at h
    obtain ⟨s, -, hpath, -⟩ := mem_probe h hc
    exact ⟨s, hpath⟩
  | false =>
    rw [read_of_lists hprobes] at h
    obtain ⟨-, -, -, -, -, e, -, hpath⟩ := mem_list h hc
    exact ⟨e.1, hpath⟩

/-- A child is a name below its folder, and the folder is there. The name of the folder
above is one that was asked for. -/
theorem mem_read (hd : d.WellNamed) (hp : p.Named) (hf : folder.Named)
    (h : (p.read d folder live).children = .ok children) (hc : child ∈ children) :
    ∃ n links spot, Plain n ∧ child.path = { folder with names := folder.names ++ [n] } ∧
      d.Reaches true folder links spot ∧
      (n = ['.', '.'] →
        p.probes live = true ∧ ∃ c ∈ live.pending p.components, c.source = n) := by
  cases hprobes : p.probes live with
  | true =>
    rw [read_of_probes hprobes] at h
    obtain ⟨n, hn, hplain, hpath, s, hs⟩ := exists_below hp h hc
    obtain ⟨links', hl⟩ := Disk.reaches_of_resolve (hf.concat hplain) hs
    obtain ⟨links, spot, hl, -⟩ := Disk.reaches_of_concat hl
    exact ⟨n, links, spot, hplain, hpath, hl, fun _ => ⟨rfl, mem_asked.1 hn⟩⟩
  | false =>
    rw [read_of_lists hprobes] at h
    obtain ⟨s, entries, search, hs, hn, e, he, hpath⟩ := mem_list h hc
    obtain ⟨links, hl⟩ := Disk.reaches_of_resolve hf hs
    have hnames : Node.hasEntryNames (.folder entries none search) = true :=
      Node.of_all (hl.holds.all_node hd hn)
    obtain ⟨hplain, hup⟩ := Text.plain_of_isEntryName (List.all_eq_true.1 hnames e he)
    exact ⟨e.1, links, s, hplain, folder.join_plain hplain ▸ hpath, hl, fun h => absurd h hup⟩

/-! ### Looking names up -/

/-- A name that can be asked for without an error where the folder lets itself be searched. -/
structure Askable (n : Text) : Prop where
  plain : Plain n
  ne_up : n ≠ ['.', '.']
  bytes_le : Disk.nameBytes n ≤ 255

/-- What comes of a name that is found. -/
def foundAt (d : Disk) (folder : Path) (n : Text) : Child :=
  ⟨folder.below [n], d.isFolder (folder.below [n]).text, none⟩

theorem children_probe {s : Spot} {entries : List (Text × Node)} {listing : Option Int}
    {names : List Text} (h : d.OpenAt folder s entries listing) (hn : ∀ n ∈ names, Askable n) :
    (probe d folder names).children =
      .ok ((names.filter fun n => (entries.lookup n).isSome).map (foundAt d folder)) := by
  induction names with
  | nil => rfl
  | cons n names ih =>
    obtain ⟨hask, hn⟩ := List.forall_mem_cons.1 hn
    have hjoin : folder.join n = folder.below [n] := folder.join_plain hask.plain
    rw [children_probe_cons, hjoin]
    cases hm : entries.lookup n with
    | none =>
      rw [List.filter_cons_of_neg (by simp [hm])]
      exact .inr ⟨⟨_, h.resolve_absent hask.plain hask.ne_up hask.bytes_le hm, rfl⟩, ih hn⟩
    | some node =>
      rw [List.filter_cons_of_pos (by simp [hm])]
      exact .inl ⟨_, ih hn, _, h.resolve_name hask.plain hask.ne_up hask.bytes_le hm, rfl⟩

/-- Names are looked up in order, until one is an obstacle. -/
theorem calls_probe (d : Disk) (folder : Path) (names : List Text) :
    (probe d folder names).calls.Sublist ((names.map folder.join).map fun q => .lookup q.text) := by
  induction names with
  | nil => exact List.Sublist.refl []
  | cons n names ih =>
    rw [probe, List.map_cons, List.map_cons]
    cases d.resolve false (folder.join n).text with
    | ok s => exact ih.cons_cons _
    | error e =>
      show Reading.calls (if e.isAbsence then _ else _) |>.Sublist _
      split
      · exact ih.cons_cons _
      · exact (List.nil_sublist _).cons_cons _

theorem paths_probe {names : List Text} (h : (probe d folder names).children = .ok children) :
    (children.map Child.path).Sublist (names.map folder.join) := by
  induction names generalizing children with
  | nil =>
    cases h
    exact List.Sublist.refl []
  | cons n names ih =>
    rw [List.map_cons]
    rcases children_probe_cons.1 h with ⟨rest, hr, s, hs, rfl⟩ | ⟨-, hr⟩
    · exact (ih hr).cons_cons _
    · exact (ih hr).cons _

/-- Reading a folder lists it, or asks about different names below it; and different names
have the children that come of it. -/
theorem read_names (hd : d.Tidy) (hp : p.Named) (hf : folder.Named) (live : Live) :
    ∃ ns : List Text, ns.Nodup ∧ (∀ n ∈ ns, Plain n) ∧
      ((p.read d folder live).calls = [.list folder.text] ∨
        (p.read d folder live).calls.Sublist
          ((ns.map fun n => folder.below [n]).map fun q => .lookup q.text)) ∧
      ∀ children, (p.read d folder live).children = .ok children →
        (children.map Child.path).Sublist (ns.map fun n => folder.below [n]) := by
  have hjoin : ∀ {ns : List Text}, (∀ n ∈ ns, Plain n) →
      ns.map folder.join = ns.map fun n => folder.below [n] :=
    fun hplain => List.map_congr_left fun n hn => folder.join_plain (hplain n hn)
  cases hprobes : p.probes live with
  | true =>
    have hplain : ∀ n ∈ p.asked live, Plain n := forall_asked hp.components
    rw [read_of_probes hprobes]
    refine ⟨_, p.nodup_asked live, hplain, .inr ?_, fun children h => ?_⟩
    · rw [← hjoin hplain]
      exact calls_probe d folder _
    · rw [← hjoin hplain]
      exact paths_probe h
  | false =>
    rw [read_of_lists hprobes]
    cases h : (d.list folder.text).map fun es => es.map (childOf folder) with
    | error e => exact ⟨[], .nil, nofun, .inl rfl, nofun⟩
    | ok children =>
      obtain ⟨s, entries, search, hs, hn, hpaths⟩ := paths_list h
      obtain ⟨links, hl⟩ := Disk.reaches_of_resolve hf hs
      obtain ⟨hnodup, hnames⟩ := Node.isTidy_folder (Node.of_all (hl.holds.all_node hd hn))
      have hplain : ∀ n ∈ entries.map Prod.fst, Plain n := by
        intro n hn
        obtain ⟨e, he, rfl⟩ := List.mem_map.1 hn
        exact (Text.plain_of_isEntryName (hnames e he)).1
      refine ⟨_, hnodup, hplain, .inl rfl, fun others ho => ?_⟩
      cases ho
      exact hpaths.trans (hjoin hplain) ▸ List.Sublist.refl _

end PathGlob.Plan
