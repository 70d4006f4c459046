import Mathlib
import PathGlob.Disk.Manifest
import PathGlob.Proofs.Disk.Clean
import PathGlob.Proofs.Pattern.Literal
import PathGlob.Proofs.Walk.Exactly
import PathGlob.Proofs.Walk.Pulled

/-! What a walk finds on a clean disk.

Nothing stands in the way there, so a walk finds an entry below its root exactly if the
names that lead to it can be shared out among the components (`mem_paths_iff`). Whether
folders are listed or names looked up, the children of a folder that come of it are all
that the live positions have a use for (`children_eq`). -/
namespace PathGlob

/-! ### Children of a folder -/

namespace Node

/-- Where names are different, an entry is found under its name. -/
theorem lookup_of_mem {entries : List (Text × Node)} (hn : (entries.map Prod.fst).Nodup)
    {e : Text × Node} (he : e ∈ entries) : entries.lookup e.1 = some e.2 := by
  induction entries with
  | nil => cases he
  | cons first rest ih =>
    rw [List.map_cons, List.nodup_cons] at hn
    rcases List.mem_cons.1 he with rfl | he
    · exact List.lookup_cons_self
    · have hne : (e.1 == first.1) = false :=
        beq_eq_false_iff_ne.2 fun h => hn.1 (h ▸ List.mem_map_of_mem he)
      rw [List.lookup_cons, hne]
      exact ih hn.2 he

end Node

namespace Live
variable {o : Options} {cs : List Pattern} {n : Text} {live : Live}

/-- A name is of use only where a component that may take the next name takes it. -/
theorem exists_pending (h : advance o cs n live ≠ []) :
    ∃ c ∈ live.pending cs, c.isRecursive = true ∨ c.covers o n = true := by
  obtain ⟨j, hj⟩ := List.exists_mem_of_ne_nil _ h
  obtain ⟨-, k, -, ⟨i, hi, ht⟩, -⟩ := (mem_advance o cs).1 hj
  obtain ⟨c, hc, htakes⟩ := (takes_iff o cs).1 ht
  exact ⟨c, List.mem_filterMap.2 ⟨i, hi, hc⟩, htakes.imp And.left fun h => h.2.2⟩

theorem advance_of_pending_nil (h : live.pending cs = []) : advance o cs n live = [] := by
  by_cases ha : advance o cs n live = []
  · exact ha
  · obtain ⟨c, hc, -⟩ := exists_pending ha
    rw [h] at hc
    cases hc

/-- Where nothing is live, nothing becomes so. -/
theorem foldl_advance_nil (names : List Text) :
    names.foldl (fun live name => advance o cs name live) [] = [] := by
  induction names with
  | nil => rfl
  | cons n names ih =>
    rw [List.foldl_cons, advance_of_pending_nil rfl]
    exact ih

end Live

namespace Plan
variable {p : Plan} {d : Disk} {folder : Path} {s : Spot} {entries : List (Text × Node)}
  {live : Live} {names : List Text}

/-- The entry of a folder under a name, as a child. -/
def childAt (folder : Path) (entries : List (Text × Node)) (n : Text) : Child :=
  ⟨folder.below [n], (entries.lookup n).any Node.isFolder, none⟩

theorem children_probe_clean (hd : d.Clean) (h : d.FolderAt folder s entries)
    (hn : ∀ n ∈ names, Askable n) : (probe d folder names).children =
      .ok ((names.filter fun n => (entries.lookup n).isSome).map (childAt folder entries)) := by
  rw [children_probe h.openAt hn]
  refine congrArg Except.ok (List.map_congr_left fun n hm => ?_)
  obtain ⟨hn', hsome⟩ := List.mem_filter.1 hm
  obtain ⟨node, hm⟩ := Option.isSome_iff_exists.1 hsome
  have hask := hn n hn'
  have hfolder : d.isFolder (folder.below [n]).text = node.isFolder :=
    h.isFolder_concat hd hask.plain hask.ne_up hask.bytes_le hm
  simp [foundAt, childAt, hm, hfolder]

theorem children_list (hd : d.Clean) (h : d.FolderAt folder s entries) :
    (d.list folder.text).map (fun es => es.map (childOf folder)) =
      .ok ((entries.map Prod.fst).map (childAt folder entries)) := by
  rw [h.list_eq hd]
  apply congrArg Except.ok
  show (entries.map _).map (childOf folder) = _
  rw [List.map_map, List.map_map]
  refine List.map_congr_left fun e he => ?_
  have hplain := (Text.plain_of_isEntryName ((h.names hd).2 e he).1).1
  show (⟨folder.join e.1, e.2.isFolder, none⟩ : Child) = _
  rw [folder.join_plain hplain]
  show _ = childAt folder entries e.1
  rw [childAt, Node.lookup_of_mem (h.names hd).1 he]
  rfl

/-- Where names are looked up, each that the live positions have a use for is asked for. -/
theorem mem_asked_of_advance (hprobes : p.probes live = true)
    {n : Text} (h : Live.advance p.options p.components n live ≠ []) : n ∈ p.asked live := by
  simp only [probes, Bool.and_eq_true] at hprobes
  obtain ⟨⟨-, hcase⟩, hliteral⟩ := hprobes
  obtain ⟨c, hc, htakes⟩ := Live.exists_pending h
  have hl := List.all_eq_true.1 hliteral c hc
  refine mem_asked.2 ⟨c, hc, ?_⟩
  rcases htakes with hr | hcov
  · rw [Pattern.isRecursive_of_isLiteral hl] at hr
    cases hr
  · exact (Pattern.eq_source_of_covers hcase hl hcov).symm

/-- The names of a folder that live positions have a use for are those of its children,
each once. -/
theorem children_eq (hd : d.Clean) (hp : ∀ c ∈ p.components, Askable c.source)
    (h : d.FolderAt folder s entries) (live : Live) :
    ∃ ns : List Text, ns.Nodup ∧ (∀ n ∈ ns, n ∈ entries.map Prod.fst) ∧
      (∀ n ∈ entries.map Prod.fst, Live.advance p.options p.components n live ≠ [] → n ∈ ns) ∧
      (p.read d folder live).children = .ok (ns.map (childAt folder entries)) := by
  cases hprobes : p.probes live with
  | true =>
    rw [read_of_probes hprobes]
    refine ⟨_, (p.nodup_asked live).filter _, fun n hn => ?_, fun n hn hadvance => ?_,
      children_probe_clean hd h (forall_asked hp)⟩
    · obtain ⟨node, hm⟩ := Option.isSome_iff_exists.1 (List.mem_filter.1 hn).2
      exact List.mem_map_of_mem (Node.mem_of_lookup hm)
    · obtain ⟨e, he, rfl⟩ := List.mem_map.1 hn
      refine List.mem_filter.2 ⟨mem_asked_of_advance hprobes hadvance, ?_⟩
      rw [Node.lookup_of_mem (h.names hd).1 he]
      rfl
  | false =>
    rw [read_of_lists hprobes]
    exact ⟨_, (h.names hd).1, fun n hn => hn, fun n hn _ => hn, children_list hd h⟩

/-! ### What is wanted -/

/-- The names lead down from the node to one that the plan wants with these live positions. -/
def Wants (p : Plan) (live : Live) (node : Node) (names : List Text) : Prop :=
  ∃ m, node.find? names = some m ∧ (p.foldersOnly = true → m.isFolder = true) ∧
    Live.isFinal p.components
      (names.foldl (fun live name => Live.advance p.options p.components name live) live) = true

theorem wants_nil {node : Node} : p.Wants live node [] ↔ p.accepts live node.isFolder = true := by
  rw [Wants, accepts, Node.find?]
  cases p.foldersOnly <;> cases hn : node.isFolder <;> simp [hn]

theorem wants_cons {n : Text} {listing search : Option Int} :
    p.Wants live (.folder entries listing search) (n :: names) ↔
      ∃ node, entries.lookup n = some node ∧
        p.Wants (Live.advance p.options p.components n live) node names := by
  simp only [Wants, Node.find?, List.foldl_cons]
  cases entries.lookup n <;> simp

/-- Where anything is wanted, something is live. -/
theorem ne_nil_of_wants {node : Node} (h : p.Wants live node names) : live ≠ [] := by
  obtain ⟨m, -, -, hl⟩ := h
  intro hnil
  rw [hnil, Live.foldl_advance_nil] at hl
  simp [Live.isFinal] at hl

theorem isFolder_of_descends {isFolder : Bool} (h : p.descends live isFolder = true) :
    isFolder = true :=
  (Bool.and_eq_true_iff.1 h).1

/-- Where the plan does not go on, nothing below is wanted. -/
theorem not_wants_cons {node : Node} {n : Text} (h : p.descends live node.isFolder = false) :
    ¬ p.Wants live node (n :: names) := by
  intro hw
  have ⟨m, hm, _⟩ := hw
  obtain ⟨entries, listing, search, child, rfl, -⟩ := Node.find?_cons_eq_some.1 hm
  have hpending : live.pending p.components = [] := by simpa [descends, Node.isFolder] using h
  obtain ⟨child, -, hbelow⟩ := wants_cons.1 hw
  exact ne_nil_of_wants hbelow (Live.advance_of_pending_nil hpending)

end Plan

/-! ### What each task finds -/

section
variable {p : Plan} {d : Disk} {folder path : Path} {s : Spot} {entries : List (Text × Node)}
  {live : Live} {node : Node} {k : Nat}

/-- At a path is found what is wanted of the node there and below it. -/
theorem exactly_arrive {reported : Bool}
    (hbelow : p.descends live node.isFolder = true → Finding.Exactly path
      (fun names => names ≠ [] ∧ p.Wants live node names)
      (Event.findings (Task.events p d k (.expand path live)))) :
    Finding.Exactly path (fun names => (names = [] → reported = true) ∧ p.Wants live node names)
      (Event.findings ((p.arrive reported path node.isFolder live).events ++
        (p.arrive reported path node.isFolder live).next.flatMap (Task.events p d k))) := by
  have hown : Finding.Exactly path
      (fun names => names = [] ∧ (reported = true ∧ p.accepts live node.isFolder = true))
      (Event.findings (p.arrive reported path node.isFolder live).events) := by
    rw [Outline.events_arrive, Outline.own]
    by_cases hc : reported = true ∧ p.accepts live node.isFolder = true
    · rw [if_pos (by simpa [Plan.accepts, and_assoc] using hc)]
      exact Finding.Exactly.self.congr fun names => (and_iff_left hc).symm
    · rw [if_neg (by simpa [Plan.accepts, and_assoc] using hc)]
      exact .nil fun names h => hc h.2
  have hrest : Finding.Exactly path (fun names => names ≠ [] ∧ p.Wants live node names)
      (Event.findings
        ((p.arrive reported path node.isFolder live).next.flatMap (Task.events p d k))) := by
    show Finding.Exactly path _ (Event.findings
      ((if p.descends live node.isFolder then [Task.expand path live] else []).flatMap _))
    cases hdown : p.descends live node.isFolder with
    | true =>
      rw [if_pos rfl, List.flatMap_singleton]
      exact hbelow hdown
    | false =>
      refine .nil fun names h => ?_
      obtain ⟨hne, hw⟩ := h
      cases names with
      | nil => exact hne rfl
      | cons n names => exact Plan.not_wants_cons hdown hw
  rw [Event.findings_append]
  refine (hown.append hrest fun names h h' => h'.1 h.1).congr fun names => ?_
  cases names with
  | nil => simp [Plan.wants_nil]
  | cons n names => simp

/-- Below a name is found what is wanted of the entry of the name. -/
theorem exactly_visit (hd : d.Clean) (hf : d.FolderAt folder s entries) {n : Text}
    (ih : ∀ {path s entries live}, d.FolderAt path s entries →
      Task.Ends p d k (.expand path live) → Finding.Exactly path
        (fun names => names ≠ [] ∧ p.Wants live (.folder entries none none) names)
        (Event.findings (Task.events p d k (.expand path live))))
    (hm : entries.lookup n = some node)
    (h : Task.Ends p d (k + 1) (.visit (Plan.childAt folder entries n) live)) :
    Finding.Exactly (folder.below [n])
      (p.Wants (Live.advance p.options p.components n live) node)
      (Event.findings (Task.events p d (k + 1) (.visit (Plan.childAt folder entries n) live))) := by
  have hrun : (Task.visit (Plan.childAt folder entries n) live).run p d =
      p.arrive true (folder.below [n]) node.isFolder
        (Live.advance p.options p.components n live) := by
    simp [Task.run, Plan.childAt, hm, Path.name, Path.below]
  change (∀ u ∈ ((Task.visit (Plan.childAt folder entries n) live).run p d).next, _) at h
  rw [hrun] at h
  rw [Task.events, hrun]
  refine (exactly_arrive fun hdown => ?_).congr fun names => and_iff_right fun _ => rfl
  obtain ⟨inner, rfl⟩ := Node.eq_folder (hf.isClean hd (Node.mem_of_lookup hm))
    (Plan.isFolder_of_descends hdown)
  exact ih (hf.child hd hm) (h _ (Task.mem_next_arrive hdown))

/-- What is found in a folder is what is found at its children. -/
theorem findings_expand {children : List Child} (h : (p.read d folder live).children = .ok children) :
    Event.findings (Task.events p d (k + 1) (.expand folder live)) =
      children.flatMap fun child => Event.findings (Task.events p d k (.visit child live)) := by
  have hrun : (Task.expand folder live).run p d =
      { calls := (p.read d folder live).calls, next := children.map (.visit · live) } := by
    simp only [Task.run, h]
  rw [Task.events, hrun, Turn.events, Option.map_none, Option.toList_none, List.append_nil,
    Event.findings_append, Event.findings_calls, List.nil_append, List.flatMap_map,
    Event.findings_flatMap]

theorem ends_visit {children : List Child} {child : Child}
    (h : Task.Ends p d (k + 1) (.expand folder live))
    (hr : (p.read d folder live).children = .ok children) (hc : child ∈ children) :
    Task.Ends p d k (.visit child live) := by
  refine h _ ?_
  simp only [Task.run, hr]
  exact List.mem_map_of_mem hc

/-- Below a folder is found what is wanted of it there. -/
theorem exactly_expand (hd : d.Clean) (hp : ∀ c ∈ p.components, Plan.Askable c.source)
    (hf : d.FolderAt folder s entries) (h : Task.Ends p d k (.expand folder live)) :
    Finding.Exactly folder
      (fun names => names ≠ [] ∧ p.Wants live (.folder entries none none) names)
      (Event.findings (Task.events p d k (.expand folder live))) := by
  -- From a folder to a folder in it there are two tasks, so the induction is a strong one.
  induction k using Nat.strongRecOn generalizing folder s entries live with
  | ind k ih =>
    cases k with
    | zero => exact h.elim
    | succ k =>
      obtain ⟨ns, hns, hentries, huse, hchildren⟩ := Plan.children_eq hd hp hf live
      rw [findings_expand hchildren, List.flatMap_map]
      have hvisit : ∀ n ∈ ns, Finding.Exactly (folder.below [n])
          (fun rest => ∃ node, entries.lookup n = some node ∧
            p.Wants (Live.advance p.options p.components n live) node rest)
          (Event.findings (Task.events p d k (.visit (Plan.childAt folder entries n) live))) := by
        intro n hn
        obtain ⟨e, he, rfl⟩ := List.mem_map.1 (hentries n hn)
        have hm := Node.lookup_of_mem (hf.names hd).1 he
        have hends := ends_visit h hchildren (List.mem_map_of_mem hn)
        cases k with
        | zero => exact hends.elim
        | succ k =>
          apply (exactly_visit hd hf (fun hf' h' => ih k (by omega) hf' h') hm hends).congr
          simp [hm]
      refine (Finding.Exactly.flatMap hns hvisit).congr fun names => ?_
      constructor
      · intro hfound
        obtain ⟨n, rest, rfl, -, hw⟩ := hfound
        exact ⟨List.cons_ne_nil _ _, Plan.wants_cons.2 hw⟩
      · intro hwanted
        obtain ⟨hne, hw⟩ := hwanted
        obtain ⟨n, rest, rfl⟩ := List.exists_cons_of_ne_nil hne
        obtain ⟨node, hm, hw⟩ := Plan.wants_cons.1 hw
        refine ⟨n, rest, rfl, ?_, node, hm, hw⟩
        have hn : n ∈ entries.map Prod.fst := List.mem_map_of_mem (Node.mem_of_lookup hm)
        exact huse n hn (Plan.ne_nil_of_wants hw)

/-- From the root is found what is wanted of the node there and below it. -/
theorem exactly_start (hd : d.Clean) (hp : p.Named)
    (hask : ∀ c ∈ p.components, Plan.Askable c.source) (h : Task.Ends p d k .start) :
    Finding.Exactly p.root
      (fun names => (names = [] → p.includesRoot = true) ∧ ∃ s node,
        d.resolve true p.root.text = .ok s ∧ d.node? s = some node ∧
          p.Wants (Live.start p.components) node names)
      (Event.findings (Task.events p d k .start)) := by
  cases k with
  | zero => exact h.elim
  | succ k =>
    rw [Task.events]
    cases hr : d.resolve true p.root.text with
    | error e =>
      have hexists : d.exists? p.root.text = false := by
        unfold Disk.exists?
        cases hr' : d.resolve false p.root.text with
        | error e => rfl
        | ok s => cases hr.symm.trans (hd.resolve_last hr')
      simp only [Task.run, hexists]
      exact .nil fun names h => by simp at h
    | ok s =>
      have hexists : d.exists? p.root.text = true := by
        unfold Disk.exists?
        rw [hd.resolve_last hr]
        rfl
      obtain ⟨node, hn⟩ := Option.isSome_iff_exists.1 (hd.isSome_node hp.root hr)
      have hfolder : d.isFolder p.root.text = node.isFolder := by
        simp [Disk.isFolder, hr, Disk.isFolderAt, hn]
      change (∀ u ∈ (Task.start.run p d).next, _) at h
      simp only [Task.run, hexists, if_true, hfolder] at h ⊢
      refine (exactly_arrive fun hdown => ?_).congr fun names => by simp [hn]
      obtain ⟨links, hl⟩ := Disk.reaches_of_resolve hp.root hr
      have hclean := Node.of_all (hl.holds.all_node hd.nodes hn)
      obtain ⟨entries, rfl⟩ := Node.eq_folder hclean (Plan.isFolder_of_descends hdown)
      exact exactly_expand hd hask ⟨hp.root, hr, hn⟩ (h _ (Task.mem_next_arrive hdown))

end

/-! ### What a walk finds -/

/-- The names lead from the root down to an entry that the plan asks for. -/
structure Plan.Finds (p : Plan) (d : Disk) (names : List Text) : Prop where
  stands : ∃ s top node, d.resolve true p.root.text = .ok s ∧ d.node? s = some top ∧
    top.find? names = some node ∧ (p.source.getLast? = some '/' → node.isFolder = true)
  splits : Splits p.options p.components names
  root : names = [] → p.source ≠ [] ∧ (p.root ≠ ⟨.here, []⟩ ∨ p.components = [])

/-- **On a clean disk a walk finds each path of the pattern once, and nothing else.** -/
theorem mem_paths_iff {o : Options} {source : Text} {p : Plan} {d : Disk}
    (hp : Plan.ofSource o source = .ok p) (hd : d.Clean)
    (hc : ∀ c ∈ p.components, c.source ≠ ['.', '.'] ∧ Disk.nameBytes c.source ≤ 255) :
    p.Parts o source ∧ (∀ f ∈ p.findings d, f.isSuccess = true) ∧
      (Finding.paths (p.findings d)).Nodup ∧ ∀ path, path ∈ Finding.paths (p.findings d) ↔
        ∃ names, p.Finds d names ∧ path = p.root.below names := by
  have hparts := Plan.parts_of_ofSource hp
  have hnamed := Plan.named_of_ofSource hp
  have hends : Task.Ends p d (p.room d) .start := Task.ends_start hd.wellNamed hnamed
  have hask : ∀ c ∈ p.components, Plan.Askable c.source := fun c hm =>
    ⟨hnamed.components c hm, (hc c hm).1, (hc c hm).2⟩
  have hexactly : Finding.Exactly p.root (p.Finds d) (p.findings d) := by
    rw [Plan.findings, Plan.events_eq hends]
    refine (exactly_start hd hnamed hask hends).congr fun names => ?_
    constructor
    · intro h
      obtain ⟨hroot, s, top, hr, hn, node, hf, hfolders, hl⟩ := h
      have hsplits := (Live.isFinal_after_iff _ _).1 hl
      refine ⟨⟨s, top, node, hr, hn, hf, fun hlast => ?_⟩, hsplits, fun hnil => ?_⟩
      · by_cases hnames : Path.namesOf source = []
        · obtain ⟨front, hfront, hempty, -⟩ := hparts.names
          rw [hnames, List.map_eq_nil_iff, List.append_eq_nil_iff] at hempty
          rw [hempty.2] at hsplits
          cases hsplits
          obtain rfl := Option.some.inj hf
          exact hd.isFolder_of_names_nil (by rw [hfront, hempty.1]; rfl) hr hn
        · exact hfolders (hparts.foldersOnly_iff.2 ⟨hnames, hparts.source_eq ▸ hlast⟩)
      · simpa [Plan.includesRoot] using hroot hnil
    · intro h
      obtain ⟨⟨s, top, node, hr, hn, hf, hlast⟩, hsplits, hroot⟩ := h
      refine ⟨fun hnil => by simpa [Plan.includesRoot] using hroot hnil, s, top, hr, hn, node, hf,
        fun hfolders => hlast ?_, (Live.isFinal_after_iff _ _).2 hsplits⟩
      rw [hparts.source_eq]
      exact (hparts.foldersOnly_iff.1 hfolders).2
  exact ⟨hparts, hexactly.all_success, hexactly.nodup, hexactly.mem_iff⟩

/-- The recursive component takes two names, hidden ones too, the next component one more:
`b` is found three folders down. -/
theorem mem_paths_iff_below :
    ∃ p, Plan.ofSource {} "**/*/b".toList = .ok p ∧
      ⟨.here, ["a".toList, ".c".toList, "d".toList, "b".toList]⟩ ∈
        Finding.paths (p.findings (.ofLines ["a/.c/d/b".toList, "b".toList])) := by
  have hdeep : Token.ofSource "**".toList = .ok [.deep] := by cbv
  have hrun : Token.ofSource "*".toList = .ok [.run] := by cbv
  have hb : Token.ofSource "b".toList = .ok [.char 'b'] := by cbv
  have hw : Token.ofSource "**/*/b".toList = .ok [.deep, .run, .char '/', .char 'b'] := by cbv
  have hp : Plan.anchored {} "**/*/b".toList = .ok
      { source := "**/*/b".toList
        root := ⟨.here, []⟩
        components := [⟨_, _, hdeep⟩, ⟨_, _, hrun⟩, ⟨_, _, hb⟩]
        foldersOnly := false
        options := {} } :=
    Plan.anchored_eq_ok.2 ⟨⟨_, Pattern.compile_eq_ok hw⟩, rfl, rfl⟩
  have hplan := Plan.ofSource_eq_ok.2 ⟨_, hp, rfl⟩
  have hd : (Disk.ofLines ["a/.c/d/b".toList, "b".toList]).Clean := ⟨by cbv, by cbv, trivial⟩
  have hc : ∀ c ∈ ([⟨_, _, hdeep⟩, ⟨_, _, hrun⟩, ⟨_, _, hb⟩] : List Pattern),
      c.source ≠ ['.', '.'] ∧ Disk.nameBytes c.source ≤ 255 := by
    refine List.forall_mem_cons.2 ⟨⟨by simp, by cbv⟩, ?_⟩
    exact List.forall_mem_cons.2
      ⟨⟨by simp, by cbv⟩, List.forall_mem_singleton.2 ⟨by simp, by cbv⟩⟩
  obtain ⟨-, -, -, hmem⟩ := mem_paths_iff hplan hd hc
  refine ⟨_, hplan, (hmem _).2 ⟨["a".toList, ".c".toList, "d".toList, "b".toList],
    ⟨?_, ?_, fun h => absurd h (List.cons_ne_nil _ _)⟩, rfl⟩⟩
  · refine ⟨.rooted [], (Disk.ofLines ["a/.c/d/b".toList, "b".toList]).root, .file, ?_, ?_, ?_, ?_⟩
    · cbv
    · rfl
    · cbv
    · show "**/*/b".toList.getLast? = some '/' → _
      decide
  · refine .more rfl rfl (.more rfl rfl (.leave rfl ?_))
    exact .plain rfl (by cbv) (.plain rfl (by cbv) .nil)

end PathGlob
