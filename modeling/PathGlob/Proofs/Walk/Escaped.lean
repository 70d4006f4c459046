import Mathlib
import PathGlob.Proofs.Pattern.Escaped
import PathGlob.Proofs.Walk.Entered
import PathGlob.Proofs.Walk.Probed

/-! Walks for an escaped path.

Escaping leaves separators alone, so an escaped path is cut into its escaped names. Where case
matters each of them is a component that takes one name (`Pattern.Spells`). How that name is come
by differs: the names in front that have nothing to escape are joined to the root, the others of
that kind are looked up, and a name with something to escape is found in a listing. In either of
the last two ways a walk does as if it started at the name (`Task.findings_spelled`), so it finds
what there is at the end of all names and nothing else (`findings_escape`). -/
namespace PathGlob

/-! ### Components that take one name -/

namespace Pattern
variable {o : Options} {c : Pattern} {n m : Text}

theorem tokens_of_escape (hc : c.source = escape n) :
    c.tokens = n.map fun c => (Item.escaped c).token := by
  obtain ⟨p, hp, htokens⟩ := compile_escape n
  rw [← hc, c.compile_source] at hp
  rw [Except.ok.inj hp, htokens]

theorem isRecursive_escape (hc : c.source = escape n) : c.isRecursive = false := by
  rw [isRecursive, tokens_of_escape hc, List.any_map, List.any_eq_false]
  intro d _
  simpa using (Item.standsFor_escaped d).ne_wildcard.2

theorem covers_iff_eq (hcase : o.caseSensitive = true) (hc : c.source = escape n) :
    c.covers o m = true ↔ m = n := by
  rw [covers_escape o (tokens_of_escape hc), hcase, Text.forall₂_same_sensitive]

theorem escape_of_isLiteral (hc : c.source = escape n) (hl : c.isLiteral = true) : escape n = n :=
  escape_eq_self ((isLiteral_escape (tokens_of_escape hc)).1 hl)

/-- The name of the folder above has nothing to escape. -/
theorem ne_up_of_escape (hc : c.source = escape n) (hl : c.isLiteral = false) : n ≠ ['.', '.'] := by
  rintro rfl
  have hplain : c.isLiteral = true := (isLiteral_escape (tokens_of_escape hc)).2 (by simp [isMeta])
  rw [hl] at hplain
  cases hplain

theorem escape_intercalate (names : List Text) :
    escape (['/'].intercalate names) = ['/'].intercalate (names.map escape) := by
  induction names with
  | nil => rfl
  | cons n names ih =>
    cases names with
    | nil => rw [List.map_singleton, List.intercalate_singleton, List.intercalate_singleton]
    | cons m names =>
      rw [List.map_cons] at ih
      simp only [List.map_cons, List.intercalate_cons_cons, escape_append, ih]
      rfl

theorem plain_escape (hn : Plain n) : Plain (escape n) := by
  refine ⟨fun hq => hn.ne_nil (escape_injective hq), fun hq => hn.ne_dot (escape_injective hq),
    fun hmem => ?_⟩
  obtain ⟨d, hd, hsep⟩ := List.mem_flatMap.1 hmem
  have heq : d = '/' := by
    split at hsep <;> simp at hsep <;> exact hsep.symm
  exact hn.not_mem (heq ▸ hd)

/-- An escaped path is a path of escaped names. -/
theorem escape_text (path : Path) :
    escape path.text = Path.text ⟨path.anchor, path.names.map escape⟩ := by
  have hanchor : escape path.anchor.text = path.anchor.text := by cases path.anchor <;> rfl
  rw [Path.text, Path.text, List.isEmpty_map]
  split
  · rfl
  · rw [escape_append, hanchor, escape_intercalate]

end Pattern

/-! ### One name -/

section
variable {p : Plan} {d : Disk} {c : Pattern} {cs : List Pattern} {n : Text} {s : Spot}
  {entries : List (Text × Node)} {k : Nat} (hcase : p.options.caseSensitive = true)
  (hc : p.components = c :: cs) (hsource : c.source = Pattern.escape n)
include hcase hc hsource

/-- A name that is not looked up is found in the listing, if it is there. -/
theorem findings_listed_name (hd : d.Tidy) (hlinks : d.Linkless)
    (hopen : d.OpenAt p.root s entries none) (hn : Plain n) (hb : Disk.nameBytes n ≤ 255)
    (hl : c.isLiteral = false) (hne : p.source ≠ []) :
    Event.findings (Task.events p d (k + 2) (.expand p.root (Live.start p.components))) =
      Event.findings (Task.events (p.rebase (p.root.below [n]) cs) d (k + 1) .start) := by
  have hr := Pattern.isRecursive_escape hsource
  have hup := Pattern.ne_up_of_escape hsource hl
  have hprobes : p.probes (Live.start p.components) = false := by
    have hpending : (Live.start p.components).pending p.components = [c] := by
      rw [hc, Live.start_cons hr]
      rfl
    rw [Plan.probes, hpending, List.all_cons, hl, Bool.false_and, Bool.and_false]
  have hchildren : (p.read d p.root (Live.start p.components)).children = .ok (entries.map fun e =>
      Plan.childOf p.root ⟨e.1, d.entryIsFolder p.root.text e.1 e.2⟩) := by
    rw [Plan.read_of_lists hprobes, hopen.list]
    exact congrArg Except.ok List.map_map
  obtain ⟨hnodup, hnames⟩ := hopen.entryNames hd
  have hunused : ∀ e ∈ entries, e.1 ≠ n → Event.findings (Task.events p d (k + 1)
      (.visit (Plan.childOf p.root ⟨e.1, d.entryIsFolder p.root.text e.1 e.2⟩)
        (Live.start p.components))) = [] := by
    intro e he hne
    have htold := Disk.entryIsFolder_of_linkless (hopen.all_entry hlinks he) p.root.text (d := d)
      (n := e.1)
    have hcov : c.covers p.options e.1 = false :=
      Bool.eq_false_iff.2 fun h => hne ((Pattern.covers_iff_eq hcase hsource).1 h)
    refine Task.findings_unused (fun _ => ?_) ?_
    · rw [htold]
      rfl
    · rw [Plan.path_childOf, p.root.join_plain (hnames e he).1]
      have hname : Path.name { p.root with names := p.root.names ++ [e.1] } = e.1 :=
        p.root.name_below e.1
      rw [hname, Live.uses, hc, Live.advance_start_eq_nil hr hcov]
      rfl
  rw [findings_expand hchildren, List.flatMap_map, flatMap_lookup hnodup hunused]
  cases hm : entries.lookup n with
  | none =>
    have hexists : d.exists? (p.root.below [n]).text = false := by
      rw [Disk.exists?, hopen.resolve_absent hn hup hb hm]
      rfl
    have hrun : Task.start.run (p.rebase (p.root.below [n]) cs) d = {} :=
      if_neg (by simp [hexists, Plan.rebase])
    rw [Task.events, hrun]
    rfl
  | some node =>
    have hexists : d.exists? (p.root.below [n]).text = true := by
      rw [Disk.exists?, hopen.resolve_name hn hup hb hm]
      rfl
    have htold : (Plan.childOf p.root ⟨n, d.entryIsFolder p.root.text n node⟩).error = none := by
      rw [Disk.entryIsFolder_of_linkless (hopen.all_entry hlinks (Node.mem_of_lookup hm))]
      rfl
    have hcov := (Pattern.covers_iff_eq hcase hsource).2 rfl
    show Event.findings (Task.events p d (k + 1) (.visit (Plan.childOf p.root ⟨n, _⟩) _)) = _
    rw [Plan.childOf_eq hopen ⟨hn, hup, hb⟩ hm htold, events_first_name hc hr hcov hne hexists]

end

/-! ### All names -/

namespace Plan
variable {p : Plan} {d : Disk}

/-- Where no component is left, the root is found if it is there. -/
theorem findings_nil (hd : d.WellNamed) (hp : p.Named) (hc : p.components = [])
    (hfolders : p.foldersOnly = false) (hne : p.source ≠ []) :
    p.findings d = if d.exists? p.root.text then [.success p.root] else [] := by
  have hincludes : p.includesRoot = true := by simp [includesRoot, hc, hne]
  have haccepts : ∀ isFolder, p.accepts (Live.start p.components) isFolder = true := by
    intro isFolder
    rw [accepts, hc, hfolders, Bool.not_false, Bool.or_true, Bool.and_true]
    rfl
  have hdescends : ∀ isFolder, p.descends (Live.start p.components) isFolder = false := by
    intro isFolder
    rw [descends, hc]
    exact Bool.and_false _
  rw [findings_eq (k := p.room d + 1) hd hp (Nat.le_succ _), Task.events, Task.run]
  split
  · rw [arrive, hincludes, haccepts, hdescends]
    rfl
  · rfl

/-- **Components that are escaped names lead to the path of these names.** -/
theorem findings_spelled {ns : List Text} (hd : d.Tidy) (hlinks : d.Linkless) (hlist : d.Listable)
    (hs : d.Searchable) (hcase : p.options.caseSensitive = true) (hprobing : p.probing = true)
    (hfolders : p.foldersOnly = false) (hne : p.source ≠ []) (hp : p.Named)
    (hcs : p.components.map Pattern.source = ns.map Pattern.escape) (hplain : ∀ n ∈ ns, Plain n)
    (hb : ∀ n ∈ ns, Disk.nameBytes n ≤ 255) :
    p.findings d =
      if d.exists? (p.root.below ns).text then [.success (p.root.below ns)] else [] := by
  induction ns generalizing p with
  | nil =>
    rw [Path.below_nil]
    exact findings_nil hd.wellNamed hp (List.map_eq_nil_iff.1 hcs) hfolders hne
  | cons n ns ih =>
    obtain ⟨c, cs, hc, hsource, hmore⟩ := List.map_eq_cons_iff.1 hcs
    obtain ⟨hn, hplain⟩ := List.forall_mem_cons.1 hplain
    obtain ⟨hbytes, hb⟩ := List.forall_mem_cons.1 hb
    have hnamed : (p.rebase (p.root.below [n]) cs).Named :=
      ⟨hp.root.below hn, fun c' hc' => hp.components c' (hc ▸ List.mem_cons_of_mem c hc')⟩
    have hfirst : (p.rebase (p.root.below [n]) cs).findings d = p.findings d := by
      refine findings_of_first_name hd.wellNamed hs hp hnamed hc
        (Pattern.isRecursive_escape hsource) hn rfl fun hopen k => ?_
      cases hl : c.isLiteral with
      | false =>
        obtain rfl := hopen.listing_eq_none hlist
        exact findings_listed_name hcase hc hsource hd hlinks hopen hn hbytes hl hne
      | true =>
        obtain rfl : c.source = n := hsource.trans (Pattern.escape_of_isLiteral hsource hl)
        have hroot : p.enter c cs = p.rebase (p.root.below [c.source]) cs :=
          congrArg (p.rebase · cs) (p.root.join_plain hn)
        rw [findings_first_name hc hopen hn hbytes hl hprobing hcase hne, hroot]
    have hrest := ih (p := p.rebase (p.root.below [n]) cs) hcase hprobing hfolders hne hnamed hmore
      hplain hb
    have hbelow : (p.rebase (p.root.below [n]) cs).root.below ns = p.root.below (n :: ns) :=
      p.root.below_below [n] ns
    rw [← hfirst, hrest, hbelow]

/-! ### Sources -/

section
variable {o : Options} {path : Path} (hpath : path.Named)
include hpath

theorem named_escape : Path.Named ⟨path.anchor, path.names.map Pattern.escape⟩ := by
  intro m hm
  obtain ⟨n, hn, rfl⟩ := List.mem_map.1 hm
  exact Pattern.plain_escape (hpath n hn)

theorem namesOf_escape :
    Path.namesOf (Pattern.escape path.text) = path.names.map Pattern.escape := by
  rw [Pattern.escape_text]
  exact congrArg Path.names (Path.ofText_text (named_escape hpath))

theorem exists_ofSource_escape : ∃ p, ofSource o (Pattern.escape path.text) = .ok p := by
  obtain ⟨whole, hwhole, -⟩ := Pattern.compile_escape path.text
  obtain ⟨cs, hcs⟩ :
      ∃ cs : List Pattern, cs.map Pattern.source = path.names.map Pattern.escape := by
    refine Pattern.exists_map_source fun m hm => ?_
    obtain ⟨n, -, rfl⟩ := List.mem_map.1 hm
    obtain ⟨c, hc, -⟩ := Pattern.compile_escape n
    exact ⟨c, hc⟩
  have hsource := whole.ofSource_source
  rw [Pattern.source_of_compile hwhole] at hsource
  exact ⟨_, ofSource_of_components cs hsource (hcs.trans (namesOf_escape hpath).symm)⟩

/-- The anchor of a path is read from its escape, but for two separators. -/
theorem anchor_escape (hanchor : path.anchor ≠ .doubleRoot) :
    (if (Pattern.escape path.text).head? = some '/' then Anchor.root else .here) = path.anchor := by
  have habsolute := Path.isAbsolute_text (named_escape hpath)
  rw [← Pattern.escape_text, Disk.isAbsolute] at habsolute
  cases hq : path.anchor with
  | here => exact if_neg (by simpa [hq] using habsolute)
  | root => exact if_pos (by simpa [hq] using habsolute)
  | doubleRoot => exact absurd hq hanchor

/-- The names that a plan is left with are the last of the path, escaped, and the others are joined
to the root as they are. -/
theorem names_escape (hanchor : path.anchor ≠ .doubleRoot)
    (hp : ofSource o (Pattern.escape path.text) = .ok p) :
    ∃ ns, p.root.below ns = path ∧ p.components.map Pattern.source = ns.map Pattern.escape := by
  obtain ⟨front, hroot, hsources, hlit, -⟩ := (parts_of_ofSource hp).names
  rw [namesOf_escape hpath, List.map_append, eq_comm, List.map_eq_append_iff] at hsources
  obtain ⟨joined, ns, hnames, hfront, hns⟩ := hsources
  have hplain : joined.map Pattern.escape = joined.map id := List.map_congr_left fun n hn => by
    have hmem : Pattern.escape n ∈ front.map Pattern.source := hfront ▸ List.mem_map_of_mem hn
    obtain ⟨c, hc, hsource⟩ := List.mem_map.1 hmem
    exact Pattern.escape_of_isLiteral hsource (hlit c hc)
  rw [hplain, List.map_id] at hfront
  refine ⟨ns, ?_, hns.symm⟩
  rw [hroot, ← hfront, anchor_escape hpath hanchor, Path.below, ← hnames]

theorem foldersOnly_escape (hp : ofSource o (Pattern.escape path.text) = .ok p) :
    p.foldersOnly = false := by
  refine Bool.eq_false_iff.2 fun hfolders => ?_
  obtain ⟨hne, hlast⟩ := (parts_of_ofSource hp).foldersOnly_iff.1 hfolders
  rw [namesOf_escape hpath] at hne
  rw [Pattern.escape_text] at hlast
  exact Path.getLast?_text (named_escape hpath) hne hlast

end

end Plan

/-- **An escaped path is found, and nothing else.** Where case matters and nothing stands in the
way, the escape of a path has a plan, and that finds just the path if there is anything at it, with
a link at its end not followed. The other options have no part in this. -/
theorem findings_escape {o : Options} {path : Path} {d : Disk} (hcase : o.caseSensitive = true)
    (hpath : path.Named) (hanchor : path.anchor ≠ .doubleRoot)
    (hb : ∀ n ∈ path.names, Disk.nameBytes n ≤ 255) (hd : d.Tidy) (hlinks : d.Linkless)
    (hlist : d.Listable) (hs : d.Searchable) :
    ∃ p, Plan.ofSource o (Pattern.escape path.text) = .ok p ∧
      p.findings d = if d.exists? path.text then [.success path] else [] := by
  obtain ⟨p, hp⟩ := Plan.exists_ofSource_escape (o := o) hpath
  have hparts := Plan.parts_of_ofSource hp
  obtain ⟨ns, rfl, hns⟩ := Plan.names_escape hpath hanchor hp
  have hsub : ∀ n ∈ ns, n ∈ (p.root.below ns).names := fun n hn => List.mem_append_right _ hn
  have hne : p.source ≠ [] := by
    rw [hparts.source_eq]
    exact fun hq => Path.text_ne_nil hpath (Pattern.escape_injective hq)
  exact ⟨p, hp, Plan.findings_spelled hd hlinks hlist hs (hparts.options_eq ▸ hcase)
    (Plan.probing_of_ofSource hp) (Plan.foldersOnly_escape hpath hp) hne (Plan.named_of_ofSource hp)
    hns (fun n hn => hpath n (hsub n hn)) fun n hn => hb n (hsub n hn)⟩

/-- A path that leads up, and has a name in its middle that stands for more unless it is escaped. -/
theorem findings_escape_star :
    ∃ p, Plan.ofSource {} "d/../a[*]/x".toList = .ok p ∧
      p.findings (.ofLines ["d/".toList, "a*/x".toList, "ab/x".toList]) =
        [.success ⟨.here, ["d".toList, "..".toList, "a*".toList, "x".toList]⟩] := by
  have hpath : Path.Named ⟨.here, ["d".toList, "..".toList, "a*".toList, "x".toList]⟩ := by
    simp only [Path.Named, List.forall_mem_cons, List.not_mem_nil, false_imp_iff, implies_true,
      and_true]
    refine ⟨⟨?_, ?_, ?_⟩, ⟨?_, ?_, ?_⟩, ⟨?_, ?_, ?_⟩, ⟨?_, ?_, ?_⟩⟩
    all_goals decide
  have hb : ∀ n ∈ ["d".toList, "..".toList, "a*".toList, "x".toList], Disk.nameBytes n ≤ 255 := by
    simp only [List.forall_mem_cons, List.not_mem_nil, false_imp_iff, implies_true, and_true]
    refine ⟨?_, ?_, ?_, ?_⟩
    all_goals cbv
  have hanchor : Anchor.here ≠ .doubleRoot := by decide
  obtain ⟨p, hp, hfound⟩ := findings_escape (o := {})
    (d := .ofLines ["d/".toList, "a*/x".toList, "ab/x".toList]) rfl hpath hanchor hb (by cbv) (by cbv)
    (by cbv) (by cbv)
  refine ⟨p, hp, hfound.trans (if_pos ?_)⟩
  cbv

end PathGlob
