import Mathlib.Data.Set.List
import PathGlob.Proofs.Path
import PathGlob.Walk.Plan

/-! What is known of the plan of a source.

The names of the source are compiled each by itself. The literal ones in front belong to
the root, the others are the components (`Plan.parts_of_ofSource`). None of these names
is empty, a dot or holds a separator (`Plan.named_of_ofSource`). -/
namespace PathGlob

/-- Patterns are compiled one by one, and each keeps its source. -/
theorem Pattern.mapM_compile {ss : List Text} {cs : List Pattern} :
    ss.mapM compile = .ok cs ↔ cs.map source = ss := by
  induction ss generalizing cs with
  | nil =>
    rw [List.mapM_nil, List.map_eq_nil_iff]
    exact ⟨fun h => (Except.ok.inj h).symm, fun h => h ▸ rfl⟩
  | cons s ss ih =>
    rw [List.mapM_cons]
    constructor
    · intro h
      cases hc : compile s with
      | error e =>
        rw [hc] at h
        cases h
      | ok c =>
        rw [hc] at h
        cases hm : ss.mapM compile with
        | error e =>
          rw [hm] at h
          cases h
        | ok rest =>
          rw [hm] at h
          cases h
          rw [List.map_cons, source_of_compile hc, ih.1 hm]
    · intro h
      cases cs with
      | nil => cases h
      | cons c cs =>
        obtain ⟨rfl, hs⟩ := List.cons.inj h
        rw [compile_source, ih.2 hs]
        rfl

/-- Texts that are patterns are the sources of a list of them. -/
theorem Pattern.exists_map_source {ss : List Text} (h : ∀ s ∈ ss, ∃ c, compile s = .ok c) :
    ∃ cs : List Pattern, cs.map source = ss := by
  refine (Set.ext_iff.1 (Set.range_list_map source) ss).2 fun s hs => ?_
  obtain ⟨c, hc⟩ := h s hs
  exact ⟨c, source_of_compile hc⟩

namespace Plan
variable {o : Options} {source : Text} {p : Plan}

/-- A source has a plan exactly if it is a pattern and so is each of its names. -/
theorem anchored_eq_ok : anchored o source = .ok p ↔
    (∃ whole, Pattern.compile source = .ok whole) ∧
      p.components.map Pattern.source = Path.namesOf source ∧
      p = { source
            root := ⟨if source.head? = some '/' then .root else .here, []⟩
            components := p.components
            foldersOnly := !p.components.isEmpty && source.getLast? == some '/'
            options := o } := by
  unfold anchored
  split
  · rename_i e he
    simp [he]
  · rename_i whole hw
    rw [map_eq_ok]
    constructor
    · intro h
      obtain ⟨cs, hcs, rfl⟩ := h
      exact ⟨⟨whole, hw⟩, Pattern.mapM_compile.1 hcs, rfl⟩
    · intro h
      obtain ⟨-, hcs, hp⟩ := h
      exact ⟨p.components, Pattern.mapM_compile.2 hcs, hp.symm⟩

theorem ofSource_eq_ok : ofSource o source = .ok p ↔ ∃ q, anchored o source = .ok q ∧ q.joined = p :=
  map_eq_ok

/-- The options have no say in what a source is read as. -/
theorem ofSource_options (o o' : Options) (source : Text) :
    ofSource o' source = (ofSource o source).map fun p => { p with options := o' } := by
  unfold ofSource anchored
  cases Pattern.compile source with
  | error e => rfl
  | ok whole => cases (Path.namesOf source).mapM Pattern.compile <;> rfl

/-- The plan of a source whose names are the sources of given patterns. -/
theorem ofSource_of_components {ts : List Token} (cs : List Pattern)
    (hw : Token.ofSource source = .ok ts) (hcs : cs.map Pattern.source = Path.namesOf source) :
    ofSource o source = .ok (joined
      { source
        root := ⟨if source.head? = some '/' then .root else .here, []⟩
        components := cs
        foldersOnly := !cs.isEmpty && source.getLast? == some '/'
        options := o }) :=
  ofSource_eq_ok.2 ⟨_, anchored_eq_ok.2 ⟨⟨_, Pattern.compile_eq_ok hw⟩, hcs, rfl⟩, rfl⟩

/-- A source has a plan if it is a pattern and so is each of its names. -/
theorem exists_ofSource (hw : (Token.ofSource source).isOk = true)
    (hn : ((Path.namesOf source).all fun n => (Token.ofSource n).isOk) = true) :
    ∃ p, ofSource o source = .ok p := by
  have hcompile : ∀ {s : Text}, (Token.ofSource s).isOk = true → ∃ c, Pattern.compile s = .ok c := by
    intro s hs
    cases ht : Token.ofSource s with
    | ok ts => exact ⟨_, Pattern.compile_eq_ok ht⟩
    | error e =>
      rw [ht] at hs
      cases hs
  obtain ⟨cs, hcs⟩ := Pattern.exists_map_source fun n hmem => hcompile (List.all_eq_true.1 hn n hmem)
  obtain ⟨whole, hwhole⟩ := hcompile hw
  rw [ofSource, anchored, hwhole, Pattern.mapM_compile.2 hcs]
  exact ⟨_, rfl⟩

/-- Joining components of plain names to a path adds their sources to its names. -/
theorem foldl_join {cs : List Pattern} (h : ∀ c ∈ cs, Plain c.source) (r : Path) :
    cs.foldl (fun r c => r.join c.source) r = { r with names := r.names ++ cs.map Pattern.source } := by
  induction cs generalizing r with
  | nil => simp
  | cons c cs ih =>
    obtain ⟨hc, hcs⟩ := List.forall_mem_cons.1 h
    rw [List.foldl_cons, r.join_plain hc, ih hcs]
    simp

/-- The names of a source are such as a path is written with. -/
theorem plain_of_anchored (h : anchored o source = .ok p) : ∀ c ∈ p.components, Plain c.source :=
  fun _ hc => Path.plain_of_mem_namesOf ((anchored_eq_ok.1 h).2.1 ▸ List.mem_map_of_mem hc)

/-- The root of a plan with the plain names in front of its components. -/
theorem root_joined (h : ∀ c ∈ p.components, Plain c.source) : p.joined.root =
    ⟨p.root.anchor, p.root.names ++ (p.components.takeWhile Pattern.isLiteral).map Pattern.source⟩ :=
  foldl_join (fun c hc => h c (List.takeWhile_subset _ hc)) p.root

/-- What a source says: the root is its anchor with the literal names in front, and the
names from the first wildcard on are the components. -/
structure Parts (p : Plan) (o : Options) (source : Text) : Prop where
  source_eq : p.source = source
  options_eq : p.options = o
  names : ∃ front : List Pattern,
    p.root = ⟨if source.head? = some '/' then .root else .here, front.map Pattern.source⟩ ∧
      (front ++ p.components).map Pattern.source = Path.namesOf source ∧
      (∀ c ∈ front, c.isLiteral = true) ∧ ∀ c ∈ p.components.head?, c.isLiteral = false
  foldersOnly_iff : p.foldersOnly = true ↔ Path.namesOf source ≠ [] ∧ source.getLast? = some '/'

theorem parts_of_ofSource (h : ofSource o source = .ok p) : p.Parts o source := by
  obtain ⟨q, hq, rfl⟩ := ofSource_eq_ok.1 h
  have hplain := plain_of_anchored hq
  obtain ⟨-, hs, hq⟩ := anchored_eq_ok.1 hq
  have hroot : q.root = ⟨if source.head? = some '/' then .root else .here, []⟩ := by rw [hq]
  have hfields : q.source = source ∧ q.options = o := by
    rw [hq]
    exact ⟨rfl, rfl⟩
  refine ⟨hfields.1, hfields.2,
    ⟨q.components.takeWhile Pattern.isLiteral, ?_, ?_, ?_, ?_⟩, ?_⟩
  · rw [root_joined hplain, hroot]
    rfl
  · show (_ ++ q.components.dropWhile Pattern.isLiteral).map _ = _
    rw [List.takeWhile_append_dropWhile, hs]
  · exact fun c hc => List.all_eq_true.1 List.all_takeWhile c hc
  · intro c hc
    have hnot := List.head?_dropWhile_not Pattern.isLiteral q.components
    change (q.components.dropWhile Pattern.isLiteral).head? = some c at hc
    rw [hc] at hnot
    exact hnot
  · show q.foldersOnly = true ↔ _
    rw [hq]
    simp [← hs]

theorem probing_of_ofSource (h : ofSource o source = .ok p) : p.probing = true := by
  obtain ⟨q, hq, rfl⟩ := ofSource_eq_ok.1 h
  obtain ⟨-, -, hq⟩ := anchored_eq_ok.1 hq
  show q.probing = true
  rw [hq]

/-- The names that the plan works with are such as a path is written with. -/
structure Named (p : Plan) : Prop where
  root : p.root.Named
  components : ∀ c ∈ p.components, Plain c.source

theorem named_of_ofSource (h : ofSource o source = .ok p) : p.Named := by
  obtain ⟨front, hroot, hnames, -⟩ := (parts_of_ofSource h).names
  have hplain : ∀ c ∈ front ++ p.components, Plain c.source := fun c hc =>
    Path.plain_of_mem_namesOf (hnames ▸ List.mem_map_of_mem hc)
  refine ⟨fun n hn => ?_, fun c hc => hplain c (List.mem_append_right _ hc)⟩
  rw [hroot] at hn
  obtain ⟨c, hc, rfl⟩ := List.mem_map.1 hn
  exact hplain c (List.mem_append_left _ hc)

end Plan
end PathGlob
