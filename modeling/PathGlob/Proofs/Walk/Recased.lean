import Mathlib
import PathGlob.Proofs.Pattern.Recased
import PathGlob.Proofs.Walk.Abreast
import PathGlob.Proofs.Walk.Refused

/-! Walks without regard to case.

Where case does not matter no name is looked up, and a walk sees of a component only whether it is
recursive and which names it covers (`Pattern.face`). The other case of letters in a source leaves
both as they are, so all happens as before (`events_recased`). The names in front of the first
wildcard are the exception. They are joined to the root as they are written, which is looked up
with regard to case all the same (`unjoined_case`). -/
namespace PathGlob

/-- What a walk that looks no name up sees of a component. -/
def Pattern.face (o : Options) (c : Pattern) : Bool × (Text → Bool) := (c.isRecursive, c.covers o)

theorem Pattern.face_recased {o : Options} {c c' : Pattern} (hcase : o.caseSensitive = false)
    (h : Recased c.source c'.source) : c.face o = c'.face o :=
  Prod.ext (isRecursive_recased h) (covers_recased hcase h)

namespace Live
variable {o : Options} {cs cs' : List Pattern} {live : Live}

theorem skips_eq_face (o : Options) (i j : Nat) :
    skips cs i j = (i ≤ j && (((cs.map (Pattern.face o)).take j).drop i).all Prod.fst) := by
  rw [← List.map_take, ← List.map_drop, List.all_map]
  rfl

theorem takes_eq_face (n : Text) (i j : Nat) :
    takes o cs n i j = match (cs.map (Pattern.face o))[i]? with
      | none => false
      | some (isRecursive, covers) =>
        if isRecursive then j == i && !(o.literalLeadingDot && isHidden n)
        else j == i + 1 && covers n := by
  rw [takes, List.getElem?_map]
  cases cs[i]? <;> rfl

theorem pending_face : (live.pending cs).map (Pattern.face o) =
    live.filterMap ((cs.map (Pattern.face o))[·]?) := by
  rw [pending, List.map_filterMap]
  simp only [List.getElem?_map]

section
variable (h : cs.map (Pattern.face o) = cs'.map (Pattern.face o))
include h

theorem length_of_face : cs.length = cs'.length := by
  rw [← List.length_map (Pattern.face o), h, List.length_map]

theorem closure_of_face : closure cs live = closure cs' live := by
  simp only [closure, positions, length_of_face h, skips_eq_face o, h]

theorem advance_of_face (n : Text) : advance o cs n live = advance o cs' n live := by
  rw [advance, closure_of_face h]
  simp only [advance, positions, length_of_face h, takes_eq_face, h]

theorem isFinal_of_face : live.isFinal cs = live.isFinal cs' := by
  rw [isFinal, isFinal, length_of_face h]

theorem pending_of_face : (live.pending cs).isEmpty = (live.pending cs').isEmpty := by
  rw [← List.isEmpty_map (f := Pattern.face o), pending_face, h, ← pending_face, List.isEmpty_map]

end
end Live

/-! ### Walks that see the same -/

/-- Plans that differ in what their components are, but not in what is seen of them. -/
structure Plan.SeenAlike (p q : Plan) : Prop where
  root : q.root = p.root
  foldersOnly : q.foldersOnly = p.foldersOnly
  options : q.options = p.options
  insensitive : p.options.caseSensitive = false
  empty : q.source = [] ↔ p.source = []
  components : q.components.map (Pattern.face p.options) = p.components.map (Pattern.face p.options)

namespace Plan.SeenAlike
variable {p q : Plan} (h : p.SeenAlike q) {d : Disk}
include h

theorem read_eq (folder : Path) (live : Live) : q.read d folder live = p.read d folder live := by
  have hp : p.probes live = false := by simp [probes, h.insensitive]
  have hq : q.probes live = false := by simp [probes, h.options, h.insensitive]
  rw [read, read, hp, hq]
  rfl

theorem arrive_eq (reported isFolder : Bool) (path : Path) (live : Live) :
    q.arrive reported path isFolder live = p.arrive reported path isFolder live := by
  have haccepts : q.accepts live isFolder = p.accepts live isFolder := by
    rw [accepts, accepts, h.foldersOnly, Live.isFinal_of_face h.components]
  have hdescends : q.descends live isFolder = p.descends live isFolder := by
    rw [descends, descends, Live.pending_of_face h.components]
  rw [arrive, arrive, haccepts, hdescends]

theorem includesRoot_eq : q.includesRoot = p.includesRoot := by
  have hempty : q.components.isEmpty = p.components.isEmpty := by
    rw [← List.isEmpty_map (f := Pattern.face p.options), h.components, List.isEmpty_map]
  simp only [includesRoot, h.root, hempty, ne_eq, h.empty]

/-- Every task does the same. -/
theorem run_eq (t : Task) : t.run q d = t.run p d := by
  cases t with
  | start =>
    have hstart : Live.start q.components = Live.start p.components := Live.closure_of_face h.components
    simp only [Task.run, h.root, h.includesRoot_eq, hstart, h.arrive_eq]
  | visit child live =>
    simp only [Task.run, h.options, Live.advance_of_face h.components, h.arrive_eq]
  | expand folder live => simp only [Task.run, h.read_eq]

theorem events_eq : q.events d = p.events d := by
  have hroom : q.room d = p.room d := by rw [room, room, Live.length_of_face h.components]
  exact events_congr (P := fun _ => True) (fun t _ => h.run_eq t) (fun _ _ _ _ => trivial) trivial hroom

end Plan.SeenAlike

/-! ### The plan of the other source -/

namespace Pattern
variable {source other : Text}

/-- The other source is a row of items too. -/
theorem Recased.exists_row (h : Recased source other) : ∃ others, Item.Row none other others := by
  obtain ⟨_, others, hrow, hr, rfl⟩ := h
  exact ⟨others, hrow.recase hr rfl⟩

theorem Recased.exists_compile (h : Recased source other) : ∃ whole, compile other = .ok whole := by
  obtain ⟨_, hrow⟩ := h.exists_row
  obtain ⟨whole, hw, -⟩ := compile_of_row hrow
  exact ⟨whole, hw⟩

end Pattern

namespace Plan
variable {o : Options} {source other : Text} {p q : Plan}

/-- The same plan, but for the case of letters in its source. -/
structure Recased (p q : Plan) : Prop where
  source : List.Forall₂ Text.Recased p.source q.source
  anchor : q.root.anchor = p.root.anchor
  names : List.Forall₂ Pattern.Recased p.root.names q.root.names
  components : List.Forall₂ (fun c c' => Pattern.Recased c.source c'.source) p.components q.components
  foldersOnly : q.foldersOnly = p.foldersOnly
  options : q.options = p.options

/-- The other source has a plan as well, the same but for the case of letters. -/
theorem exists_recased_anchored (h : Pattern.Recased source other) (hp : anchored o source = .ok p) :
    ∃ q, anchored o other = .ok q ∧ p.Recased q := by
  have hpieces := row_of_piece hp
  have hrows : List.Forall₂ (fun piece' piece => (∃ own, Item.Row none piece' own) ∧
      Pattern.Recased piece piece') (List.splitOn '/' other) (List.splitOn '/' source) :=
    .flip ((h.pieces hpieces).imp fun _ _ h => ⟨h.exists_row, h⟩)
  have hpieces' := ((List.forall₂_and_left _ _).1 hrows).1
  obtain ⟨whole, hw⟩ := h.exists_compile
  obtain ⟨q, hq, -, hsources'⟩ := exists_anchored (o := o) hw hpieces'
  obtain ⟨-, hsources, hp⟩ := anchored_eq_ok.1 hp
  have hnames := h.namesOf hpieces
  rw [← hsources, ← hsources', List.forall₂_map_left_iff, List.forall₂_map_right_iff] at hnames
  have hhead : source.head? = some '/' ↔ other.head? = some '/' :=
    Text.head?_recased h.text (by decide)
  have hlast : source.getLast? = some '/' ↔ other.getLast? = some '/' :=
    Text.getLast?_recased h.text (by decide)
  have hempty : q.components.isEmpty = p.components.isEmpty := by
    rw [Bool.eq_iff_iff, List.isEmpty_iff_length_eq_zero, List.isEmpty_iff_length_eq_zero, hnames.length_eq]
  refine ⟨q, hq, ?_⟩
  obtain ⟨-, -, hq⟩ := anchored_eq_ok.1 hq
  refine ⟨?source, ?anchor, ?names, hnames, ?foldersOnly, ?options⟩
  case source =>
    rw [hp, hq]
    exact h.text
  case anchor =>
    rw [hp, hq]
    simp only [hhead]
  case names =>
    rw [hp, hq]
    exact .nil
  case foldersOnly =>
    have hend : (other.getLast? == some '/') = (source.getLast? == some '/') := by
      rw [Bool.eq_iff_iff, beq_iff_eq, beq_iff_eq, hlast]
    rw [hp, hq]
    simp only [hempty, hend]
  case options => rw [hp, hq]

theorem Recased.joined (h : p.Recased q) (hp : ∀ c ∈ p.components, Plain c.source)
    (hq : ∀ c ∈ q.components, Plain c.source) : p.joined.Recased q.joined := by
  obtain ⟨hfront, hrest⟩ := forall₂_span h.components fun _ _ => Pattern.isLiteral_recased
  refine ⟨h.source, ?_, ?_, hrest, h.foldersOnly, h.options⟩
  · rw [root_joined hp, root_joined hq]
    exact h.anchor
  · rw [root_joined hp, root_joined hq]
    refine List.rel_append h.names ?_
    rw [List.forall₂_map_left_iff, List.forall₂_map_right_iff]
    exact hfront

theorem Recased.seenAlike (h : p.Recased q) (hcase : p.options.caseSensitive = false) :
    SeenAlike { p with root := q.root } q where
  root := rfl
  foldersOnly := h.foldersOnly
  options := h.options
  insensitive := hcase
  empty := (Text.nil_recased h.source).symm
  components := (map_eq_of_forall₂ h.components fun _ _ => Pattern.face_recased hcase).symm

end Plan

/-- **Where case does not matter, that of letters outside sets matters in the root only.** The other
source has a plan as well, the same but for the case of letters. On every disk all happens as in
the first plan from the root that the other source writes, and so all is the same where the names
in front keep their case. -/
theorem events_recased {o : Options} {source other : Text} {p : Plan} (hcase : o.caseSensitive = false)
    (h : Pattern.Recased source other) (hp : Plan.ofSource o source = .ok p) :
    ∃ q, Plan.ofSource o other = .ok q ∧ p.Recased q ∧
      (∀ d, q.events d = { p with root := q.root }.events d) ∧
      (q.root = p.root → ∀ d, q.events d = p.events d) := by
  obtain ⟨p, hanchored, rfl⟩ := Plan.ofSource_eq_ok.1 hp
  obtain ⟨q, hq, hrecased⟩ := Plan.exists_recased_anchored h hanchored
  have hjoined := hrecased.joined (Plan.plain_of_anchored hanchored) (Plan.plain_of_anchored hq)
  have hoptions : p.joined.options.caseSensitive = false := by
    rw [(Plan.parts_of_ofSource hp).options_eq]
    exact hcase
  have hseen : ∀ d, q.joined.events d = { p.joined with root := q.joined.root }.events d := fun d =>
    (hjoined.seenAlike hoptions).events_eq
  refine ⟨q.joined, Plan.ofSource_eq_ok.2 ⟨q, hq, rfl⟩, hjoined, hseen, fun hroot d => ?_⟩
  rw [hseen d, hroot]

/-- A letter in the last component. -/
theorem events_recased_last : ∃ p q, Plan.ofSource { caseSensitive := false } "d/*/a".toList = .ok p ∧
    Plan.ofSource { caseSensitive := false } "d/*/A".toList = .ok q ∧
      ∀ d, q.events d = p.events d := by
  have hwhole : Token.ofSource "d/*/a".toList =
      .ok [.char 'd', .char '/', .run, .char '/', .char 'a'] := by cbv
  have hfolder : Token.ofSource "d".toList = .ok [.char 'd'] := by cbv
  have hrun : Token.ofSource "*".toList = .ok [.run] := by cbv
  have hname : Token.ofSource "a".toList = .ok [.char 'a'] := by cbv
  have hread : Item.readAll none 0 "d/*/a".toList =
      .ok [.char 'd', .char '/', .run, .char '/', .char 'a'] := by cbv
  have hrecased : Pattern.Recased "d/*/a".toList "d/*/A".toList := by
    refine ⟨_, [.char 'd', .char '/', .run, .char '/', .char 'A'], Item.readAll_eq_ok.1 hread, ?_, rfl⟩
    have hletter : Item.Recased (.char 'a') (.char 'A') := .char (.inr ⟨rfl, rfl, rfl⟩)
    exact .cons (.same _) (.cons (.same _) (.cons (.same _) (.cons (.same _) (.cons hletter .nil))))
  have hwhole' : Token.ofSource "d/*/A".toList =
      .ok [.char 'd', .char '/', .run, .char '/', .char 'A'] := by cbv
  have hname' : Token.ofSource "A".toList = .ok [.char 'A'] := by cbv
  have hp := Plan.ofSource_of_components (o := { caseSensitive := false })
    [⟨_, _, hfolder⟩, ⟨_, _, hrun⟩, ⟨_, _, hname⟩] hwhole rfl
  have hq := Plan.ofSource_of_components (o := { caseSensitive := false })
    [⟨_, _, hfolder⟩, ⟨_, _, hrun⟩, ⟨_, _, hname'⟩] hwhole' rfl
  obtain ⟨q, hq', -, -, hsame⟩ := events_recased rfl hrecased hp
  obtain rfl := Except.ok.inj (hq.symm.trans hq')
  exact ⟨_, _, hp, hq, hsame rfl⟩

/-- One file with a letter for its name. -/
def lettered : Disk where
  root := .folder [("a".toList, .file)] none none

/-- A letter in front is looked up as it is written, though case does not matter. -/
theorem unjoined_case : Pattern.Recased "a".toList "A".toList ∧
    ∃ p q, Plan.ofSource { caseSensitive := false } "a".toList = .ok p ∧
      Plan.ofSource { caseSensitive := false } "A".toList = .ok q ∧
      p.findings lettered = [.success (.ofText "a".toList)] ∧ q.findings lettered = [] := by
  have hsmall : Token.ofSource "a".toList = .ok [.char 'a'] := by cbv
  have hlarge : Token.ofSource "A".toList = .ok [.char 'A'] := by cbv
  have hread : Item.readAll none 0 "a".toList = .ok [.char 'a'] := by cbv
  refine ⟨⟨_, [.char 'A'], Item.readAll_eq_ok.1 hread, .cons (.char (.inr ⟨rfl, rfl, rfl⟩)) .nil, rfl⟩,
    _, _, Plan.ofSource_of_components [⟨_, _, hsmall⟩] hsmall rfl,
    Plan.ofSource_of_components [⟨_, _, hlarge⟩] hlarge rfl, ?_, ?_⟩
  all_goals cbv

end PathGlob
