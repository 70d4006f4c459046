import PathGlob.Proofs.Disk.Trees
import PathGlob.Proofs.Path

/-! The way that a path takes, step by step.

Following a path is a chain of steps, one for each name: to the folder itself, to the
folder above, down to an entry, or to the target of a link, which costs one of the
links allowed (`follow_eq_ok`). So a longer path goes where its front leads and on from
there (`leads_of_append`), and a path that leads anywhere leads there by its names
(`reaches_of_resolve`). -/
namespace PathGlob

namespace Disk
variable {d : Disk} {last : Bool} {links links' : Nat} {spot spot' : Spot} {names rest : List Text}
  {name : Text} {node : Node}

/-- There is a folder at the spot, and it lets itself be searched. -/
def Searched (d : Disk) (spot : Spot) : Prop :=
  ∃ entries listing, d.node? spot = some (.folder entries listing none)

/-- The folder at the spot has the node under the name, and the name can be asked for. -/
def Stands (d : Disk) (spot : Spot) (name : Text) (node : Node) : Prop :=
  nameBytes name ≤ 255 ∧ name ≠ ['.'] ∧ name ≠ ['.', '.'] ∧
    ∃ entries listing, d.node? spot = some (.folder entries listing none) ∧
      entries.lookup name = some node

/-- The names lead from one spot to the other, and from one number of links to what is
left of it. A link at the very end is gone through iff `last`. -/
inductive Leads (d : Disk) (last : Bool) : Nat → Spot → List Text → Nat → Spot → Prop where
  | here {links : Nat} {spot : Spot} : Leads d last links spot [] links spot
  | dot {links links' : Nat} {spot spot' : Spot} {rest : List Text} :
    d.Searched spot → Leads d last links spot rest links' spot' →
      Leads d last links spot (['.'] :: rest) links' spot'
  | up {links links' : Nat} {spot spot' : Spot} {rest : List Text} :
    d.Searched spot → Leads d last links spot.parent rest links' spot' →
      Leads d last links spot (['.', '.'] :: rest) links' spot'
  | down {links links' : Nat} {spot spot' : Spot} {name : Text} {rest : List Text} {node : Node} :
    d.Stands spot name node → (∀ target, node ≠ .link target) →
      Leads d last links (spot.child name) rest links' spot' →
      Leads d last links spot (name :: rest) links' spot'
  | stop {links : Nat} {spot : Spot} {name target : Text} :
    d.Stands spot name (.link target) → last = false →
      Leads d last links spot [name] links (spot.child name)
  | jump {links links' : Nat} {spot spot' : Spot} {name target : Text} {rest : List Text} :
    d.Stands spot name (.link target) → (last || !rest.isEmpty) = true →
      Leads d last links (base target spot) (steps target ++ rest) links' spot' →
      Leads d last (links + 1) spot (name :: rest) links' spot'

/-! ### Following is leading -/

theorem follow_nil (links : Nat) (spot : Spot) : d.follow last links spot [] = .ok spot := by
  cases links <;> rfl

/-- Where a target is followed to, if one more link is allowed. -/
def jump (d : Disk) (last : Bool) : Nat → Spot → List Text → Except Int Spot
  | 0, _, _ => .error SystemError.tooManyLinks
  | links + 1, spot, names => d.follow last links spot names

theorem follow_cons (links : Nat) (spot : Spot) (name : Text) (rest : List Text) :
    d.follow last links spot (name :: rest) =
      match d.node? spot with
      | none => .error SystemError.notFound
      | some (.folder entries _ search) =>
        match search with
        | some code => .error code
        | none =>
          if 255 < nameBytes name then .error SystemError.nameTooLong
          else if name = ['.'] then d.follow last links spot rest
          else if name = ['.', '.'] then d.follow last links spot.parent rest
          else match entries.lookup name with
            | none => .error SystemError.notFound
            | some (.link target) =>
              if last || !rest.isEmpty then
                d.jump last links (base target spot) (steps target ++ rest)
              else .ok (spot.child name)
            | some _ => d.follow last links (spot.child name) rest
      | some _ => .error SystemError.notFolder := by
  cases links <;> rfl

theorem follow_dot (h : d.Searched spot) :
    d.follow last links spot (['.'] :: rest) = d.follow last links spot rest := by
  obtain ⟨entries, listing, hn⟩ := h
  rw [follow_cons, hn]
  rfl

theorem follow_up (h : d.Searched spot) :
    d.follow last links spot (['.', '.'] :: rest) = d.follow last links spot.parent rest := by
  obtain ⟨entries, listing, hn⟩ := h
  rw [follow_cons, hn]
  rfl

theorem follow_entry (h : d.Stands spot name node) (hlink : ∀ target, node ≠ .link target) :
    d.follow last links spot (name :: rest) = d.follow last links (spot.child name) rest := by
  obtain ⟨hb, hd, hu, entries, listing, hn, hl⟩ := h
  rw [follow_cons, hn]
  show (if _ then _ else _) = _
  rw [if_neg (Nat.not_lt.2 hb), if_neg hd, if_neg hu, hl]
  cases node with
  | link target => exact absurd rfl (hlink target)
  | file => rfl
  | folder entries listing search => rfl

theorem follow_link {target : Text} (h : d.Stands spot name (.link target)) :
    d.follow last links spot (name :: rest) =
      if last || !rest.isEmpty then d.jump last links (base target spot) (steps target ++ rest)
      else .ok (spot.child name) := by
  obtain ⟨hb, hd, hu, entries, listing, hn, hl⟩ := h
  rw [follow_cons, hn]
  show (if _ then _ else _) = _
  rw [if_neg (Nat.not_lt.2 hb), if_neg hd, if_neg hu, hl]

/-- A name that leads anywhere is one of the dots or the name of an entry. -/
theorem name_cases {s : Spot} (h : d.follow last links spot (name :: rest) = .ok s) :
    (name = ['.'] ∧ d.Searched spot) ∨ (name = ['.', '.'] ∧ d.Searched spot) ∨
      ∃ node, d.Stands spot name node := by
  rw [follow_cons] at h
  split at h
  case h_2 entries listing search hn =>
    cases search with
    | some code => cases h
    | none =>
      have hs : d.Searched spot := ⟨entries, listing, hn⟩
      by_cases hb : 255 < nameBytes name
      · simp [hb] at h
      by_cases hd : name = ['.']
      · exact .inl ⟨hd, hs⟩
      by_cases hu : name = ['.', '.']
      · exact .inr (.inl ⟨hu, hs⟩)
      cases hl : entries.lookup name with
      | none => simp [hb, hd, hu, hl] at h
      | some node => exact .inr (.inr ⟨node, Nat.not_lt.1 hb, hd, hu, entries, listing, hn, hl⟩)
  all_goals cases h

theorem leads_of_follow {s : Spot} (h : d.follow last links spot names = .ok s) :
    ∃ links', d.Leads last links spot names links' s := by
  -- Links are used up one by one, and between two of them so are the names.
  induction links using Nat.strongRecOn generalizing spot names with
  | ind links ihl =>
    induction names generalizing spot with
    | nil =>
      rw [follow_nil] at h
      exact ⟨links, Except.ok.inj h ▸ .here⟩
    | cons name rest ih =>
      rcases name_cases h with ⟨rfl, hs⟩ | ⟨rfl, hs⟩ | ⟨node, hn⟩
      · obtain ⟨links', hk⟩ := ih (follow_dot hs ▸ h)
        exact ⟨links', .dot hs hk⟩
      · obtain ⟨links', hk⟩ := ih (follow_up hs ▸ h)
        exact ⟨links', .up hs hk⟩
      by_cases hlink : ∃ target, node = .link target
      · obtain ⟨target, rfl⟩ := hlink
        rw [follow_link hn] at h
        split at h
        case isTrue hg =>
          cases links with
          | zero => cases h
          | succ links =>
            obtain ⟨links', hk⟩ := ihl links (Nat.lt_succ_self _) h
            exact ⟨links', .jump hn hg hk⟩
        case isFalse hg =>
          simp only [Bool.or_eq_true, not_or, Bool.not_eq_true, Bool.not_eq_false',
            List.isEmpty_iff] at hg
          obtain ⟨hlast, rfl⟩ := hg
          exact ⟨links, Except.ok.inj h ▸ .stop hn hlast⟩
      · have hlink' : ∀ target, node ≠ .link target := fun target ht => hlink ⟨target, ht⟩
        obtain ⟨links', hk⟩ := ih (follow_entry hn hlink' ▸ h)
        exact ⟨links', .down hn hlink' hk⟩

theorem Leads.follow (h : d.Leads last links spot names links' spot') :
    d.follow last links spot names = .ok spot' := by
  induction h with
  | here => exact follow_nil _ _
  | dot hs _ ih => rw [follow_dot hs, ih]
  | up hs _ ih => rw [follow_up hs, ih]
  | down hn hlink _ ih => rw [follow_entry hn hlink, ih]
  | stop hn hlast => rw [follow_link hn, hlast]; rfl
  | jump hn hg _ ih => rw [follow_link hn, if_pos hg]; exact ih

/-- **A path is followed to its end exactly by a chain of steps.** -/
theorem follow_eq_ok : d.follow last links spot names = .ok spot' ↔
    ∃ links', d.Leads last links spot names links' spot' :=
  ⟨leads_of_follow, fun ⟨_, h⟩ => h.follow⟩

/-! ### Fronts of paths -/

/-- Names that lead on lead to where their front leads, through every link on the way. -/
theorem leads_of_append {front : List Text} (hne : rest ≠ [])
    (h : d.Leads last links spot (front ++ rest) links' spot') :
    ∃ mid there, d.Leads true links spot front mid there ∧
      d.Leads last mid there rest links' spot' := by
  generalize hw : front ++ rest = names at h
  induction h generalizing front with
  | here => exact absurd (List.append_eq_nil_iff.1 hw).2 hne
  | dot hs h ih =>
    rcases List.append_eq_cons_iff.1 hw with ⟨rfl, rfl⟩ | ⟨front, rfl, rfl⟩
    · exact ⟨_, _, .here, .dot hs h⟩
    · obtain ⟨mid, there, h₁, h₂⟩ := ih rfl
      exact ⟨mid, there, .dot hs h₁, h₂⟩
  | up hs h ih =>
    rcases List.append_eq_cons_iff.1 hw with ⟨rfl, rfl⟩ | ⟨front, rfl, rfl⟩
    · exact ⟨_, _, .here, .up hs h⟩
    · obtain ⟨mid, there, h₁, h₂⟩ := ih rfl
      exact ⟨mid, there, .up hs h₁, h₂⟩
  | down hn hlink h ih =>
    rcases List.append_eq_cons_iff.1 hw with ⟨rfl, rfl⟩ | ⟨front, rfl, rfl⟩
    · exact ⟨_, _, .here, .down hn hlink h⟩
    · obtain ⟨mid, there, h₁, h₂⟩ := ih rfl
      exact ⟨mid, there, .down hn hlink h₁, h₂⟩
  | stop hn hlast =>
    rcases List.append_eq_cons_iff.1 hw with ⟨rfl, rfl⟩ | ⟨front, rfl, he⟩
    · exact ⟨_, _, .here, .stop hn hlast⟩
    · exact absurd (List.append_eq_nil_iff.1 he.symm).2 hne
  | jump hn hg h ih =>
    rcases List.append_eq_cons_iff.1 hw with ⟨rfl, rfl⟩ | ⟨front, rfl, rfl⟩
    · exact ⟨_, _, .here, .jump hn hg h⟩
    · obtain ⟨mid, there, h₁, h₂⟩ := ih (List.append_assoc ..)
      exact ⟨mid, there, .jump hn rfl h₁, h₂⟩

/-- Where a front leads anywhere, what comes of more names is decided there. -/
theorem Leads.follow_append {mid : Nat} {there : Spot} {front : List Text}
    (h : d.Leads true links spot front mid there) (hne : rest ≠ []) :
    d.follow last links spot (front ++ rest) = d.follow last mid there rest := by
  induction h with
  | here => rfl
  | dot hs _ ih => rw [List.cons_append, follow_dot hs, ih]
  | up hs _ ih => rw [List.cons_append, follow_up hs, ih]
  | down hn hlink _ ih => rw [List.cons_append, follow_entry hn hlink, ih]
  | stop _ hlast => cases hlast
  | jump hn _ _ ih =>
    rw [List.cons_append, follow_link hn, if_pos (by simp [hne]), ← List.append_assoc]
    exact ih

/-- A path leads through trees of the disk only. -/
theorem Leads.holds (h : d.Leads last links spot names links' spot') (hs : d.Holds spot) :
    d.Holds spot' := by
  induction h with
  | here => exact hs
  | dot _ _ ih => exact ih hs
  | up _ _ ih => exact ih hs.parent
  | down _ _ _ ih => exact ih (hs.child _)
  | stop => exact hs.child _
  | jump _ _ _ ih => exact ih (hs.base _)

/-! ### Paths -/

/-- Where the path starts. -/
def origin (d : Disk) (p : Path) : Spot := if p.anchor = .here then d.here else .rooted []

/-- The names of the path lead to the spot, and so many links are left. -/
def Reaches (d : Disk) (last : Bool) (p : Path) (links : Nat) (spot : Spot) : Prop :=
  d.Leads last linkLimit (d.origin p) p.names links spot

theorem holds_origin (p : Path) : d.Holds (d.origin p) := by
  unfold origin
  split
  · exact holds_here
  · exact holds_rooted _

theorem Reaches.holds {p : Path} (h : d.Reaches last p links spot) : d.Holds spot :=
  Leads.holds h (holds_origin p)

/-- A path with one more name that leads anywhere leads on from where the path leads. -/
theorem reaches_of_concat {p : Path} {n : Text}
    (h : d.Reaches last { p with names := p.names ++ [n] } links' spot') :
    ∃ links spot, d.Reaches true p links spot ∧ d.Leads last links spot [n] links' spot' :=
  leads_of_append (List.cons_ne_nil _ _) h

theorem base_text {p : Path} (hp : p.Named) : base p.text d.here = d.origin p := by
  rw [base, Path.isAbsolute_text hp, origin]
  by_cases h : p.anchor = .here <;> simp [h]

theorem resolve_iff {path : Text} {s : Spot} : d.resolve last path = .ok s ↔
    d.follow last linkLimit (base path d.here) (steps path) = .ok s := by
  rw [resolve]
  cases d.follow last linkLimit (base path d.here) (steps path) with
  | error code => exact ⟨nofun, nofun⟩
  | ok spot =>
    show Except.ok spot = .ok s ↔ _
    rw [Except.ok.injEq, Except.ok.injEq]

/-- A path that has names is followed by them. -/
theorem resolve_eq_ok {p : Path} (hp : p.Named) (hne : p ≠ ⟨.here, []⟩) {s : Spot} :
    d.resolve last p.text = .ok s ↔ ∃ links, d.Reaches last p links s := by
  rw [resolve_iff, base_text hp, Path.steps_text hp, if_neg hne, follow_eq_ok]
  rfl

/-- The path of no names asks whether the working folder lets itself be searched. -/
theorem resolve_dot {s : Spot} :
    d.resolve last (Path.text ⟨.here, []⟩) = .ok s ↔ d.Searched d.here ∧ s = d.here := by
  rw [resolve_iff]
  change d.follow last linkLimit d.here [['.']] = .ok s ↔ _
  constructor
  · intro h
    rcases name_cases h with ⟨-, hs⟩ | ⟨hd, -⟩ | ⟨node, hn⟩
    · rw [follow_dot hs, follow_nil] at h
      exact ⟨hs, (Except.ok.inj h).symm⟩
    · cases hd
    · exact absurd rfl hn.2.1
  · intro hq
    obtain ⟨hs, rfl⟩ := hq
    rw [follow_dot hs, follow_nil]

theorem reaches_of_resolve {p : Path} (hp : p.Named) {s : Spot}
    (h : d.resolve last p.text = .ok s) : ∃ links, d.Reaches last p links s := by
  by_cases hne : p = ⟨.here, []⟩
  · subst hne
    obtain ⟨-, rfl⟩ := resolve_dot.1 h
    exact ⟨linkLimit, .here⟩
  · exact (resolve_eq_ok hp hne).1 h

end Disk

/-- The name of an entry is read from a path as it is, and leads down. -/
theorem Text.plain_of_isEntryName {n : Text} (h : n.isEntryName = true) :
    Plain n ∧ n ≠ ['.', '.'] := by
  simp only [isEntryName, Bool.and_eq_true, decide_eq_true_eq, Bool.not_eq_true',
    List.contains_eq_mem, decide_eq_false_iff_not] at h
  exact ⟨⟨h.1.1.1, h.1.1.2, h.2⟩, h.1.2⟩

end PathGlob
