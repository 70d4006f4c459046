import PathGlob.Proofs.Walk.Reading
import PathGlob.Proofs.Walk.Sharing
import PathGlob.Walk.Basic

/-! Walks end.

A path goes through so many links at most, and between two of them it goes down in a
tree. It goes up only by a name that is written in the pattern, and no component that
is left behind so comes back. So a folder has a rank, made of the links left, the height
left below it and the components left, and every folder in it that a walk reads has a
lesser one (`rank_lt`). Ranks are bounded, and with them the rows of tasks that lead
from one to the next (`ends_start`). -/
namespace PathGlob

/-- No row of tasks that starts with this one and leads from each to the next has more. -/
def Task.Ends (p : Plan) (d : Disk) : Nat → Task → Prop
  | 0, _ => False
  | n + 1, t => ∀ u ∈ (t.run p d).next, Ends p d n u

theorem Task.Ends.mono {p : Plan} {d : Disk} {n n' : Nat} {t : Task} (h : Ends p d n t)
    (hn : n ≤ n') : Ends p d n' t := by
  induction n' generalizing n t with
  | zero => exact Nat.le_zero.1 hn ▸ h
  | succ n' ih =>
    cases n with
    | zero => exact h.elim
    | succ n => exact fun u hu => ih (h u hu) (Nat.le_of_succ_le_succ hn)

/-! ### One name further -/

namespace Disk
variable {d : Disk} {last : Bool} {links links' : Nat} {spot spot' : Spot} {names : List Text}
  {name : Text}

theorem Leads.links_le (h : d.Leads last links spot names links' spot') : links' ≤ links := by
  induction h with
  | here => exact Nat.le_refl _
  | dot _ _ ih => exact ih
  | up _ _ ih => exact ih
  | down _ _ _ ih => exact ih
  | stop => exact Nat.le_refl _
  | jump _ _ _ ih => exact Nat.le_succ_of_le ih

/-- One name leads up, down to an entry of a folder, or through a link. -/
theorem leads_name (h : d.Leads true links spot [name] links' spot') (hn : Plain name) :
    (name = ['.', '.'] ∧ links' = links ∧ spot' = spot.parent) ∨
      (d.Searched spot ∧ links' = links ∧ spot' = spot.child name) ∨ links' < links := by
  cases h with
  | dot => exact absurd rfl hn.ne_dot
  | up _ h =>
    cases h
    exact .inl ⟨rfl, rfl, rfl⟩
  | down hs _ h =>
    cases h
    obtain ⟨-, -, -, entries, listing, hnode, -⟩ := hs
    exact .inr (.inl ⟨⟨entries, listing, hnode⟩, rfl, rfl⟩)
  | stop _ hlast => cases hlast
  | jump _ _ h => exact .inr (.inr (Nat.lt_succ_of_le h.links_le))

theorem length_way_parent (s : Spot) : s.way.length ≤ s.parent.way.length + 1 := by
  cases s with
  | rooted way =>
    show way.length ≤ way.dropLast.length + 1
    rw [List.length_dropLast]
    omega
  | severed tree way parent =>
    cases way with
    | nil => exact Nat.zero_le _
    | cons first way =>
      show (first :: way).length ≤ (first :: way).dropLast.length + 1
      rw [List.length_dropLast]
      omega

/-- A folder has a node below it, if only itself, so it is not as deep as the disk is high. -/
theorem depth_lt_height (hs : d.Holds spot) (h : d.Searched spot) :
    spot.way.length < d.height := by
  obtain ⟨entries, listing, hn⟩ := h
  have hle := hs.depth_le hn
  rw [Node.height] at hle
  omega

end Disk

namespace Live
variable {o : Options} {cs : List Pattern} {name : Text} {live : Live} {m j : Nat}

theorem le_of_mem_advance (hm : ∀ i ∈ live, m ≤ i) (hj : j ∈ advance o cs name live) : m ≤ j := by
  obtain ⟨-, k, -, ⟨i, hi, ht⟩, hs⟩ := (mem_advance o cs).1 hj
  have hkj := ((skips_iff cs).1 hs).1
  have hmi := hm i hi
  obtain ⟨c, -, ⟨-, rfl, -⟩ | ⟨-, rfl, -⟩⟩ := (takes_iff o cs).1 ht
  · exact Nat.le_trans hmi hkj
  · omega

/-- Where only plain names are asked for, each of them uses up a component. -/
theorem lt_of_mem_advance (hl : (live.pending cs).all Pattern.isLiteral = true)
    (hm : ∀ i ∈ live, m ≤ i) (hj : j ∈ advance o cs name live) : m < j := by
  obtain ⟨-, k, -, ⟨i, hi, ht⟩, hs⟩ := (mem_advance o cs).1 hj
  have hkj := ((skips_iff cs).1 hs).1
  have hmi := hm i hi
  obtain ⟨c, hc, ⟨hr, -⟩ | ⟨-, rfl, -⟩⟩ := (takes_iff o cs).1 ht
  · have hlit := List.all_eq_true.1 hl c (List.mem_filterMap.2 ⟨i, hi, hc⟩)
    rw [Pattern.isRecursive_of_isLiteral hlit] at hr
    cases hr
  · omega

end Live

/-! ### Ranks -/

namespace Plan
variable {p : Plan} {d : Disk} {folder : Path} {live : Live} {m m' links links' : Nat}
  {spot spot' : Spot} {n : Text} {children : List Child} {child : Child}

/-- How far a walk can go on from a spot, with so many links left and the components
before `m` used up. -/
def rank (p : Plan) (d : Disk) (m links : Nat) (spot : Spot) : Nat :=
  links * (d.height + 1) + (d.height - spot.way.length) + 2 * (p.components.length - m)

theorem rank_lt_of_links (hm : m ≤ m') (h : links' < links) :
    p.rank d m' links' spot' < p.rank d m links spot := by
  have hmul : (links' + 1) * (d.height + 1) ≤ links * (d.height + 1) :=
    Nat.mul_le_mul_right _ h
  rw [Nat.succ_mul] at hmul
  unfold rank
  omega

/-- One name further the rank is less; a name that leads up has used up a component. -/
theorem rank_lt_of_leads (hs : d.Holds spot) (hn : Plain n) (hm : m ≤ m')
    (hup : n = ['.', '.'] → m < m' ∧ m < p.components.length)
    (h : d.Leads true links spot [n] links' spot') :
    p.rank d m' links' spot' < p.rank d m links spot := by
  rcases Disk.leads_name h hn with ⟨hdots, rfl, rfl⟩ | ⟨hsearch, rfl, rfl⟩ | hlinks
  · have hway := Disk.length_way_parent spot
    have hlt := hup hdots
    unfold rank
    omega
  · have hdepth := Disk.depth_lt_height hs hsearch
    rw [rank, rank, Spot.way_child, List.length_append, List.length_singleton]
    omega
  · exact rank_lt_of_links hm hlinks

/-- **A child of a folder has a lesser rank than the folder.** -/
theorem rank_lt (hd : d.WellNamed) (hp : p.Named) (hf : folder.Named) (hm : ∀ i ∈ live, m ≤ i)
    (h : (p.read d folder live).children = .ok children) (hc : child ∈ children) :
    child.path.Named ∧ (∃ links spot, d.Reaches true folder links spot) ∧
      ∃ m', (∀ j ∈ Live.advance p.options p.components child.path.name live, m' ≤ j) ∧
        ∀ links' spot', d.Reaches true child.path links' spot' →
          ∃ links spot, d.Reaches true folder links spot ∧
            p.rank d m' links' spot' < p.rank d m links spot := by
  obtain ⟨n, links, spot, hn, hpath, hl, hdots⟩ := mem_read hd hp hf h hc
  refine ⟨hpath ▸ hf.concat hn, ⟨links, spot, hl⟩, ?_⟩
  obtain ⟨m', hm', hle, hup⟩ : ∃ m',
      (∀ j ∈ Live.advance p.options p.components child.path.name live, m' ≤ j) ∧ m ≤ m' ∧
        (n = ['.', '.'] → m < m' ∧ m < p.components.length) := by
    by_cases hn : n = ['.', '.']
    · obtain ⟨hprobes, c, hcp, -⟩ := hdots hn
      obtain ⟨i, hi, hci⟩ := List.mem_filterMap.1 hcp
      have hlt : m < p.components.length :=
        Nat.lt_of_le_of_lt (hm i hi) (List.getElem?_eq_some_iff.1 hci).1
      simp only [probes, Bool.and_eq_true] at hprobes
      exact ⟨m + 1, fun j hj => Live.lt_of_mem_advance hprobes.2 hm hj, Nat.le_succ m,
        fun _ => ⟨Nat.lt_succ_self m, hlt⟩⟩
    · exact ⟨m, fun j hj => Live.le_of_mem_advance hm hj, Nat.le_refl m, fun h => absurd h hn⟩
  refine ⟨m', hm', fun links' spot' h' => ?_⟩
  rw [hpath] at h'
  obtain ⟨links, spot, hl, hs⟩ := Disk.reaches_of_concat h'
  exact ⟨links, spot, hl, rank_lt_of_leads hl.holds hn hle hup hs⟩

end Plan

/-! ### What a turn leads to -/

/-- An arrival where no position is live is neither a result nor a way on. -/
theorem Plan.arrive_nil (p : Plan) (reported : Bool) (path : Path) (isFolder : Bool) :
    p.arrive reported path isFolder [] = {} := by
  simp [arrive, accepts, descends, Live.isFinal, Live.pending]

namespace Task
variable {p : Plan} {d : Disk} {folder : Path} {live : Live} {m b : Nat} {child : Child} {u : Task}

theorem next_arrive {reported isFolder : Bool} {path : Path}
    (h : u ∈ (p.arrive reported path isFolder live).next) : u = .expand path live := by
  change u ∈ if p.descends live isFolder then [expand path live] else [] at h
  split at h
  · exact List.mem_singleton.1 h
  · cases h

/-- Arriving at a path asks nothing, and finds the path at most. -/
theorem eq_of_mem_arrive {reported isFolder : Bool} {path : Path} {e : Event}
    (h : e ∈ (p.arrive reported path isFolder live).events) : e = .found (.success path) := by
  rw [Turn.events, Plan.arrive] at h
  split at h
  · exact List.mem_singleton.1 h
  · cases h

theorem mem_next_arrive {reported isFolder : Bool} {path : Path}
    (h : p.descends live isFolder = true) :
    expand path live ∈ (p.arrive reported path isFolder live).next := by
  show _ ∈ if _ then _ else _
  rw [if_pos h]
  exact List.mem_cons_self

theorem next_visit (h : u ∈ ((visit child live).run p d).next) :
    u = .expand child.path (Live.advance p.options p.components child.path.name live) := by
  rw [run] at h
  split at h
  · cases h
  · exact next_arrive h

theorem next_start (h : u ∈ (start.run p d).next) :
    u = .expand p.root (Live.start p.components) := by
  rw [run] at h
  split at h
  · exact next_arrive h
  · cases h

theorem next_expand (h : u ∈ ((expand folder live).run p d).next) :
    ∃ children child, (p.read d folder live).children = .ok children ∧ child ∈ children ∧
      u = .visit child live := by
  rw [run] at h
  cases hr : (p.read d folder live).children with
  | error e =>
    simp only [hr] at h
    cases h
  | ok children =>
    simp only [hr, List.mem_map] at h
    obtain ⟨child, hc, rfl⟩ := h
    exact ⟨children, child, rfl, hc, rfl⟩

theorem calls_expand (folder : Path) (live : Live) :
    ((expand folder live).run p d).calls = (p.read d folder live).calls := by
  rw [run]
  cases (p.read d folder live).children <;> rfl

/-- Only by reading a folder anything is asked. -/
theorem eq_expand_of_call {t : Task} {c : Call} (h : .call c ∈ (t.run p d).events) :
    ∃ folder live, t = .expand folder live ∧ c ∈ (p.read d folder live).calls := by
  cases t with
  | start =>
    rw [run] at h
    split at h
    · cases eq_of_mem_arrive h
    · cases h
  | visit child live =>
    rw [run] at h
    split at h
    · cases List.mem_singleton.1 h
    · cases eq_of_mem_arrive h
  | expand folder live =>
    refine ⟨folder, live, rfl, ?_⟩
    rw [← calls_expand]
    simpa [Turn.events] using h

/-! ### What a turn finds -/

theorem found_mem_arrive {reported isFolder : Bool} {path : Path} {f : Finding} :
    .found f ∈ (p.arrive reported path isFolder live).events ↔
      f = .success path ∧ reported = true ∧ p.accepts live isFolder = true := by
  rw [Turn.events, Plan.arrive]
  cases reported <;> cases p.accepts live isFolder <;> simp

theorem found_mem_start {f : Finding} : .found f ∈ (start.run p d).events ↔
    d.exists? p.root.text = true ∧ f = .success p.root ∧ p.includesRoot = true ∧
      p.accepts (Live.start p.components) (d.isFolder p.root.text) = true := by
  rw [run]
  split
  case isTrue hroot => rw [found_mem_arrive, and_iff_right hroot]
  case isFalse hroot => exact iff_of_false List.not_mem_nil fun hq => hroot hq.1

theorem found_mem_visit {f : Finding} : .found f ∈ ((visit child live).run p d).events ↔
    (∃ e, child.error = some e ∧ f = .failure child.path e) ∨
      child.error = none ∧ f = .success child.path ∧
        p.accepts (Live.advance p.options p.components child.path.name live) child.isFolder = true := by
  rw [run]
  cases child.error with
  | some e => simp [Turn.events]
  | none => exact found_mem_arrive.trans (by simp)

theorem found_mem_expand {f : Finding} : .found f ∈ ((expand folder live).run p d).events ↔
    ∃ e, (p.read d folder live).children = .error e ∧ f = .failure folder e := by
  rw [run]
  cases hr : (p.read d folder live).children <;> simp [Turn.events]

/-! ### Rows of tasks -/

/-- Reading a folder and what lies below it ends, as its rank is less than a number. -/
theorem ends_expand (hd : d.WellNamed) (hp : p.Named) (hf : folder.Named) (hm : ∀ i ∈ live, m ≤ i)
    (hb : ∀ links spot, d.Reaches true folder links spot → p.rank d m links spot < b) :
    Ends p d (2 * b + 1) (.expand folder live) := by
  induction b generalizing folder live m with
  | zero =>
    intro u hu
    obtain ⟨children, child, hr, hc, rfl⟩ := next_expand hu
    obtain ⟨-, ⟨links, spot, hl⟩, -⟩ := Plan.rank_lt hd hp hf hm hr hc
    exact absurd (hb links spot hl) (Nat.not_lt_zero _)
  | succ b ih =>
    intro u hu
    obtain ⟨children, child, hr, hc, rfl⟩ := next_expand hu
    obtain ⟨hf', -, m', hm', hless⟩ := Plan.rank_lt hd hp hf hm hr hc
    intro v hv
    rw [next_visit hv]
    refine ih hf' hm' fun links' spot' h' => ?_
    obtain ⟨links, spot, hl, hlt⟩ := hless links' spot' h'
    exact Nat.lt_of_lt_of_le hlt (Nat.le_of_lt_succ (hb links spot hl))

/-- **There is room for every row of tasks of a walk.** -/
theorem ends_start (hd : d.WellNamed) (hp : p.Named) : Ends p d (p.room d) .start := by
  obtain ⟨b, hb⟩ : ∃ b, (Disk.linkLimit + 1) * (d.height + 1) + 2 * p.components.length = b :=
    ⟨_, rfl⟩
  have hroot : Ends p d (2 * b + 1) (.expand p.root (Live.start p.components)) := by
    refine ends_expand hd hp hp.root (fun i _ => Nat.zero_le i) fun links spot hl => ?_
    have hmul : links * (d.height + 1) ≤ Disk.linkLimit * (d.height + 1) :=
      Nat.mul_le_mul_right _ hl.links_le
    rw [Nat.succ_mul] at hb
    unfold Plan.rank
    omega
  have hstart : Ends p d (2 * b + 2) .start := fun u hu => next_start hu ▸ hroot
  apply hstart.mono
  rw [Plan.room, hb]
  omega

end Task
end PathGlob
