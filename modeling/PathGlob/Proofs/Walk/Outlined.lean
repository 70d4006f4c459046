import Mathlib.Data.List.Basic
import PathGlob.Proofs.Walk.Finite
import PathGlob.Walk.Outline

/-! All that happens in a walk is its outline.

What comes of a task is what it does itself, and then what comes of the tasks that it
leads to. Where rows of tasks end, this is the outline by recursion on the tree, and the
tree has no other (`whole_iff`). -/
namespace PathGlob

namespace Task
variable {p : Plan} {d : Disk} {n : Nat} {t u : Task}

/-- All that comes of a task, in order, if no row of tasks from it on is longer. -/
def events (p : Plan) (d : Disk) : Nat → Task → List Event
  | 0, _ => []
  | n + 1, t => (t.run p d).events ++ (t.run p d).next.flatMap (events p d n)

/-- More room than is needed changes nothing. -/
theorem events_of_ends {n' : Nat} (h : Ends p d n t) (hn : n ≤ n') :
    events p d n' t = events p d n t := by
  induction n' generalizing n t with
  | zero => rw [Nat.le_zero.1 hn]
  | succ n' ih =>
    cases n with
    | zero => exact h.elim
    | succ n =>
      have hnext : (t.run p d).next.flatMap (events p d n') =
          (t.run p d).next.flatMap (events p d n) :=
        List.flatMap_congr fun u hu => ih (h u hu) (Nat.le_of_succ_le_succ hn)
      rw [events, events, hnext]

/-- What comes of a task is what it does and what comes of those it leads to. -/
theorem events_eq (h : Ends p d n t) :
    events p d n t = (t.run p d).events ++ (t.run p d).next.flatMap (events p d n) := by
  cases n with
  | zero => exact h.elim
  | succ n =>
    have hnext : (t.run p d).next.flatMap (events p d (n + 1)) =
        (t.run p d).next.flatMap (events p d n) :=
      List.flatMap_congr fun u hu => events_of_ends (h u hu) (Nat.le_succ n)
    rw [hnext, events]

end Task

namespace Outline
variable {p : Plan} {d : Disk} {n : Nat} {path : Path} {live : Live} {child : Child}
  {children rest : List Child} {es : List Event}

theorem events_arrive (reported isFolder : Bool) (path : Path) (live : Live) :
    (p.arrive reported path isFolder live).events = own p reported path isFolder live := by
  unfold own Plan.arrive Turn.events Plan.accepts
  cases reported <;> cases live.isFinal p.components <;> cases isFolder || !p.foldersOnly <;> rfl

/-- A path is outlined by its own result and what comes of the tasks that it leads to. -/
theorem arrival_iff {reported isFolder : Bool}
    (ih : Task.Ends p d n (.expand path live) → ∀ es,
      Folder p d path live es ↔ es = Task.events p d n (.expand path live))
    (h : ∀ u ∈ (p.arrive reported path isFolder live).next, Task.Ends p d n u) :
    Arrival p d reported path isFolder live es ↔
      es = (p.arrive reported path isFolder live).events ++
        (p.arrive reported path isFolder live).next.flatMap (Task.events p d n) := by
  rw [events_arrive]
  change (∀ u ∈ if p.descends live isFolder then [Task.expand path live] else [], _) at h
  show _ ↔ es = _ ++ (if p.descends live isFolder then [Task.expand path live] else []).flatMap _
  by_cases hdown : p.descends live isFolder = true
  · rw [if_pos hdown] at h ⊢
    rw [List.flatMap_singleton]
    simp only [Plan.descends, Bool.and_eq_true, Bool.not_eq_true', List.isEmpty_eq_false_iff] at hdown
    obtain ⟨rfl, hpending⟩ := hdown
    have hfolder := ih (h _ List.mem_cons_self)
    constructor
    · intro ha
      cases ha with
      | leaf hleaf => simp [hpending] at hleaf
      | folder _ hf => rw [(hfolder _).1 hf]
    · intro hq
      subst hq
      exact .folder hpending ((hfolder _).2 rfl)
  · rw [if_neg hdown, List.flatMap_nil, List.append_nil]
    constructor
    · intro ha
      cases ha with
      | leaf hleaf => rfl
      | folder hpending _ => simp [Plan.descends, hpending] at hdown
    · intro hq
      subst hq
      apply Arrival.leaf
      simpa [Plan.descends, Classical.or_iff_not_imp_left] using hdown

/-- Children are outlined one after the other. -/
theorem children_iff (ih : ∀ child rest es, Task.Ends p d n (.visit child live) →
      (Children p d live (child :: rest) es ↔
        ∃ es', Children p d live rest es' ∧ es = Task.events p d n (.visit child live) ++ es'))
    (h : ∀ u ∈ children.map (Task.visit · live), Task.Ends p d n u) :
    Children p d live children es ↔
      es = (children.map (Task.visit · live)).flatMap (Task.events p d n) := by
  induction children generalizing es with
  | nil =>
    constructor
    · intro hc
      cases hc
      rfl
    · intro hq
      subst hq
      exact .nil
  | cons child rest ihc =>
    rw [List.map_cons] at h ⊢
    obtain ⟨hchild, hrest⟩ := List.forall_mem_cons.1 h
    rw [ih child rest es hchild, List.flatMap_cons]
    constructor
    · intro hq
      obtain ⟨es', hes, rfl⟩ := hq
      rw [(ihc hrest).1 hes]
    · intro hq
      subst hq
      exact ⟨_, (ihc hrest).2 rfl, rfl⟩

/-- A folder is outlined by what is asked about it and the outline of its children. -/
theorem folder_iff (ih : ∀ child rest es, Task.Ends p d n (.visit child live) →
      (Children p d live (child :: rest) es ↔
        ∃ es', Children p d live rest es' ∧ es = Task.events p d n (.visit child live) ++ es'))
    (h : Task.Ends p d (n + 1) (.expand path live)) (es : List Event) :
    Folder p d path live es ↔ es = Task.events p d (n + 1) (.expand path live) := by
  rw [Task.events]
  change (∀ u ∈ ((Task.expand path live).run p d).next, _) at h
  cases hr : (p.read d path live).children with
  | error e =>
    simp only [Task.run, hr]
    constructor
    · intro hf
      cases hf with
      | refused he =>
        cases hr.symm.trans he
        simp [Turn.events]
      | opened ho => cases hr.symm.trans ho
    · intro hq
      subst hq
      simpa [Turn.events] using Folder.refused hr
  | ok children =>
    simp only [Task.run, hr] at h ⊢
    rw [Turn.events, Option.map_none, Option.toList_none, List.append_nil]
    constructor
    · intro hf
      cases hf with
      | refused he => cases hr.symm.trans he
      | opened ho hc =>
        cases hr.symm.trans ho
        rw [(children_iff ih h).1 hc]
    · intro hq
      subst hq
      exact .opened hr ((children_iff ih h).2 rfl)

/-- A child is outlined before those that come after it. -/
theorem children_cons_iff (ih : ∀ path live, Task.Ends p d n (.expand path live) → ∀ es,
      Folder p d path live es ↔ es = Task.events p d n (.expand path live))
    (h : Task.Ends p d (n + 1) (.visit child live)) :
    Children p d live (child :: rest) es ↔
      ∃ es', Children p d live rest es' ∧
        es = Task.events p d (n + 1) (.visit child live) ++ es' := by
  rw [Task.events]
  change (∀ u ∈ ((Task.visit child live).run p d).next, _) at h
  cases he : child.error with
  | some e =>
    simp only [Task.run, he]
    constructor
    · intro hc
      cases hc with
      | unreadable he' hrest =>
        cases he.symm.trans he'
        exact ⟨_, hrest, rfl⟩
      | readable he' => cases he.symm.trans he'
    · intro hq
      obtain ⟨es', hrest, rfl⟩ := hq
      exact .unreadable he hrest
  | none =>
    simp only [Task.run, he] at h ⊢
    constructor
    · intro hc
      cases hc with
      | unreadable he' => cases he.symm.trans he'
      | readable _ ha hrest =>
        refine ⟨_, hrest, ?_⟩
        rw [(arrival_iff (ih _ _) h).1 ha]
    · intro hq
      obtain ⟨es', hrest, rfl⟩ := hq
      exact .readable he ((arrival_iff (ih _ _) h).2 rfl) hrest

theorem outline_iff (n : Nat) :
    (∀ path live, Task.Ends p d n (.expand path live) → ∀ es,
      Folder p d path live es ↔ es = Task.events p d n (.expand path live)) ∧
    (∀ live child rest es, Task.Ends p d n (.visit child live) →
      (Children p d live (child :: rest) es ↔
        ∃ es', Children p d live rest es' ∧ es = Task.events p d n (.visit child live) ++ es')) := by
  induction n with
  | zero => exact ⟨fun _ _ h => h.elim, fun _ _ _ _ h => h.elim⟩
  | succ n ih =>
    exact ⟨fun path live h => folder_iff (ih.2 live) h,
      fun live child rest es h => children_cons_iff ih.1 h⟩

/-- **A tree on which a walk ends has one outline: all that comes of the first task.** -/
theorem whole_iff (h : Task.Ends p d n .start) : Whole p d es ↔ es = Task.events p d n .start := by
  cases n with
  | zero => exact h.elim
  | succ n =>
    change (∀ u ∈ (Task.start.run p d).next, _) at h
    rw [Task.events]
    by_cases he : d.exists? p.root.text = true
    · simp only [Task.run, he, if_true] at h ⊢
      rw [← arrival_iff ((outline_iff n).1 _ _) h]
      constructor
      · intro hw
        cases hw with
        | absent he' => simp [he] at he'
        | present _ ha => exact ha
      · exact .present he
    · simp only [Task.run, he]
      constructor
      · intro hw
        cases hw with
        | absent => rfl
        | present he' => exact absurd he' he
      · intro hq
        subst hq
        exact .absent (Bool.not_eq_true _ ▸ he)

end Outline
end PathGlob
