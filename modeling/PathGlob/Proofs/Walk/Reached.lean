import Mathlib.Logic.Relation
import PathGlob.Proofs.Walk.Pulled

/-! The tasks that a walk works on.

All that happens in a walk happens in the turn of a task that its first task leads to
(`Plan.exists_leads_of_mem`), and where rows of tasks end every such turn is taken
(`Plan.mem_events_iff`). So what each turn owes is shown of a walk by a property that the
first task has and that every task hands on to those it leads to. -/
namespace PathGlob

/-- Working on the one task leads to the other, at once or by tasks in between. -/
abbrev Task.LeadsTo (p : Plan) (d : Disk) : Task → Task → Prop :=
  Relation.ReflTransGen fun t u => u ∈ (t.run p d).next

theorem Haul.exists_of_mem_each {work : Option Nat → Task → Haul} {wanted : Option Nat}
    {ts : List Task} {e : Event} (h : e ∈ (Haul.each work wanted ts).events) :
    ∃ t ∈ ts, ∃ wanted, e ∈ (work wanted t).events := by
  induction ts generalizing wanted with
  | nil => cases h
  | cons t ts ih =>
    rcases List.mem_append.1 h with h | h
    · exact ⟨t, List.mem_cons_self, wanted, h⟩
    · obtain ⟨u, hu, hw⟩ := ih h
      exact ⟨u, List.mem_cons_of_mem t hu, hw⟩

namespace Task
variable {p : Plan} {d : Disk} {n : Nat} {t u : Task} {e : Event}

/-- What comes of pulls at a task happens in a turn of one that it leads to. -/
theorem exists_leads_of_mem_pull {room : Nat} {wanted : Option Nat}
    (h : e ∈ (Task.pull p d room wanted t).events) :
    ∃ u, LeadsTo p d t u ∧ e ∈ (u.run p d).events := by
  induction room generalizing wanted t with
  | zero => cases h
  | succ room ih =>
    rw [pull] at h
    split at h
    · cases h
    · rcases List.mem_append.1 h with h | h
      · exact ⟨t, .refl, h⟩
      · obtain ⟨v, hv, wanted', he⟩ := Haul.exists_of_mem_each h
        obtain ⟨u, hu, he⟩ := ih he
        exact ⟨u, .head hv hu, he⟩

/-- Where rows of tasks end, all that a task leads to has its turn. -/
theorem mem_events_of_leads (hu : LeadsTo p d t u) (h : Ends p d n t)
    (he : e ∈ (u.run p d).events) : e ∈ events p d n t := by
  induction hu using Relation.ReflTransGen.head_induction_on generalizing n with
  | refl =>
    rw [events_eq h]
    exact List.mem_append_left _ he
  | head hnext _ ih =>
    cases n with
    | zero => exact h.elim
    | succ n =>
      rw [events]
      exact List.mem_append_right _ (List.mem_flatMap_of_mem hnext (ih (h _ hnext)))

end Task

namespace Plan
variable {p : Plan} {d : Disk} {e : Event}

theorem exists_leads_of_mem (h : e ∈ p.events d) :
    ∃ u, Task.LeadsTo p d .start u ∧ e ∈ (u.run p d).events := by
  obtain ⟨t, ht, wanted, he⟩ := Haul.exists_of_mem_each h
  obtain rfl := List.mem_singleton.1 ht
  exact Task.exists_leads_of_mem_pull he

/-- **What happens in a walk is what happens in the turns of the tasks that it starts.** -/
theorem mem_events_iff (h : Task.Ends p d (p.room d) .start) :
    e ∈ p.events d ↔ ∃ u, Task.LeadsTo p d .start u ∧ e ∈ (u.run p d).events := by
  refine ⟨exists_leads_of_mem, fun hq => ?_⟩
  obtain ⟨u, hu, he⟩ := hq
  rw [events_eq h]
  exact Task.mem_events_of_leads hu h he

end Plan
end PathGlob
