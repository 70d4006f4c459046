import PathGlob.Proofs.Walk.Pulled

/-! Walks that keep abreast.

Two plans may do the same, or nearly so, at every task of one walk and some task of the other. If
each pair of turns leads to pairs of tasks of the same kind, this carries over to all that comes of
the first tasks. The turns are the same (`Plan.events_congr`), or the second walk asks the same and
keeps some of the findings of the first (`Plan.events_abreast`). -/
namespace PathGlob

/-! ### The same turns -/

theorem Haul.each_congr {work work' : Option Nat → Task → Haul} {ts : List Task}
    (h : ∀ t ∈ ts, ∀ wanted, work' wanted t = work wanted t) (wanted : Option Nat) :
    Haul.each work' wanted ts = Haul.each work wanted ts := by
  induction ts generalizing wanted with
  | nil => rfl
  | cons t ts ih =>
    obtain ⟨ht, hts⟩ := List.forall_mem_cons.1 h
    simp only [each, ht, ih hts]

section
variable {p q : Plan} {d : Disk} {P : Task → Prop} (hrun : ∀ t, P t → t.run q d = t.run p d)
  (hnext : ∀ t, P t → ∀ u ∈ (t.run p d).next, P u)
include hrun hnext

/-- Where the turns of two plans are the same, and tasks lead to tasks where they are, so are the
pulls. -/
theorem Task.pull_congr {t : Task} (ht : P t) (room : Nat) (wanted : Option Nat) :
    t.pull q d room wanted = t.pull p d room wanted := by
  induction room generalizing t wanted with
  | zero => rfl
  | succ room ih =>
    have hbelow := fun wanted =>
      Haul.each_congr (fun u hu wanted => ih (hnext t ht u hu) wanted) wanted
    simp only [pull, hrun t ht, hbelow]

theorem Plan.events_congr (hstart : P .start) (hroom : q.room d = p.room d) :
    q.events d = p.events d := by
  have hpull := fun wanted => Task.pull_congr hrun hnext hstart (p.room d) wanted
  show (Haul.each (Task.pull q d (q.room d)) none [.start]).events = _
  rw [hroom, Haul.each_congr fun t ht => List.mem_singleton.1 ht ▸ hpull]
  rfl

end

/-! ### Fewer findings -/

namespace Event
variable {keep : Finding → Bool} {es : List Event}

/-- Whether an event stays where some findings are left out. What is asked stays. -/
def stays (keep : Finding → Bool) : Event → Bool
  | call _ => true
  | found f => keep f

theorem findings_stays : findings (es.filter (stays keep)) = (findings es).filter keep := by
  induction es with
  | nil => rfl
  | cons e es ih =>
    cases e with
    | call c => exact ih
    | found f =>
      show findings (List.filter (stays keep) (found f :: es)) = (f :: findings es).filter keep
      cases hf : keep f with
      | true =>
        have hstays : stays keep (found f) = true := hf
        rw [List.filter_cons_of_pos hstays, List.filter_cons_of_pos hf, ← ih]
        rfl
      | false =>
        have hstays : ¬stays keep (found f) = true := by simp [stays, hf]
        rw [List.filter_cons_of_neg hstays, List.filter_cons_of_neg (by simp [hf]), ih]

theorem calls_stays : calls (es.filter (stays keep)) = calls es := by
  induction es with
  | nil => rfl
  | cons e es ih =>
    cases e with
    | call c => exact congrArg (c :: ·) ih
    | found f =>
      rw [List.filter_cons]
      split
      · exact ih
      · exact ih

end Event

/-- The second turn asks what the first asks and finds what the first finds, if that is kept, and
the tasks that they lead to are related one by one. -/
structure Turn.Abreast (r : Task → Task → Prop) (keep : Finding → Bool) (turn turn' : Turn) :
    Prop where
  calls : turn'.calls = turn.calls
  finding : turn'.finding = turn.finding.filter keep
  next : List.Forall₂ r turn.next turn'.next

theorem Turn.Abreast.events {r : Task → Task → Prop} {keep : Finding → Bool} {turn turn' : Turn}
    (h : Abreast r keep turn turn') : turn'.events = turn.events.filter (Event.stays keep) := by
  have hcalls : (turn.calls.map Event.call).filter (Event.stays keep) = turn.calls.map Event.call :=
    List.filter_eq_self.2 fun e he => by
      obtain ⟨c, -, rfl⟩ := List.mem_map.1 he
      rfl
  rw [Turn.events, Turn.events, List.filter_append, hcalls, h.calls, h.finding]
  refine congrArg _ ?_
  cases turn.finding with
  | none => rfl
  | some f => cases hf : keep f <;> simp [Event.stays, Option.filter, hf]

section
variable {p q : Plan} {d : Disk} {r : Task → Task → Prop} {keep : Finding → Bool} {t t' : Task}
  {live live' : Live} {n : Nat}

/-- Arrivals keep abreast where the second plan accepts what is accepted and kept, and goes on
where the first does. -/
theorem Plan.abreast_arrive {isFolder : Bool} {path : Path} (reported : Bool)
    (haccepts : q.accepts live' isFolder = (p.accepts live isFolder && keep (.success path)))
    (hdescends : q.descends live' isFolder = p.descends live isFolder)
    (hnext : r (.expand path live) (.expand path live')) :
    Turn.Abreast r keep (p.arrive reported path isFolder live)
      (q.arrive reported path isFolder live') := by
  refine ⟨rfl, ?_, ?_⟩
  · rw [arrive, arrive, haccepts]
    cases reported <;> cases p.accepts live isFolder <;> cases hk : keep (.success path) <;>
      simp [Option.filter, hk]
  · rw [arrive, arrive, hdescends]
    cases p.descends live isFolder with
    | true => exact .cons hnext .nil
    | false => exact .nil

/-- Readings that are the same keep abreast where failures are kept. -/
theorem Task.abreast_expand {folder : Path} (hread : q.read d folder live' = p.read d folder live)
    (hkeep : ∀ e, keep (.failure folder e) = true)
    (hchild : ∀ children, (p.read d folder live).children = .ok children → ∀ child ∈ children,
      r (.visit child live) (.visit child live')) :
    Turn.Abreast r keep ((expand folder live).run p d) ((expand folder live').run q d) := by
  rw [run, run, hread]
  cases hr : (p.read d folder live).children with
  | error e => exact ⟨rfl, by simp [Option.filter, hkeep], .nil⟩
  | ok children =>
    refine ⟨rfl, rfl, ?_⟩
    rw [List.forall₂_map_left_iff, List.forall₂_map_right_iff]
    exact List.forall₂_same.2 (hchild children hr)

variable (hturn : ∀ {t t'}, r t t' → Turn.Abreast r keep (t.run p d) (t'.run q d))
include hturn

/-- **What comes of related tasks is the same but for the findings that are not kept.** -/
theorem Task.events_abreast (ht : r t t') :
    events q d n t' = (events p d n t).filter (Event.stays keep) := by
  induction n generalizing t t' with
  | zero => rfl
  | succ n ih =>
    have habreast := hturn ht
    rw [events, events, List.filter_append, habreast.events]
    refine congrArg _ ?_
    have hnext := habreast.next
    generalize (t.run p d).next = ts at hnext
    generalize (t'.run q d).next = us at hnext
    induction hnext with
    | nil => rfl
    | cons hu _ ihnext =>
      rw [List.flatMap_cons, List.flatMap_cons, List.filter_append, ih hu, ihnext]

theorem Plan.events_abreast (hstart : r .start .start) (hd : d.WellNamed) (hp : p.Named)
    (hq : q.Named) : q.events d = (p.events d).filter (Event.stays keep) := by
  have hends := Task.ends_start hd hp
  have hends' := Task.ends_start hd hq
  rw [Plan.events_eq hends, Plan.events_eq hends',
    ← Task.events_of_ends hends (Nat.le_max_left _ (q.room d)),
    ← Task.events_of_ends hends' (Nat.le_max_right (p.room d) _), Task.events_abreast hturn hstart]

end
end PathGlob
