import PathGlob.Proofs.Walk.Pulled

/-! A walk is over after finitely many turns.

Links may lead back to where a walk came from, and no record is kept of where it has
been. So the tasks of a walk are worked on here one turn at a time, and nothing bounds how
far they lead (`Walk.turns`). A pull takes some of these turns, up to the one that finds
the last result wanted, and the next pull goes on with what is left of the agenda
(`Walk.turns_rest`). As each row of tasks ends, so does the agenda; what has happened by
then is all that a pull without a limit tells (`exists_turns`). -/
namespace PathGlob

namespace Walk
variable {p : Plan} {d : Disk}

/-- What happens in so many turns of an agenda, and what is left of it then. Each turn is
that of the first task, and the tasks that it leads to take its place. -/
def turns (p : Plan) (d : Disk) : Nat → List Task → List Event × List Task
  | 0, ts => ([], ts)
  | _ + 1, [] => ([], [])
  | n + 1, t :: ts =>
    let later := turns p d n ((t.run p d).next ++ ts)
    ((t.run p d).events ++ later.1, later.2)

theorem turns_nil (n : Nat) : turns p d n [] = ([], []) := by
  cases n <;> rfl

/-- Turns go on where those before them have left the agenda. -/
theorem turns_add (n m : Nat) (ts : List Task) :
    turns p d (n + m) ts =
      ((turns p d n ts).1 ++ (turns p d m (turns p d n ts).2).1,
        (turns p d m (turns p d n ts).2).2) := by
  induction n generalizing ts with
  | zero => rw [Nat.zero_add, turns, List.nil_append]
  | succ n ih =>
    cases ts with
    | nil => rw [turns_nil, turns_nil, turns_nil, List.nil_append]
    | cons t ts => rw [Nat.succ_add, turns, turns, ih, List.append_assoc]

end Walk

/-! ### Pulls as turns -/

/-- The haul off an agenda is what some turns of it come to, whatever tasks stand behind.
Before each of these turns something is wanted still; after them nothing is, or nothing is
left of the agenda. -/
structure Haul.Worked (p : Plan) (d : Disk) (wanted : Option Nat) (us : List Task) (h : Haul) :
    Prop where
  unmet : h.wanted = Event.unmet wanted h.events
  left : h.wanted ≠ some 0 → h.left = []
  turns : ∀ ts, ∃ n, Walk.turns p d n (us ++ ts) = (h.events, h.left ++ ts) ∧
    ∀ m < n, Event.unmet wanted (Walk.turns p d m (us ++ ts)).1 ≠ some 0

section
variable {p : Plan} {d : Disk} {wanted : Option Nat} {us : List Task} {h : Haul}

/-- No turn is needed where nothing is wanted or nothing is left. -/
theorem Haul.worked_idle (h : wanted = some 0 ∨ us = []) :
    Worked p d wanted us ⟨[], wanted, us⟩ where
  unmet := (Event.unmet_nil wanted).symm
  left hne := h.resolve_left hne
  turns _ := ⟨0, rfl, fun m hm => absurd hm (Nat.not_lt_zero m)⟩

/-- Where nothing is wanted, no turn is taken. -/
theorem Haul.Worked.of_zero (hw : Worked p d (some 0) us h) : h = ⟨[], some 0, us⟩ := by
  obtain ⟨n, hn, hearly⟩ := hw.turns []
  obtain rfl : n = 0 := by
    refine Nat.eq_zero_of_not_pos fun hpos => hearly 0 hpos ?_
    exact Event.unmet_nil (some 0)
  obtain ⟨hevents, hleft⟩ := Prod.mk.inj hn
  rw [List.append_nil, List.append_nil] at hleft
  have hwanted := hw.unmet
  rw [← hevents] at hwanted
  cases h
  cases hevents
  cases hleft
  cases hwanted
  rfl

theorem Haul.Worked.each {work : Option Nat → Task → Haul}
    (hus : ∀ u ∈ us, ∀ wanted, Worked p d wanted [u] (work wanted u)) (wanted : Option Nat) :
    Worked p d wanted us (Haul.each work wanted us) := by
  induction us generalizing wanted with
  | nil => exact worked_idle (.inr rfl)
  | cons u us ih =>
    obtain ⟨hu, hus⟩ := List.forall_mem_cons.1 hus
    have hfirst := hu wanted
    have hrest := ih hus (work wanted u).wanted
    rw [Haul.each]
    refine ⟨?_, fun hne => ?_, fun ts => ?_⟩
    · rw [Event.unmet_append, ← hfirst.unmet, hrest.unmet]
    · have hmore : (work wanted u).wanted ≠ some 0 := by
        intro hzero
        rw [hzero] at hne hrest
        exact hne (congrArg Haul.wanted hrest.of_zero)
      show (work wanted u).left ++ (Haul.each work (work wanted u).wanted us).left = []
      rw [hfirst.left hmore, hrest.left hne, List.append_nil]
    · obtain ⟨n, hn, hearly⟩ := hfirst.turns (us ++ ts)
      rw [List.singleton_append] at hn hearly
      by_cases hzero : (work wanted u).wanted = some 0
      · -- The first task has found all that was wanted: the others are left as they are.
        rw [hzero] at hrest ⊢
        refine ⟨n, ?_, hearly⟩
        rw [hrest.of_zero, List.cons_append, hn, List.append_nil, List.append_assoc]
      · obtain ⟨k, hk, hlate⟩ := hrest.turns ts
        rw [hfirst.left hzero, List.nil_append] at hn ⊢
        refine ⟨n + k, ?_, fun m hm => ?_⟩
        · rw [List.cons_append, Walk.turns_add, hn, hk]
        · by_cases hmn : m < n
          · exact hearly m hmn
          · obtain ⟨i, rfl⟩ := Nat.exists_eq_add_of_le (Nat.le_of_not_lt hmn)
            rw [List.cons_append, Walk.turns_add, hn, Event.unmet_append, ← hfirst.unmet]
            exact hlate i (Nat.lt_of_add_lt_add_left hm)

/-- **A task from which all rows end takes finitely many turns, up to the one that finds
the last result wanted.** -/
theorem Task.worked_pull {room : Nat} {t : Task} (ht : t.Ends p d room) (wanted : Option Nat) :
    Haul.Worked p d wanted [t] (Task.pull p d room wanted t) := by
  induction room generalizing t wanted with
  | zero => exact ht.elim
  | succ room ih =>
    rw [pull]
    by_cases hw : wanted = some 0
    · rw [if_pos hw, hw]
      exact Haul.worked_idle (.inl rfl)
    · rw [if_neg hw]
      have hnext : ∀ u ∈ (t.run p d).next, ∀ wanted,
          Haul.Worked p d wanted [u] (pull p d room wanted u) := fun u hu => ih (ht u hu)
      have hbelow := Haul.Worked.each hnext
        (if (t.run p d).finding.isSome then wanted.map (· - 1) else wanted)
      have hunmet : Event.unmet wanted (t.run p d).events = _ := Event.unmet_turn wanted _ _
      refine ⟨?_, hbelow.left, fun ts => ?_⟩
      · show (Haul.each _ _ _).wanted = Event.unmet wanted (_ ++ _)
        rw [hbelow.unmet, Event.unmet_append, hunmet]
      · obtain ⟨n, hn, hearly⟩ := hbelow.turns ts
        refine ⟨n + 1, ?_, fun m hm => ?_⟩
        · rw [List.singleton_append, Walk.turns, hn]
        · cases m with
          | zero => rwa [Walk.turns, Event.unmet_nil]
          | succ m =>
            rw [List.singleton_append, Walk.turns, Event.unmet_append, hunmet]
            exact hearly m (Nat.lt_of_succ_lt_succ hm)

end

namespace Walk
variable {p : Plan} {d : Disk}

/-- What is left of a walk after several pulls in turn. -/
def rest (d : Disk) : List (Option Nat) → Walk → Walk
  | [], w => w
  | wanted :: more, w => rest d more { w with tasks := (w.pull d wanted).left }

theorem plan_rest (before : List (Option Nat)) (w : Walk) : (w.rest d before).plan = w.plan := by
  induction before generalizing w with
  | nil => rfl
  | cons wanted more ih => exact ih _

theorem ends_rest {w : Walk} (h : ∀ t ∈ w.tasks, t.Ends w.plan d (w.plan.room d))
    (before : List (Option Nat)) :
    ∀ t ∈ (w.rest d before).tasks, t.Ends w.plan d (w.plan.room d) := by
  induction before generalizing w with
  | nil => exact h
  | cons wanted more ih => exact ih (cuts_pull h wanted).ends

theorem worked_pull {w : Walk} (h : ∀ t ∈ w.tasks, t.Ends w.plan d (w.plan.room d))
    (wanted : Option Nat) : Haul.Worked w.plan d wanted w.tasks (w.pull d wanted) :=
  Haul.Worked.each (fun t ht => Task.worked_pull (h t ht)) wanted

/-- **Each of several pulls takes up the agenda where those before it have left it.** It
goes on with the turns of that agenda as long as something is wanted, and leaves what is
left after the turn that finds the last result wanted. -/
theorem turns_rest {o : Options} {source : Text} (hp : Plan.ofSource o source = .ok p)
    (hd : d.WellNamed) (before : List (Option Nat)) (wanted : Option Nat) :
    let w := (begin p).rest d before
    ∃ n, turns p d n w.tasks = ((w.pull d wanted).events, (w.pull d wanted).left) ∧
      (∀ m < n, Event.unmet wanted (turns p d m w.tasks).1 ≠ some 0) ∧
      (Event.unmet wanted (w.pull d wanted).events = some 0 ∨ (w.pull d wanted).left = []) := by
  intro w
  have hends : Task.Ends p d (p.room d) .start := Task.ends_start hd (Plan.named_of_ofSource hp)
  have hplan : w.plan = p := plan_rest before (begin p)
  have hrest : ∀ t ∈ w.tasks, t.Ends w.plan d (w.plan.room d) := by
    rw [hplan]
    exact ends_rest (w := begin p) (List.forall_mem_singleton.2 hends) before
  have hworked := worked_pull hrest wanted
  rw [hplan] at hworked
  obtain ⟨n, hn, hearly⟩ := hworked.turns []
  rw [List.append_nil, List.append_nil] at hn
  rw [List.append_nil] at hearly
  refine ⟨n, hn, hearly, ?_⟩
  rw [← hworked.unmet]
  exact (em _).imp_right hworked.left

end Walk

/-- **Every walk is over after finitely many turns, whatever links there are.** What has
happened by then is what a pull without a limit tells. Only an entry named like a dot, or
with a separator in its name, could keep a walk busy for ever: such a name leads back to a
folder that it is not below. -/
theorem exists_turns {o : Options} {source : Text} {p : Plan} {d : Disk}
    (hp : Plan.ofSource o source = .ok p) (hd : d.WellNamed) :
    (∃ n, ∀ m, n ≤ m → Walk.turns p d m [.start] = (((Walk.begin p).pull d none).events, [])) ∧
      ((Walk.begin p).pull d none).left = [] ∧ ((Walk.begin p).pull d none).ended = true := by
  have hends : Task.Ends p d (p.room d) .start := Task.ends_start hd (Plan.named_of_ofSource hp)
  have hworked := Walk.worked_pull (w := .begin p) (List.forall_mem_singleton.2 hends) none
  -- Without a limit something is wanted at any time.
  have hwanted : ((Walk.begin p).pull d none).wanted = none := hworked.unmet
  have hleft : ((Walk.begin p).pull d none).left = [] := by
    refine hworked.left ?_
    rw [hwanted]
    exact (Option.some_ne_none 0).symm
  obtain ⟨n, hn, -⟩ := hworked.turns []
  rw [hleft] at hn
  refine ⟨⟨n, fun m hm => ?_⟩, hleft, ?_⟩
  · obtain ⟨k, rfl⟩ := Nat.exists_eq_add_of_le hm
    have hstart : Walk.turns p d n [.start] = (((Walk.begin p).pull d none).events, []) := hn
    rw [Walk.turns_add, hstart, Walk.turns_nil, List.append_nil]
  · rw [Haul.ended, hwanted]
    rfl

/-- Links lead to each other, to themselves and up the tree, and the pattern climbs too. -/
theorem exists_turns_links :
    ∃ p d, Plan.ofSource {} "**/../**".toList = .ok p ∧
      d = Disk.ofLines ["a/up -> ..".toList, "a/b -> ../c".toList, "c -> a/b".toList,
        "d -> d".toList, "e -> a".toList] ∧
      ∃ n, ∀ m, n ≤ m →
        Walk.turns p d m [.start] = (((Walk.begin p).pull d none).events, []) := by
  obtain ⟨p, hp⟩ : ∃ p, Plan.ofSource {} "**/../**".toList = .ok p :=
    Plan.exists_ofSource (by cbv) (by cbv)
  have hd : (Disk.ofLines ["a/up -> ..".toList, "a/b -> ../c".toList, "c -> a/b".toList,
      "d -> d".toList, "e -> a".toList]).WellNamed := by cbv
  exact ⟨p, _, hp, rfl, (exists_turns hp hd).1⟩

end PathGlob
