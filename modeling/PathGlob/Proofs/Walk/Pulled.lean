import Mathlib
import PathGlob.Disk.Manifest
import PathGlob.Proofs.Walk.Outlined
import PathGlob.Session

/-! Pulling results off a walk cuts its events into slices.

However many results are wanted at a time, each pull does what comes next in the outline
of the tree, up to the last result wanted and nothing behind it. Once a pull has found
less than was wanted, no later one does anything (`pulls_eq_slices`). -/
namespace PathGlob

namespace Event
variable {wanted : Option Nat} {a b es : List Event}

/-- The events up to the last result wanted, all of them if no number is given, and the
rest. -/
def cut : Option Nat → List Event → List Event × List Event
  | some 0, es => ([], es)
  | _, [] => ([], [])
  | wanted, .call c :: es => (.call c :: (cut wanted es).1, (cut wanted es).2)
  | wanted, .found f :: es =>
    (.found f :: (cut (wanted.map (· - 1)) es).1, (cut (wanted.map (· - 1)) es).2)

/-- How many results are still wanted after some events. -/
def unmet (wanted : Option Nat) (es : List Event) : Option Nat :=
  wanted.map (· - (findings es).length)

/-- What each of several pulls in turn does, and whether it finds less than is wanted. -/
def slices : List (Option Nat) → List Event → List (List Event × Bool)
  | [], _ => []
  | wanted :: more, es =>
    ((cut wanted es).1, unmet wanted (cut wanted es).1 ≠ some 0) :: slices more (cut wanted es).2

theorem cut_zero (es : List Event) : cut (some 0) es = ([], es) := by
  rw [cut]

theorem cut_nil (wanted : Option Nat) : cut wanted [] = ([], []) := by
  by_cases h : wanted = some 0
  · rw [h, cut_zero]
  · rw [cut]
    exact h

theorem cut_none (es : List Event) : cut none es = (es, []) := by
  induction es with
  | nil => exact cut_nil none
  | cons e es ih => cases e <;> simp [cut, ih]

theorem unmet_nil (wanted : Option Nat) : unmet wanted [] = wanted := by
  cases wanted <;> rfl

theorem unmet_zero (es : List Event) : unmet (some 0) es = some 0 :=
  congrArg some (Nat.zero_sub _)

theorem unmet_call (wanted : Option Nat) (c : Call) (es : List Event) :
    unmet wanted (.call c :: es) = unmet wanted es := rfl

theorem unmet_found (wanted : Option Nat) (f : Finding) (es : List Event) :
    unmet wanted (.found f :: es) = unmet (wanted.map (· - 1)) es := by
  cases wanted with
  | none => rfl
  | some k =>
    show some (k - ((findings es).length + 1)) = some (k - 1 - (findings es).length)
    rw [Nat.sub_sub, Nat.add_comm]

theorem unmet_append (wanted : Option Nat) (a b : List Event) :
    unmet wanted (a ++ b) = unmet (unmet wanted a) b := by
  cases wanted with
  | none => rfl
  | some k =>
    show some (k - (findings (a ++ b)).length) = some (k - (findings a).length - (findings b).length)
    rw [findings_append, List.length_append, Nat.sub_sub]

/-- Two rows of events are cut by cutting the second for what the first leaves unmet. -/
theorem cut_append (wanted : Option Nat) (a b : List Event) :
    cut wanted (a ++ b) =
      ((cut wanted a).1 ++ (cut (unmet wanted (cut wanted a).1) b).1,
        (cut wanted a).2 ++ (cut (unmet wanted (cut wanted a).1) b).2) := by
  induction a generalizing wanted with
  | nil => simp [cut_nil, unmet_nil]
  | cons e a ih =>
    by_cases h : wanted = some 0
    · subst h
      simp [cut_zero, unmet_nil]
    · cases e with
      | call c =>
        rw [List.cons_append, cut, cut, ih, unmet_call, List.cons_append]
        all_goals exact h
      | found f =>
        rw [List.cons_append, cut, cut, ih, unmet_found, List.cons_append]
        all_goals exact h

/-- Where more is wanted, calls are made without end and one result is found. -/
theorem cut_turn (h : wanted ≠ some 0) (calls : List Call) (finding : Option Finding) :
    cut wanted (calls.map .call ++ (finding.map found).toList) =
      (calls.map .call ++ (finding.map found).toList, []) := by
  induction calls with
  | nil =>
    cases finding with
    | none => exact cut_nil wanted
    | some f =>
      show cut wanted [found f] = ([found f], [])
      rw [cut, cut_nil]
      exact h
  | cons c calls ih =>
    rw [List.map_cons, List.cons_append, cut, ih]
    exact h

theorem unmet_turn (wanted : Option Nat) (calls : List Call) (finding : Option Finding) :
    unmet wanted (calls.map .call ++ (finding.map found).toList) =
      if finding.isSome then wanted.map (· - 1) else wanted := by
  induction calls with
  | nil =>
    cases finding with
    | none => exact unmet_nil wanted
    | some f => rfl
  | cons c calls ih => rw [List.map_cons, List.cons_append, unmet_call, ih]

/-! ### The end -/

/-- Where less is found than is wanted, there are no events left. -/
theorem cut_of_unmet (h : unmet wanted (cut wanted es).1 ≠ some 0) : (cut wanted es).2 = [] := by
  induction es generalizing wanted with
  | nil => rw [cut_nil]
  | cons e es ih =>
    by_cases hw : wanted = some 0
    · rw [hw, unmet_zero] at h
      exact absurd rfl h
    · cases e with
      | call c =>
        rw [cut] at h ⊢
        · exact ih h
        all_goals exact hw
      | found f =>
        rw [cut] at h ⊢
        · exact ih (unmet_found wanted f _ ▸ h)
        all_goals exact hw

theorem slices_nil {wanted : List (Option Nat)} {slice : List Event × Bool}
    (h : slice ∈ slices wanted []) : slice.1 = [] := by
  induction wanted with
  | nil => cases h
  | cons first more ih =>
    rw [slices, cut_nil] at h
    rcases List.mem_cons.1 h with rfl | h
    · rfl
    · exact ih h

/-- After a pull that has found less than was wanted nothing happens. -/
theorem slices_of_ended (wanted : List (Option Nat)) (es : List Event) :
    (slices wanted es).Pairwise fun a b => a.2 = true → b.1 = [] := by
  induction wanted generalizing es with
  | nil => exact .nil
  | cons first more ih =>
    refine .cons (fun b hb hended => ?_) (ih _)
    rw [cut_of_unmet (of_decide_eq_true hended)] at hb
    exact slices_nil hb

end Event

/-! ### One pull -/

section
variable {p : Plan} {d : Disk} {room : Nat} {wanted : Option Nat} {es es' : List Event}

/-- The haul is the events of a row up to the last result wanted, and what is left is
tasks that the rest of the row comes of. -/
structure Haul.Cuts (p : Plan) (d : Disk) (room : Nat) (wanted : Option Nat) (es : List Event)
    (h : Haul) : Prop where
  events : h.events = (Event.cut wanted es).1
  left : h.left.flatMap (Task.events p d room) = (Event.cut wanted es).2
  ends : ∀ t ∈ h.left, t.Ends p d room
  wanted : h.wanted = Event.unmet wanted h.events

theorem Haul.Cuts.each {work : Option Nat → Task → Haul} {ts : List Task}
    (h : ∀ t ∈ ts, ∀ wanted, Cuts p d room wanted (Task.events p d room t) (work wanted t))
    (wanted : Option Nat) :
    Cuts p d room wanted (ts.flatMap (Task.events p d room)) (Haul.each work wanted ts) := by
  induction ts generalizing wanted with
  | nil =>
    rw [List.flatMap_nil]
    exact ⟨by rw [Event.cut_nil]; rfl, by rw [Event.cut_nil]; rfl, nofun,
      (Event.unmet_nil wanted).symm⟩
  | cons t ts ih =>
    obtain ⟨ht, hts⟩ := List.forall_mem_cons.1 h
    have hfirst := ht wanted
    have hrest := ih hts (work wanted t).wanted
    rw [List.flatMap_cons]
    refine ⟨?_, ?_, List.forall_mem_append.2 ⟨hfirst.ends, hrest.ends⟩, ?_⟩
    · show _ ++ _ = _
      rw [Event.cut_append, hrest.events, hfirst.wanted, hfirst.events]
    · show (_ ++ _ : List Task).flatMap _ = _
      rw [List.flatMap_append, Event.cut_append, hrest.left, hfirst.wanted, hfirst.left,
        hfirst.events]
    · show (Haul.each work (work wanted t).wanted ts).wanted = Event.unmet wanted (_ ++ _)
      rw [Event.unmet_append, ← hfirst.wanted, hrest.wanted]

/-- Working on a task does what comes of it up to the last result wanted. -/
theorem Task.cuts_pull {n : Nat} {t : Task} (h : t.Ends p d n) (hn : n ≤ room)
    (wanted : Option Nat) :
    Haul.Cuts p d room wanted (Task.events p d room t) (Task.pull p d n wanted t) := by
  induction n generalizing t wanted with
  | zero => exact h.elim
  | succ n ih =>
    rw [pull]
    by_cases hw : wanted = some 0
    · rw [if_pos hw, hw]
      refine ⟨?_, ?_, List.forall_mem_singleton.2 (h.mono hn), rfl⟩
      · rw [Event.cut_zero]
      · rw [Event.cut_zero, List.flatMap_singleton]
    · rw [if_neg hw, events_eq (h.mono hn)]
      have hnext : ∀ u ∈ (t.run p d).next, ∀ wanted,
          Haul.Cuts p d room wanted (events p d room u) (pull p d n wanted u) :=
        fun u hu => ih (h u hu) (Nat.le_of_succ_le hn)
      have hbelow := Haul.Cuts.each hnext
        (if (t.run p d).finding.isSome then wanted.map (· - 1) else wanted)
      have hturn : Event.cut wanted (t.run p d).events = ((t.run p d).events, []) :=
        Event.cut_turn hw _ _
      have hunmet : Event.unmet wanted (t.run p d).events = _ := Event.unmet_turn wanted _ _
      refine ⟨?_, ?_, hbelow.ends, ?_⟩
      · rw [Event.cut_append, hturn, hunmet]
        exact congrArg _ hbelow.events
      · rw [Event.cut_append, hturn, hunmet]
        exact hbelow.left
      · show (Haul.each _ _ _).wanted = Event.unmet wanted (_ ++ _)
        rw [hbelow.wanted, Event.unmet_append, hunmet]

end

/-! ### All pulls -/

namespace Walk
variable {p : Plan} {d : Disk}

/-- What several pulls in turn do on an unchanging tree, and which of them end the walk. -/
def pulls (d : Disk) : List (Option Nat) → Walk → List (List Event × Bool)
  | [], _ => []
  | wanted :: more, w =>
    ((w.pull d wanted).events, (w.pull d wanted).ended) ::
      pulls d more { w with tasks := (w.pull d wanted).left }

theorem cuts_pull {w : Walk} (h : ∀ t ∈ w.tasks, t.Ends w.plan d (w.plan.room d))
    (wanted : Option Nat) :
    Haul.Cuts w.plan d (w.plan.room d) wanted
      (w.tasks.flatMap (Task.events w.plan d (w.plan.room d))) (w.pull d wanted) :=
  Haul.Cuts.each (fun t ht => Task.cuts_pull (h t ht) (Nat.le_refl _)) wanted

theorem pulls_eq {w : Walk} (h : ∀ t ∈ w.tasks, t.Ends w.plan d (w.plan.room d))
    (wanted : List (Option Nat)) :
    w.pulls d wanted =
      Event.slices wanted (w.tasks.flatMap (Task.events w.plan d (w.plan.room d))) := by
  induction wanted generalizing w with
  | nil => rfl
  | cons first more ih =>
    have hcuts := cuts_pull h first
    rw [pulls, Event.slices, ih hcuts.ends, ← hcuts.left, ← hcuts.events, Haul.ended, hcuts.wanted]

end Walk

/-- All that happens in a walk is what comes of its first task. -/
theorem Plan.events_eq {p : Plan} {d : Disk} (h : Task.Ends p d (p.room d) .start) :
    p.events d = Task.events p d (p.room d) .start := by
  have hcuts := Walk.cuts_pull (w := .begin p) (List.forall_mem_singleton.2 h) none
  exact hcuts.events.trans (by rw [Event.cut_none]; exact List.flatMap_singleton ..)

/-- Pulls in a session in which nothing else happens are pulls off the walk. -/
theorem Session.run_take {s : Session} {label : Text} {w : Walk}
    (h : s.walks.lookup label = some w) (wanted : List (Option Nat)) :
    s.run (wanted.map (.take label)) = (w.pulls s.disk wanted).map fun slice =>
      (.taken (Event.findings slice.1) slice.2, Event.calls slice.1) := by
  induction wanted generalizing s w with
  | nil => rfl
  | cons first more ih =>
    have hstep : s.step (.take label first) =
        (.taken (Event.findings (w.pull s.disk first).events) (w.pull s.disk first).ended,
          Event.calls (w.pull s.disk first).events,
          s.set label { w with tasks := (w.pull s.disk first).left }) := by
      simp [step, pull, h]
    rw [List.map_cons, run, hstep]
    show _ :: run (s.set label _) _ = _
    rw [ih (lookup_set _ _ _)]
    rfl

/-- **However results are pulled off a walk, each pull is a slice of the outline of the
tree.** -/
theorem pulls_eq_slices {o : Options} {source : Text} {p : Plan} {d : Disk}
    (hp : Plan.ofSource o source = .ok p) (hd : d.WellNamed) :
    (∀ es, Outline.Whole p d es ↔ es = p.events d) ∧
      ∀ wanted : List (Option Nat),
        (Walk.begin p).pulls d wanted = Event.slices wanted (p.events d) ∧
          ((Event.slices wanted (p.events d)).Pairwise fun a b => a.2 = true → b.1 = []) ∧
          ∀ (s : Session) (label : Text), s.disk = d →
            s.run (.glob label source o :: wanted.map (.take label)) =
              (.planned p, []) :: (Event.slices wanted (p.events d)).map fun slice =>
                (.taken (Event.findings slice.1) slice.2, Event.calls slice.1) := by
  have hends : Task.Ends p d (p.room d) .start := Task.ends_start hd (Plan.named_of_ofSource hp)
  have hpulls : ∀ wanted, (Walk.begin p).pulls d wanted = Event.slices wanted (p.events d) := by
    intro wanted
    rw [Walk.pulls_eq (List.forall_mem_singleton.2 hends), Plan.events_eq hends]
    exact congrArg _ (List.flatMap_singleton ..)
  refine ⟨fun es => ?_, fun wanted => ⟨hpulls wanted, Event.slices_of_ended _ _, ?_⟩⟩
  · rw [Plan.events_eq hends]
    exact Outline.whole_iff hends
  · intro s label h
    subst h
    have hglob : s.step (.glob label source o) = (.planned p, [], s.set label (Walk.begin p)) := by
      simp [Session.step, hp]
    rw [Session.run, hglob, ← hpulls wanted]
    exact congrArg _ (Session.run_take (s.lookup_set label _) wanted)

/-- A link to the folder that it is in, and all that can be reached is asked for. -/
theorem pulls_eq_slices_link :
    ∃ p, Plan.ofSource {} "**".toList = .ok p ∧
      ∀ wanted : List (Option Nat),
        (Walk.begin p).pulls (.ofLines ["a/b".toList, "a/c -> .".toList]) wanted =
          Event.slices wanted (p.events (.ofLines ["a/b".toList, "a/c -> .".toList])) := by
  have hdeep : Token.ofSource "**".toList = .ok [.deep] := by cbv
  have hp : Plan.anchored {} "**".toList = .ok
      { source := "**".toList
        root := ⟨.here, []⟩
        components := [⟨_, _, hdeep⟩]
        foldersOnly := false
        options := {} } :=
    Plan.anchored_eq_ok.2 ⟨⟨_, Pattern.compile_eq_ok hdeep⟩, rfl, rfl⟩
  have hd : (Disk.ofLines ["a/b".toList, "a/c -> .".toList]).WellNamed := by cbv
  obtain ⟨-, hs⟩ := pulls_eq_slices (Plan.ofSource_eq_ok.2 ⟨_, hp, rfl⟩) hd
  exact ⟨_, Plan.ofSource_eq_ok.2 ⟨_, hp, rfl⟩, fun wanted => (hs wanted).1⟩

end PathGlob
