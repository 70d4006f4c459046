import Mathlib
import PathGlob.Disk.Manifest
import PathGlob.Proofs.Walk.Extent
import PathGlob.Session

/-! Nothing happens twice in the life of a walk, whatever becomes of the tree.

Between two pulls the tree may change, the working folder may move, and other walks may
be pulled. What is left of a walk are tasks apart from each other, and nothing that one of
them may still do has been done (`Going`). Each task that is worked on leaves it so,
whatever the tree is then (`Going.turn`), and with it each pull (`Going.pull`). What a
session shows of the walk in between adds nothing (`life_of_going`). -/
namespace PathGlob

/-! ### Walks in progress -/

/-- The tasks left of a walk after some events. -/
structure Going (p : Plan) (past : List Event) (agenda : List Task) : Prop where
  told : ∀ e ∈ past, e.Told
  once : past.Pairwise Event.Before
  named : ∀ t ∈ agenda, (t.top p).Named
  apart : agenda.Pairwise (Task.Apart p)
  ahead : ∀ a ∈ past, ∀ t ∈ agenda, ∀ e, Task.May p t e → a.Before e

namespace Going
variable {p : Plan} {past : List Event} {agenda other rest : List Task} {t : Task}

/-- Nothing has happened before a walk has started. -/
theorem start (hp : p.Named) : Going p [] [.start] :=
  ⟨nofun, .nil, List.forall_mem_singleton.2 hp.root, List.pairwise_singleton _ _, nofun⟩

theorem sublist (h : Going p past agenda) (hs : other.Sublist agenda) : Going p past other :=
  ⟨h.told, h.once, fun t ht => h.named t (hs.subset ht), h.apart.sublist hs,
    fun a ha t ht => h.ahead a ha t (hs.subset ht)⟩

/-- The order of the tasks is of no account. -/
theorem perm (h : Going p past agenda) (hs : other.Perm agenda) : Going p past other :=
  ⟨h.told, h.once, fun t ht => h.named t (hs.subset ht),
    (hs.pairwise_iff Task.Apart.symm).2 h.apart, fun a ha t ht => h.ahead a ha t (hs.subset ht)⟩

/-- **Working on a task leaves a walk in progress.** -/
theorem turn {turn : Turn} (h : Going p past (t :: rest)) (ho : Task.Orderly p t turn) :
    Going p (past ++ turn.events) (turn.next ++ rest) := by
  obtain ⟨hrest, hrests⟩ := List.pairwise_cons.1 h.apart
  have hahead : ∀ a ∈ past, ∀ e, Task.May p t e → a.Before e :=
    fun a ha => h.ahead a ha t List.mem_cons_self
  refine ⟨?_, ?_, ?_, ?_, fun a ha u hu e he => ?_⟩
  · exact List.forall_mem_append.2 ⟨h.told, fun e he => (ho.may e he).told⟩
  · exact List.pairwise_append.2 ⟨h.once, ho.once, fun a ha e he => hahead a ha e (ho.may e he)⟩
  · exact List.forall_mem_append.2
      ⟨fun u hu => (ho.under u hu).named, fun u hu => h.named u (List.mem_cons_of_mem t hu)⟩
  · exact List.pairwise_append.2
      ⟨ho.apart, hrests, fun u hu v hv => (hrest v hv).under (ho.under u hu)⟩
  · rcases List.mem_append.1 ha with ha | ha <;> rcases List.mem_append.1 hu with hu | hu
    · exact hahead a ha e (he.of_under (ho.under u hu))
    · exact h.ahead a ha u (List.mem_cons_of_mem t hu) e he
    · exact ho.ahead a ha u hu e he
    · exact (hrest u hu).before (ho.may a ha) he

end Going

/-- Working on the tasks leaves any walk in progress that they are part of. -/
def Haul.Keeps (p : Plan) (ts : List Task) (h : Haul) : Prop :=
  ∀ past rest, Going p past (ts ++ rest) → Going p (past ++ h.events) (h.left ++ rest)

theorem Haul.keeps_each {p : Plan} {work : Option Nat → Task → Haul}
    (hwork : ∀ wanted t, Keeps p [t] (work wanted t)) (wanted : Option Nat) (ts : List Task) :
    Keeps p ts (Haul.each work wanted ts) := by
  induction ts generalizing wanted with
  | nil =>
    intro past rest h
    show Going p (past ++ []) ([] ++ rest)
    rwa [List.append_nil]
  | cons t ts ih =>
    intro past rest h
    -- What the first task leaves is not worked on again, so it goes behind the others.
    have hfirst := hwork wanted t past (ts ++ rest) h
    have hrest := ih (work wanted t).wanted _ _ (hfirst.perm (List.perm_append_comm_assoc ..))
    show Going p (past ++ (_ ++ _)) ((_ ++ _) ++ rest)
    rw [← List.append_assoc past, List.append_assoc (work wanted t).left]
    exact hrest.perm (List.perm_append_comm_assoc ..)

theorem Task.keeps_pull {p : Plan} {d : Disk} (hd : d.Tidy) (hp : p.Named) (room : Nat)
    (wanted : Option Nat) (t : Task) : Haul.Keeps p [t] (Task.pull p d room wanted t) := by
  induction room generalizing wanted t with
  | zero =>
    intro past rest h
    show Going p (past ++ []) ([] ++ rest)
    rw [List.append_nil]
    exact h.sublist (List.sublist_cons_self t rest)
  | succ room ih =>
    intro past rest h
    rw [pull]
    split
    · rwa [List.append_nil]
    · have hturn := Going.turn h (orderly_run hd hp (h.named t List.mem_cons_self))
      rw [← List.append_assoc past]
      exact Haul.keeps_each ih _ _ _ _ hturn

/-- Pulling results off a walk leaves it in progress. -/
theorem Going.pull {d : Disk} {w : Walk} {past : List Event} (h : Going w.plan past w.tasks)
    (hd : d.Tidy) (hp : w.plan.Named) (wanted : Option Nat) :
    Going w.plan (past ++ (w.pull d wanted).events) (w.pull d wanted).left := by
  have hkeeps := Haul.keeps_each (Task.keeps_pull hd hp (w.plan.room d)) wanted w.tasks past []
  rw [List.append_nil, List.append_nil] at hkeeps
  exact hkeeps h

/-! ### Lives of walks -/

/-- The findings that an answer shows. A result that cannot be unwrapped shows its error. -/
def Answer.findings : Answer → List Finding
  | taken findings _ => findings
  | unwrapped path => [.success path]
  | unreadable e => [⟨e.path, some e⟩]
  | _ => []

namespace Step

/-- Whether the step pulls results off the walk under a label. -/
def pulls (label : Text) : Step → Bool
  | take l _ => l = label
  | unwrap l => l = label
  | _ => false

/-- Whether the step begins another walk under a label. -/
def begins (label : Text) : Step → Bool
  | glob l source o => l = label && (Plan.ofSource o source).isOk
  | _ => false

end Step

namespace Disk

/-- The tree after a step. Only a change that succeeds leaves another. -/
def after (d : Disk) : Step → Disk
  | .put folder name n => (d.put folder name n).toOption.getD d
  | .remove folder name => (d.remove folder name).toOption.getD d
  | .enter folder => (d.enter folder).toOption.getD d
  | _ => d

/-- The trees before each step and after the last. -/
def course (d : Disk) : List Step → List Disk
  | [] => [d]
  | first :: rest => d :: (d.after first).course rest

end Disk

namespace Session

/-- The answers to pulls off the walk under a label, each with its calls, until another
walk takes its place. -/
def life (label : Text) (s : Session) (steps : List Step) : List (Answer × List Call) :=
  (((steps.zip (s.run steps)).takeWhile fun shown => !shown.1.begins label).filter
    fun shown => shown.1.pulls label).map Prod.snd

/-- What is found in the life of a walk. -/
def shown (label : Text) (s : Session) (steps : List Step) : List Finding :=
  (s.life label steps).flatMap fun pulled => pulled.1.findings

/-- What is asked in the life of a walk. -/
def asked (label : Text) (s : Session) (steps : List Step) : List Call :=
  (s.life label steps).flatMap fun pulled => pulled.2

variable {s : Session} {label : Text} {w : Walk} {step : Step} {steps : List Step}

theorem lookup_set_of_ne {other : Text} (h : label ≠ other) (w : Walk) :
    (s.set other w).walks.lookup label = s.walks.lookup label := by
  have hne : (label == other) = false := beq_eq_false_iff_ne.2 h
  show List.lookup label ((other, w) :: s.walks.filter (·.1 ≠ other)) = _
  rw [List.lookup_cons, hne]
  induction s.walks with
  | nil => rfl
  | cons e rest ih =>
    obtain ⟨l, v⟩ := e
    by_cases hl : l = other
    · rw [List.filter_cons_of_neg (by simp [hl]), List.lookup_cons, hl, hne]
      exact ih
    · rw [List.filter_cons_of_pos (by simp [hl]), List.lookup_cons, List.lookup_cons]
      cases label == l
      · exact ih
      · rfl

theorem pull_eq (hw : s.walks.lookup label = some w) (wanted : Option Nat) :
    s.pull label wanted = some
      (w.pull s.disk wanted, s.set label { w with tasks := (w.pull s.disk wanted).left }) := by
  rw [pull, hw]
  rfl

theorem pull_eq_none (hw : s.walks.lookup label = none) (wanted : Option Nat) :
    s.pull label wanted = none := by
  rw [pull, hw]
  rfl

/-- A step changes the tree and no walk, or the walk under one label and not the tree. -/
theorem next_cases (s : Session) (step : Step) :
    (s.step step).2.2 = { s with disk := s.disk.after step } ∨
      ∃ label w, (step.pulls label || step.begins label) = true ∧
        s.disk.after step = s.disk ∧ (s.step step).2.2 = s.set label w := by
  cases step with
  | glob label source o =>
    cases hp : Plan.ofSource o source with
    | error e =>
      rw [Session.step, hp]
      exact .inl rfl
    | ok p =>
      refine .inr ⟨label, Walk.begin p, ?_, rfl, ?_⟩
      · simp [Step.begins, hp, Except.isOk, Except.toBool]
      · rw [Session.step, hp]
  | take label wanted =>
    cases hw : s.walks.lookup label with
    | none =>
      rw [Session.step, pull_eq_none hw]
      exact .inl rfl
    | some w =>
      rw [Session.step, pull_eq hw]
      exact .inr ⟨label, _, by simp [Step.pulls], rfl, rfl⟩
  | unwrap label =>
    cases hw : s.walks.lookup label with
    | none =>
      rw [Session.step, pull_eq_none hw]
      exact .inl rfl
    | some w =>
      rw [Session.step, pull_eq hw]
      exact .inr ⟨label, _, by simp [Step.pulls], rfl, rfl⟩
  | describe label =>
    rw [Session.step]
    split <;> exact .inl rfl
  | put folder name node =>
    rw [Session.step, Disk.after]
    cases s.disk.put folder name node <;> exact .inl rfl
  | remove folder name =>
    rw [Session.step, Disk.after]
    cases s.disk.remove folder name <;> exact .inl rfl
  | enter folder =>
    rw [Session.step, Disk.after]
    cases s.disk.enter folder <;> exact .inl rfl

theorem disk_step : (s.step step).2.2.disk = s.disk.after step := by
  rcases next_cases s step with h | ⟨label, w, -, hdisk, h⟩
  · rw [h]
  · rw [h, hdisk]
    rfl

/-- Only its own steps touch a walk. -/
theorem lookup_step (hpulls : step.pulls label = false) (hbegins : step.begins label = false) :
    (s.step step).2.2.walks.lookup label = s.walks.lookup label := by
  rcases next_cases s step with h | ⟨other, w, htouches, -, h⟩
  · rw [h]
  · have hne : label ≠ other := by
      rintro rfl
      rw [hpulls, hbegins] at htouches
      cases htouches
    rw [h, lookup_set_of_ne hne]

/-- What a step shows of a walk that it pulls results off. -/
theorem step_of_pulls (hpulls : step.pulls label = true) (hw : s.walks.lookup label = some w) :
    ∃ wanted, (s.step step).2.2 = s.set label { w with tasks := (w.pull s.disk wanted).left } ∧
      (s.step step).2.1 = Event.calls (w.pull s.disk wanted).events ∧
      ((∀ e ∈ (w.pull s.disk wanted).events, e.Told) →
        (s.step step).1.findings.Sublist (Event.findings (w.pull s.disk wanted).events)) := by
  cases step with
  | take l wanted =>
    obtain rfl : l = label := of_decide_eq_true hpulls
    refine ⟨wanted, ?_⟩
    rw [Session.step, pull_eq hw]
    exact ⟨rfl, rfl, fun _ => List.Sublist.refl _⟩
  | unwrap l =>
    obtain rfl : l = label := of_decide_eq_true hpulls
    refine ⟨some 1, ?_⟩
    rw [Session.step, pull_eq hw]
    refine ⟨rfl, rfl, fun htold => ?_⟩
    dsimp only
    cases hf : Event.findings (w.pull s.disk (some 1)).events with
    | nil => exact List.Sublist.refl []
    | cons f fs =>
      have hmem : Event.found f ∈ (w.pull s.disk (some 1)).events :=
        Event.mem_findings.1 (hf ▸ List.mem_cons_self)
      obtain ⟨path, error⟩ := f
      cases error with
      | none => exact (List.nil_sublist fs).cons_cons _
      | some e =>
        obtain rfl : e.path = path := (htold _ hmem).path_eq _ e rfl rfl
        exact (List.nil_sublist fs).cons_cons _
  | _ => cases hpulls

theorem life_cons_of_begins (hbegins : step.begins label = true) :
    s.life label (step :: steps) = [] := by
  rw [life, run, List.zip_cons_cons, List.takeWhile_cons_of_neg]
  · rfl
  · simp [hbegins]

theorem life_cons_of_pulls (hbegins : step.begins label = false) (hpulls : step.pulls label = true) :
    s.life label (step :: steps) =
      ((s.step step).1, (s.step step).2.1) :: (s.step step).2.2.life label steps := by
  rw [life, run, List.zip_cons_cons, List.takeWhile_cons_of_pos, List.filter_cons_of_pos]
  · rfl
  · exact hpulls
  · simp [hbegins]

theorem life_cons_of_other (hbegins : step.begins label = false)
    (hpulls : step.pulls label = false) :
    s.life label (step :: steps) = (s.step step).2.2.life label steps := by
  rw [life, run, List.zip_cons_cons, List.takeWhile_cons_of_pos, List.filter_cons_of_neg]
  · rfl
  · simp [hpulls]
  · simp [hbegins]

/-- What is shown of a walk in a session comes of the walk, whatever else is done. -/
theorem life_of_going {past : List Event} (hw : s.walks.lookup label = some w)
    (h : Going w.plan past w.tasks) (hp : w.plan.Named) (hd : ∀ d ∈ s.disk.course steps, d.Tidy) :
    ∃ es left, Going w.plan (past ++ es) left ∧
      (s.shown label steps).Sublist (Event.findings es) ∧
      s.asked label steps = Event.calls es := by
  unfold shown asked
  induction steps generalizing s w past with
  | nil =>
    refine ⟨[], w.tasks, ?_, List.Sublist.refl [], rfl⟩
    rwa [List.append_nil]
  | cons first rest ih =>
    obtain ⟨hdisk, hdisks⟩ := List.forall_mem_cons.1 hd
    rw [← disk_step] at hdisks
    cases hbegins : first.begins label with
    | true =>
      rw [life_cons_of_begins hbegins]
      refine ⟨[], w.tasks, ?_, List.Sublist.refl [], rfl⟩
      rwa [List.append_nil]
    | false =>
      cases hpulls : first.pulls label with
      | true =>
        obtain ⟨wanted, hnext, hcalls, hfindings⟩ := step_of_pulls hpulls hw
        have hgoing := h.pull hdisk hp wanted
        rw [life_cons_of_pulls hbegins hpulls, List.flatMap_cons, List.flatMap_cons, hcalls]
        rw [hnext] at hdisks ⊢
        obtain ⟨es, left, hes, hshown, hasked⟩ := 
          ih (lookup_set s label { w with tasks := (w.pull s.disk wanted).left }) hgoing hp hdisks
        refine ⟨(w.pull s.disk wanted).events ++ es, left, ?_, ?_, ?_⟩
        · rwa [← List.append_assoc]
        · rw [Event.findings_append]
          have htold := fun e he => hgoing.told e (List.mem_append_right past he)
          exact (hfindings htold).append hshown
        · rw [Event.calls_append, ← hasked]
      | false =>
        rw [life_cons_of_other hbegins hpulls]
        exact ih ((lookup_step hpulls hbegins).trans hw) h hp hdisks

end Session

/-! ### What is shown of a walk -/

/-- Of two results with one path the first is a success and the second an error, and no
result is at an unreadable path or below it. An error is about the path that it is found
at, and no question is asked twice. -/
structure Once (shown : List Finding) (asked : List Call) : Prop where
  text : shown.Pairwise fun f g =>
    f.path.text = g.path.text → f.isSuccess = true ∧ g.isSuccess = false
  silent : shown.Pairwise fun f g => f.isSuccess = false → ¬ g.path.Within f.path
  path_eq : ∀ f ∈ shown, ∀ e, f.error = some e → e.path = f.path
  asked : asked.Nodup

/-- Nothing happens twice in a walk in progress. -/
theorem Going.once_findings {p : Plan} {es : List Event} {left : List Task} (h : Going p es left)
    {shown : List Finding} (hs : shown.Sublist (Event.findings es)) :
    Once shown (Event.calls es) := by
  have hpath : ∀ a ∈ es, ∀ b ∈ es, a.text = b.text → a.path = b.path := by
    intro a ha b hb hq
    rw [← Path.ofText_text (h.told a ha).named, ← (h.told a ha).text_eq, hq, (h.told b hb).text_eq,
      Path.ofText_text (h.told b hb).named]
  refine ⟨?_, ?_, fun f hf e he => ?_, Event.nodup_calls h.once⟩
  · refine List.Pairwise.sublist hs (List.pairwise_filterMap.2 (h.once.imp_of_mem ?_))
    intro a b ha hb hab f hf g hg hq
    cases a <;> cases hf
    cases b <;> cases hg
    have hlt := hab.stage_lt (hpath _ ha _ hb hq)
    simp only [Event.stage] at hlt
    cases hf : f.isSuccess <;> cases hg : g.isSuccess <;> simp [hf, hg] at hlt ⊢
  · refine List.Pairwise.sublist hs (List.pairwise_filterMap.2 (h.once.imp ?_))
    intro a b hab f hf g hg hfail
    cases a <;> cases hf
    cases b <;> cases hg
    exact hab.not_within (by simp [Event.stage, hfail])
  · exact (h.told _ (Event.mem_findings.1 (hs.subset hf))).path_eq f e rfl he

/-- **Whatever else is done in a session, nothing is shown twice of a walk, and nothing is
asked twice.** -/
theorem once_life {s : Session} {label source : Text} {o : Options} {p : Plan} {steps : List Step}
    (hp : Plan.ofSource o source = .ok p)
    (hd : ∀ d ∈ s.disk.course steps, d.Tidy) :
    Once ((s.step (.glob label source o)).2.2.shown label steps)
      ((s.step (.glob label source o)).2.2.asked label steps) := by
  have hglob : (s.step (.glob label source o)).2.2 = s.set label (Walk.begin p) := by
    simp [Session.step, hp]
  rw [hglob]
  have hnamed : p.Named := Plan.named_of_ofSource hp
  obtain ⟨es, left, hes, hshown, hasked⟩ :=
    Session.life_of_going (s.lookup_set label (.begin p)) (Going.start hnamed) hnamed hd
  rw [hasked]
  exact hes.once_findings hshown

/-- A file becomes a link to the folder above it while the walk is at that folder. -/
theorem once_life_changed :
    Once
      (Session.shown "w".toList
        (Session.step ⟨.ofLines ["a/b".toList], []⟩ (.glob "w".toList "**".toList {})).2.2
        [.take "w".toList (some 1), .put "a".toList "b".toList (.link "..".toList),
          .take "w".toList none])
      (Session.asked "w".toList
        (Session.step ⟨.ofLines ["a/b".toList], []⟩ (.glob "w".toList "**".toList {})).2.2
        [.take "w".toList (some 1), .put "a".toList "b".toList (.link "..".toList),
          .take "w".toList none]) := by
  obtain ⟨p, hp⟩ : ∃ p, Plan.ofSource {} "**".toList = .ok p :=
    Plan.exists_ofSource (by cbv) (by cbv)
  refine once_life hp (List.all_eq_true.1 ?_)
  show List.all _ (Disk.all Node.isTidy) = true
  cbv

end PathGlob
