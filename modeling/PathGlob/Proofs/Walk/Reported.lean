import PathGlob.Disk.Manifest
import PathGlob.Proofs.Walk.Extent
import PathGlob.Proofs.Walk.Reached

/-! Which failures of the file system a walk reports.

A walk reports a failure exactly if it was an obstacle to one of its calls: to looking a
name up, to listing a folder, or to telling whether an entry of a listed folder is a folder
(`failure_iff`). Three questions are answered without a call, and their failures are told to
nobody: whether the root is there, whether it is a folder, and whether an entry that was
looked up is one. So a link into a folder that refuses is reported where it is listed, and
passed by in silence where it is looked up (`unreported_link`). -/
namespace PathGlob

/-- The error is an obstacle to the call. That nothing is there is none to a look-up. -/
def Disk.Obstacle (d : Disk) (e : SystemError) : Call → Prop
  | .lookup text => d.resolve false text = .error e ∧ e.isAbsence = false
  | .list text => d.list text = .error e ∨
      ∃ entries, d.list text = .ok entries ∧ ∃ entry ∈ entries, entry.isFolder = .error e

/-- The failure that a finding reports. -/
def Finding.cause? (f : Finding) : Option SystemError := f.error.map EntryError.cause

/-- The error hides the children of the folder, or it hides what one of them is. -/
def Reading.Tells (r : Reading) (e : SystemError) : Prop :=
  r.children = .error e ∨ ∃ children, r.children = .ok children ∧ ∃ child ∈ children, child.error = some e

namespace Plan
variable {p : Plan} {d : Disk} {folder : Path} {live : Live} {names : List Text} {e : SystemError}
  {children : List Child} {child : Child}

/-- A look-up that fails, and not for want of the name, hides all children. -/
theorem children_probe_eq_error : (probe d folder names).children = .error e ↔
    ∃ c ∈ (probe d folder names).calls, d.Obstacle e c := by
  induction names with
  | nil => simp [probe]
  | cons name names ih =>
    have hlookup : d.Obstacle e (.lookup (folder.join name).text) ↔
        d.resolve false (folder.join name).text = .error e ∧ e.isAbsence = false := Iff.rfl
    rw [probe]
    cases hr : d.resolve false (folder.join name).text with
    | ok s =>
      show Except.map _ _ = _ ↔ ∃ c ∈ _ :: (probe d folder names).calls, _
      rw [map_eq_error, ih, List.exists_mem_cons_iff, hlookup, hr]
      simp
    | error cause =>
      cases ha : cause.isAbsence with
      | true =>
        simp only [ha, if_true]
        rw [ih, List.exists_mem_cons_iff, hlookup, hr]
        refine (or_iff_right ?_).symm
        intro h
        obtain ⟨hc, he⟩ := h
        cases hc
        rw [ha] at he
        cases he
      | false =>
        simp only [ha, Bool.false_eq_true, if_false]
        rw [List.exists_mem_cons_iff, hlookup, hr]
        constructor
        · intro h
          cases h
          exact .inl ⟨rfl, ha⟩
        · intro h
          rcases h with h | h
          · cases h.1
            rfl
          · simp at h

/-- A listing that fails hides all children, and each entry keeps its own obstacle. -/
theorem tells_list : Reading.Tells
      ⟨[.list folder.text], (d.list folder.text).map fun entries => entries.map (childOf folder)⟩ e ↔
    d.Obstacle e (.list folder.text) := by
  have hchild : ∀ entry : Disk.Entry, (childOf folder entry).error = some e ↔
      entry.isFolder = .error e := by
    intro entry
    unfold childOf
    cases entry.isFolder <;> simp
  refine or_congr map_eq_error ?_
  simp only [map_eq_ok]
  constructor
  · intro h
    obtain ⟨_, ⟨entries, hl, rfl⟩, child, hc, he⟩ := h
    obtain ⟨entry, hm, rfl⟩ := List.mem_map.1 hc
    exact ⟨entries, hl, entry, hm, (hchild entry).1 he⟩
  · intro h
    obtain ⟨entries, hl, entry, hm, he⟩ := h
    exact ⟨_, ⟨entries, hl, rfl⟩, _, List.mem_map_of_mem hm, (hchild entry).2 he⟩

/-- What a reading cannot tell is what stood in the way of a call of it. -/
theorem tells_read :
    (p.read d folder live).Tells e ↔ ∃ c ∈ (p.read d folder live).calls, d.Obstacle e c := by
  rw [read]
  split
  case isTrue =>
    rw [← children_probe_eq_error]
    refine or_iff_left ?_
    intro h
    obtain ⟨children, hr, child, hc, he⟩ := h
    rw [(of_mem_probe hr hc).1] at he
    cases he
  case isFalse =>
    rw [tells_list]
    simp

end Plan

/-! ### Turns -/

namespace Task
variable {p : Plan} {d : Disk} {t : Task} {f : Finding} {child : Child} {live : Live}
  {folder : Path} {e : SystemError} {c : Call}

theorem call_mem_expand (h : c ∈ (p.read d folder live).calls) :
    .call c ∈ ((expand folder live).run p d).events := by
  rw [← calls_expand] at h
  exact List.mem_append_left _ (List.mem_map_of_mem h)

/-- A failure is found where a folder is read, or where a child comes with it. -/
theorem cases_of_cause (h : .found f ∈ (t.run p d).events) (hf : f.cause? = some e) :
    (∃ folder live, t = .expand folder live ∧ (p.read d folder live).children = .error e) ∨
      ∃ child live, t = .visit child live ∧ child.error = some e := by
  cases t with
  | start =>
    obtain ⟨-, rfl, -⟩ := found_mem_start.1 h
    cases hf
  | visit child live =>
    obtain ⟨cause, hcause, rfl⟩ | ⟨-, rfl, -⟩ := found_mem_visit.1 h
    · exact .inr ⟨child, live, rfl, hcause.trans hf⟩
    · cases hf
  | expand folder live =>
    obtain ⟨cause, hr, rfl⟩ := found_mem_expand.1 h
    exact .inl ⟨folder, live, rfl, hr.trans (congrArg Except.error (Option.some.inj hf))⟩

/-- A child is decided about after its folder has been read. -/
theorem exists_expand_of_leads (h : LeadsTo p d .start (.visit child live)) :
    ∃ folder children, LeadsTo p d .start (.expand folder live) ∧
      (p.read d folder live).children = .ok children ∧ child ∈ children := by
  obtain hq | ⟨t, ht, hnext⟩ := Relation.ReflTransGen.cases_tail h
  · cases hq
  · cases t with
    | start => cases next_start hnext
    | visit child' live' => cases next_visit hnext
    | expand folder live' =>
      obtain ⟨children, child', hr, hc, hq⟩ := next_expand hnext
      cases hq
      exact ⟨folder, children, ht, hr, hc⟩

/-- Nothing comes of a first task that leads on to no other but its own turn. -/
theorem eq_of_leads (hnext : (t.run p d).next = []) {u : Task} (h : LeadsTo p d t u) : u = t := by
  obtain hq | ⟨v, hv, -⟩ := Relation.ReflTransGen.cases_head h
  · exact hq.symm
  · rw [hnext] at hv
    cases hv

end Task

/-! ### Walks -/

namespace Plan
variable {o : Options} {source : Text} {p : Plan} {d : Disk} {e : SystemError} {c : Call}

theorem mem_calls_iff (h : Task.Ends p d (p.room d) .start) : c ∈ p.calls d ↔
    ∃ folder live, Task.LeadsTo p d .start (.expand folder live) ∧
      c ∈ (p.read d folder live).calls := by
  rw [calls, Event.mem_calls, mem_events_iff h]
  constructor
  · intro hq
    obtain ⟨u, hu, hc⟩ := hq
    obtain ⟨folder, live, rfl, hread⟩ := Task.eq_expand_of_call hc
    exact ⟨folder, live, hu, hread⟩
  · intro hq
    obtain ⟨folder, live, hu, hread⟩ := hq
    exact ⟨_, hu, Task.call_mem_expand hread⟩

/-- A walk reports what the readings of its folders tell. -/
theorem exists_cause_iff (h : Task.Ends p d (p.room d) .start) :
    (∃ f ∈ p.findings d, f.cause? = some e) ↔
      ∃ folder live, Task.LeadsTo p d .start (.expand folder live) ∧
        (p.read d folder live).Tells e := by
  simp only [findings, Event.mem_findings, mem_events_iff h]
  constructor
  · intro hq
    obtain ⟨f, ⟨u, hu, hmem⟩, hf⟩ := hq
    rcases Task.cases_of_cause hmem hf with ⟨folder, live, rfl, hr⟩ | ⟨child, live, rfl, hc⟩
    · exact ⟨folder, live, hu, .inl hr⟩
    · obtain ⟨folder, children, hexpand, hr, hmem⟩ := Task.exists_expand_of_leads hu
      exact ⟨folder, live, hexpand, .inr ⟨children, hr, child, hmem, hc⟩⟩
  · intro hq
    obtain ⟨folder, live, hu, hr | ⟨children, hr, child, hc, he⟩⟩ := hq
    · exact ⟨_, ⟨_, hu, Task.found_mem_expand.2 ⟨_, hr, rfl⟩⟩, rfl⟩
    · refine ⟨_, ⟨.visit child live, hu.tail ?_, Task.found_mem_visit.2 (.inl ⟨_, he, rfl⟩)⟩, rfl⟩
      rw [Task.run]
      simp only [hr]
      exact List.mem_map_of_mem hc

/-- Where the root cannot be looked up, nothing happens. -/
theorem events_of_resolve_root (h : d.resolve false p.root.text = .error e) : p.events d = [] := by
  have hrun : Task.start.run p d = {} := by
    rw [Task.run, Disk.exists?, h]
    rfl
  refine List.eq_nil_iff_forall_not_mem.2 fun event hevent => ?_
  obtain ⟨u, hu, hturn⟩ := exists_leads_of_mem hevent
  rw [Task.eq_of_leads (by rw [hrun]) hu, hrun] at hturn
  cases hturn

/-- Where the root cannot be told to be a folder, the walk ends with the root. -/
theorem eq_of_mem_events_root {event : Event} (h : d.resolve true p.root.text = .error e)
    (hevent : event ∈ p.events d) : event = .found (.success p.root) := by
  have hfolder : d.isFolder p.root.text = false := by
    rw [Disk.isFolder, h]
  have hnext : (Task.start.run p d).next = [] := by
    rw [Task.run, hfolder]
    split
    · rfl
    · rfl
  obtain ⟨u, hu, hturn⟩ := exists_leads_of_mem hevent
  rw [Task.eq_of_leads hnext hu, Task.run] at hturn
  split at hturn
  · exact Task.eq_of_mem_arrive hturn
  · cases hturn

end Plan

/-- **A walk reports the failures that were obstacles to its calls, and no others.** It makes
no call about a root, and none to tell whether a name that it has found is a folder: a root
that cannot be looked up is taken to be missing, and what cannot be told to be a folder is
taken to be none. -/
theorem failure_iff {o : Options} {source : Text} {p : Plan} {d : Disk}
    (hp : Plan.ofSource o source = .ok p) (hd : d.WellNamed) (e : SystemError) :
    ((∃ f ∈ p.findings d, f.cause? = some e) ↔ ∃ c ∈ p.calls d, d.Obstacle e c) ∧
      (d.resolve false p.root.text = .error e → p.events d = []) ∧
      (d.resolve true p.root.text = .error e → ∀ event ∈ p.events d, event = .found (.success p.root)) ∧
      ∀ folder names children, (Plan.probe d folder names).children = .ok children →
        ∀ child ∈ children, child.error = none ∧
          (d.resolve true child.path.text = .error e → child.isFolder = false) := by
  have hends := Task.ends_start hd (Plan.named_of_ofSource hp)
  refine ⟨?_, Plan.events_of_resolve_root, fun h _ => Plan.eq_of_mem_events_root h,
    fun folder names children hr child hc => ?_⟩
  · rw [Plan.exists_cause_iff hends]
    simp only [Plan.tells_read, Plan.mem_calls_iff hends]
    constructor
    · intro h
      obtain ⟨folder, live, hu, c, hc, ho⟩ := h
      exact ⟨c, ⟨folder, live, hu, hc⟩, ho⟩
    · intro h
      obtain ⟨c, ⟨folder, live, hu, hc⟩, ho⟩ := h
      exact ⟨folder, live, hu, c, hc, ho⟩
  · obtain ⟨herror, hfolder⟩ := Plan.of_mem_probe hr hc
    refine ⟨herror, fun h => ?_⟩
    rw [hfolder, Disk.isFolder, h]

/-- A link into a folder that refuses to be searched. -/
def barred : Disk where
  root := .folder
    [("d".toList, .folder [("l".toList, .link "/s/x".toList)] none none),
      ("s".toList, .folder [("x".toList, .folder [("y".toList, .file)] none none)] none (some 13))]
    none none

/-- A listed link is reported. -/
theorem failure_iff_listed :
    ∃ p, Plan.ofSource {} "d*/*/y".toList = .ok p ∧ barred.WellNamed ∧
      p.findings barred = [.failure (.ofText "d/l".toList) (.about "d/l".toList 13)] ∧
      ∃ c ∈ p.calls barred, barred.Obstacle (.about "d/l".toList 13) c := by
  have hwhole : Token.ofSource "d*/*/y".toList =
      .ok [.char 'd', .run, .char '/', .run, .char '/', .char 'y'] := by cbv
  have hfront : Token.ofSource "d*".toList = .ok [.char 'd', .run] := by cbv
  have hany : Token.ofSource "*".toList = .ok [.run] := by cbv
  have hname : Token.ofSource "y".toList = .ok [.char 'y'] := by cbv
  have hp := Plan.ofSource_of_components (o := {})
    [⟨_, _, hfront⟩, ⟨_, _, hany⟩, ⟨_, _, hname⟩] hwhole rfl
  have hd : barred.WellNamed := by cbv
  refine ⟨_, hp, hd, ?found, (failure_iff hp hd _).1.1 ⟨_, ?found ▸ List.mem_singleton_self _, rfl⟩⟩
  cbv

/-- A link that is looked up is passed by, a root that cannot be looked up is taken to be
missing, and one that leads into such a folder is taken to be no folder: nothing is found. -/
theorem unreported_link :
    (∃ p, Plan.ofSource {} "d*/l/y".toList = .ok p ∧
      barred.resolve true "d/l".toList = .error (.about "d/l".toList 13) ∧
      p.events barred = [.call (.list ".".toList), .call (.lookup "d/l".toList)]) ∧
    (∃ p, Plan.ofSource {} "s/x".toList = .ok p ∧ p.root.text = "s/x".toList ∧
      barred.resolve false "s/x".toList = .error (.about "s/x".toList 13) ∧
      p.events barred = []) ∧
    ∃ p, Plan.ofSource {} "d/l/*".toList = .ok p ∧ p.root.text = "d/l".toList ∧
      barred.resolve true "d/l".toList = .error (.about "d/l".toList 13) ∧
      p.events barred = [] := by
  have hd : Token.ofSource "d".toList = .ok [.char 'd'] := by cbv
  have hl : Token.ofSource "l".toList = .ok [.char 'l'] := by cbv
  have hs : Token.ofSource "s".toList = .ok [.char 's'] := by cbv
  have hx : Token.ofSource "x".toList = .ok [.char 'x'] := by cbv
  have hy : Token.ofSource "y".toList = .ok [.char 'y'] := by cbv
  have hfront : Token.ofSource "d*".toList = .ok [.char 'd', .run] := by cbv
  have hany : Token.ofSource "*".toList = .ok [.run] := by cbv
  have hlook : Token.ofSource "d*/l/y".toList =
      .ok [.char 'd', .run, .char '/', .char 'l', .char '/', .char 'y'] := by cbv
  have habsent : Token.ofSource "s/x".toList = .ok [.char 's', .char '/', .char 'x'] := by cbv
  have hunder : Token.ofSource "d/l/*".toList =
      .ok [.char 'd', .char '/', .char 'l', .char '/', .run] := by cbv
  refine ⟨⟨_, Plan.ofSource_of_components [⟨_, _, hfront⟩, ⟨_, _, hl⟩, ⟨_, _, hy⟩] hlook rfl,
      ?_, ?_⟩,
    ⟨_, Plan.ofSource_of_components [⟨_, _, hs⟩, ⟨_, _, hx⟩] habsent rfl, ?_, ?_, ?_⟩,
    ⟨_, Plan.ofSource_of_components [⟨_, _, hd⟩, ⟨_, _, hl⟩, ⟨_, _, hany⟩] hunder rfl,
      ?_, ?_, ?_⟩⟩
  all_goals cbv

end PathGlob
