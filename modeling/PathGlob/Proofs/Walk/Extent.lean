import PathGlob.Proofs.Walk.Finite

/-! How far a task reaches.

A task is about a path. Whatever the tree is when the task is worked on, all that comes
of it happens to that path or below it (`Task.May`), and what happens to one path happens
in a fixed order (`Event.stage`). The tasks that it leads to are about paths apart from
each other, so nothing that one of them may do can have been done by another
(`Task.orderly_run`). -/
namespace PathGlob

/-! ### Events -/

theorem Finding.mem_paths {fs : List Finding} {path : Path} :
    path ∈ Finding.paths fs ↔ .success path ∈ fs := by
  rw [paths, List.mem_map]
  constructor
  · rintro ⟨⟨path, error⟩, hf, rfl⟩
    obtain ⟨hmem, hsuccess⟩ := List.mem_filter.1 hf
    obtain rfl := Option.isNone_iff_eq_none.1 hsuccess
    exact hmem
  · exact fun h => ⟨_, List.mem_filter.2 ⟨h, rfl⟩, rfl⟩

namespace Event

/-- The path that an event tells, as it is written. -/
def text : Event → Text
  | call (.list path) => path
  | call (.lookup path) => path
  | found f => f.path.text

def path : Event → Path
  | call (.list path) => .ofText path
  | call (.lookup path) => .ofText path
  | found f => f.path

/-- The order of what happens to one path: it is looked up, found to be a result, listed,
and found to be unreadable. -/
def stage : Event → Nat
  | call (.lookup _) => 0
  | found f => if f.isSuccess then 1 else 3
  | call (.list _) => 2

/-- A path is told as it is written, and an error is about the path that it is found at. -/
structure Told (e : Event) : Prop where
  named : e.path.Named
  text_eq : e.text = e.path.text
  path_eq : ∀ f err, e = found f → f.error = some err → err.path = f.path

/-- One event may be followed by the other: what happens to one path happens in order, and
nothing happens to an unreadable path or below it. -/
structure Before (a b : Event) : Prop where
  stage_lt : a.path = b.path → a.stage < b.stage
  not_within : a.stage = 3 → ¬ b.path.Within a.path

theorem mem_findings {es : List Event} {f : Finding} : f ∈ findings es ↔ found f ∈ es := by
  rw [findings, List.mem_filterMap]
  constructor
  · intro h
    obtain ⟨e, he, hf⟩ := h
    cases e with
    | call c => cases hf
    | found g => exact Option.some.inj hf ▸ he
  · exact fun h => ⟨found f, h, rfl⟩

theorem mem_calls {es : List Event} {c : Call} : c ∈ calls es ↔ call c ∈ es := by
  rw [calls, List.mem_filterMap]
  constructor
  · intro h
    obtain ⟨e, he, hc⟩ := h
    cases e with
    | call c' => exact Option.some.inj hc ▸ he
    | found f => cases hc
  · exact fun h => ⟨call c, h, rfl⟩

/-- Where each event may be followed by all that come after it, no question is asked twice. -/
theorem nodup_calls {es : List Event} (h : es.Pairwise Before) : (calls es).Nodup := by
  refine List.pairwise_filterMap.2 (h.imp fun {a b} hab c hc c' hc' hq => ?_)
  cases a <;> cases hc
  cases b <;> cases hc'
  subst hq
  exact absurd (hab.stage_lt rfl) (Nat.lt_irrefl _)

variable {p : Path}

theorem told_success (hp : p.Named) : Told (found (.success p)) :=
  ⟨hp, rfl, fun _ _ hf he => by cases hf; cases he⟩

theorem told_failure (hp : p.Named) (cause : SystemError) : Told (found (.failure p cause)) := by
  refine ⟨hp, rfl, fun f err hf he => ?_⟩
  cases hf
  cases he
  rfl

theorem path_list (hp : p.Named) : path (call (.list p.text)) = p := Path.ofText_text hp

theorem path_lookup (hp : p.Named) : path (call (.lookup p.text)) = p := Path.ofText_text hp

theorem told_list (hp : p.Named) : Told (call (.list p.text)) :=
  ⟨(path_list hp).symm ▸ hp, congrArg Path.text (path_list hp).symm, nofun⟩

theorem told_lookup (hp : p.Named) : Told (call (.lookup p.text)) :=
  ⟨(path_lookup hp).symm ▸ hp, congrArg Path.text (path_lookup hp).symm, nofun⟩

end Event

namespace Task
variable (p : Plan)

/-- The path that a task is about. -/
def top : Task → Path
  | start => p.root
  | visit child _ => child.path
  | expand folder _ => folder

/-- What may happen next to that path. -/
def stage : Task → Nat
  | start => 1
  | visit _ _ => 1
  | expand _ _ => 2

/-- The event may come of the task or of those that it leads to, on some tree. -/
structure May (t : Task) (e : Event) : Prop where
  told : e.Told
  within : e.path.Within (t.top p)
  stage_le : e.path = t.top p → t.stage ≤ e.stage

/-- No path is below those of both tasks. -/
def Apart (t u : Task) : Prop := ∀ q : Path, q.Within (t.top p) → ¬ q.Within (u.top p)

/-- The task comes of the other. -/
structure Under (u t : Task) : Prop where
  named : (u.top p).Named
  within : (u.top p).Within (t.top p)
  stage_le : u.top p = t.top p → t.stage ≤ u.stage

variable {p} {t u : Task} {a b e : Event}

/-- Tasks are about paths of names, whatever the tree. -/
theorem named_next {d : Disk} (ht : (t.top p).Named) (hu : u ∈ (t.run p d).next) :
    (u.top p).Named := by
  cases t with
  | start => exact next_start hu ▸ ht
  | visit child live => exact next_visit hu ▸ ht
  | expand folder live =>
    obtain ⟨children, child, hr, hc, rfl⟩ := next_expand hu
    obtain ⟨s, hpath⟩ := Plan.exists_join hr hc
    exact show child.path.Named from hpath ▸ Path.Named.join ht s

theorem Apart.symm (h : Apart p t u) : Apart p u t := fun q hu ht => h q ht hu

theorem Apart.under (h : Apart p t u) {v : Task} (hv : Under p v t) : Apart p v u :=
  fun q hq => h q (hq.trans hv.within)

/-- Events of tasks apart are no events of one path. -/
theorem Apart.before (h : Apart p t u) (ha : May p t a) (hb : May p u b) : a.Before b :=
  ⟨fun hq => absurd hb.within (hq ▸ h _ ha.within),
    fun _ hw => h _ (hw.trans ha.within) hb.within⟩

theorem May.of_under (h : May p u e) (hu : Under p u t) : May p t e := by
  refine ⟨h.told, h.within.trans hu.within, fun hq => ?_⟩
  have htop : u.top p = t.top p := hu.within.antisymm (hq ▸ h.within)
  exact Nat.le_trans (hu.stage_le htop) (h.stage_le (hq.trans htop.symm))

/-- What a task owes, whatever the tree. No event of its own is below the path of a task
that it leads to. -/
structure Orderly (p : Plan) (t : Task) (turn : Turn) : Prop where
  may : ∀ e ∈ turn.events, May p t e
  once : turn.events.Pairwise Event.Before
  under : ∀ u ∈ turn.next, Under p u t
  shallow : ∀ a ∈ turn.events, ∀ u ∈ turn.next, a.path.Within (u.top p) → a.path = u.top p
  ahead : ∀ a ∈ turn.events, ∀ u ∈ turn.next, ∀ e, May p u e → a.Before e
  apart : turn.next.Pairwise (Apart p)

/-! ### What one task does -/

variable {d : Disk}

/-- At a path it is told first that it is a result, and then it is read. -/
theorem orderly_arrive {reported isFolder : Bool} {live : Live} (hnamed : (t.top p).Named)
    (hstage : t.stage = 1) : Orderly p t (p.arrive reported (t.top p) isFolder live) := by
  have hevents : ∀ e ∈ (p.arrive reported (t.top p) isFolder live).events,
      e = .found (.success (t.top p)) := fun e he => eq_of_mem_arrive he
  have hnext : ∀ u ∈ (p.arrive reported (t.top p) isFolder live).next, u = .expand (t.top p) live :=
    fun u hu => next_arrive hu
  refine ⟨fun e he => ?_, ?_, fun u hu => ?_, fun a ha u hu _ => ?_, fun a ha u hu e he => ?_, ?_⟩
  · rw [hevents e he]
    exact ⟨Event.told_success hnamed, Path.within_self _, fun _ => Nat.le_of_eq hstage⟩
  · rw [Turn.events, Plan.arrive]
    split
    · exact List.pairwise_singleton _ _
    · exact .nil
  · rw [hnext u hu]
    exact ⟨hnamed, Path.within_self _, fun _ => hstage ▸ Nat.le_succ 1⟩
  · rw [hevents a ha, hnext u hu]
    rfl
  · rw [hnext u hu] at he
    rw [hevents a ha]
    exact ⟨fun hq => he.stage_le hq.symm, fun hthird => absurd (show 1 = 3 from hthird) (by decide)⟩
  · show List.Pairwise _ (if _ then _ else _)
    split
    · exact List.pairwise_singleton _ _
    · exact .nil

section
variable {folder : Path} {live : Live} {ns : List Text} {calls : List Call} {children : List Child}
  (hf : folder.Named) (hplain : ∀ n ∈ ns, Plain n)
  (hcalls : calls = [.list folder.text] ∨
    calls.Sublist ((ns.map fun n => folder.below [n]).map fun q => .lookup q.text))
include hf hplain hcalls

/-- It is asked about a folder itself, or about a name in it. -/
theorem cases_of_asked (he : e ∈ calls.map .call) :
    e.Told ∧ (e.path = folder ∧ e.stage = 2 ∨ ∃ n, e.path = folder.below [n] ∧ e.stage = 0) := by
  obtain ⟨c, hc, rfl⟩ := List.mem_map.1 he
  rcases hcalls with rfl | hsub
  · obtain rfl := List.mem_singleton.1 hc
    exact ⟨Event.told_list hf, .inl ⟨Event.path_list hf, rfl⟩⟩
  · obtain ⟨q, hq, rfl⟩ := List.mem_map.1 (hsub.subset hc)
    obtain ⟨n, hn, rfl⟩ := List.mem_map.1 hq
    have hnamed : (folder.below [n]).Named := hf.below (hplain n hn)
    exact ⟨Event.told_lookup hnamed, .inr ⟨n, Event.path_lookup hnamed, rfl⟩⟩

theorem may_of_asked (he : e ∈ calls.map .call) : May p (.expand folder live) e := by
  obtain ⟨htold, ⟨hpath, hstage⟩ | ⟨n, hpath, -⟩⟩ := cases_of_asked hf hplain hcalls he
  · exact ⟨htold, hpath ▸ Path.within_self _, fun _ => Nat.le_of_eq hstage.symm⟩
  · refine ⟨htold, hpath ▸ Path.within_below folder [n], fun hq => ?_⟩
    exact absurd (hpath.symm.trans hq) (folder.below_ne n)

/-- No question is asked twice. -/
theorem pairwise_asked (hnodup : ns.Nodup) : (calls.map Event.call).Pairwise Event.Before := by
  rcases hcalls with rfl | hsub
  · exact List.pairwise_singleton _ _
  · refine (List.Pairwise.sublist (hsub.map Event.call) ?_)
    rw [List.map_map, List.map_map, List.pairwise_map]
    refine hnodup.imp_of_mem fun {n m} hn hm hne => ⟨fun hq => ?_, nofun⟩
    have hpath : folder.below [n] = folder.below [m] :=
      (Event.path_lookup (hf.below (hplain n hn))).symm.trans
        (hq.trans (Event.path_lookup (hf.below (hplain m hm))))
    exact absurd (List.singleton_inj.1 (Path.below_inj.1 hpath)) hne

/-- The folder is found to be unreadable only after the questions. -/
theorem before_failure (he : e ∈ calls.map .call) (cause : SystemError) :
    e.Before (.found (.failure folder cause)) := by
  obtain ⟨-, ⟨hpath, hstage⟩ | ⟨n, hpath, hstage⟩⟩ := cases_of_asked hf hplain hcalls he
  · exact ⟨fun _ => hstage ▸ Nat.lt_succ_self 2, fun h => by omega⟩
  · exact ⟨fun _ => hstage ▸ Nat.zero_lt_succ 2, fun h => by omega⟩

/-- What is asked about and is not above a name in the folder is that name. -/
theorem eq_of_asked_within {m : Text} (he : e ∈ calls.map .call)
    (hw : e.path.Within (folder.below [m])) : e.path = folder.below [m] := by
  obtain ⟨-, ⟨hpath, -⟩ | ⟨n, hpath, -⟩⟩ := cases_of_asked hf hplain hcalls he
  · rw [hpath] at hw
    exact absurd hw (Path.not_within_below folder m)
  · rw [hpath] at hw ⊢
    rw [Path.eq_of_within_below (Path.within_self _) hw]

/-- What comes of a name comes after the question about it. -/
theorem before_below {m : Text} (he : e ∈ calls.map .call) (hw : b.path.Within (folder.below [m]))
    (hb : b.path = folder.below [m] → 1 ≤ b.stage) : e.Before b := by
  obtain ⟨-, ⟨hpath, hstage⟩ | ⟨n, hpath, hstage⟩⟩ := cases_of_asked hf hplain hcalls he
  · refine ⟨fun hq => ?_, fun h => by omega⟩
    rw [← hq, hpath] at hw
    exact absurd hw (Path.not_within_below folder m)
  · refine ⟨fun hq => ?_, fun h => by omega⟩
    rw [← hq, hpath] at hw
    obtain rfl := Path.eq_of_within_below (Path.within_self _) hw
    rw [hstage]
    exact hb (hq ▸ hpath)

end

theorem orderly_expand (hd : d.Tidy) (hp : p.Named) {folder : Path} (hf : folder.Named)
    (live : Live) : Orderly p (.expand folder live) ((expand folder live).run p d) := by
  obtain ⟨ns, hnodup, hplain, hcalls, hchildren⟩ := Plan.read_names hd hp hf live
  have hmay : ∀ e ∈ (p.read d folder live).calls.map Event.call, May p (.expand folder live) e :=
    fun e he => may_of_asked hf hplain hcalls he
  have honce := pairwise_asked hf hplain hcalls hnodup
  cases hr : (p.read d folder live).children with
  | error cause =>
    have hfailure : May p (.expand folder live) (.found (.failure folder cause)) :=
      ⟨Event.told_failure hf cause, Path.within_self _, fun _ => Nat.le_succ 2⟩
    simp only [run, hr]
    refine ⟨List.forall_mem_append.2 ⟨hmay, List.forall_mem_singleton.2 hfailure⟩, ?_,
      List.forall_mem_nil _, fun _ _ => List.forall_mem_nil _, fun _ _ => List.forall_mem_nil _,
      .nil⟩
    refine List.pairwise_append.2 ⟨honce, List.pairwise_singleton _ _, fun a ha b hb => ?_⟩
    rw [List.mem_singleton.1 hb]
    exact before_failure hf hplain hcalls ha cause
  | ok children =>
    have hsub := hchildren children hr
    have hpath : ∀ u ∈ children.map (visit · live), ∃ n ∈ ns, u.top p = folder.below [n] ∧
        u.stage = 1 := by
      intro u hu
      obtain ⟨child, hc, rfl⟩ := List.mem_map.1 hu
      obtain ⟨n, hn, hq⟩ := List.mem_map.1 (hsub.subset (List.mem_map_of_mem hc))
      exact ⟨n, hn, hq.symm, rfl⟩
    simp only [run, hr]
    have hasked : ∀ a ∈ (p.read d folder live).calls.map Event.call ++ [],
        a ∈ (p.read d folder live).calls.map Event.call := by simp
    refine ⟨?_, ?_, fun u hu => ?_, fun a ha u hu hw => ?_, fun a ha u hu e he => ?_, ?_⟩
    · simpa [Turn.events] using hmay
    · simpa [Turn.events] using honce
    · obtain ⟨n, hn, htop, -⟩ := hpath u hu
      refine ⟨htop ▸ hf.below (hplain n hn), htop ▸ folder.within_below [n], fun hq => ?_⟩
      exact absurd (htop.symm.trans hq) (folder.below_ne n)
    · obtain ⟨n, hn, htop, -⟩ := hpath u hu
      exact htop ▸ eq_of_asked_within hf hplain hcalls (hasked a ha) (htop ▸ hw)
    · obtain ⟨n, hn, htop, hstage⟩ := hpath u hu
      exact before_below hf hplain hcalls (hasked a ha) (htop ▸ he.within)
        fun hq => hstage ▸ he.stage_le (hq.trans htop.symm)
    · have htops : (children.map Child.path).Pairwise fun q r =>
          ∀ x : Path, x.Within q → ¬ x.Within r := by
        refine List.Pairwise.sublist hsub (List.pairwise_map.2 (hnodup.imp fun hne x hx hx' => ?_))
        exact hne (Path.eq_of_within_below hx hx')
      rw [List.pairwise_map] at htops
      exact List.pairwise_map.2 htops

theorem orderly_run (hd : d.Tidy) (hp : p.Named) (hnamed : (t.top p).Named) :
    Orderly p t (t.run p d) := by
  cases t with
  | start =>
    rw [run]
    split
    · exact orderly_arrive hnamed rfl
    · exact ⟨List.forall_mem_nil _, .nil, List.forall_mem_nil _, List.forall_mem_nil _,
        List.forall_mem_nil _, .nil⟩
  | visit child live =>
    rw [run]
    split
    · rename_i cause _
      refine ⟨fun e he => ?_, List.pairwise_singleton _ _, List.forall_mem_nil _,
        fun _ _ => List.forall_mem_nil _, fun _ _ => List.forall_mem_nil _, .nil⟩
      rw [List.mem_singleton.1 he]
      exact ⟨Event.told_failure hnamed cause, Path.within_self _, fun _ => Nat.le_add_left 1 2⟩
    · exact orderly_arrive (t := .visit child live) hnamed rfl
  | expand folder live => exact orderly_expand hd hp hnamed live

end Task
end PathGlob
