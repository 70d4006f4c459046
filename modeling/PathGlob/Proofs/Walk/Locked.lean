import PathGlob.Disk.Manifest
import PathGlob.Proofs.Disk.Locked
import PathGlob.Proofs.Walk.Extent
import PathGlob.Proofs.Walk.Pulled

/-! A folder that cannot be listed costs what lies below it, and nothing else.

With some folders locked, a walk goes the same way until it lists one of them. There it
finds an error in the place of all that would have come of the folder, and goes on behind
it (`events_lock`). What would have come of it lies below the folder, and nothing else does,
so the loss is one piece of the walk. A folder that is not listed may be locked or not. -/
namespace PathGlob

/-! ### Walks with what is lost taken out -/

namespace Event
variable (d : Disk) (L : Locks)

/-- Whether the path is below a locked folder that is listed among the events. -/
def hides (es : List Event) (q : Path) : Bool :=
  es.any fun
    | call (.list text) => (d.lockAt L text).isSome && q.Inside (.ofText text)
    | _ => false

/-- The event, and the error that comes of it if it is that a locked folder is listed. -/
def refused : Event → List Event
  | call (.list text) =>
    call (.list text) ::
      ((d.lockAt L text).map fun code =>
        found (.failure (.ofText text) (.about text code))).toList
  | e => [e]

/-- The events with an error where a locked folder is listed, and none of those below it. -/
def lock (es : List Event) : List Event :=
  es.flatMap fun e => if hides d L es e.path then [] else e.refused d L

/-- What happens below the folder comes in one piece, and just after the folder is listed. -/
def Gathered (es : List Event) (text : Text) : Prop :=
  ∃ before block after, es = before ++ call (.list text) :: (block ++ after) ∧
    (∀ e ∈ block, e.path.Inside (.ofText text)) ∧
    ∀ e ∈ before ++ after, ¬ e.path.Inside (.ofText text)

variable {d L} {a b es : List Event} {q : Path} {text : Text} {code : Int}

theorem hides_iff : hides d L es q = true ↔
    ∃ text, call (.list text) ∈ es ∧ (d.lockAt L text).isSome = true ∧ q.Inside (.ofText text) := by
  rw [hides, List.any_eq_true]
  constructor
  · intro h
    obtain ⟨e, he, hq⟩ := h
    split at hq
    · rw [Bool.and_eq_true, decide_eq_true_eq] at hq
      exact ⟨_, he, hq⟩
    · cases hq
  · intro h
    obtain ⟨text, he, hq⟩ := h
    refine ⟨_, he, ?_⟩
    rw [Bool.and_eq_true, decide_eq_true_eq]
    exact hq

theorem not_hides (h : ∀ text, call (.list text) ∈ es → ¬ q.Inside (.ofText text)) :
    hides d L es q = false := by
  rw [← Bool.not_eq_true, hides_iff]
  exact fun ⟨text, he, _, hin⟩ => h text he hin

theorem not_hides_of_unlocked (h : ∀ text, call (.list text) ∈ es → d.lockAt L text = none)
    (q : Path) : hides d L es q = false := by
  rw [← Bool.not_eq_true, hides_iff]
  intro hq
  obtain ⟨text, he, hs, -⟩ := hq
  rw [h text he] at hs
  cases hs

theorem hides_append : hides d L (a ++ b) q = (hides d L a q || hides d L b q) :=
  List.any_append

/-- Events that hide none of each other are locked apart. -/
theorem lock_append (ha : ∀ e ∈ a, hides d L b e.path = false)
    (hb : ∀ e ∈ b, hides d L a e.path = false) :
    lock d L (a ++ b) = lock d L a ++ lock d L b := by
  rw [lock, List.flatMap_append]
  refine congrArg₂ _ (List.flatMap_congr fun e he => ?_) (List.flatMap_congr fun e he => ?_)
  · rw [hides_append, ha e he, Bool.or_false]
  · rw [hides_append, hb e he, Bool.false_or]

theorem hides_flatMap {α : Type} {as : List α} {f : α → List Event} :
    hides d L (as.flatMap f) q = as.any fun a => hides d L (f a) q :=
  List.any_flatMap

theorem lock_flatMap {α : Type} {as : List α} {f : α → List Event}
    (h : as.Pairwise fun a b => (∀ e ∈ f a, hides d L (f b) e.path = false) ∧
      ∀ e ∈ f b, hides d L (f a) e.path = false) :
    lock d L (as.flatMap f) = as.flatMap fun a => lock d L (f a) := by
  induction as with
  | nil => rfl
  | cons a as ih =>
    obtain ⟨ha, has⟩ := List.pairwise_cons.1 h
    rw [List.flatMap_cons, List.flatMap_cons, lock_append, ih has]
    · intro e he
      rw [hides_flatMap, List.any_eq_false]
      exact fun b hb => Bool.not_eq_true _ ▸ (ha b hb).1 e he
    · intro e he
      obtain ⟨b, hb, hbe⟩ := List.mem_flatMap.1 he
      exact (ha b hb).2 e hbe

/-- Where no folder that is listed is locked, nothing changes. -/
theorem lock_eq_self (h : ∀ text, call (.list text) ∈ es → d.lockAt L text = none) :
    lock d L es = es := by
  have heach : ∀ e ∈ es, (if hides d L es e.path then [] else e.refused d L) = [e] := by
    intro e he
    rw [not_hides_of_unlocked h, if_neg Bool.false_ne_true]
    unfold refused
    split
    · rw [h _ he]
      rfl
    · rfl
  rw [lock, List.flatMap_congr heach, List.flatMap_singleton']

/-- Where a locked folder is listed, all that is left of what is below it is an error. -/
theorem lock_cons_of_locked (h : d.lockAt L text = some code)
    (hes : ∀ e ∈ es, e.path.Inside (.ofText text)) :
    lock d L (call (.list text) :: es) =
      [call (.list text), found (.failure (.ofText text) (.about text code))] := by
  have hself : hides d L (call (.list text) :: es) (.ofText text) = false := by
    refine not_hides fun other he hin => ?_
    rcases List.mem_cons.1 he with hq | he
    · cases hq
      exact hin.2 rfl
    · exact (hes _ he).not_within hin.1
  have hrest : es.flatMap (fun e =>
      if hides d L (call (.list text) :: es) e.path then [] else e.refused d L) = [] := by
    refine List.flatMap_eq_nil_iff.2 fun e he => if_pos ?_
    exact hides_iff.2 ⟨text, List.mem_cons_self, h ▸ rfl, hes e he⟩
  rw [lock, List.flatMap_cons, hrest, List.append_nil]
  show (if hides d L _ (.ofText text) then [] else _) = _
  rw [hself, if_neg Bool.false_ne_true, refused, h]
  rfl

/-- Only the locks of folders that are listed matter. -/
theorem lock_congr {L' : Locks}
    (h : ∀ text, call (.list text) ∈ es → d.lockAt L' text = d.lockAt L text) :
    lock d L' es = lock d L es := by
  have hhides : ∀ q, hides d L' es q = hides d L es q := by
    intro q
    rw [Bool.eq_iff_iff, hides_iff, hides_iff]
    refine exists_congr fun text => and_congr_right fun he => ?_
    rw [h text he]
  refine List.flatMap_congr fun e he => ?_
  rw [hhides]
  unfold refused
  split
  · rfl
  · split
    · rw [h _ he]
    · rfl

/-- What happens in one piece still does among other events that are not below the folder. -/
theorem Gathered.append (h : Gathered es text) (ha : ∀ e ∈ a, ¬ e.path.Inside (.ofText text))
    (hb : ∀ e ∈ b, ¬ e.path.Inside (.ofText text)) : Gathered (a ++ (es ++ b)) text := by
  obtain ⟨before, block, after, rfl, hblock, hrest⟩ := h
  obtain ⟨hbefore, hafter⟩ := List.forall_mem_append.1 hrest
  refine ⟨a ++ before, block, after ++ b, ?_, hblock, List.forall_mem_append.2 ⟨?_, ?_⟩⟩
  · simp only [List.append_assoc, List.cons_append]
  · exact List.forall_mem_append.2 ⟨ha, hbefore⟩
  · exact List.forall_mem_append.2 ⟨hafter, hb⟩

end Event

/-! ### Reading folders of a locked disk -/

namespace Plan
variable {p : Plan} {d : Disk} {L : Locks}

theorem room_lock : p.room (d.lock L) = p.room d := by
  rw [room, room, Disk.height_lock]

theorem probe_lock (folder : Path) (names : List Text) :
    probe (d.lock L) folder names = probe d folder names := by
  induction names with
  | nil => rfl
  | cons name names ih =>
    rw [probe, probe, Disk.resolve_lock, ih, Disk.isFolder_lock]
    cases d.resolve false (folder.join name).text <;> rfl

end Plan

namespace Task
variable {p : Plan} {d : Disk} {L : Locks} {n : Nat} {t u v : Task} {code : Int} {text : Text}

/-- The error number of the lock that a task meets: it is about to list a locked folder. -/
def lockAt (p : Plan) (d : Disk) (L : Locks) : Task → Option Int
  | expand folder live => if p.probes live then none else d.lockAt L folder.text
  | _ => none

/-- A task that meets no lock does what it did. -/
theorem run_lock (h : t.lockAt p d L = none) : t.run p (d.lock L) = t.run p d := by
  cases t with
  | start => rw [run, run, Disk.exists?_lock, Disk.isFolder_lock]
  | visit child live => rfl
  | expand folder live =>
    have hread : p.read (d.lock L) folder live = p.read d folder live := by
      rw [lockAt] at h
      rw [Plan.read, Plan.read]
      split
      · exact Plan.probe_lock _ _
      · rename_i hprobes
        rw [if_neg hprobes] at h
        have hlist : (d.lock L).list folder.text = d.list folder.text := by
          rw [Disk.list_lock, h]
        rw [hlist]
    rw [run, run, hread]

/-- A folder whose names are not known is listed. -/
theorem run_expand_of_list {folder : Path} {live : Live} (h : p.probes live = false) :
    (expand folder live).run p d =
      match d.list folder.text with
      | .error e => { calls := [.list folder.text], finding := some (.failure folder e) }
      | .ok entries =>
        { calls := [.list folder.text]
          next := (entries.map (Plan.childOf folder)).map (visit · live) } := by
  rw [run, Plan.read, if_neg (Bool.not_eq_true _ ▸ h)]
  cases d.list folder.text <;> rfl

/-- Only the task about it lists a folder. -/
theorem eq_expand_of_list (he : .call (.list text) ∈ (t.run p d).events) :
    ∃ folder live, t = .expand folder live ∧ text = folder.text ∧ p.probes live = false := by
  obtain ⟨folder, live, rfl, hread⟩ := eq_expand_of_call he
  rw [Plan.read] at hread
  split at hread
  · obtain ⟨q, -, hq⟩ := List.mem_map.1 ((Plan.calls_probe d folder _).subset hread)
    cases hq
  · rename_i hprobes
    cases List.mem_singleton.1 hread
    exact ⟨folder, live, rfl, rfl, Bool.not_eq_true _ ▸ hprobes⟩

/-- A task that meets a lock finds an error in the place of children to visit. -/
theorem run_of_lockAt (h : t.lockAt p d L = some code) :
    ∃ folder live, ∃ children : List Child, t = .expand folder live ∧
      d.lockAt L folder.text = some code ∧
      t.run p d = { calls := [.list folder.text], next := children.map (visit · live) } ∧
      t.run p (d.lock L) =
        { calls := [.list folder.text]
          finding := some (.failure folder (.about folder.text code)) } := by
  cases t with
  | start => cases h
  | visit child live => cases h
  | expand folder live =>
    rw [lockAt] at h
    split at h
    · cases h
    · rename_i hprobes
      have hprobes : p.probes live = false := Bool.not_eq_true _ ▸ hprobes
      obtain ⟨entries, hlist⟩ := Disk.exists_list_of_lockAt h
      refine ⟨folder, live, entries.map (Plan.childOf folder), rfl, h, ?_, ?_⟩
      · rw [run_expand_of_list hprobes, hlist]
      · rw [run_expand_of_list hprobes, Disk.list_lock, h]

/-- No folder that is listed in a turn is locked, unless the task meets the lock. -/
theorem unlocked_of_run (h : t.lockAt p d L = none) (he : .call (.list text) ∈ (t.run p d).events) :
    d.lockAt L text = none := by
  obtain ⟨folder, live, rfl, rfl, hprobes⟩ := eq_expand_of_list he
  rw [lockAt, if_neg (Bool.not_eq_true _ ▸ hprobes)] at h
  exact h

theorem ends_lock (h : Ends p d n t) : Ends p (d.lock L) n t := by
  induction n generalizing t with
  | zero => exact h
  | succ n ih =>
    intro u hu
    cases hl : t.lockAt p d L with
    | none =>
      rw [run_lock hl] at hu
      exact ih (h u hu)
    | some code =>
      obtain ⟨folder, live, children, -, -, -, hrun⟩ := run_of_lockAt hl
      rw [hrun] at hu
      cases hu

/-! ### All that comes of a task -/

/-- What comes of tasks apart is not hidden by each other. -/
theorem Apart.not_hides (h : Apart p t u) {a b : List Event} (ha : ∀ e ∈ a, May p t e)
    (hb : ∀ e ∈ b, May p u e) : ∀ e ∈ a, Event.hides d L b e.path = false := by
  refine fun e he => Event.not_hides fun text hc hin => ?_
  exact h e.path (ha e he).within (hin.1.trans (hb _ hc).within)

/-- What a task does itself is not below what comes of it. -/
theorem Orderly.not_inside {turn : Turn} (ho : Orderly p t turn) {e : Event}
    (he : e ∈ turn.events) (hu : u ∈ turn.next) {q : Path} (hq : q.Within (u.top p)) :
    ¬ e.path.Inside q := by
  intro hin
  have htop : e.path = u.top p := ho.shallow e he u hu (hin.1.trans hq)
  exact hin.not_within (htop ▸ hq)

section
variable (hd : d.Tidy) (hp : p.Named)
include hd hp

theorem may_events (ht : (t.top p).Named) : ∀ e ∈ events p d n t, May p t e := by
  induction n generalizing t with
  | zero => exact List.forall_mem_nil _
  | succ n ih =>
    have ho := orderly_run hd hp ht
    refine List.forall_mem_append.2 ⟨ho.may, fun e he => ?_⟩
    obtain ⟨u, hu, he⟩ := List.mem_flatMap.1 he
    exact (ih (ho.under u hu).named e he).of_under (ho.under u hu)

theorem may_next (ht : (t.top p).Named) :
    ∀ u ∈ (t.run p d).next, ∀ e ∈ events p d n u, May p u e :=
  fun u hu => may_events hd hp ((orderly_run hd hp ht).under u hu).named

theorem once_events (ht : (t.top p).Named) : (events p d n t).Pairwise Event.Before := by
  induction n generalizing t with
  | zero => exact .nil
  | succ n ih =>
    have ho := orderly_run hd hp ht
    have hmay := may_next (n := n) hd hp ht
    refine List.pairwise_append.2 ⟨ho.once, ?_, fun a ha e he => ?_⟩
    · refine List.pairwise_flatMap.2 ⟨fun u hu => ih (ho.under u hu).named, ?_⟩
      exact ho.apart.imp_of_mem fun {u v} hu hv huv a ha b hb =>
        huv.before (hmay u hu a ha) (hmay v hv b hb)
    · obtain ⟨u, hu, he⟩ := List.mem_flatMap.1 he
      exact ho.ahead a ha u hu e (hmay u hu e he)

/-- What comes of the tasks that a task leads to hides nothing that it does itself. -/
theorem not_hides_next (ht : (t.top p).Named) :
    ∀ e ∈ (t.run p d).events,
      Event.hides d L ((t.run p d).next.flatMap (events p d n)) e.path = false := by
  refine fun e he => Event.not_hides fun text hc => ?_
  obtain ⟨u, hu, hc⟩ := List.mem_flatMap.1 hc
  exact (orderly_run hd hp ht).not_inside he hu (may_next hd hp ht u hu _ hc).within

/-- What comes of the children of a folder is below the folder. -/
theorem inside_of_expand {folder : Path} (hf : folder.Named) (live : Live) :
    ∀ e ∈ ((expand folder live).run p d).next.flatMap (events p d n),
      e.path.Inside (.ofText folder.text) := by
  intro e he
  have ht : ((expand folder live).top p).Named := hf
  obtain ⟨u, hu, he⟩ := List.mem_flatMap.1 he
  have hmay : May p u e := may_next hd hp ht u hu e he
  have hunder : Under p u (.expand folder live) := (orderly_run hd hp ht).under u hu
  rw [Path.ofText_text hf]
  refine ⟨hmay.within.trans hunder.within, fun hq => ?_⟩
  have htop : u.top p = folder := hunder.within.antisymm (hq ▸ hmay.within)
  obtain ⟨children, child, -, -, rfl⟩ := next_expand hu
  exact absurd (hunder.stage_le htop) (Nat.not_succ_le_self 1)

/-- **What comes of a task on the locked disk is what comes of it, locked.** -/
theorem lock_events (ht : (t.top p).Named) :
    events p (d.lock L) n t = Event.lock d L (events p d n t) := by
  -- On the room, which is as great on both disks, so that rows break off at the same place.
  induction n generalizing t with
  | zero => rfl
  | succ n ih =>
    have ho := orderly_run hd hp ht
    have hmay := may_next (n := n) hd hp ht
    cases hl : t.lockAt p d L with
    | none =>
      have hunlocked : ∀ text, .call (.list text) ∈ (t.run p d).events → d.lockAt L text = none :=
        fun text he => unlocked_of_run hl he
      have hrest : Event.lock d L ((t.run p d).next.flatMap (events p d n)) =
          (t.run p d).next.flatMap (events p (d.lock L) n) := by
        rw [Event.lock_flatMap]
        · exact List.flatMap_congr fun u hu => (ih (ho.under u hu).named).symm
        · exact ho.apart.imp_of_mem fun {u v} hu hv huv =>
            ⟨huv.not_hides (hmay u hu) (hmay v hv), huv.symm.not_hides (hmay v hv) (hmay u hu)⟩
      rw [events, events, run_lock hl, Event.lock_append (not_hides_next hd hp ht)
        fun e _ => Event.not_hides_of_unlocked hunlocked e.path, Event.lock_eq_self hunlocked, hrest]
    | some code =>
      obtain ⟨folder, live, children, rfl, hlock, hrun, hrun'⟩ := run_of_lockAt hl
      have hf : folder.Named := ht
      have hinside := inside_of_expand (n := n) hd hp hf live
      rw [hrun] at hinside
      rw [events, events, hrun, hrun']
      refine Eq.trans ?_ (Event.lock_cons_of_locked hlock hinside).symm
      rw [Path.ofText_text hf]
      rfl

/-- What comes of a folder that is listed is all that comes of the task. -/
theorem gathered_expand {folder : Path} {live : Live} (hf : folder.Named)
    (hprobes : p.probes live = false) :
    Event.Gathered (events p d (n + 1) (.expand folder live)) folder.text := by
  have hinside := inside_of_expand (n := n) hd hp hf live
  rw [events]
  rw [run_expand_of_list hprobes] at hinside ⊢
  cases hlist : d.list folder.text with
  | error cause =>
    refine ⟨[], [], [.found (.failure folder cause)], rfl, List.forall_mem_nil _, ?_⟩
    exact List.forall_mem_singleton.2 fun hin => hin.2 (Path.ofText_text hf).symm
  | ok entries =>
    simp only [hlist] at hinside
    exact ⟨[], _, [], congrArg (Event.call _ :: ·) (List.append_nil _).symm, hinside,
      List.forall_mem_nil _⟩

/-- **What comes of a listed folder is one piece of what comes of a task.** -/
theorem gathered_events (ht : (t.top p).Named) (he : .call (.list text) ∈ events p d n t) :
    Event.Gathered (events p d n t) text := by
  induction n generalizing t with
  | zero => cases he
  | succ n ih =>
    rcases List.mem_append.1 he with he | he
    · obtain ⟨folder, live, rfl, rfl, hprobes⟩ := eq_expand_of_list he
      exact gathered_expand hd hp ht hprobes
    · obtain ⟨u, hu, he⟩ := List.mem_flatMap.1 he
      have ho := orderly_run hd hp ht
      have hmay := may_next (n := n) hd hp ht
      have hw : (Path.ofText text).Within (u.top p) := (hmay u hu _ he).within
      obtain ⟨us, vs, hnext⟩ := List.append_of_mem hu
      -- The others are apart from the task, whether they come before it or after it.
      have hperm : (t.run p d).next.Perm (u :: (us ++ vs)) := hnext ▸ List.perm_middle
      have hapart := (List.pairwise_cons.1 ((hperm.pairwise_iff Apart.symm).1 ho.apart)).1
      have hothers : ∀ v ∈ us ++ vs, ∀ e ∈ events p d n v, ¬ e.path.Inside (.ofText text) := by
        intro v hv e he hin
        have hmem := hperm.mem_iff.2 (List.mem_cons_of_mem u hv)
        exact hapart v hv e.path (hin.1.trans hw) (hmay v hmem e he).within
      have hsplit : events p d (n + 1) t = ((t.run p d).events ++ us.flatMap (events p d n)) ++
          (events p d n u ++ vs.flatMap (events p d n)) := by
        rw [events, hnext, List.flatMap_append, List.flatMap_cons, List.append_assoc]
      rw [hsplit]
      refine (ih (ho.under u hu).named he).append (List.forall_mem_append.2 ⟨?_, ?_⟩) ?_
      · exact fun e he => ho.not_inside he hu hw
      · intro e he
        obtain ⟨v, hv, he⟩ := List.mem_flatMap.1 he
        exact hothers v (List.mem_append_left vs hv) e he
      · intro e he
        obtain ⟨v, hv, he⟩ := List.mem_flatMap.1 he
        exact hothers v (List.mem_append_right us hv) e he

end

end Task

/-- **With folders locked, a walk loses what is below those that it lists, and finds an
error for each of them in its place.** -/
theorem events_lock {o : Options} {source : Text} {p : Plan} {d : Disk}
    (hp : Plan.ofSource o source = .ok p) (hd : d.Tidy) (L : Locks) :
    p.events (d.lock L) = Event.lock d L (p.events d) ∧
      (p.calls d).Nodup ∧
      (∀ text, .list text ∈ p.calls d → Event.Gathered (p.events d) text) ∧
      ∀ L' : Locks, (∀ text, .list text ∈ p.calls d → d.lockAt L' text = d.lockAt L text) →
        p.events (d.lock L') = p.events (d.lock L) := by
  have hnamed : p.Named := Plan.named_of_ofSource hp
  have hends : Task.Ends p d (p.room d) .start := Task.ends_start hd.wellNamed hnamed
  have hlock : ∀ L, p.events (d.lock L) = Event.lock d L (p.events d) := by
    intro L
    have hends' : Task.Ends p (d.lock L) (p.room (d.lock L)) .start :=
      Plan.room_lock.symm ▸ Task.ends_lock hends
    rw [Plan.events_eq hends', Plan.events_eq hends, Plan.room_lock]
    exact Task.lock_events hd hnamed hnamed.root
  have honce : (p.events d).Pairwise Event.Before :=
    Plan.events_eq hends ▸ Task.once_events hd hnamed hnamed.root
  refine ⟨hlock L, Event.nodup_calls honce, fun text hc => ?_, fun L' h => ?_⟩
  · have hmem := Event.mem_calls.1 hc
    rw [Plan.events_eq hends] at hmem ⊢
    exact Task.gathered_events hd hnamed hnamed.root hmem
  · rw [hlock, hlock]
    exact Event.lock_congr fun text he => h text (Event.mem_calls.2 he)

/-- A folder is locked that is also reached through a link. -/
theorem events_lock_twice :
    ∃ p d, ∃ L : Locks, Plan.ofSource {} "**".toList = .ok p ∧
      d = Disk.ofLines ["a/b/c".toList, "d -> a".toList] ∧
      d.lockAt L "a".toList = some 13 ∧ d.lockAt L "d".toList = some 13 ∧
      p.events (d.lock L) = Event.lock d L (p.events d) ∧
      ∀ text, .list text ∈ p.calls d → Event.Gathered (p.events d) text := by
  obtain ⟨p, hp⟩ : ∃ p, Plan.ofSource {} "**".toList = .ok p :=
    Plan.exists_ofSource (by cbv) (by cbv)
  have hd : (Disk.ofLines ["a/b/c".toList, "d -> a".toList]).Tidy := by cbv
  obtain ⟨hlock, -, hgathered, -⟩ :=
    events_lock hp hd fun _ way => if way = ["a".toList] then some 13 else none
  exact ⟨p, _, _, hp, rfl, by cbv, by cbv, hlock, hgathered⟩

end PathGlob
