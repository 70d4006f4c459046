import PathGlob.Proofs.Walk.Broken
import PathGlob.Proofs.Walk.Once

/-! A walk asks for no more of the tree than its pattern needs.

What the tasks of one kind ask and find, and that they lead to tasks of that kind only, is
carried over to every pull and to the whole life of a walk in a session, where the tree
changes in between (`Session.asked_of_confined`). The tasks of a walk are at names below the root
with the positions after these names, and a folder is read only where a component is left for a
name in it (`Task.Due`). So the positions decide about every question: whether it is asked, and
whether the folder is listed or its names are looked up (`Call.Needed`, `sparing_asked`). -/
namespace PathGlob

/-! ### Tasks of one kind -/

/-- On this tree the tasks of a kind do nothing but what is allowed, and lead to tasks of the
kind. -/
structure Plan.Confined (p : Plan) (d : Disk) (I : Task → Prop) (Q : Event → Prop) : Prop where
  events : ∀ t, I t → ∀ e ∈ (t.run p d).events, Q e
  next : ∀ t, I t → ∀ u ∈ (t.run p d).next, I u

/-- All that happened is allowed, and the tasks left are of the kind. -/
structure Haul.Confined (I : Task → Prop) (Q : Event → Prop) (h : Haul) : Prop where
  events : ∀ e ∈ h.events, Q e
  left : ∀ t ∈ h.left, I t

section
variable {I : Task → Prop} {Q : Event → Prop} {p : Plan} {d : Disk} {t : Task}

theorem Haul.confined_each {work : Option Nat → Task → Haul}
    (hwork : ∀ wanted t, I t → Confined I Q (work wanted t)) (wanted : Option Nat) {ts : List Task}
    (hts : ∀ t ∈ ts, I t) : Confined I Q (Haul.each work wanted ts) := by
  induction ts generalizing wanted with
  | nil => exact ⟨List.forall_mem_nil _, List.forall_mem_nil _⟩
  | cons t ts ih =>
    obtain ⟨ht, hts⟩ := List.forall_mem_cons.1 hts
    have hfirst := hwork wanted t ht
    have hrest := ih (work wanted t).wanted hts
    exact ⟨List.forall_mem_append.2 ⟨hfirst.events, hrest.events⟩,
      List.forall_mem_append.2 ⟨hfirst.left, hrest.left⟩⟩

theorem Task.confined_pull (h : p.Confined d I Q) (room : Nat) (wanted : Option Nat) (ht : I t) :
    (Task.pull p d room wanted t).Confined I Q := by
  induction room generalizing wanted t with
  | zero => exact ⟨List.forall_mem_nil _, List.forall_mem_nil _⟩
  | succ room ih =>
    rw [pull]
    split
    · exact ⟨List.forall_mem_nil _, List.forall_mem_singleton.2 ht⟩
    · have hbelow := Haul.confined_each (fun wanted u hu => ih (t := u) wanted hu)
        (if (t.run p d).finding.isSome then wanted.map (· - 1) else wanted) (h.next t ht)
      exact ⟨List.forall_mem_append.2 ⟨h.events t ht, hbelow.events⟩, hbelow.left⟩

theorem Walk.confined_pull {w : Walk} (h : w.plan.Confined d I Q) (hw : ∀ t ∈ w.tasks, I t)
    (wanted : Option Nat) : (w.pull d wanted).Confined I Q :=
  Haul.confined_each (fun wanted _ ht => Task.confined_pull h _ wanted ht) wanted hw

/-- What is asked in the life of a walk is allowed, whatever else is done in the session. -/
theorem Session.asked_of_confined {s : Session} {label : Text} {w : Walk} {steps : List Step}
    (hlookup : s.walks.lookup label = some w) (hw : ∀ t ∈ w.tasks, I t)
    (h : ∀ d ∈ s.disk.course steps, w.plan.Confined d I Q) :
    ∀ c ∈ s.asked label steps, Q (.call c) := by
  unfold asked
  induction steps generalizing s w with
  | nil => nofun
  | cons first rest ih =>
    obtain ⟨hdisk, hdisks⟩ := List.forall_mem_cons.1 h
    rw [← disk_step] at hdisks
    cases hbegins : first.begins label with
    | true =>
      rw [life_cons_of_begins hbegins]
      nofun
    | false =>
      cases hpulls : first.pulls label with
      | true =>
        obtain ⟨wanted, hnext, hcalls, -⟩ := step_of_pulls hpulls hlookup
        have hpull := Walk.confined_pull hdisk hw wanted
        rw [life_cons_of_pulls hbegins hpulls, List.flatMap_cons, hcalls]
        rw [hnext] at hdisks ⊢
        refine List.forall_mem_append.2 ⟨fun c hc => hpull.events _ (Event.mem_calls.1 hc), ?_⟩
        exact ih (lookup_set s label { w with tasks := (w.pull s.disk wanted).left }) hpull.left hdisks
      | false =>
        rw [life_cons_of_other hbegins hpulls]
        exact ih ((lookup_step hpulls hbegins).trans hlookup) hw hdisks

end

/-! ### What a pattern needs -/

namespace Plan

/-- The components for a next name, after these names below the root. -/
def ahead (p : Plan) (names : List Text) : List Pattern :=
  (Live.after p.options p.components names).pending p.components

/-- A folder has to be listed: a component is left for a name in it, and where letters count
not all of those left are plain names. -/
structure Lists (p : Plan) (names : List Text) : Prop where
  named : ∀ n ∈ names, Plain n
  ahead_ne : p.ahead names ≠ []
  unknown : p.options.caseSensitive = true → ∃ c ∈ p.ahead names, c.isLiteral = false

/-- A name has to be looked up in a folder: only plain names are left, and it is one of them. -/
structure LooksUp (p : Plan) (names : List Text) (n : Text) : Prop where
  named : ∀ m ∈ names ++ [n], Plain m
  caseSensitive : p.options.caseSensitive = true
  known : ∀ c ∈ p.ahead names, c.isLiteral = true
  written : ∃ c ∈ p.ahead names, c.source = n

end Plan

/-- The positions after the names of the folder call for the question. -/
def Call.Needed (p : Plan) : Call → Prop
  | list text => ∃ names, text = (p.root.below names).text ∧ p.Lists names
  | lookup text => ∃ names n, text = (p.root.below (names ++ [n])).text ∧ p.LooksUp names n

/-- Only what is needed is asked, and so no folder is both listed and asked for names. -/
structure Plan.Sparing (p : Plan) (asked : List Call) : Prop where
  needed : ∀ c ∈ asked, c.Needed p
  apart : ∀ text below, .list text ∈ asked → .lookup below ∈ asked →
    ∀ n, Path.ofText below ≠ (Path.ofText text).below [n]
  unlisted : p.options.caseSensitive = true → (∀ c ∈ p.components, c.isLiteral = true) →
    ∀ text, .list text ∉ asked
  unprobed : p.options.caseSensitive = false → ∀ text, .lookup text ∉ asked

namespace Plan
variable {p : Plan} {names : List Text} {n : Text}

theorem Lists.not_looksUp (h : p.Lists names) : ¬ p.LooksUp names n := by
  intro hl
  obtain ⟨c, hc, hunknown⟩ := h.unknown hl.caseSensitive
  rw [hl.known c hc] at hunknown
  cases hunknown

/-- The text of a path below the root tells the names of the path. -/
theorem below_of_text (hp : p.Named) (hn : ∀ n ∈ names, Plain n) :
    Path.ofText (p.root.below names).text = p.root.below names :=
  Path.ofText_text (List.forall_mem_append.2 ⟨hp.root, hn⟩)

/-- Where every question is needed, the names of a folder decide how it is read. -/
theorem sparing_of_needed {asked : List Call} (hp : p.Named) (h : ∀ c ∈ asked, c.Needed p) :
    p.Sparing asked := by
  refine ⟨h, fun text below hl hb n hq => ?_, fun hs hlit text hl => ?_, fun hs text hb => ?_⟩
  · obtain ⟨names, rfl, hlists⟩ := h _ hl
    obtain ⟨names', n', rfl, hlooks⟩ := h _ hb
    rw [below_of_text hp hlists.named, below_of_text hp hlooks.named, Path.below_below,
      Path.below_inj] at hq
    obtain ⟨rfl, -⟩ := List.append_inj' hq rfl
    exact hlists.not_looksUp hlooks
  · obtain ⟨names, -, hlists⟩ := h _ hl
    obtain ⟨c, hc, hunknown⟩ := hlists.unknown hs
    rw [hlit c (mem_of_pending hc)] at hunknown
    cases hunknown
  · obtain ⟨names, n, -, hlooks⟩ := h _ hb
    rw [hlooks.caseSensitive] at hs
    cases hs

end Plan

/-! ### The tasks of a walk -/

namespace Task
variable {p : Plan} {d : Disk} {t u : Task} {folder path : Path} {live : Live} {c : Call}

/-- A folder is to be read because a component is left for a name in it. -/
def Due (p : Plan) : Task → Prop
  | expand _ live => live.pending p.components ≠ []
  | _ => True

theorem due_next_arrive {reported isFolder : Bool}
    (hu : u ∈ (p.arrive reported path isFolder live).next) : u.Due p := by
  change u ∈ if p.descends live isFolder then [expand path live] else [] at hu
  split at hu
  · rename_i hdown
    obtain rfl := List.mem_singleton.1 hu
    simp only [Plan.descends, Bool.and_eq_true, Bool.not_eq_true', List.isEmpty_eq_false_iff] at hdown
    exact hdown.2
  · cases hu

/-- A task leads to the reading of a folder only where a component is left. -/
theorem due_next (hu : u ∈ (t.run p d).next) : u.Due p := by
  cases t with
  | start =>
    rw [run] at hu
    split at hu
    · exact due_next_arrive hu
    · cases hu
  | visit child live =>
    rw [run] at hu
    split at hu
    · cases hu
    · exact due_next_arrive hu
  | expand folder live =>
    obtain ⟨children, child, -, -, rfl⟩ := next_expand hu
    trivial

/-- Reading a folder with the positions after its names asks what they call for. -/
theorem needed_of_read (hp : p.Named) (hprobing : p.probing = true)
    (hl : (expand folder live).Located p) (hdue : (expand folder live).Due p)
    (hc : c ∈ (p.read d folder live).calls) : c.Needed p := by
  obtain ⟨names, hnames, rfl, rfl⟩ := hl
  cases hprobes : p.probes (Live.after p.options p.components names) with
  | true =>
    rw [Plan.read_of_probes hprobes] at hc
    obtain ⟨q, hq, rfl⟩ := List.mem_map.1 ((Plan.calls_probe d _ _).subset hc)
    obtain ⟨n, hn, rfl⟩ := List.mem_map.1 hq
    have hplain := Plan.plain_of_asked hp hn
    simp only [Plan.probes, Bool.and_eq_true, List.all_eq_true] at hprobes
    refine ⟨names, n, ?_, ?_, hprobes.1.2, hprobes.2, Plan.mem_asked.1 hn⟩
    · rw [← Path.below_below]
      exact congrArg Path.text (Path.join_plain _ hplain)
    · exact List.forall_mem_append.2 ⟨hnames, List.forall_mem_singleton.2 hplain⟩
  | false =>
    rw [Plan.read_of_lists hprobes] at hc
    obtain rfl := List.mem_singleton.1 hc
    refine ⟨names, rfl, hnames, hdue, fun hs => ?_⟩
    rw [Plan.probes, hprobing, hs, Bool.and_self, Bool.true_and, List.all_eq_false] at hprobes
    obtain ⟨c, hc, hlit⟩ := hprobes
    exact ⟨c, hc, eq_false_of_ne_true hlit⟩

/-- **Where a task is decides what it asks**, and the tasks that it leads to are where its
positions say. -/
theorem confined_needed (hd : d.WellNamed) (hp : p.Named) (hprobing : p.probing = true) :
    p.Confined d (fun t => t.Located p ∧ t.Due p) fun e => ∀ c, e = .call c → c.Needed p := by
  refine ⟨fun t ht e he c hc => ?_, fun t ht u hu => ?_⟩
  · subst hc
    obtain ⟨folder, live, rfl, hread⟩ := eq_expand_of_call he
    exact needed_of_read hp hprobing ht.1 ht.2 hread
  · exact ⟨located_next hd hp ht.1 hu, due_next hu⟩

end Task

/-! ### Walks and sessions -/

/-- **A walk asks for nothing that the live positions do not call for.** On any tree, and in any
session in which the tree changes between pulls, every folder that is listed and every name that
is looked up is one that the components left after the names so far need, and no folder is both
listed and asked for names. -/
theorem sparing_asked {o : Options} {source : Text} {p : Plan}
    (hp : Plan.ofSource o source = .ok p) :
    (∀ d : Disk, d.WellNamed → p.Sparing (p.calls d)) ∧
      ∀ (s : Session) (label : Text) (steps : List Step),
        (∀ d ∈ s.disk.course steps, d.WellNamed) →
          p.Sparing ((s.step (.glob label source o)).2.2.asked label steps) := by
  have hnamed := Plan.named_of_ofSource hp
  have hprobing := Plan.probing_of_ofSource hp
  have hstart : ∀ t ∈ (Walk.begin p).tasks, t.Located p ∧ t.Due p :=
    List.forall_mem_singleton.2 ⟨trivial, trivial⟩
  refine ⟨fun d hd => ?_, fun s label steps hd => ?_⟩
  · have hconfined := Task.confined_needed hd hnamed hprobing
    have hpull := Walk.confined_pull (w := .begin p) hconfined hstart none
    exact Plan.sparing_of_needed hnamed fun c hc =>
      hpull.events _ (Event.mem_calls.1 hc) c rfl
  · have hglob : (s.step (.glob label source o)).2.2 = s.set label (Walk.begin p) := by
      simp [Session.step, hp]
    rw [hglob]
    refine Plan.sparing_of_needed hnamed fun c hc => ?_
    exact Session.asked_of_confined (s.lookup_set label (.begin p)) hstart
      (fun d hmem => Task.confined_needed (hd d hmem) hnamed hprobing) c hc c rfl

/-- The folder in the middle is asked for a name and those around it are listed. In a session it
becomes a link to the folder above it while the walk goes on. -/
theorem sparing_asked_middle :
    ∃ p, Plan.ofSource {} "?/b/*".toList = .ok p ∧
      p.calls (.ofLines ["a/b/c".toList]) =
        [.list ".".toList, .lookup "a/b".toList, .list "a/b".toList] ∧
      p.Sparing (p.calls (.ofLines ["a/b/c".toList])) ∧
      p.Sparing (Session.asked "w".toList
        (Session.step ⟨.ofLines ["a/b/c".toList, "d/b".toList], []⟩
          (.glob "w".toList "?/b/*".toList {})).2.2
        [.take "w".toList (some 1), .put "d".toList "b".toList (.link "..".toList),
          .take "w".toList none]) := by
  have hwhole : Token.ofSource "?/b/*".toList =
      .ok [.one, .char '/', .char 'b', .char '/', .run] := by cbv
  have hone : Token.ofSource "?".toList = .ok [.one] := by cbv
  have hname : Token.ofSource "b".toList = .ok [.char 'b'] := by cbv
  have hrun : Token.ofSource "*".toList = .ok [.run] := by cbv
  have hp := Plan.ofSource_of_components (o := {}) [⟨_, _, hone⟩, ⟨_, _, hname⟩, ⟨_, _, hrun⟩]
    hwhole rfl
  obtain ⟨hcalls, hasked⟩ := sparing_asked hp
  refine ⟨_, hp, by cbv, hcalls _ (by cbv), hasked _ _ _ (List.all_eq_true.1 ?_)⟩
  show List.all _ (Disk.all Node.hasEntryNames) = true
  cbv

end PathGlob
