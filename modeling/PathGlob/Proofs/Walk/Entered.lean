import PathGlob.Disk.Manifest
import PathGlob.Proofs.Pattern.Literal
import PathGlob.Proofs.Walk.Found

/-! Joining plain names to the root is going down to them.

The plan of a source has the plain names in front joined to its root, so a walk asks for them
all at once. A walk that starts at the anchor and keeps them as components asks for them name
by name: each is looked up in the folder that the names before it lead to, and that folder must
let itself be searched for the joined path to lead anywhere (`Disk.exists_openAt`). Behind the
names both walks are at the same path, with the same positions but for the components gone by
(`Live.behind`), and do the same from there on (`Task.events_behind`). -/
namespace PathGlob

/-! ### Positions behind a component -/

namespace Live
variable {o : Options} {c : Pattern} {cs : List Pattern} {live : Live} {n : Text} {i j : Nat}

/-- The same positions where there is one component more in front. -/
def behind (live : Live) : Live := live.map (· + 1)

theorem skips_cons : skips (c :: cs) (i + 1) (j + 1) = skips cs i j := by
  simp [skips]

theorem takes_cons : takes o (c :: cs) n (i + 1) (j + 1) = takes o cs n i j := by
  simp [takes]

theorem positions_cons {f : Nat → Bool} (h : f 0 = false) :
    positions (c :: cs) f = (positions cs fun j => f (j + 1)).behind := by
  rw [positions, List.length_cons, List.range_succ_eq_map, List.filter_cons_of_neg (by simp [h]),
    List.filter_map]
  rfl

theorem closure_behind : closure (c :: cs) live.behind = (closure cs live).behind := by
  rw [closure, positions_cons]
  · simp only [closure, behind, List.any_map, Function.comp_def, skips_cons]
  · simp [behind, skips]

theorem advance_behind : advance o (c :: cs) n live.behind = (advance o cs n live).behind := by
  rw [advance, positions_cons, closure_behind]
  · simp only [advance, behind, List.any_map, Function.comp_def, takes_cons]
  · rw [behind, List.any_map, List.any_eq_false]
    intro i _
    simp only [Function.comp_apply, takes]
    split <;> simp

theorem pending_behind : live.behind.pending (c :: cs) = live.pending cs := by
  simp [pending, behind, List.filterMap_map]

theorem isFinal_behind : live.behind.isFinal (c :: cs) = live.isFinal cs := by
  simp [isFinal, behind]

theorem positions_first {f : Nat → Bool} (h : f 0 = true) (hmore : ∀ j, f (j + 1) = false) :
    positions cs f = [0] := by
  rw [positions, List.range_succ_eq_map, List.filter_cons_of_pos h, List.filter_eq_nil_iff.2]
  intro j hj
  obtain ⟨i, -, rfl⟩ := List.mem_map.1 hj
  simp [hmore]

/-- Before a plain component nothing is gone by. -/
theorem start_cons (hr : c.isRecursive = false) : start (c :: cs) = [0] :=
  positions_first (by simp [skips]) fun j => by simp [skips, hr]

/-- A name that the first component takes leads to the start of the others. -/
theorem advance_start (hr : c.isRecursive = false) (hcov : c.covers o n = true) :
    advance o (c :: cs) n (start (c :: cs)) = (start cs).behind := by
  have htakes : positions (c :: cs) (fun j => [0].any (takes o (c :: cs) n · j)) = behind [0] := by
    rw [positions_cons (by simp [takes, hr])]
    refine congrArg behind (positions_first ?_ fun j => ?_) <;> simp [takes, hr, hcov]
  rw [start_cons hr, advance, htakes, closure_behind]
  rfl

/-- A name that the first component does not take leads nowhere. -/
theorem advance_start_eq_nil (hr : c.isRecursive = false) (hcov : c.covers o n = false) :
    advance o (c :: cs) n (start (c :: cs)) = [] := by
  rw [start_cons hr, List.eq_nil_iff_forall_not_mem]
  intro j hj
  obtain ⟨-, k, -, ⟨i, hi, ht⟩, -⟩ := (mem_advance o (c :: cs)).1 hj
  rw [List.mem_singleton.1 hi] at ht
  obtain ⟨c', hc', hcases⟩ := (takes_iff o (c :: cs)).1 ht
  obtain rfl : c = c' := Option.some.inj hc'
  rcases hcases with ⟨hrec, -⟩ | ⟨-, -, htakes⟩
  · rw [hr] at hrec
    cases hrec
  · rw [hcov] at htakes
    cases htakes

end Live

/-- The same task where there is one component more in front. -/
def Task.behind : Task → Task
  | start => start
  | visit child live => visit child live.behind
  | expand folder live => expand folder live.behind

/-- The same turn where there is one component more in front. -/
def Turn.behind (turn : Turn) : Turn := { turn with next := turn.next.map Task.behind }

/-! ### Plans that enter a name -/

namespace Plan
variable {p : Plan} {c : Pattern} {cs : List Pattern} {d : Disk} {live : Live}

/-- The plan that starts at the first name, with the other components. -/
def enter (p : Plan) (c : Pattern) (cs : List Pattern) : Plan :=
  { p with root := p.root.join c.source, components := cs }

/-- The same plan from another root, with other components. -/
def rebase (p : Plan) (root : Path) (cs : List Pattern) : Plan := { p with root, components := cs }

theorem joined_cons (hc : p.components = c :: cs) (hl : c.isLiteral = true) :
    p.joined = (p.enter c cs).joined := by
  rw [joined, hc, List.takeWhile_cons_of_pos hl, List.dropWhile_cons_of_pos hl]
  rfl

/-- Where no plain name is in front, there is nothing to join. -/
theorem joined_eq_self (h : ∀ c ∈ p.components.head?, c.isLiteral = false) : p.joined = p := by
  obtain ⟨source, root, components, foldersOnly, options, probing⟩ := p
  cases components with
  | nil => rfl
  | cons c cs =>
    have hl : ¬ c.isLiteral = true := by simp [h c rfl]
    rw [joined, List.takeWhile_cons_of_neg hl, List.dropWhile_cons_of_neg hl]
    rfl

theorem read_behind (hc : p.components = c :: cs) (root folder : Path) :
    p.read d folder live.behind = (p.rebase root cs).read d folder live := by
  simp only [read, probes, hc, Live.pending_behind]
  rfl

theorem arrive_behind (hc : p.components = c :: cs) (root : Path) (reported isFolder : Bool)
    (path : Path) : p.arrive reported path isFolder live.behind =
      ((p.rebase root cs).arrive reported path isFolder live).behind := by
  have haccepts : p.accepts live.behind isFolder = (p.rebase root cs).accepts live isFolder := by
    rw [accepts, hc, Live.isFinal_behind]
    rfl
  have hdescends : p.descends live.behind isFolder = (p.rebase root cs).descends live isFolder := by
    rw [descends, hc, Live.pending_behind]
    rfl
  rw [arrive, arrive, haccepts, hdescends]
  cases (p.rebase root cs).descends live isFolder <;> rfl

end Plan

namespace Task
variable {p : Plan} {c : Pattern} {cs : List Pattern} {d : Disk} {t u : Task} {k : Nat} {root : Path}

theorem run_behind (hc : p.components = c :: cs) (ht : t ≠ .start) :
    t.behind.run p d = (t.run (p.rebase root cs) d).behind := by
  cases t with
  | start => exact absurd rfl ht
  | visit child live =>
    rw [behind, run, run, hc, Live.advance_behind, Plan.arrive_behind hc root]
    cases child.error <;> rfl
  | expand folder live =>
    rw [behind, run, run, Plan.read_behind hc root]
    cases hr : ((p.rebase root cs).read d folder live).children with
    | error e => rfl
    | ok children =>
      simp only [Turn.behind, List.map_map]
      rfl

/-- Nothing leads back to the root. -/
theorem ne_start (h : u ∈ (t.run p d).next) : u ≠ .start := by
  intro hq
  subst hq
  cases t with
  | start => cases next_start h
  | visit child live => cases next_visit h
  | expand folder live =>
    obtain ⟨_, _, _, _, hq⟩ := next_expand h
    cases hq

/-- What comes of a turn is the same if what comes of the tasks behind it is. -/
theorem events_turn_behind
    (h : ∀ {u}, u ≠ .start → events p d k u.behind = events (p.rebase root cs) d k u) (t : Task) :
    (t.run (p.rebase root cs) d).behind.events ++
        (t.run (p.rebase root cs) d).behind.next.flatMap (events p d k) =
      events (p.rebase root cs) d (k + 1) t := by
  refine congrArg _ ?_
  show (List.map behind _).flatMap _ = _
  rw [List.flatMap_map]
  exact List.flatMap_congr fun u hu => h (ne_start hu)

/-- **Behind the first name all happens as in a plan that starts there.** -/
theorem events_behind (hc : p.components = c :: cs) (ht : t ≠ .start) :
    events p d k t.behind = events (p.rebase root cs) d k t := by
  induction k generalizing t with
  | zero => rfl
  | succ k ih =>
    rw [events, run_behind hc ht]
    exact events_turn_behind ih t

end Task

/-! ### The first name -/

section
variable {p : Plan} {c : Pattern} {cs : List Pattern} {d : Disk} {k : Nat}
  (hc : p.components = c :: cs)
include hc

/-- Before a plain component a folder is read and no other path is found. -/
theorem findings_start_cons (hr : c.isRecursive = false) :
    Event.findings (Task.events p d (k + 1) .start) =
      if d.isFolder p.root.text then
        Event.findings (Task.events p d k (.expand p.root (Live.start p.components)))
      else [] := by
  have haccepts : ∀ isFolder, p.accepts (Live.start p.components) isFolder = false := by
    intro isFolder
    rw [Plan.accepts, hc, Live.start_cons hr]
    rfl
  rw [Task.events, Task.run]
  cases hf : d.isFolder p.root.text with
  | true =>
    have hexists := d.exists?_of_isFolder hf
    have hdescends : p.descends (Live.start p.components) true = true := by
      rw [Plan.descends, hc, Live.start_cons hr]
      rfl
    rw [if_pos hexists, Plan.arrive, haccepts, hdescends, Bool.and_false]
    simp [Turn.events]
  | false =>
    split
    · rw [Plan.arrive, haccepts, Bool.and_false]
      rfl
    · rfl

/-- The folder at the root is asked for the first name only. -/
theorem read_start_cons (hl : c.isLiteral = true) (hprobing : p.probing = true)
    (hcase : p.options.caseSensitive = true) :
    p.read d p.root (Live.start p.components) = Plan.probe d p.root [c.source] := by
  have hpending : (Live.start p.components).pending p.components = [c] := by
    rw [hc, Live.start_cons (Pattern.isRecursive_of_isLiteral hl)]
    rfl
  rw [Plan.read, if_pos, hpending]
  · rfl
  · rw [Plan.probes, hprobing, hcase, hpending]
    simp [hl]

/-- What comes of a first name that is taken is what comes of the plan that starts there. -/
theorem events_first_name {n : Text} (hr : c.isRecursive = false) (hcov : c.covers p.options n = true)
    (hsource : p.source ≠ []) (hexists : d.exists? (p.root.below [n]).text = true) :
    Task.events p d (k + 1) (.visit (Plan.foundAt d p.root n) (Live.start p.components)) =
      Task.events (p.rebase (p.root.below [n]) cs) d (k + 1) .start := by
  have hincludes : (p.rebase (p.root.below [n]) cs).includesRoot = true := by
    have hne : (p.rebase (p.root.below [n]) cs).root ≠ ⟨.here, []⟩ := by simp [Plan.rebase, Path.below]
    have hne' : (p.rebase (p.root.below [n]) cs).source ≠ [] := hsource
    simp [Plan.includesRoot, hne, hne']
  have hstart : Task.start.run (p.rebase (p.root.below [n]) cs) d =
      (p.rebase (p.root.below [n]) cs).arrive true (p.root.below [n])
        (d.isFolder (p.root.below [n]).text) (Live.start cs) := by
    rw [Task.run, hincludes]
    exact if_pos hexists
  have hvisit : (Task.visit (Plan.foundAt d p.root n) (Live.start p.components)).run p d =
      (Task.start.run (p.rebase (p.root.below [n]) cs) d).behind := by
    rw [hstart, ← Plan.arrive_behind hc, ← Live.advance_start hr hcov]
    show p.arrive _ _ _ (Live.advance _ _ (Path.name _) _) = _
    rw [Plan.foundAt, Path.name_below, hc]
  rw [Task.events, hvisit]
  exact Task.events_turn_behind (Task.events_behind hc) .start

/-- The first name is looked up; what comes of it is what comes of the plan that starts there. -/
theorem findings_first_name {s : Spot} {entries : List (Text × Node)} {listing : Option Int}
    (hopen : d.OpenAt p.root s entries listing) (hn : Plain c.source)
    (hb : Disk.nameBytes c.source ≤ 255) (hl : c.isLiteral = true) (hprobing : p.probing = true)
    (hcase : p.options.caseSensitive = true) (hsource : p.source ≠ []) :
    Event.findings (Task.events p d (k + 2) (.expand p.root (Live.start p.components))) =
      Event.findings (Task.events (p.enter c cs) d (k + 1) .start) := by
  have hread := read_start_cons hc hl hprobing hcase (d := d)
  have hroot : (p.enter c cs).root = p.root.below [c.source] := p.root.join_plain hn
  have hrest : (Plan.probe d p.root []).children = .ok [] := rfl
  rcases hopen.exists_or_absent hn hb with ⟨spot, hfound⟩ | habsent
  · have hexists : d.exists? (p.root.below [c.source]).text = true := by
      rw [Disk.exists?, hfound]
      rfl
    rw [← hroot] at hfound
    have hchildren : (p.read d p.root (Live.start p.components)).children =
        .ok [Plan.foundAt d p.root c.source] := by
      rw [hread, Plan.foundAt, ← hroot]
      exact Plan.children_probe_cons.2 (.inl ⟨[], hrest, spot, hfound, rfl⟩)
    have hfirst := events_first_name hc (k := k) (Pattern.isRecursive_of_isLiteral hl)
      (Pattern.covers_source p.options hl) hsource hexists
    rw [findings_expand hchildren, List.flatMap_singleton, hfirst, ← hroot]
    rfl
  · rw [← hroot] at habsent
    have hchildren := Plan.children_probe_cons.2 (.inr ⟨⟨_, habsent, rfl⟩, hrest⟩)
    rw [← hread] at hchildren
    have hexists : d.exists? (p.enter c cs).root.text = false := by
      rw [Disk.exists?, habsent]
      rfl
    rw [findings_expand hchildren, Task.events, Task.run, hexists]
    rfl

end

/-! ### All names in front -/

namespace Plan
variable {p q : Plan} {c : Pattern} {cs : List Pattern} {d : Disk}

/-- The plan looks plain names up, and they are short enough to be asked for. -/
structure Enterable (p : Plan) : Prop where
  named : p.Named
  probing : p.probing = true
  caseSensitive : p.options.caseSensitive = true
  bytes_le : ∀ c ∈ p.components, Disk.nameBytes c.source ≤ 255
  source : p.components ≠ [] → p.source ≠ []

theorem Enterable.enter (h : p.Enterable) (hc : p.components = c :: cs) : (p.enter c cs).Enterable := by
  have hsub : ∀ c' ∈ cs, c' ∈ p.components := fun c' hm => hc ▸ List.mem_cons_of_mem c hm
  have hplain := h.named.components c (hc ▸ List.mem_cons_self)
  refine ⟨⟨?_, fun c' hm => h.named.components c' (hsub c' hm)⟩, h.probing, h.caseSensitive,
    fun c' hm => h.bytes_le c' (hsub c' hm), fun _ => h.source (hc ▸ List.cons_ne_nil c cs)⟩
  show (p.root.join c.source).Named
  rw [p.root.join_plain hplain]
  exact h.named.root.concat hplain

/-- With more room than is needed, what is found is what comes of the first task. -/
theorem findings_eq {k : Nat} (hd : d.WellNamed) (hp : p.Named) (hk : p.room d ≤ k) :
    p.findings d = Event.findings (Task.events p d k .start) := by
  have hends := Task.ends_start hd hp
  rw [findings, events_eq hends, Task.events_of_ends hends hk]

/-- Starting at the first name changes nothing that is found, if nothing changes where the folder
that it is asked for in is open. -/
theorem findings_of_first_name {n : Text} (hd : d.WellNamed) (hs : d.Searchable) (hp : p.Named)
    (hq : q.Named) (hc : p.components = c :: cs) (hr : c.isRecursive = false) (hn : Plain n)
    (hroot : q.root = p.root.below [n])
    (hfirst : ∀ {s entries listing}, d.OpenAt p.root s entries listing → ∀ k,
      Event.findings (Task.events p d (k + 2) (.expand p.root (Live.start p.components))) =
        Event.findings (Task.events q d (k + 1) .start)) :
    q.findings d = p.findings d := by
  obtain ⟨k, hk⟩ : ∃ k, k = p.room d + q.room d := ⟨_, rfl⟩
  rw [findings_eq (k := k + 3) hd hp (by omega), findings_eq (k := k + 1) hd hq (by omega),
    findings_start_cons hc hr]
  cases hf : d.isFolder p.root.text with
  | true =>
    obtain ⟨s, entries, listing, hopen⟩ := d.openAt_of_isFolder hs hp.root hf
    exact (hfirst hopen k).symm
  | false =>
    have hexists : d.exists? q.root.text = false := by
      rw [hroot, Disk.exists?]
      cases hr : d.resolve false (p.root.below [n]).text with
      | error e => rfl
      | ok spot =>
        obtain ⟨s, entries, listing, hopen⟩ := Disk.exists_openAt hp.root hn hr
        rw [hopen.isFolder] at hf
        cases hf
    rw [Task.events, Task.run, hexists]
    rfl

theorem findings_enter (hd : d.WellNamed) (hs : d.Searchable) (h : p.Enterable)
    (hc : p.components = c :: cs) (hl : c.isLiteral = true) :
    (p.enter c cs).findings d = p.findings d := by
  have hm : c ∈ p.components := hc ▸ List.mem_cons_self
  have hn := h.named.components c hm
  have hsource := h.source (hc ▸ List.cons_ne_nil c cs)
  exact findings_of_first_name hd hs h.named (h.enter hc).named hc (Pattern.isRecursive_of_isLiteral hl)
    hn (p.root.join_plain hn) fun hopen _ =>
      findings_first_name hc hopen hn (h.bytes_le c hm) hl h.probing h.caseSensitive hsource

theorem findings_joined (hd : d.WellNamed) (hs : d.Searchable) (h : p.Enterable) :
    p.joined.findings d = p.findings d := by
  obtain ⟨cs, hc⟩ : ∃ cs, p.components = cs := ⟨_, rfl⟩
  induction cs generalizing p with
  | nil => rw [joined_eq_self (by simp [hc])]
  | cons c cs ih =>
    cases hl : c.isLiteral with
    | true => rw [joined_cons hc hl, ih (h.enter hc) rfl, findings_enter hd hs h hc hl]
    | false => rw [joined_eq_self (by simp [hc, hl])]

theorem enterable_of_anchored {o : Options} {source : Text} (h : anchored o source = .ok p)
    (hcase : o.caseSensitive = true)
    (hb : ∀ c ∈ p.components, Disk.nameBytes c.source ≤ 255) : p.Enterable := by
  obtain ⟨-, hnames, hp⟩ := anchored_eq_ok.1 h
  have hfields : p.root.names = [] ∧ p.probing = true ∧ p.options = o ∧ p.source = source := by
    rw [hp]
    exact ⟨rfl, rfl, rfl, rfl⟩
  obtain ⟨hroot, hprobing, hoptions, hsource⟩ := hfields
  refine ⟨⟨?_, plain_of_anchored h⟩, hprobing, hoptions ▸ hcase, hb, fun hne hnil => hne ?_⟩
  · rw [Path.Named, hroot]
    nofun
  · rw [← hsource, hnil] at hnames
    exact List.map_eq_nil_iff.1 hnames

end Plan

/-- **Joining the plain names in front to the root changes nothing that is found.** The plan of
a source finds the same in the same order as the plan that starts at the anchor of the source
and keeps every name as a component, where no folder refuses to be searched. Links may stand
for names in front, and these may lead up. -/
theorem findings_joined_anchored {o : Options} {source : Text} {p : Plan} {d : Disk}
    (hp : Plan.anchored o source = .ok p) (hcase : o.caseSensitive = true)
    (hb : ∀ c ∈ p.components, Disk.nameBytes c.source ≤ 255) (hd : d.WellNamed)
    (hs : d.Searchable) :
    Plan.ofSource o source = .ok p.joined ∧ p.joined.findings d = p.findings d :=
  ⟨Plan.ofSource_eq_ok.2 ⟨p, hp, rfl⟩,
    Plan.findings_joined hd hs (Plan.enterable_of_anchored hp hcase hb)⟩

/-- Names in front that lead through a link and up from where it leads. -/
theorem findings_joined_anchored_link :
    ∃ p d, Plan.anchored {} "l/../f/*".toList = .ok p ∧
      d = Disk.ofLines ["d/e/".toList, "d/f/x".toList, "l -> d/e".toList] ∧
      p.joined.findings d = p.findings d ∧
      p.findings d = [.success (.ofText "l/../f/x".toList)] := by
  have hwhole : Token.ofSource "l/../f/*".toList =
      .ok [.char 'l', .char '/', .char '.', .char '.', .char '/', .char 'f', .char '/', .run] := by
    cbv
  have hlink : Token.ofSource "l".toList = .ok [.char 'l'] := by cbv
  have hup : Token.ofSource "..".toList = .ok [.char '.', .char '.'] := by cbv
  have hname : Token.ofSource "f".toList = .ok [.char 'f'] := by cbv
  have hrun : Token.ofSource "*".toList = .ok [.run] := by cbv
  have hp : Plan.anchored {} "l/../f/*".toList = .ok
      { source := "l/../f/*".toList
        root := ⟨.here, []⟩
        components := [⟨_, _, hlink⟩, ⟨_, _, hup⟩, ⟨_, _, hname⟩, ⟨_, _, hrun⟩]
        foldersOnly := false
        options := {} } :=
    Plan.anchored_eq_ok.2 ⟨⟨_, Pattern.compile_eq_ok hwhole⟩, rfl, rfl⟩
  have hb : ∀ c ∈ [Pattern.mk _ _ hlink, ⟨_, _, hup⟩, ⟨_, _, hname⟩, ⟨_, _, hrun⟩],
      Disk.nameBytes c.source ≤ 255 := by
    simp only [List.forall_mem_cons, List.not_mem_nil, false_imp_iff, implies_true, and_true]
    refine ⟨?_, ?_, ?_, ?_⟩
    all_goals cbv
  refine ⟨_, _, hp, rfl,
    (findings_joined_anchored hp rfl hb (by cbv) (by cbv)).2, ?found⟩
  cbv

end PathGlob
