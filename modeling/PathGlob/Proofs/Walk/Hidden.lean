import PathGlob.Disk.Manifest
import PathGlob.Proofs.Pattern.Covering
import PathGlob.Proofs.Pattern.Literal
import PathGlob.Proofs.Walk.Extent
import PathGlob.Proofs.Walk.Reached

/-! Walks that leave hidden entries alone.

Where a dot at the start of a name is left to the pattern, tokens without a dot among them
cover no hidden name (`Token.head?_ne_dot_of_covers`), so no position stays live after one
(`Live.advance_hidden`). A listing may still name hidden entries, but the turn of such an
entry neither finds it nor leads into it. So the walk of a plan whose components write no dot
finds and asks about paths in sight of its root only (`walk_in_sight`). Names with a separator
are left out, since one name could lead past a hidden folder. -/
namespace PathGlob

/-! ### Names -/

/-- Whether no entry of a folder has a separator in its name. -/
def Node.hasWholeNames : Node → Bool
  | folder entries _ _ => entries.all fun e => !e.1.contains '/'
  | _ => true

/-- No name on the disk holds a separator. -/
def Disk.WholeNamed (d : Disk) : Prop := d.all Node.hasWholeNames = true

instance (d : Disk) : Decidable d.WholeNamed := inferInstanceAs (Decidable (_ = true))

namespace Token
variable {o : Options} {ts : List Token} {lead : Bool} {s u : Text} {t : Token} {c : Char}

theorem ne_dot_of_covers (ho : o.literalLeadingDot = true) (ht : t ≠ char '.')
    (h : t.covers o true c = true) : c ≠ '.' := by
  intro hc
  subst hc
  cases t with
  | char d =>
    have hd : d = '.' := (Text.same_mark (.inl rfl) h).1 rfl
    exact ht (by rw [hd])
  | one => simp [covers, Options.allows, ho] at h
  | bracket b => simp [covers, Options.allows, ho] at h
  | run => cases h
  | deep => cases h

theorem head?_ne_dot_of_stretch (hu : noLeadingDot true u = true)
    (hs : leads true u = true → s.head? ≠ some '.') : (u ++ s).head? ≠ some '.' := by
  cases u with
  | nil => exact hs rfl
  | cons c u =>
    simp only [noLeadingDot, Bool.true_and, Bool.and_eq_true, Bool.not_eq_true',
      beq_eq_false_iff_ne] at hu
    exact fun hc => hu.1 (Option.some.inj hc)

/-- Tokens that write no dot cover no text with a dot in front. Without a character of its own
a stretch leaves the front to the tokens behind it. -/
theorem head?_ne_dot_of_covers (ho : o.literalLeadingDot = true) (hts : char '.' ∉ ts)
    (h : Covers o ts true s) : s.head? ≠ some '.' := by
  generalize hlead : true = lead at h
  induction h with
  | nil => nofun
  | cons hc _ _ =>
    subst hlead
    obtain ⟨ht, -⟩ := not_or.1 (List.mem_cons.not.1 hts)
    exact fun hd => ne_dot_of_covers ho (Ne.symm ht) (covers_iff.2 hc) (Option.some.inj hd)
  | run hu _ ih =>
    subst hlead
    exact head?_ne_dot_of_stretch (hu.2 ho) fun hl => ih (List.not_mem_of_not_mem_cons hts) hl.symm
  | deep hu _ ih =>
    subst hlead
    exact head?_ne_dot_of_stretch (hu.2 ho) fun hl => ih (List.not_mem_of_not_mem_cons hts) hl.symm

end Token

namespace Pattern
variable {o : Options} {c : Pattern} {n : Text}

theorem isHidden_of_covers (ho : o.literalLeadingDot = true) (hc : .char '.' ∉ c.tokens)
    (h : c.covers o n = true) : isHidden n = false := by
  rw [covers, decide_eq_true_iff, Token.matchFrom_eq_matched (Token.placed_tokens c)] at h
  exact beq_eq_false_iff_ne.2 (Token.head?_ne_dot_of_covers ho hc h)

/-- A plain name that is written without a dot is not hidden. -/
theorem isHidden_source (hl : c.isLiteral = true) (hc : .char '.' ∉ c.tokens) :
    isHidden c.source = false := by
  rw [tokens_of_literal hl] at hc
  refine beq_eq_false_iff_ne.2 fun hd => hc ?_
  exact List.mem_map_of_mem (List.mem_of_mem_head? hd)

end Pattern

/-- No position is live after a hidden name. -/
theorem Live.advance_hidden {o : Options} {cs : List Pattern} (ho : o.literalLeadingDot = true)
    (hcs : ∀ c ∈ cs, .char '.' ∉ c.tokens) {name : Text} (h : isHidden name = true) (live : Live) :
    Live.advance o cs name live = [] := by
  refine List.eq_nil_iff_forall_not_mem.2 fun j hj => ?_
  obtain ⟨-, k, -, ⟨i, -, ht⟩, -⟩ := (mem_advance o cs).1 hj
  obtain ⟨c, hc, ⟨-, -, hh⟩ | ⟨-, -, hcov⟩⟩ := (takes_iff o cs).1 ht
  · simp [ho, h] at hh
  · rw [Pattern.isHidden_of_covers ho (hcs c (List.mem_of_getElem? hc)) hcov] at h
    cases h

/-! ### Paths in sight -/

/-- The path is `top` or below it, by names that a file system may list and none of which is
hidden. -/
def Path.InSight (q top : Path) : Prop :=
  ∃ names, q = top.below names ∧ ∀ n ∈ names, Plain n ∧ isHidden n = false

namespace Path
variable {q top : Path} {n : Text}

theorem inSight_self (top : Path) : top.InSight top := ⟨[], top.below_nil.symm, nofun⟩

theorem InSight.below (h : q.InSight top) (hn : Plain n) (hh : isHidden n = false) :
    (q.below [n]).InSight top := by
  obtain ⟨names, rfl, hnames⟩ := h
  exact ⟨names ++ [n], top.below_below names [n],
    List.forall_mem_append.2 ⟨hnames, List.forall_mem_singleton.2 ⟨hn, hh⟩⟩⟩

/-- What is joined without a separator is one name more, or none where it is a dot or empty. -/
theorem join_of_not_mem (q : Path) (h : '/' ∉ n) :
    q.join n = q ∨ Plain n ∧ q.join n = q.below [n] := by
  by_cases hn : n = [] ∨ n = ['.']
  · refine .inl ?_
    rcases hn with rfl | rfl <;> simp [join, Anchor.ofText, namesOf, List.splitOn_eq_singleton]
  · rw [not_or] at hn
    have hplain : Plain n := ⟨hn.1, hn.2, h⟩
    exact .inr ⟨hplain, q.join_plain hplain⟩

theorem InSight.named (h : q.InSight top) (ht : top.Named) : q.Named := by
  obtain ⟨names, rfl, hnames⟩ := h
  exact List.forall_mem_append.2 ⟨ht, fun n hn => (hnames n hn).1⟩

end Path

/-! ### Turns -/

/-- The plan leaves dots in front to its components, and none of them writes a dot. -/
structure Plan.Undotted (p : Plan) : Prop where
  named : p.Named
  leading : p.options.literalLeadingDot = true
  tokens : ∀ c ∈ p.components, .char '.' ∉ c.tokens

/-- Unless it is that a path could not be read, the event is about a path in sight of the root. -/
def Event.InSight (p : Plan) (e : Event) : Prop :=
  (∀ f, e = .found f → f.isSuccess = true) → e.path.InSight p.root

/-- The task is about a path in sight of the root, or about a name in such a folder. -/
def Task.InSight (p : Plan) : Task → Prop
  | start => True
  | visit child _ => child.path.InSight p.root ∨
      ∃ (folder : Path) (n : Text), folder.InSight p.root ∧ Plain n ∧ child.path = folder.below [n]
  | expand folder _ => folder.InSight p.root

/-- What happens in the turn is in sight, and so are the tasks that it leads to. -/
structure Turn.InSight (p : Plan) (turn : Turn) : Prop where
  events : ∀ e ∈ turn.events, e.InSight p
  next : ∀ u ∈ turn.next, u.InSight p

namespace Task
variable {p : Plan} {d : Disk} {t u : Task} {e : Event} {folder path : Path} {live : Live}
  {child : Child}

/-- Arriving at a path in sight finds it and leads into it at most. -/
theorem inSight_arrive {reported isFolder : Bool} (h : path.InSight p.root) :
    (p.arrive reported path isFolder live).InSight p := by
  refine ⟨fun e he _ => ?_, fun u hu => next_arrive hu ▸ h⟩
  rw [eq_of_mem_arrive he]
  exact h

/-- A hidden entry of a listed folder is passed over, even if it could not be read. -/
theorem inSight_visit (hp : p.Undotted) (h : (visit child live).InSight p) :
    ((visit child live).run p d).InSight p := by
  rw [run]
  cases child.error with
  | some e =>
    refine ⟨fun e he hs => ?_, List.forall_mem_nil _⟩
    obtain rfl := List.mem_singleton.1 he
    cases hs _ rfl
  | none =>
    show (p.arrive _ _ _ _).InSight p
    rcases h with h | ⟨folder, n, hf, hn, hpath⟩
    · exact inSight_arrive h
    · rw [hpath, Path.name_below]
      cases hh : isHidden n with
      | true =>
        rw [Live.advance_hidden hp.leading hp.tokens hh, p.arrive_nil]
        exact ⟨List.forall_mem_nil _, List.forall_mem_nil _⟩
      | false => exact inSight_arrive (hf.below hn hh)

/-- The names that are asked for are written by components, and none is hidden. -/
theorem plain_of_asked (hp : p.Undotted) (hprobes : p.probes live = true) {n : Text}
    (hn : n ∈ p.asked live) : Plain n ∧ isHidden n = false := by
  obtain ⟨c, hc, rfl⟩ := Plan.mem_asked.1 hn
  have hmem := Plan.mem_of_pending hc
  have hplain := hp.named.components c hmem
  simp only [Plan.probes, Bool.and_eq_true, List.all_eq_true] at hprobes
  exact ⟨hplain, Pattern.isHidden_source (hprobes.2 c hc) (hp.tokens c hmem)⟩

/-- It is asked about the folder itself, or about names in it that are not hidden. -/
theorem inSight_calls (hp : p.Undotted) (hf : folder.InSight p.root) {c : Call}
    (hc : c ∈ (p.read d folder live).calls) : (Event.call c).path.InSight p.root := by
  have hnamed := hf.named hp.named.root
  rw [Plan.read] at hc
  split at hc
  case isTrue hprobes =>
    obtain ⟨q, hq, rfl⟩ := List.mem_map.1 ((Plan.calls_probe d folder _).subset hc)
    obtain ⟨n, hn, rfl⟩ := List.mem_map.1 hq
    obtain ⟨hplain, hh⟩ := plain_of_asked hp hprobes hn
    have hsight := hf.below hplain hh
    rw [folder.join_plain hplain]
    exact Event.path_lookup (hnamed.below hplain) ▸ hsight
  case isFalse =>
    obtain rfl := List.mem_singleton.1 hc
    exact (Event.path_list hnamed).symm ▸ hf

/-- The children of a folder in sight are names in it, or the folder itself. -/
theorem inSight_children (hd : d.WholeNamed) (hp : p.Undotted) (hf : folder.InSight p.root)
    {children : List Child} (hr : (p.read d folder live).children = .ok children)
    (hc : child ∈ children) : (visit child live).InSight p := by
  rw [Plan.read] at hr
  split at hr
  case isTrue hprobes =>
    obtain ⟨n, hn, hpath, -⟩ := Plan.mem_probe hr hc
    obtain ⟨hplain, -⟩ := plain_of_asked hp hprobes hn
    exact .inr ⟨folder, n, hf, hplain, hpath.trans (folder.join_plain hplain)⟩
  case isFalse =>
    obtain ⟨s, entries, search, hs, hn, e, he, hpath⟩ := Plan.mem_list hr hc
    obtain ⟨links, hl⟩ := Disk.reaches_of_resolve (hf.named hp.named.root) hs
    have hnames : Node.hasWholeNames (.folder entries none search) = true :=
      Node.of_all (hl.holds.all_node hd hn)
    have hwhole : '/' ∉ e.1 := by simpa using List.all_eq_true.1 hnames e he
    rcases folder.join_of_not_mem hwhole with hq | ⟨hplain, hq⟩
    · exact .inl ((hpath.trans hq).symm ▸ hf)
    · exact .inr ⟨folder, e.1, hf, hplain, hpath.trans hq⟩

theorem inSight_expand (hd : d.WholeNamed) (hp : p.Undotted) (h : (expand folder live).InSight p) :
    ((expand folder live).run p d).InSight p := by
  have hf : folder.InSight p.root := h
  refine ⟨fun e he hs => ?_, fun u hu => ?_⟩
  · rcases List.mem_append.1 he with he | he
    · obtain ⟨c, hc, rfl⟩ := List.mem_map.1 he
      rw [calls_expand] at hc
      exact inSight_calls hp hf hc
    · rw [run] at he
      cases hr : (p.read d folder live).children with
      | error cause =>
        simp only [hr] at he
        obtain rfl := List.mem_singleton.1 he
        cases hs _ rfl
      | ok children =>
        simp only [hr] at he
        cases he
  · obtain ⟨children, child, hr, hc, rfl⟩ := next_expand hu
    exact inSight_children hd hp hf hr hc

/-- **What a task in sight does is in sight, and so are the tasks that it leads to.** -/
theorem inSight_run (hd : d.WholeNamed) (hp : p.Undotted) (h : t.InSight p) :
    (t.run p d).InSight p := by
  cases t with
  | start =>
    rw [run]
    split
    · exact inSight_arrive p.root.inSight_self
    · exact ⟨List.forall_mem_nil _, List.forall_mem_nil _⟩
  | visit child live => exact inSight_visit hp h
  | expand folder live => exact inSight_expand hd hp h

theorem inSight_of_leads (hd : d.WholeNamed) (hp : p.Undotted) (hu : LeadsTo p d .start u) :
    u.InSight p := by
  induction hu with
  | refl => trivial
  | tail _ hnext ih => exact (inSight_run hd hp ih).next _ hnext

end Task

/-! ### Walks -/

/-- **Wildcards do not reach hidden entries that are left to the pattern.** Where a dot in
front is covered by a dot of the pattern only, and no component behind the names joined to
the root writes one, neither a path that is found nor a path that is listed or looked up has
a hidden name below the root. -/
theorem walk_in_sight {o : Options} {source : Text} {p : Plan} {d : Disk}
    (hp : Plan.ofSource o source = .ok p) (hd : d.WholeNamed) (ho : o.literalLeadingDot = true)
    (hc : ∀ c ∈ p.components, .char '.' ∉ c.tokens) :
    (∀ q ∈ Finding.paths (p.findings d), q.InSight p.root) ∧
      ∀ text, .list text ∈ p.calls d ∨ .lookup text ∈ p.calls d →
        (Path.ofText text).InSight p.root := by
  have hundotted : p.Undotted :=
    ⟨Plan.named_of_ofSource hp, (Plan.parts_of_ofSource hp).options_eq ▸ ho, hc⟩
  have hevents : ∀ e ∈ p.events d, e.InSight p := by
    intro e he
    obtain ⟨u, hu, hturn⟩ := Plan.exists_leads_of_mem he
    exact (Task.inSight_run hd hundotted (Task.inSight_of_leads hd hundotted hu)).events e hturn
  refine ⟨fun q hq => ?_, fun text h => ?_⟩
  · obtain ⟨f, hf, rfl⟩ := List.mem_map.1 hq
    obtain ⟨hmem, hs⟩ := List.mem_filter.1 hf
    refine hevents _ (Event.mem_findings.1 hmem) fun g hg => ?_
    cases hg
    exact hs
  · rcases h with h | h
    · exact hevents _ (Event.mem_calls.1 h) nofun
    · exact hevents _ (Event.mem_calls.1 h) nofun

/-- A folder and an entry that are hidden, with a set that holds the dot: neither is reached. -/
theorem walk_in_sight_deep :
    ∃ p, Plan.ofSource { literalLeadingDot := true } "**/[!b]*".toList = .ok p ∧
      (∀ c ∈ p.components, .char '.' ∉ c.tokens) ∧
      (∀ q ∈ Finding.paths (p.findings (.ofLines [".d/e".toList, "a/.b".toList, "a/c".toList])),
        q.InSight p.root) ∧
      ∀ text, .list text ∈ p.calls (.ofLines [".d/e".toList, "a/.b".toList, "a/c".toList]) ∨
          .lookup text ∈ p.calls (.ofLines [".d/e".toList, "a/.b".toList, "a/c".toList]) →
        (Path.ofText text).InSight p.root := by
  have hwhole : Token.ofSource "**/[!b]*".toList =
      .ok [.deep, .bracket ⟨[.single 'b'], true⟩, .run] := by cbv
  have hdeep : Token.ofSource "**".toList = .ok [.deep] := by cbv
  have hset : Token.ofSource "[!b]*".toList = .ok [.bracket ⟨[.single 'b'], true⟩, .run] := by cbv
  have hp := Plan.ofSource_of_components (o := { literalLeadingDot := true })
    [⟨_, _, hdeep⟩, ⟨_, _, hset⟩] hwhole rfl
  have hd : (Disk.ofLines [".d/e".toList, "a/.b".toList, "a/c".toList]).WholeNamed := by cbv
  have hc : ∀ c ∈ [Pattern.mk _ _ hdeep, ⟨_, _, hset⟩], .char '.' ∉ c.tokens := by simp
  exact ⟨_, hp, hc, walk_in_sight hp hd rfl hc⟩

end PathGlob
