import Mathlib
import PathGlob.Disk.Manifest
import PathGlob.Proofs.Walk.Found
import PathGlob.Proofs.Walk.Reported

/-! Looking names up finds what listing finds.

Where the names asked for in a folder are known, a walk looks each of them up and leaves the
other entries alone. The positions have no use for those (`Plan.mem_asked_of_advance`), so
nothing is found at them in a listing either, and the names of use are the same both ways
(`Plan.perm_used`). With links about, the kind of an entry is told by its path in one case and
by the listing in the other; where the listing can tell it, they agree (`Plan.childOf_eq`).

Names are looked up in the order of the pattern and listed in that of the folder. That makes
no difference unless several names are asked for at once, and a walk that leaves no dots to
the pattern is settled on one plain name or asks for all there are (`Live.Settled`). -/
namespace PathGlob

/-! ### Findings that agree -/

/-- The same findings; in the same order too, unless dots in front are left to the pattern. -/
structure Finding.Agree (o : Options) (fs gs : List Finding) : Prop where
  perm : fs.Perm gs
  eq : o.literalLeadingDot = false → fs = gs

namespace Finding
variable {o : Options} {fs gs fs' gs' : List Finding}

theorem Agree.refl (o : Options) (fs : List Finding) : Agree o fs fs := ⟨.refl fs, fun _ => rfl⟩

theorem Agree.append (h : Agree o fs gs) (h' : Agree o fs' gs') : Agree o (fs ++ fs') (gs ++ gs') :=
  ⟨h.perm.append h'.perm, fun ho => by rw [h.eq ho, h'.eq ho]⟩

theorem Agree.flatMap {α : Type} {as : List α} {f g : α → List Finding}
    (h : ∀ a ∈ as, Agree o (f a) (g a)) : Agree o (as.flatMap f) (as.flatMap g) :=
  ⟨.flatMap_left as fun a ha => (h a ha).perm,
    fun ho => List.flatMap_congr fun a ha => (h a ha).eq ho⟩

end Finding

/-! ### Positions -/

namespace Live
variable {o : Options} {cs : List Pattern} {live : Live}

/-- All names are asked for, or there is one position at most. -/
def Settled (cs : List Pattern) (live : Live) : Prop :=
  (∃ c ∈ live.pending cs, c.isRecursive = true) ∨ ∀ i ∈ live, ∀ j ∈ live, i = j

/-- What is reached from one position without a name is settled. -/
theorem settled_closure (h : ∀ i ∈ live, ∀ j ∈ live, i = j) : Settled cs (closure cs live) := by
  by_cases hrec : ∃ i ∈ live, ∃ c, cs[i]? = some c ∧ c.isRecursive = true
  · obtain ⟨i, hi, c, hc, hr⟩ := hrec
    have hle := Nat.le_of_lt (List.getElem?_eq_some_iff.1 hc).1
    have hmem : i ∈ closure cs live := (mem_closure cs).2 ⟨hle, i, hi, skips_self cs i⟩
    exact .inl ⟨c, List.mem_filterMap.2 ⟨i, hmem, hc⟩, hr⟩
  · have hstay : ∀ j ∈ closure cs live, j ∈ live := by
      intro j hj
      obtain ⟨hle, i, hi, hs⟩ := (mem_closure cs).1 hj
      obtain ⟨hij, hskip⟩ := (skips_iff cs).1 hs
      rcases Nat.eq_or_lt_of_le hij with rfl | hlt
      · exact hi
      · have hc := List.getElem?_eq_getElem (Nat.lt_of_lt_of_le hlt hle)
        exact absurd ⟨i, hi, _, hc, hskip i _ (Nat.le_refl i) hlt hc⟩ hrec
    exact .inr fun i hi j hj => h i (hstay i hi) j (hstay j hj)

theorem settled_start (cs : List Pattern) : Settled cs (start cs) :=
  settled_closure (by simp)

/-- A name leads from one position to one. -/
theorem takes_unique {n : Text} {i j k : Nat} (h : takes o cs n i j = true)
    (h' : takes o cs n i k = true) : j = k := by
  obtain ⟨c, hc, hj⟩ := (takes_iff o cs).1 h
  obtain ⟨c', hc', hk⟩ := (takes_iff o cs).1 h'
  obtain rfl := Option.some.inj (hc.symm.trans hc')
  cases hr : c.isRecursive <;> simp_all

/-- Where no dot is left to the pattern, a recursive component goes on taking names. -/
theorem Settled.advance (ho : o.literalLeadingDot = false) (h : Settled cs live) (n : Text) :
    Settled cs (advance o cs n live) := by
  rcases h with ⟨c, hc, hr⟩ | hone
  · obtain ⟨i, hi, hci⟩ := List.mem_filterMap.1 hc
    have hle := Nat.le_of_lt (List.getElem?_eq_some_iff.1 hci).1
    have ht : takes o cs n i i = true :=
      (takes_iff o cs).2 ⟨c, hci, .inl ⟨hr, rfl, by rw [ho, Bool.false_and]⟩⟩
    have hmem : i ∈ Live.advance o cs n live :=
      (mem_advance o cs).2 ⟨hle, i, hle, ⟨i, hi, ht⟩, skips_self cs i⟩
    exact .inl ⟨c, List.mem_filterMap.2 ⟨i, hmem, hci⟩, hr⟩
  · refine settled_closure fun j hj k hk => ?_
    obtain ⟨-, htake⟩ := (mem_positions cs).1 hj
    obtain ⟨-, htake'⟩ := (mem_positions cs).1 hk
    obtain ⟨i, hi, ht⟩ := List.any_eq_true.1 htake
    obtain ⟨i', hi', ht'⟩ := List.any_eq_true.1 htake'
    obtain rfl := hone i hi i' hi'
    exact takes_unique ht ht'

/-- Whether the positions have a use for the name. -/
def uses (o : Options) (cs : List Pattern) (live : Live) (n : Text) : Bool :=
  !(Live.advance o cs n live).isEmpty

theorem uses_iff {n : Text} : uses o cs live n = true ↔ Live.advance o cs n live ≠ [] := by
  simp [uses]

theorem advance_of_not_uses {n : Text} (h : uses o cs live n = false) :
    Live.advance o cs n live = [] := by
  simpa [uses] using h

end Live

/-! ### Children of a folder -/

namespace Plan
variable {p : Plan} {d : Disk} {folder : Path} {s : Spot} {entries : List (Text × Node)}
  {listing : Option Int} {live : Live} {n : Text}

/-- Where only plain names are asked for and the positions are settled, one is. -/
theorem asked_unique (hprobes : p.probes live = true) (h : Live.Settled p.components live)
    {m : Text} (hn : n ∈ p.asked live) (hm : m ∈ p.asked live) : n = m := by
  simp only [probes, Bool.and_eq_true, List.all_eq_true] at hprobes
  rcases h with ⟨c, hc, hr⟩ | hone
  · rw [Pattern.isRecursive_of_isLiteral (hprobes.2 c hc)] at hr
    cases hr
  · obtain ⟨c, hc, rfl⟩ := mem_asked.1 hn
    obtain ⟨c', hc', rfl⟩ := mem_asked.1 hm
    obtain ⟨i, hi, hci⟩ := List.mem_filterMap.1 hc
    obtain ⟨i', hi', hci'⟩ := List.mem_filterMap.1 hc'
    obtain rfl := hone i hi i' hi'
    rw [Option.some.inj (hci.symm.trans hci')]

/-- The names that are of use: those found of the ones asked for, and those listed. -/
theorem perm_used (hprobes : p.probes live = true) (hn : (entries.map Prod.fst).Nodup) :
    (((p.asked live).filter fun n => (entries.lookup n).isSome).filter
        (Live.uses p.options p.components live)).Perm
      ((entries.map Prod.fst).filter (Live.uses p.options p.components live)) := by
  have hfound := ((p.nodup_asked live).filter fun n => (entries.lookup n).isSome).filter
    (Live.uses p.options p.components live)
  refine (List.perm_ext_iff_of_nodup hfound (hn.filter _)).2 fun n => ?_
  simp only [List.mem_filter]
  constructor
  · intro h
    obtain ⟨⟨-, hsome⟩, hu⟩ := h
    obtain ⟨node, hm⟩ := Option.isSome_iff_exists.1 hsome
    exact ⟨List.mem_map_of_mem (Node.mem_of_lookup hm), hu⟩
  · intro h
    obtain ⟨hmem, hu⟩ := h
    obtain ⟨e, he, rfl⟩ := List.mem_map.1 hmem
    refine ⟨⟨mem_asked_of_advance hprobes (Live.uses_iff.1 hu), ?_⟩, hu⟩
    rw [Node.lookup_of_mem hn he]
    rfl

/-- Settled positions have a use for one name at most, so there is no order to be kept. -/
theorem eq_used (hprobes : p.probes live = true) (hn : (entries.map Prod.fst).Nodup)
    (h : Live.Settled p.components live) :
    ((p.asked live).filter fun n => (entries.lookup n).isSome).filter
        (Live.uses p.options p.components live) =
      (entries.map Prod.fst).filter (Live.uses p.options p.components live) := by
  have hperm := perm_used hprobes hn
  have hone : (((p.asked live).filter fun n => (entries.lookup n).isSome).filter
      (Live.uses p.options p.components live)).Pairwise (· = ·) := by
    refine List.pairwise_of_forall_mem_list fun n hn m hm => asked_unique hprobes h ?_ ?_
    · exact (List.mem_filter.1 (List.mem_filter.1 hn).1).1
    · exact (List.mem_filter.1 (List.mem_filter.1 hm).1).1
  exact hperm.eq_of_pairwise (fun _ _ _ _ h _ => h) hone (hperm.pairwise hone fun h => h.symm)

/-- An entry whose kind the listing can tell is told alike when its name is looked up. -/
theorem childOf_eq {node : Node} (h : d.OpenAt folder s entries listing) (hask : Askable n)
    (hm : entries.lookup n = some node)
    (he : (childOf folder ⟨n, d.entryIsFolder folder.text n node⟩).error = none) :
    childOf folder ⟨n, d.entryIsFolder folder.text n node⟩ = foundAt d folder n := by
  rw [childOf] at he ⊢
  cases hf : d.entryIsFolder folder.text n node with
  | error e =>
    simp only [hf] at he
    cases he
  | ok isFolder =>
    rw [foundAt, h.isFolder_of_listed hask.plain hask.ne_up hask.bytes_le hm hf]
    exact congrArg (Child.mk · isFolder none) (folder.join_plain hask.plain)

end Plan

/-! ### What each task finds -/

namespace Task
variable {p : Plan} {d : Disk} {k : Nat} {folder path : Path} {live : Live} {child : Child}

/-- All that comes of the task where folders are listed is a success. -/
def Smooth (p : Plan) (d : Disk) (k : Nat) (t : Task) : Prop :=
  ∀ f ∈ Event.findings (events p.listing d k t), f.isSuccess = true

/-- The task finds the same where names are looked up. -/
def Agrees (p : Plan) (d : Disk) (k : Nat) (t : Task) : Prop :=
  Finding.Agree p.options (Event.findings (events p d k t))
    (Event.findings (events p.listing d k t))

/-- Arriving at a path is the same both ways; it is the reading of folders that differs. -/
theorem agree_arrive {reported isFolder : Bool} {t : Task}
    (hrun : t.run p d = p.arrive reported path isFolder live)
    (hlisting : t.run p.listing d = p.arrive reported path isFolder live)
    (ih : Smooth p d k (.expand path live) → Agrees p d k (.expand path live))
    (h : Smooth p d (k + 1) t) : Agrees p d (k + 1) t := by
  rw [Smooth, events, hlisting, Event.findings_append, List.forall_mem_append] at h
  rw [Agrees, events, events, hrun, hlisting, Event.findings_append, Event.findings_append]
  refine (Finding.Agree.refl _ _).append ?_
  rw [Event.findings_flatMap] at h
  rw [Event.findings_flatMap, Event.findings_flatMap]
  refine Finding.Agree.flatMap fun u hu => ?_
  have hsmooth : Smooth p d k u := fun f hf => h.2 f (List.mem_flatMap_of_mem hu hf)
  obtain rfl := next_arrive hu
  exact ih hsmooth

/-- A child that could not be read is told by a failure. -/
theorem error_eq_none (h : Smooth p d (k + 1) (.visit child live)) : child.error = none := by
  cases he : child.error with
  | none => rfl
  | some e =>
    have hf : Finding.failure child.path e ∈
        Event.findings (events p.listing d (k + 1) (.visit child live)) := by
      rw [events]
      exact Event.mem_findings.2 (List.mem_append_left _ (found_mem_visit.2 (.inl ⟨_, he, rfl⟩)))
    cases h _ hf

theorem agree_visit
    (ih : ∀ live, (p.options.literalLeadingDot = false → Live.Settled p.components live) →
      Smooth p d k (.expand child.path live) → Agrees p d k (.expand child.path live))
    (hl : p.options.literalLeadingDot = false → Live.Settled p.components live)
    (h : Smooth p d (k + 1) (.visit child live)) : Agrees p d (k + 1) (.visit child live) := by
  have hrun : ∀ q : Plan, (Task.visit child live).run q d = q.arrive true child.path child.isFolder
      (Live.advance q.options q.components child.path.name live) := by
    intro q
    rw [run, error_eq_none h]
  exact agree_arrive (hrun p) (hrun p.listing) (ih _ fun ho => (hl ho).advance ho _) h

/-- Nothing comes of a name that the positions have no use for. -/
theorem findings_unused (he : k ≠ 0 → child.error = none)
    (hu : Live.uses p.options p.components live child.path.name = false) :
    Event.findings (events p d k (.visit child live)) = [] := by
  cases k with
  | zero => rfl
  | succ k =>
    have hrun : (Task.visit child live).run p d = {} := by
      rw [run, he (Nat.succ_ne_zero k)]
      show p.arrive _ _ _ (Live.advance _ _ _ _) = _
      rw [Live.advance_of_not_uses hu, p.arrive_nil]
    rw [events, hrun]
    rfl

/-- An entry that could be read and whose name is of use is told alike when it is looked up. -/
theorem findings_used {s : Spot} {entries : List (Text × Node)} {listing : Option Int} {n : Text}
    {node : Node} (hopen : d.OpenAt folder s entries listing) (hask : Plan.Askable n)
    (hm : entries.lookup n = some node)
    (h : Smooth p d k (.visit (Plan.childOf folder ⟨n, d.entryIsFolder folder.text n node⟩) live)) :
    Event.findings (events p.listing d k
        (.visit (Plan.childOf folder ⟨n, d.entryIsFolder folder.text n node⟩) live)) =
      Event.findings (events p.listing d k (.visit (Plan.foundAt d folder n) live)) := by
  cases k with
  | zero => rfl
  | succ k => rw [Plan.childOf_eq hopen hask hm (error_eq_none h)]

end Task

section
variable {p : Plan} {d : Disk} {k : Nat} {folder : Path} {live : Live} {s : Spot}
  {entries : List (Text × Node)} {listing : Option Int}

/-- What is found at the entries of a listed folder. -/
def foundListed (p : Plan) (d : Disk) (k : Nat) (folder : Path) (live : Live)
    (entries : List (Text × Node)) : List Finding :=
  entries.flatMap fun e => Event.findings (Task.events p.listing d k
    (.visit (Plan.childOf folder ⟨e.1, d.entryIsFolder folder.text e.1 e.2⟩) live))

/-- In an open folder is found, where it is listed, what comes of the names of use. -/
theorem foundListed_eq (hd : d.Tidy) (hask : ∀ c ∈ p.components, Plan.Askable c.source)
    (hopen : d.OpenAt folder s entries listing) (hprobes : p.probes live = true)
    (h : ∀ f ∈ foundListed p d k folder live entries, f.isSuccess = true) :
    foundListed p d k folder live entries =
      ((entries.map Prod.fst).filter (Live.uses p.options p.components live)).flatMap fun n =>
        Event.findings (Task.events p.listing d k (.visit (Plan.foundAt d folder n) live)) := by
  obtain ⟨hnodup, hnames⟩ := hopen.entryNames hd
  have hsmooth : ∀ e ∈ entries, Task.Smooth p d k
      (.visit (Plan.childOf folder ⟨e.1, d.entryIsFolder folder.text e.1 e.2⟩) live) :=
    fun e he f hf => h f (List.mem_flatMap_of_mem he hf)
  rw [foundListed, List.filter_map, List.flatMap_map,
    ← flatMap_filter (u := Live.uses p.options p.components live ∘ Prod.fst)]
  · refine List.flatMap_congr fun e he => ?_
    obtain ⟨he, hu⟩ := List.mem_filter.1 he
    have hasked : e.1 ∈ p.asked live := Plan.mem_asked_of_advance hprobes (Live.uses_iff.1 hu)
    exact Task.findings_used hopen (Plan.forall_asked hask e.1 hasked)
      (Node.lookup_of_mem hnodup he) (hsmooth e he)
  · intro e he hu
    have hpath : (Plan.childOf folder ⟨e.1, d.entryIsFolder folder.text e.1 e.2⟩).path =
        folder.below [e.1] :=
      (Plan.path_childOf _ _).trans (folder.join_plain (hnames e he).1)
    refine Task.findings_unused (p := p.listing) (fun hk => ?_) ?_
    · obtain ⟨k, rfl⟩ := Nat.exists_eq_succ_of_ne_zero hk
      exact Task.error_eq_none (hsmooth e he)
    · rw [hpath, Path.name_below]
      exact hu

/-- What is found in an open folder agrees if what comes of the names of use does. -/
theorem agree_looked (hd : d.Tidy) (hask : ∀ c ∈ p.components, Plan.Askable c.source)
    (hopen : d.OpenAt folder s entries listing) (hprobes : p.probes live = true)
    (hl : p.options.literalLeadingDot = false → Live.Settled p.components live)
    (h : ∀ f ∈ foundListed p d k folder live entries, f.isSuccess = true)
    (hchild : ∀ n ∈ entries.map Prod.fst, Task.Smooth p d k (.visit (Plan.foundAt d folder n) live) →
      Task.Agrees p d k (.visit (Plan.foundAt d folder n) live)) :
    Finding.Agree p.options (Event.findings (Task.events p d (k + 1) (.expand folder live)))
      (foundListed p d k folder live entries) := by
  obtain ⟨hnodup, -⟩ := hopen.entryNames hd
  have haskable : ∀ n ∈ p.asked live, Plan.Askable n := Plan.forall_asked hask
  have hreading := Plan.children_probe hopen haskable
  rw [← Plan.read_of_probes hprobes] at hreading
  have hunused : ∀ n ∈ (p.asked live).filter fun n => (entries.lookup n).isSome,
      Live.uses p.options p.components live n = false →
        Event.findings (Task.events p d k (.visit (Plan.foundAt d folder n) live)) = [] := by
    intro n _ hu
    refine Task.findings_unused (fun _ => rfl) ?_
    rw [Plan.foundAt, Path.name_below]
    exact hu
  have hlisted := foundListed_eq hd hask hopen hprobes h
  rw [hlisted] at h ⊢
  rw [findings_expand hreading, List.flatMap_map, ← flatMap_filter hunused]
  have hagree := Finding.Agree.flatMap fun n hn =>
    hchild n (List.mem_filter.1 hn).1 fun f hf => h f (List.mem_flatMap_of_mem hn hf)
  refine ⟨((Plan.perm_used hprobes hnodup).flatMap_right _).trans hagree.perm, fun ho => ?_⟩
  rw [Plan.eq_used hprobes hnodup (hl ho)]
  exact hagree.eq ho

/-- What is found in a folder that is listed both ways agrees if what comes of its entries does. -/
theorem agree_listed {es : List Disk.Entry} (hes : d.list folder.text = .ok es)
    (hprobes : p.probes live = false)
    (hchild : ∀ e ∈ es, Task.Agrees p d k (.visit (Plan.childOf folder e) live)) :
    Task.Agrees p d (k + 1) (.expand folder live) := by
  have hread : ∀ q : Plan, q.probes live = false →
      (q.read d folder live).children = .ok (es.map (Plan.childOf folder)) := by
    intro q hq
    rw [Plan.read_of_lists hq, hes]
    rfl
  rw [Task.Agrees, findings_expand (hread p hprobes), findings_expand (hread p.listing rfl),
    List.flatMap_map, List.flatMap_map]
  exact Finding.Agree.flatMap hchild

/-- **Reading a folder by its names and by listing it leads to the same findings.** -/
theorem agree_expand (hd : d.Tidy) (hs : d.Searchable)
    (hask : ∀ c ∈ p.components, Plan.Askable c.source) (hf : folder.Named)
    (hl : p.options.literalLeadingDot = false → Live.Settled p.components live)
    (h : Task.Smooth p d k (.expand folder live)) : Task.Agrees p d k (.expand folder live) := by
  -- From a folder to a folder in it there are two tasks, so the induction is a strong one.
  induction k using Nat.strongRecOn generalizing folder live with
  | ind k ih =>
    cases k with
    | zero => exact .refl _ _
    | succ k =>
      have hvisit : ∀ child : Child, child.path.Named → Task.Smooth p d k (.visit child live) →
          Task.Agrees p d k (.visit child live) := by
        intro child hnamed hsmooth
        cases k with
        | zero => exact .refl _ _
        | succ k => exact Task.agree_visit (fun live hl h => ih k (by omega) hnamed hl h) hl hsmooth
      cases hr : (p.listing.read d folder live).children with
      | error e =>
        have hmem : Finding.failure folder e ∈
            Event.findings (Task.events p.listing d (k + 1) (.expand folder live)) := by
          rw [Task.events]
          exact Event.mem_findings.2 (List.mem_append_left _ (Task.found_mem_expand.2 ⟨_, hr, rfl⟩))
        cases h _ hmem
      | ok children =>
        have hfound := findings_expand (k := k) hr
        rw [Task.Smooth, hfound] at h
        rw [Plan.read_of_lists (p := p.listing) rfl] at hr
        obtain ⟨es, hes, rfl⟩ := map_eq_ok.1 hr
        obtain ⟨s, entries, hopen, rfl⟩ := Disk.openAt_of_list hs hf hes
        obtain ⟨-, hnames⟩ := hopen.entryNames hd
        cases hprobes : p.probes live with
        | true =>
          rw [List.map_map, List.flatMap_map] at h hfound
          rw [Task.Agrees, hfound]
          refine agree_looked hd hask hopen hprobes hl h fun n hn => hvisit _ ?_
          obtain ⟨e, he, rfl⟩ := List.mem_map.1 hn
          exact hf.below (hnames e he).1
        | false =>
          refine agree_listed hes hprobes fun entry hentry => ?_
          refine hvisit _ ?_ fun f hf => h f (List.mem_flatMap_of_mem (List.mem_map_of_mem hentry) hf)
          obtain ⟨e, he, rfl⟩ := List.mem_map.1 hentry
          rw [Plan.path_childOf, folder.join_plain (hnames e he).1]
          exact hf.below (hnames e he).1

end

/-! ### What a walk finds -/

/-- **Looking names up finds what listing finds.** Where no folder refuses to be searched and
nothing fails when all folders are listed, nothing fails when names are looked up, and the same
is found; in the same order if no dot at the start of a name is left to the pattern. A name
that is looked up must be short enough to be asked for, and not that of the folder above, which
no listing has. -/
theorem findings_perm_listing {o : Options} {source : Text} {p : Plan} {d : Disk}
    (hp : Plan.ofSource o source = .ok p) (hd : d.Tidy) (hs : d.Searchable)
    (hc : ∀ c ∈ p.components, c.source ≠ ['.', '.'] ∧ Disk.nameBytes c.source ≤ 255)
    (h : ∀ f ∈ p.listing.findings d, f.isSuccess = true) :
    (∀ f ∈ p.findings d, f.isSuccess = true) ∧
      (p.findings d).Perm (p.listing.findings d) ∧
      (o.literalLeadingDot = false → p.findings d = p.listing.findings d) := by
  have hnamed := Plan.named_of_ofSource hp
  have hlisting : p.listing.Named := ⟨hnamed.root, hnamed.components⟩
  have hask : ∀ c ∈ p.components, Plan.Askable c.source := fun c hm =>
    ⟨hnamed.components c hm, (hc c hm).1, (hc c hm).2⟩
  have hends := Task.ends_start hd.wellNamed hnamed
  have hevents : p.listing.events d = Task.events p.listing d (p.room d) .start :=
    Plan.events_eq (Task.ends_start hd.wellNamed hlisting)
  have hfound : p.findings d = Event.findings (Task.events p d (p.room d) .start) :=
    congrArg Event.findings (Plan.events_eq hends)
  have hlisted : p.listing.findings d = Event.findings (Task.events p.listing d (p.room d) .start) :=
    congrArg Event.findings hevents
  rw [hlisted] at h ⊢
  rw [hfound]
  have hagree : Task.Agrees p d (p.room d) .start := by
    rw [Plan.room] at h ⊢
    by_cases hexists : d.exists? p.root.text = true
    · have hrun : ∀ q : Plan, q.root = p.root → Task.start.run q d =
          q.arrive q.includesRoot p.root (d.isFolder p.root.text) (Live.start q.components) := by
        intro q hq
        rw [Task.run, hq, if_pos hexists]
      exact Task.agree_arrive (hrun p rfl) (hrun p.listing rfl)
        (agree_expand hd hs hask hnamed.root fun _ => Live.settled_start _) h
    · have hrun : ∀ q : Plan, q.root = p.root → Task.start.run q d = {} := by
        intro q hq
        rw [Task.run, hq, if_neg hexists]
      rw [Task.Agrees, Task.events, Task.events, hrun p rfl, hrun p.listing rfl]
      exact .refl _ _
  refine ⟨fun f hf => h f (hagree.perm.mem_iff.1 hf), hagree.perm, fun ho => hagree.eq ?_⟩
  rw [(Plan.parts_of_ofSource hp).options_eq]
  exact ho

/-- Behind a hidden name two plain ones are asked for, and the pattern has them in another order
than the folder: both ways find the same two, but not the same one first. -/
theorem findings_perm_listing_hidden :
    ∃ p d, Plan.ofSource { literalLeadingDot := true } "**/*.x/.x/q".toList = .ok p ∧
      d = Disk.ofLines ["n.x/.x/q".toList, "n.x/.x/.x/q".toList] ∧
      (p.findings d).Perm (p.listing.findings d) ∧ p.findings d ≠ p.listing.findings d := by
  have hwhole : Token.ofSource "**/*.x/.x/q".toList =
      .ok [.deep, .run, .char '.', .char 'x', .char '/', .char '.', .char 'x', .char '/',
        .char 'q'] := by cbv
  have hdeep : Token.ofSource "**".toList = .ok [.deep] := by cbv
  have hrun : Token.ofSource "*.x".toList = .ok [.run, .char '.', .char 'x'] := by cbv
  have hname : Token.ofSource ".x".toList = .ok [.char '.', .char 'x'] := by cbv
  have hlast : Token.ofSource "q".toList = .ok [.char 'q'] := by cbv
  obtain ⟨p, hplan⟩ : ∃ p : Plan, p =
      { source := "**/*.x/.x/q".toList
        root := ⟨.here, []⟩
        components := [⟨_, _, hdeep⟩, ⟨_, _, hrun⟩, ⟨_, _, hname⟩, ⟨_, _, hlast⟩]
        foldersOnly := false
        options := { literalLeadingDot := true } } := ⟨_, rfl⟩
  have hp : Plan.ofSource { literalLeadingDot := true } "**/*.x/.x/q".toList = .ok p :=
    hplan ▸ Plan.ofSource_of_components
      [⟨_, _, hdeep⟩, ⟨_, _, hrun⟩, ⟨_, _, hname⟩, ⟨_, _, hlast⟩] hwhole rfl
  have hc : ∀ c ∈ p.components, c.source ≠ ['.', '.'] ∧ Disk.nameBytes c.source ≤ 255 := by
    simp only [hplan, List.forall_mem_cons, List.not_mem_nil, false_imp_iff, implies_true, and_true]
    refine ⟨⟨by decide, ?_⟩, ⟨by decide, ?_⟩, ⟨by decide, ?_⟩, by decide, ?_⟩
    all_goals cbv
  have hlisted : ((p.listing.findings (.ofLines ["n.x/.x/q".toList, "n.x/.x/.x/q".toList])).all
      Finding.isSuccess) = true := by
    subst hplan
    cbv
  have horder : p.findings (.ofLines ["n.x/.x/q".toList, "n.x/.x/.x/q".toList]) ≠
      p.listing.findings (.ofLines ["n.x/.x/q".toList, "n.x/.x/.x/q".toList]) := by
    subst hplan
    cbv
    decide
  exact ⟨p, _, hp, rfl,
    (findings_perm_listing hp (by cbv) (by cbv) hc (List.all_eq_true.1 hlisted)).2.1, horder⟩

end PathGlob
