import PathGlob.Proofs.Pattern.Relaxed
import PathGlob.Proofs.Walk.Broken
import PathGlob.Proofs.Walk.Probed

/-! Walks that let go of case.

Without regard to case no name is looked up: a walk comes by what its folders list. That is enough
for every name that an entry has (`Plan.mem_listed_of_read`), and the positions that are live can
only be more (`Live.advance_relaxed`), so a walk without regard to case keeps up with one that
regards it, task by task (`Task.exists_wider`). The one name that can be looked up but is never
listed is that of the folder above. A pattern that asks for it behind a wildcard loses all its
results (`paths_caseless`). -/
namespace PathGlob

namespace Plan
variable {p : Plan} {d : Disk} {folder : Path} {live : Live} {children : List Child} {child : Child}

/-- A child that comes of a reading is listed, unless it is the folder above. -/
theorem mem_listed_of_read (hlinks : d.Linkless) (hlist : d.Listable) (hp : p.Named)
    (hf : folder.Named) (hr : (p.read d folder live).children = .ok children) (hc : child ∈ children)
    (hup : child.path ≠ folder.below [['.', '.']]) :
    ∃ listed, (d.list folder.text).map (fun es => es.map (childOf folder)) = .ok listed ∧
      child ∈ listed := by
  cases hprobes : p.probes live with
  | false =>
    rw [read_of_lists hprobes] at hr
    exact ⟨children, hr, hc⟩
  | true =>
    rw [read_of_probes hprobes] at hr
    obtain ⟨n, -, hplain, hpath, spot, hspot⟩ := exists_below hp hr hc
    obtain ⟨herror, hfolder⟩ := of_mem_probe hr hc
    obtain ⟨s, entries, listing, hopen⟩ := Disk.exists_openAt hf hplain hspot
    obtain rfl := hopen.listing_eq_none hlist
    have hask : Askable n := by
      refine ⟨hplain, fun hq => hup (hq ▸ hpath), Nat.le_of_not_lt fun hlong => ?_⟩
      cases (hopen.resolve_long hplain hlong).symm.trans hspot
    -- what was looked up is an entry of the folder, and without links both tell the same of it
    cases hm : entries.lookup n with
    | none => cases (hopen.resolve_absent hplain hask.ne_up hask.bytes_le hm).symm.trans hspot
    | some node =>
      have htold := Disk.entryIsFolder_of_linkless (d := d) (n := n)
        (hopen.all_entry hlinks (Node.mem_of_lookup hm)) folder.text
      have hlisted : (childOf folder ⟨n, d.entryIsFolder folder.text n node⟩).error = none := by
        rw [htold]
        rfl
      have hchild : child = childOf folder ⟨n, d.entryIsFolder folder.text n node⟩ := by
        rw [childOf_eq hopen hask hm hlisted, foundAt, ← hpath, ← hfolder, ← herror]
      rw [hopen.list, hchild]
      exact ⟨_, rfl, List.mem_map_of_mem (List.mem_map.2 ⟨_, Node.mem_of_lookup hm, rfl⟩)⟩

/-! ### The plan without regard to case -/

/-- The same plan, without regard to case. -/
def caseless (p : Plan) : Plan := { p with options := { p.options with caseSensitive := false } }

theorem caseless_relaxes (p : Plan) : p.caseless.options.Relaxes p.options := ⟨nofun, id, id⟩

theorem probes_caseless (p : Plan) (live : Live) : p.caseless.probes live = false := by
  simp [probes, caseless]

theorem ofSource_caseless {o : Options} {source : Text} (h : ofSource o source = .ok p) :
    ofSource { o with caseSensitive := false } source = .ok p.caseless := by
  obtain rfl := (parts_of_ofSource h).options_eq
  rw [ofSource_options p.options, h]
  rfl

end Plan

namespace Live
variable {o o' : Options} {cs : List Pattern} {live live' : Live} {n : Text} {i j : Nat}

/-- What a component takes it takes under options that relax them. -/
theorem takes_relaxed (h : o'.Relaxes o) (hcs : ∀ c ∈ cs, c.Affirms)
    (ht : takes o cs n i j = true) : takes o' cs n i j = true := by
  rw [takes_iff] at ht ⊢
  obtain ⟨c, hc, hcases⟩ := ht
  refine ⟨c, hc, hcases.imp ?_ ?_⟩
  · intro hdeep
    obtain ⟨hr, hj, hdot⟩ := hdeep
    refine ⟨hr, hj, Bool.eq_false_iff.2 fun hlead => Bool.eq_false_iff.1 hdot ?_⟩
    obtain ⟨ho, hn⟩ := Bool.and_eq_true_iff.1 hlead
    exact Bool.and_eq_true_iff.2 ⟨h.literalLeadingDot ho, hn⟩
  · intro hplain
    obtain ⟨hr, hj, hcov⟩ := hplain
    refine ⟨hr, hj, ?_⟩
    rw [Pattern.covers, decide_eq_true_iff, Token.matchFrom_eq_matched (Token.placed_tokens c)] at hcov ⊢
    exact hcov.relaxed h fun t ht => .inr (hcs c (List.mem_of_getElem? hc) t ht)

theorem advance_relaxed (h : o'.Relaxes o) (hcs : ∀ c ∈ cs, c.Affirms) (hl : live ⊆ live') :
    advance o cs n live ⊆ advance o' cs n live' := by
  intro j hj
  obtain ⟨hle, k, hk, ⟨i, hi, ht⟩, hs⟩ := (mem_advance o cs).1 hj
  exact (mem_advance o' cs).2 ⟨hle, k, hk, ⟨i, hl hi, takes_relaxed h hcs ht⟩, hs⟩

end Live

theorem Plan.accepts_mono {p : Plan} {live live' : Live} {isFolder : Bool} (hl : live ⊆ live')
    (h : p.accepts live isFolder = true) : p.accepts live' isFolder = true := by
  obtain ⟨hfinal, hfolder⟩ := Bool.and_eq_true_iff.1 h
  refine Bool.and_eq_true_iff.2 ⟨?_, hfolder⟩
  exact decide_eq_true (hl (of_decide_eq_true hfinal))

theorem Plan.descends_mono {p : Plan} {live live' : Live} {isFolder : Bool} (hl : live ⊆ live')
    (h : p.descends live isFolder = true) : p.descends live' isFolder = true := by
  obtain ⟨hfolder, hpending⟩ := Bool.and_eq_true_iff.1 h
  refine Bool.and_eq_true_iff.2 ⟨hfolder, ?_⟩
  simp only [Bool.not_eq_true', List.isEmpty_eq_false_iff] at hpending ⊢
  exact fun hnil => hpending (List.eq_nil_of_subset_nil (hnil ▸ List.filterMap_subset _ hl))

/-! ### Keeping up -/

namespace Task
variable {p : Plan} {d : Disk} {t t' u : Task} {path folder : Path} {live live' : Live}

/-- The same task, with more positions live. -/
inductive Wider : Task → Task → Prop where
  | start : Wider start start
  | visit {child : Child} {live live' : Live} :
    live ⊆ live' → Wider (visit child live) (visit child live')
  | expand {folder : Path} {live live' : Live} :
    live ⊆ live' → Wider (expand folder live) (expand folder live')

theorem exists_next_arrive {reported isFolder : Bool} (hl : live ⊆ live')
    (hu : u ∈ (p.arrive reported path isFolder live).next) :
    ∃ u' ∈ (p.arrive reported path isFolder live').next, Wider u u' := by
  obtain rfl := next_arrive hu
  change _ ∈ if p.descends live isFolder then _ else _ at hu
  split at hu
  case isTrue hdown => exact ⟨_, mem_next_arrive (Plan.descends_mono hl hdown), .expand hl⟩
  case isFalse => cases hu

/-- A wider task that lets go of case leads to all that the narrow one leads to. -/
theorem Wider.exists_next (hd : d.WellNamed) (hlinks : d.Linkless) (hlist : d.Listable)
    (hp : p.Named) (hneg : ∀ c ∈ p.components, c.Affirms)
    (hup : ∀ c ∈ p.components, c.source ≠ ['.', '.']) (hloc : t.Located p) (h : Wider t t')
    (hu : u ∈ (t.run p d).next) : ∃ u' ∈ (t'.run p.caseless d).next, Wider u u' := by
  cases h with
  | start => exact ⟨u, hu, by cases next_start hu; exact .expand (List.Subset.refl _)⟩
  | @visit child live live' hl =>
    rw [run] at hu ⊢
    cases herror : child.error with
    | some e =>
      rw [herror] at hu
      cases hu
    | none =>
      rw [herror] at hu
      exact exists_next_arrive (Live.advance_relaxed p.caseless_relaxes hneg hl) hu
  | @expand folder live live' hl =>
    obtain ⟨children, child, hr, hc, rfl⟩ := next_expand hu
    obtain ⟨names, hnames, rfl, -⟩ := hloc
    have hf : (p.root.below names).Named := List.forall_mem_append.2 ⟨hp.root, hnames⟩
    obtain ⟨n, -, -, -, hpath, -, hdots⟩ := Plan.mem_read hd hp hf hr hc
    have hne : child.path ≠ (p.root.below names).below [['.', '.']] := by
      intro hq
      have hn : n = ['.', '.'] := by
        rw [hpath] at hq
        exact List.singleton_inj.1 (Path.below_inj.1 hq)
      obtain ⟨-, c, hpending, hsource⟩ := hdots hn
      exact hup c (Plan.mem_of_pending hpending) (hsource.trans hn)
    obtain ⟨listed, hlisted, hmem⟩ := Plan.mem_listed_of_read hlinks hlist hp hf hr hc hne
    refine ⟨.visit child live', ?_, .visit hl⟩
    rw [run, Plan.read_of_lists (p.probes_caseless live')]
    simp only [hlisted]
    exact List.mem_map_of_mem hmem

theorem Wider.found (hneg : ∀ c ∈ p.components, c.Affirms) (h : Wider t t')
    (hf : .found (.success path) ∈ (t.run p d).events) :
    .found (.success path) ∈ (t'.run p.caseless d).events := by
  cases h with
  | start => exact hf
  | visit hl =>
    obtain ⟨_, -, hq⟩ | ⟨herror, hq, haccepts⟩ := found_mem_visit.1 hf
    · cases hq
    · refine found_mem_visit.2 (.inr ⟨herror, hq, ?_⟩)
      exact Plan.accepts_mono (Live.advance_relaxed p.caseless_relaxes hneg hl) haccepts
  | expand hl =>
    obtain ⟨_, -, hq⟩ := found_mem_expand.1 hf
    cases hq

/-- **Where the folder above is not asked for, a walk that lets go of case keeps up.** -/
theorem exists_wider (hd : d.WellNamed) (hlinks : d.Linkless) (hlist : d.Listable)
    (hp : p.Named) (hneg : ∀ c ∈ p.components, c.Affirms)
    (hup : ∀ c ∈ p.components, c.source ≠ ['.', '.']) (h : LeadsTo p d .start t) :
    ∃ t', LeadsTo p.caseless d .start t' ∧ Wider t t' := by
  induction h with
  | refl => exact ⟨.start, .refl, .start⟩
  | tail ht hu ih =>
    obtain ⟨t', ht', hw⟩ := ih
    obtain ⟨u', hu', hw'⟩ :=
      hw.exists_next hd hlinks hlist hp hneg hup (located_of_leads hd hp ht) hu
    exact ⟨u', ht'.tail hu', hw'⟩

/-! ### The folder above -/

/-- Where no name is looked up, no name on the way is that of the folder above. -/
theorem up_not_mem (hd : d.WellNamed) (hp : p.Named) (hlists : ∀ live, p.probes live = false)
    {names : List Text} (h : LeadsTo p d .start t) (htop : t.top p = p.root.below names) :
    ['.', '.'] ∉ names := by
  have hroot : ∀ {names}, p.root = p.root.below names → ['.', '.'] ∉ names := by
    intro names hq
    rw [← Path.below_inj.1 (p.root.below_nil.trans hq)]
    exact List.not_mem_nil
  induction h generalizing names with
  | refl => exact hroot htop
  | @tail t u ht hu ih =>
    cases t with
    | start =>
      cases next_start hu
      exact hroot htop
    | visit child live =>
      cases next_visit hu
      exact ih htop
    | expand folder live =>
      obtain ⟨children, child, hr, hc, rfl⟩ := next_expand hu
      obtain ⟨front, hnames, rfl, -⟩ := located_of_leads hd hp ht
      have hf : (p.root.below front).Named := List.forall_mem_append.2 ⟨hp.root, hnames⟩
      obtain ⟨n, -, -, -, hpath, -, hdots⟩ := Plan.mem_read hd hp hf hr hc
      have hq : p.root.below (front ++ [n]) = p.root.below names := by
        rw [← p.root.below_below]
        exact hpath.symm.trans htop
      obtain rfl := Path.below_inj.1 hq
      rw [List.mem_append, List.mem_singleton, not_or]
      refine ⟨ih rfl, fun hn => ?_⟩
      rw [hlists live] at hdots
      cases (hdots hn.symm).1

/-- What is found is a path that the components ask for. -/
theorem splits_of_found (hd : d.WellNamed) (hp : p.Named) (h : LeadsTo p d .start t)
    (hf : .found (.success path) ∈ (t.run p d).events) :
    ∃ names, path = p.root.below names ∧ Splits p.options p.components names := by
  cases t with
  | start =>
    obtain ⟨-, hq, -, haccepts⟩ := found_mem_start.1 hf
    cases hq
    have hfinal : (Live.after p.options p.components []).isFinal p.components = true :=
      (Bool.and_eq_true_iff.1 haccepts).1
    exact ⟨[], p.root.below_nil.symm, (Live.isFinal_after_iff _ _).1 hfinal⟩
  | visit child live =>
    obtain ⟨_, -, hq⟩ | ⟨-, hq, haccepts⟩ := found_mem_visit.1 hf
    · cases hq
    · cases hq
      obtain ⟨names, n, -, -, hpath, rfl⟩ := located_of_leads hd hp h
      have hfinal := (Bool.and_eq_true_iff.1 haccepts).1
      rw [hpath, ← Path.below_below, Path.name_below, ← Live.after_concat] at hfinal
      exact ⟨names ++ [n], hpath, (Live.isFinal_after_iff _ _).1 hfinal⟩
  | expand folder live =>
    obtain ⟨_, -, hq⟩ := found_mem_expand.1 hf
    cases hq

end Task

/-- A plain component has a name for its own. -/
theorem Splits.exists_covers {o : Options} {cs : List Pattern} {names : List Text} {c : Pattern}
    (h : Splits o cs names) (hc : c ∈ cs) (hr : c.isRecursive = false) :
    ∃ n ∈ names, c.covers o n = true := by
  induction h with
  | nil => cases hc
  | plain _ hcov _ ih =>
    rcases List.mem_cons.1 hc with rfl | hc
    · exact ⟨_, List.mem_cons_self, hcov⟩
    · obtain ⟨n, hn, hcov⟩ := ih hc
      exact ⟨n, List.mem_cons_of_mem _ hn, hcov⟩
  | leave hdeep _ ih =>
    rcases List.mem_cons.1 hc with rfl | hc
    · cases hr.symm.trans hdeep
    · exact ih hc
  | more _ _ _ ih =>
    obtain ⟨n, hn, hcov⟩ := ih hc
    exact ⟨n, List.mem_cons_of_mem _ hn, hcov⟩

theorem Pattern.tokens_up {c : Pattern} (hc : c.source = ['.', '.']) :
    c.tokens = ['.', '.'].map Token.char := by
  obtain ⟨source, tokens, htokens⟩ := c
  cases hc
  have hup : Token.ofSource ['.', '.'] = .ok [.char '.', .char '.'] := by cbv
  exact Except.ok.inj (htokens.symm.trans hup)

/-- The folder above is asked for by its one name, with or without regard to case. -/
theorem Pattern.eq_up_of_covers {o : Options} {c : Pattern} {n : Text} (hc : c.source = ['.', '.'])
    (h : c.covers o n = true) : n = ['.', '.'] := by
  rw [covers, decide_eq_true_iff, tokens_up hc,
    Token.matchFrom_iff_same (Token.standsFor_chars ['.', '.'])] at h
  cases h with
  | cons ha h =>
    cases h with
    | cons hb h =>
      cases h
      rw [(Text.same_mark (.inl rfl) ha).2 rfl, (Text.same_mark (.inl rfl) hb).2 rfl]

/-- **Letting go of case loses a result only with the folder above.** Where there are no links and
every folder can be listed, a path that is found with regard to case is found without it exactly if
no component behind the first wildcard is a pair of dots. Sets are not negated here, for a negated
set takes less without regard to case. -/
theorem paths_caseless {o : Options} {source : Text} {p : Plan} {d : Disk}
    (hp : Plan.ofSource o source = .ok p) (hneg : ∀ c ∈ p.components, c.Affirms)
    (hd : d.WellNamed) (hlinks : d.Linkless) (hlist : d.Listable) :
    ∃ q, Plan.ofSource { o with caseSensitive := false } source = .ok q ∧
      ∀ path ∈ Finding.paths (p.findings d), path ∈ Finding.paths (q.findings d) ↔
        ∀ c ∈ p.components, c.source ≠ ['.', '.'] := by
  have hnamed := Plan.named_of_ofSource hp
  have hq := Plan.ofSource_caseless hp
  have hnamed' := Plan.named_of_ofSource hq
  refine ⟨p.caseless, hq, fun path hpath => ⟨fun hpath' c hc hsource => ?_, fun hup => ?_⟩⟩
  -- the component has a name on the way to the path, and no listing ever gave that name
  · obtain ⟨t, ht, hf⟩ := Plan.exists_leads_of_mem (Event.mem_findings.1 (Finding.mem_paths.1 hpath'))
    obtain ⟨names, rfl, hsplits⟩ := Task.splits_of_found hd hnamed' ht hf
    have hup := Task.up_not_mem hd hnamed' p.probes_caseless ht (Task.path_of_found hf).symm
    have hplain : c.isRecursive = false := by
      rw [Pattern.isRecursive, Pattern.tokens_up hsource]
      rfl
    obtain ⟨n, hn, hcov⟩ := hsplits.exists_covers hc hplain
    exact hup (Pattern.eq_up_of_covers hsource hcov ▸ hn)
  · obtain ⟨t, ht, hf⟩ := Plan.exists_leads_of_mem (Event.mem_findings.1 (Finding.mem_paths.1 hpath))
    obtain ⟨t', ht', hw⟩ := Task.exists_wider hd hlinks hlist hnamed hneg hup ht
    refine Finding.mem_paths.2 (Event.mem_findings.2 ?_)
    exact (Plan.mem_events_iff (Task.ends_start hd hnamed')).2 ⟨t', ht', hw.found hneg hf⟩

/-- A folder and a file beside it. -/
def besides : Disk := .ofLines ["d/x".toList, "x".toList]

theorem paths_caseless_file :
    ∃ p q, Plan.ofSource {} "*/x".toList = .ok p ∧
      Plan.ofSource { caseSensitive := false } "*/x".toList = .ok q ∧
      .ofText "d/x".toList ∈ Finding.paths (p.findings besides) ∧
      .ofText "d/x".toList ∈ Finding.paths (q.findings besides) := by
  have hrun : Token.ofSource "*".toList = .ok [.run] := by cbv
  have hx : Token.ofSource "x".toList = .ok [.char 'x'] := by cbv
  have hwhole : Token.ofSource "*/x".toList = .ok [.run, .char '/', .char 'x'] := by cbv
  obtain ⟨p, hp, hneg, hup, hpaths⟩ : ∃ p, Plan.ofSource {} "*/x".toList = .ok p ∧
      (∀ c ∈ p.components, c.Affirms) ∧ (∀ c ∈ p.components, c.source ≠ ['.', '.']) ∧
      Finding.paths (p.findings besides) = [.ofText "d/x".toList] := by
    refine ⟨_, Plan.ofSource_of_components [⟨_, _, hrun⟩, ⟨_, _, hx⟩] hwhole rfl, ?_, ?_, ?_⟩
    · exact of_decide_eq_true rfl
    · exact of_decide_eq_true rfl
    · cbv
  have hfound : .ofText "d/x".toList ∈ Finding.paths (p.findings besides) :=
    hpaths ▸ List.mem_singleton_self _
  obtain ⟨q, hq, hkept⟩ := paths_caseless hp hneg (by cbv : besides.WellNamed)
    (by cbv : besides.Linkless) (by cbv : besides.Listable)
  exact ⟨p, q, hp, hq, hfound, (hkept _ hfound).2 hup⟩

/-- The file is found by way of the folder where its name and that of the folder above are looked
up. Without regard to case the folder is listed, and nothing is found. -/
theorem lost_above :
    besides.WellNamed ∧ besides.Linkless ∧ besides.Listable ∧ besides.Searchable ∧
      ∃ p q, Plan.ofSource {} "*/../x".toList = .ok p ∧
        Plan.ofSource { caseSensitive := false } "*/../x".toList = .ok q ∧
        (∀ c ∈ p.components, c.Affirms ∧ Disk.nameBytes c.source ≤ 255) ∧
        Finding.paths (p.findings besides) = [.ofText "d/../x".toList] ∧
        Finding.paths (q.findings besides) = [] := by
  have hrun : Token.ofSource "*".toList = .ok [.run] := by cbv
  have hup : Token.ofSource "..".toList = .ok [.char '.', .char '.'] := by cbv
  have hx : Token.ofSource "x".toList = .ok [.char 'x'] := by cbv
  have hwhole : Token.ofSource "*/../x".toList =
      .ok [.run, .char '/', .char '.', .char '.', .char '/', .char 'x'] := by cbv
  refine ⟨by cbv, by cbv, by cbv, by cbv,
    _, _, Plan.ofSource_of_components [⟨_, _, hrun⟩, ⟨_, _, hup⟩, ⟨_, _, hx⟩] hwhole rfl,
    Plan.ofSource_of_components [⟨_, _, hrun⟩, ⟨_, _, hup⟩, ⟨_, _, hx⟩] hwhole rfl, ?_, ?_, ?_⟩
  · exact of_decide_eq_true rfl
  · cbv
  · cbv

end PathGlob
