import PathGlob.Disk.Manifest
import PathGlob.Proofs.Walk.Found
import PathGlob.Proofs.Walk.Positions
import PathGlob.Proofs.Walk.Reported

/-! What comes of links that lead nowhere.

A link that leads nowhere is no folder, and a walk finds it by its name if it looks the name up
or if nothing is there where the link leads. In a listed folder every other obstacle on the way
of a link is told as a failure, whether or not the pattern asks for the name (`broken_link`).

A task belongs to the names that lead to it (`Task.Located`), so all that a walk tells of a
path is told of one child of one folder (`Plan.Reads.mem_of_leads`). -/
namespace PathGlob

/-! ### Where tasks are -/

/-- The task is at names below the root, with the positions after these names. -/
def Task.Located (p : Plan) : Task → Prop
  | start => True
  | visit child live => ∃ names n, (∀ m ∈ names, Plain m) ∧ Plain n ∧
      child.path = p.root.below (names ++ [n]) ∧ live = Live.after p.options p.components names
  | expand folder live => ∃ names, (∀ m ∈ names, Plain m) ∧ folder = p.root.below names ∧
      live = Live.after p.options p.components names

namespace Task
variable {p : Plan} {d : Disk} {t u : Task} {f : Finding} {child : Child} {live : Live} {folder : Path}
  {names : List Text} {n : Text}

theorem located_next (hd : d.WellNamed) (hp : p.Named) (h : t.Located p)
    (hu : u ∈ (t.run p d).next) : u.Located p := by
  cases t with
  | start =>
    obtain rfl := next_start hu
    exact ⟨[], nofun, p.root.below_nil.symm, rfl⟩
  | visit child live =>
    obtain rfl := next_visit hu
    obtain ⟨names, n, hnames, hn, hpath, rfl⟩ := h
    refine ⟨names ++ [n], List.forall_mem_append.2 ⟨hnames, List.forall_mem_singleton.2 hn⟩, hpath, ?_⟩
    rw [Live.after_concat, hpath, ← Path.below_below, Path.name_below]
  | expand folder live =>
    obtain ⟨children, child, hr, hc, rfl⟩ := next_expand hu
    obtain ⟨names, hnames, rfl, rfl⟩ := h
    have hfolder : (p.root.below names).Named := List.forall_mem_append.2 ⟨hp.root, hnames⟩
    obtain ⟨n, -, -, hn, hpath, -⟩ := Plan.mem_read hd hp hfolder hr hc
    refine ⟨names, n, hnames, hn, ?_, rfl⟩
    rw [hpath, ← Path.below_below]
    rfl

/-- Every task of a walk is located. -/
theorem located_of_leads (hd : d.WellNamed) (hp : p.Named) (h : LeadsTo p d .start t) :
    t.Located p := by
  induction h with
  | refl => trivial
  | tail _ hu ih => exact located_next hd hp ih hu

/-- A task finds nothing but its own path. -/
theorem path_of_found (h : .found f ∈ (t.run p d).events) : f.path = t.top p := by
  cases t with
  | start =>
    obtain ⟨-, rfl, -⟩ := found_mem_start.1 h
    rfl
  | visit child live => obtain ⟨_, -, rfl⟩ | ⟨-, rfl, -⟩ := found_mem_visit.1 h <;> rfl
  | expand folder live =>
    obtain ⟨_, -, rfl⟩ := found_mem_expand.1 h
    rfl

/-- A folder below the root is read only after it was told to be one. -/
theorem exists_visit_of_leads (h : LeadsTo p d .start (.expand folder live)) :
    folder = p.root ∨ ∃ child live', LeadsTo p d .start (.visit child live') ∧
      child.path = folder ∧ child.isFolder = true := by
  obtain hq | ⟨t, ht, hnext⟩ := Relation.ReflTransGen.cases_tail h
  · cases hq
  · cases t with
    | start =>
      cases next_start hnext
      exact .inl rfl
    | visit child live' =>
      cases next_visit hnext
      refine .inr ⟨child, live', ht, rfl, ?_⟩
      rw [run] at hnext
      split at hnext
      · cases hnext
      · change _ ∈ if p.descends _ child.isFolder then _ else _ at hnext
        split at hnext
        case isTrue hdown => exact Plan.isFolder_of_descends hdown
        case isFalse => cases hnext
    | expand folder' live' =>
      obtain ⟨_, _, -, -, hq⟩ := next_expand hnext
      cases hq

end Task

/-! ### Folders that are read -/

/-- The walk reads the folder at the names and comes by the children. -/
structure Plan.Reads (p : Plan) (d : Disk) (names : List Text) (children : List Child) : Prop where
  leads : Task.LeadsTo p d .start
    (.expand (p.root.below names) (Live.after p.options p.components names))
  children : (p.read d (p.root.below names) (Live.after p.options p.components names)).children =
    .ok children

namespace Plan.Reads
variable {p : Plan} {d : Disk} {names : List Text} {children : List Child} {child : Child} {n : Text}
  {live : Live}

theorem named (hd : d.WellNamed) (hp : p.Named) (h : p.Reads d names children) :
    (p.root.below names).Named := by
  obtain ⟨names', hnames, hfolder, -⟩ := Task.located_of_leads hd hp h.leads
  rw [Path.below_inj.1 hfolder]
  exact List.forall_mem_append.2 ⟨hp.root, hnames⟩

/-- What is decided about a path is decided about a child of the folder that it is in. -/
theorem mem_of_leads (hd : d.WellNamed) (hp : p.Named) (h : p.Reads d names children)
    (hpath : child.path = p.root.below (names ++ [n]))
    (hvisit : Task.LeadsTo p d .start (.visit child live)) :
    child ∈ children ∧ live = Live.after p.options p.components names := by
  obtain ⟨names', n', -, -, hpath', rfl⟩ := Task.located_of_leads hd hp hvisit
  have hnames := Path.below_inj.1 (hpath.symm.trans hpath')
  obtain ⟨rfl, -⟩ := List.append_inj' hnames rfl
  refine ⟨?_, rfl⟩
  obtain ⟨folder, children', hexpand, hr, hmem⟩ := Task.exists_expand_of_leads hvisit
  obtain ⟨names'', hnames'', rfl, -⟩ := Task.located_of_leads hd hp hexpand
  have hfolder : (p.root.below names'').Named := List.forall_mem_append.2 ⟨hp.root, hnames''⟩
  obtain ⟨m, -, -, -, hchild, -⟩ := Plan.mem_read hd hp hfolder hr hmem
  have hsame : p.root.below (names ++ [n]) = p.root.below (names'' ++ [m]) := by
    rw [← hpath, hchild, ← Path.below_below]
    rfl
  obtain ⟨rfl, -⟩ := List.append_inj' (Path.below_inj.1 hsame) rfl
  rw [h.children] at hr
  exact Except.ok.inj hr ▸ hmem

theorem leads_visit (h : p.Reads d names children) (hc : child ∈ children) :
    Task.LeadsTo p d .start (.visit child (Live.after p.options p.components names)) := by
  refine h.leads.tail ?_
  rw [Task.run]
  simp only [h.children]
  exact List.mem_map_of_mem hc

end Plan.Reads

/-! ### Links that lead nowhere -/

/-- An entry of a folder that lets itself be searched is a link, and where it leads cannot be
told. -/
structure Disk.BrokenLink (d : Disk) (folder : Path) (n : Text) (e : SystemError) : Prop where
  link : ∃ s entries listing target, d.OpenAt folder s entries listing ∧
    entries.lookup n = some (.link target)
  error : d.resolve true (folder.below [n]).text = .error e

namespace Plan
variable {p : Plan} {d : Disk} {folder : Path} {entries : List (Text × Node)} {listing : Option Int}
  {s : Spot} {children : List Child} {child : Child} {n : Text} {node : Node} {e : SystemError}
  {live : Live}

/-- The one child under the name of an entry, where the folder is listed. -/
theorem mem_listed_iff (hd : d.Tidy) (hopen : d.OpenAt folder s entries listing)
    (hm : entries.lookup n = some node)
    (hr : (d.list folder.text).map (fun es => es.map (childOf folder)) = .ok children) :
    child ∈ children ∧ child.path = folder.below [n] ↔
      child = childOf folder ⟨n, d.entryIsFolder folder.text n node⟩ := by
  obtain ⟨es, hes, rfl⟩ := map_eq_ok.1 hr
  obtain rfl := hopen.list_eq hes
  obtain ⟨hnodup, hnames⟩ := hopen.entryNames hd
  have hpath : ∀ e ∈ entries, (childOf folder ⟨e.1, d.entryIsFolder folder.text e.1 e.2⟩).path =
      folder.below [e.1] := fun e he =>
    (path_childOf _ _).trans (folder.join_plain (hnames e he).1)
  rw [List.map_map, List.mem_map]
  constructor
  · intro h
    obtain ⟨⟨e, he, rfl⟩, hq⟩ := h
    obtain rfl := List.singleton_inj.1 (Path.below_inj.1 ((hpath e he).symm.trans hq))
    rw [Node.lookup_of_mem hnodup he] at hm
    rw [← Option.some.inj hm]
    rfl
  · intro h
    subst h
    have he := Node.mem_of_lookup hm
    exact ⟨⟨_, he, rfl⟩, hpath _ he⟩

/-- A link that leads nowhere is no folder where it is told by its name, and where it is listed
and nothing is there where it leads. -/
theorem child_forgiven (hd : d.Tidy) (hb : d.BrokenLink folder n e) (hn : Plain n)
    (hr : (p.read d folder live).children = .ok children) (hc : child ∈ children)
    (hpath : child.path = folder.below [n]) (h : p.probes live = true ∨ e.code = SystemError.notFound) :
    child.error = none ∧ child.isFolder = false := by
  obtain ⟨s, entries, listing, target, hopen, hm⟩ := hb.link
  cases hprobes : p.probes live with
  | true =>
    rw [read_of_probes hprobes] at hr
    obtain ⟨herror, hfolder⟩ := of_mem_probe hr hc
    refine ⟨herror, ?_⟩
    rw [hfolder, hpath, Disk.isFolder, hb.error]
  | false =>
    have hcode := h.resolve_left (by simp [hprobes])
    rw [read_of_lists hprobes] at hr
    obtain rfl := (mem_listed_iff hd hopen hm hr).1 ⟨hc, hpath⟩
    have htold : d.entryIsFolder folder.text n (.link target) = .ok false := by
      rw [Disk.entryIsFolder_link hopen.named hn, hb.error]
      exact if_pos hcode
    rw [htold]
    exact ⟨rfl, rfl⟩

/-- Any other obstacle on the way of a listed link is told of the link. -/
theorem child_blamed (hd : d.Tidy) (hb : d.BrokenLink folder n e) (hn : Plain n)
    (hr : (p.read d folder live).children = .ok children) (hc : child ∈ children)
    (hpath : child.path = folder.below [n]) (hprobes : p.probes live = false)
    (hcode : e.code ≠ SystemError.notFound) :
    child.error = some (.about (Disk.entryPath folder.text n) e.code) ∧ child.isFolder = false := by
  obtain ⟨s, entries, listing, target, hopen, hm⟩ := hb.link
  have htold : d.entryIsFolder folder.text n (.link target) =
      .error (.about (Disk.entryPath folder.text n) e.code) := by
    rw [Disk.entryIsFolder_link hopen.named hn, hb.error]
    exact if_neg hcode
  rw [read_of_lists hprobes] at hr
  obtain rfl := (mem_listed_iff hd hopen hm hr).1 ⟨hc, hpath⟩
  rw [htold]
  exact ⟨rfl, rfl⟩

/-- An entry comes up as a child where the folder is listed, and where the positions have a use
for its name. -/
theorem exists_child (hd : d.Tidy) (hopen : d.OpenAt folder s entries listing)
    (hn : Plain n) (hup : n ≠ ['.', '.']) (hm : entries.lookup n = some node)
    (hr : (p.read d folder live).children = .ok children)
    (h : p.probes live = true → Live.advance p.options p.components n live ≠ []) :
    ∃ child ∈ children, child.path = folder.below [n] := by
  cases hprobes : p.probes live with
  | true =>
    have hask := mem_asked_of_advance hprobes (h hprobes)
    rw [read_of_probes hprobes] at hr
    have hjoin : folder.join n = folder.below [n] := folder.join_plain hn
    have hcases := exists_of_probe hr hask
    rw [hjoin] at hcases
    rcases hcases with hfound | ⟨e, he, habsent⟩
    · exact hfound
    · by_cases hb : Disk.nameBytes n ≤ 255
      · cases (hopen.resolve_name hn hup hb hm).symm.trans he
      · cases (hopen.resolve_long hn (Nat.lt_of_not_le hb)).symm.trans he
        cases habsent
  | false =>
    rw [read_of_lists hprobes] at hr
    exact ⟨_, (mem_listed_iff hd hopen hm hr).2 rfl⟩

/-- What is told of a child that is no folder. -/
theorem found_mem_visit_file {names : List Text} {f : Finding} (herror : child.error = none)
    (hfolder : child.isFolder = false) (hpath : child.path = p.root.below (names ++ [n])) :
    .found f ∈ ((Task.visit child (Live.after p.options p.components names)).run p d).events ↔
      f = .success child.path ∧ Splits p.options p.components (names ++ [n]) ∧
        p.foldersOnly = false := by
  have hname : child.path.name = n := by
    rw [hpath, ← Path.below_below, Path.name_below]
  rw [Task.found_mem_visit, herror, hfolder, hname, ← Live.after_concat, accepts, Bool.and_eq_true,
    Live.isFinal_after_iff]
  simp

/-- What is told of a child that could not be read. -/
theorem found_mem_visit_error {f : Finding} (herror : child.error = some e) :
    .found f ∈ ((Task.visit child live).run p d).events ↔ f = .failure child.path e := by
  simp [Task.found_mem_visit, herror]

/-- Where no child with a path is told to be a folder, what is found at the path is found in the
turn of such a child. -/
theorem Reads.found_iff {names : List Text} {f : Finding} {Q : Prop} (hd : d.WellNamed)
    (hp : p.Named) (h : p.Reads d names children)
    (hfolder : ∀ child ∈ children, child.path = p.root.below (names ++ [n]) → child.isFolder = false)
    (hturn : ∀ child ∈ children, child.path = p.root.below (names ++ [n]) →
      (.found f ∈ ((Task.visit child (Live.after p.options p.components names)).run p d).events ↔ Q))
    (hexists : Q → ∃ child ∈ children, child.path = p.root.below (names ++ [n])) :
    f ∈ p.findings d ∧ f.path = p.root.below (names ++ [n]) ↔ Q := by
  have hends := Task.ends_start hd hp
  constructor
  · intro hq
    obtain ⟨hf, hpath⟩ := hq
    obtain ⟨u, hu, hfound⟩ := (p.mem_events_iff hends).1 (Event.mem_findings.1 hf)
    have htop := (Task.path_of_found hfound).symm.trans hpath
    have hroot : p.root ≠ p.root.below (names ++ [n]) := by
      intro hq
      have := Path.below_inj.1 (p.root.below_nil.trans hq)
      simp at this
    cases u with
    | start => exact absurd htop hroot
    | visit child live =>
      obtain ⟨hc, rfl⟩ := h.mem_of_leads hd hp htop hu
      exact (hturn child hc htop).1 hfound
    | expand folder live =>
      obtain rfl := htop
      rcases Task.exists_visit_of_leads hu with hq | ⟨child, live', hvisit, hq, hisFolder⟩
      · exact absurd hq.symm hroot
      · obtain ⟨hc, -⟩ := h.mem_of_leads hd hp hq hvisit
        rw [hfolder child hc hq] at hisFolder
        cases hisFolder
  · intro hq
    obtain ⟨child, hc, hpath⟩ := hexists hq
    have hfound := (hturn child hc hpath).2 hq
    refine ⟨Event.mem_findings.2 ((p.mem_events_iff hends).2 ⟨_, h.leads_visit hc, hfound⟩), ?_⟩
    exact (Task.path_of_found hfound).trans hpath

end Plan

/-- **What comes of a link that leads nowhere, in a folder that a walk reads.** Where names are
looked up, and where nothing is there that the link leads to, the link is found exactly if the
pattern asks for its names and not for folders only, and no failure is told of it. In a listed
folder any other obstacle, such as a loop of links or a file on the way, is told of the link as a
failure, whatever the pattern asks for, and the link is not found. -/
theorem broken_link {o : Options} {source : Text} {p : Plan} {d : Disk} {names : List Text}
    {children : List Child} {n : Text} {e : SystemError}
    (hp : Plan.ofSource o source = .ok p) (hd : d.Tidy) (hread : p.Reads d names children)
    (hb : d.BrokenLink (p.root.below names) n e) :
    (p.probes (Live.after p.options p.components names) = true ∨ e.code = SystemError.notFound →
      ∀ f, f ∈ p.findings d ∧ f.path = p.root.below (names ++ [n]) ↔
        f = .success (p.root.below (names ++ [n])) ∧
          Splits p.options p.components (names ++ [n]) ∧ p.foldersOnly = false) ∧
      (p.probes (Live.after p.options p.components names) = false → e.code ≠ SystemError.notFound →
        ∀ f, f ∈ p.findings d ∧ f.path = p.root.below (names ++ [n]) ↔
          f = .failure (p.root.below (names ++ [n]))
            (.about (Disk.entryPath (p.root.below names).text n) e.code)) := by
  have hnamed := Plan.named_of_ofSource hp
  obtain ⟨s, entries, listing, target, hopen, hm⟩ := hb.link
  obtain ⟨hn, hup⟩ := (hopen.entryNames hd).2 _ (Node.mem_of_lookup hm)
  have hbelow : (p.root.below names).below [n] = p.root.below (names ++ [n]) :=
    p.root.below_below names [n]
  have hexists := fun h => Plan.exists_child hd hopen hn hup hm hread.children h
  rw [hbelow] at hexists
  refine ⟨fun hforgiven f => ?_, fun hprobes hcode f => ?_⟩
  · have htold : ∀ child ∈ children, child.path = p.root.below (names ++ [n]) →
        child.error = none ∧ child.isFolder = false := fun child hc hpath =>
      Plan.child_forgiven hd hb hn hread.children hc (hpath.trans hbelow.symm) hforgiven
    refine hread.found_iff hd.wellNamed hnamed (fun child hc hpath => (htold child hc hpath).2)
      (fun child hc hpath => ?_) fun h => hexists fun _ hnil => ?_
    · obtain ⟨herror, hfolder⟩ := htold child hc hpath
      rw [Plan.found_mem_visit_file herror hfolder hpath, hpath]
    · have hfinal := (Live.isFinal_after_iff p.options p.components).2 h.2.1
      rw [Live.after_concat, hnil] at hfinal
      cases hfinal
  · have htold : ∀ child ∈ children, child.path = p.root.below (names ++ [n]) →
        child.error = some (.about (Disk.entryPath (p.root.below names).text n) e.code) ∧
          child.isFolder = false := fun child hc hpath =>
      Plan.child_blamed hd hb hn hread.children hc (hpath.trans hbelow.symm) hprobes hcode
    refine hread.found_iff hd.wellNamed hnamed (fun child hc hpath => (htold child hc hpath).2)
      (fun child hc hpath => ?_) fun _ => hexists fun h => ?_
    · rw [Plan.found_mem_visit_error (htold child hc hpath).1, hpath]
    · rw [hprobes] at h
      cases h

/-- A link that leads to itself, in a folder. -/
def looped : Disk where
  root := .folder [("d".toList, .folder [("l".toList, .link "l".toList)] none none)] none none

/-- The link is asked for with all there is in the folder, which is listed. -/
theorem broken_link_looped :
    ∃ p, Plan.ofSource {} "d/*".toList = .ok p ∧
      ∀ f, f ∈ p.findings looped ∧ f.path = .ofText "d/l".toList ↔
        f = .failure (.ofText "d/l".toList) (.about "d/l".toList SystemError.tooManyLinks) := by
  have hwhole : Token.ofSource "d/*".toList = .ok [.char 'd', .char '/', .run] := by cbv
  have hname : Token.ofSource "d".toList = .ok [.char 'd'] := by cbv
  have hrun : Token.ofSource "*".toList = .ok [.run] := by cbv
  have hp := Plan.ofSource_of_components (o := {}) [⟨_, _, hname⟩, ⟨_, _, hrun⟩] hwhole rfl
  have hd : looped.Tidy := by cbv
  have hopen : looped.OpenAt ⟨.here, ["d".toList]⟩ (.rooted ["d".toList])
      [("l".toList, .link "l".toList)] none := by
    refine ⟨List.forall_mem_singleton.2 ⟨by decide, by decide, by decide⟩, ?_, ?_⟩
    all_goals cbv
  have hlink : looped.BrokenLink (Path.below ⟨.here, ["d".toList]⟩ []) "l".toList
      (.about "d/l".toList SystemError.tooManyLinks) := by
    refine ⟨⟨_, _, _, _, hopen, rfl⟩, ?_⟩
    cbv
  obtain ⟨-, hblamed⟩ := broken_link hp hd ⟨.single (List.mem_singleton_self _), rfl⟩ hlink
  exact ⟨_, hp, hblamed (by cbv) (by decide)⟩

/-- The same link is found where its name is looked up. Where the folder is listed it is told as a
failure, though the pattern asks for its names, and even where it does not. -/
theorem looped_told :
    looped.resolve true "d/l".toList = .error (.about "d/l".toList SystemError.tooManyLinks) ∧
      (∃ p, Plan.ofSource {} "?/l".toList = .ok p ∧
        p.findings looped = [.success (.ofText "d/l".toList)]) ∧
      (∃ p, Plan.ofSource {} "?/l*".toList = .ok p ∧
        Splits p.options p.components ["d".toList, "l".toList] ∧ p.foldersOnly = false ∧
        p.findings looped = [.failure (.ofText "d/l".toList)
          (.about "d/l".toList SystemError.tooManyLinks)]) ∧
      ∃ p, Plan.ofSource {} "?/x*".toList = .ok p ∧
        ¬ Splits p.options p.components ["d".toList, "l".toList] ∧
        p.findings looped = [.failure (.ofText "d/l".toList)
          (.about "d/l".toList SystemError.tooManyLinks)] := by
  have hone : Token.ofSource "?".toList = .ok [.one] := by cbv
  have hname : Token.ofSource "l".toList = .ok [.char 'l'] := by cbv
  have hfront : Token.ofSource "l*".toList = .ok [.char 'l', .run] := by cbv
  have hother : Token.ofSource "x*".toList = .ok [.char 'x', .run] := by cbv
  have hlook : Token.ofSource "?/l".toList = .ok [.one, .char '/', .char 'l'] := by cbv
  have hlist : Token.ofSource "?/l*".toList = .ok [.one, .char '/', .char 'l', .run] := by cbv
  have hpass : Token.ofSource "?/x*".toList = .ok [.one, .char '/', .char 'x', .run] := by cbv
  refine ⟨?_, ⟨_, Plan.ofSource_of_components [⟨_, _, hone⟩, ⟨_, _, hname⟩] hlook rfl, ?_⟩,
    ⟨_, Plan.ofSource_of_components [⟨_, _, hone⟩, ⟨_, _, hfront⟩] hlist rfl, ?_, rfl, ?_⟩,
    _, Plan.ofSource_of_components [⟨_, _, hone⟩, ⟨_, _, hother⟩] hpass rfl, ?_, ?_⟩
  case refine_3 => exact .plain rfl (by cbv) (.plain rfl (by cbv) .nil)
  case refine_5 =>
    rw [← Live.isFinal_after_iff, Bool.not_eq_true]
    cbv
  all_goals cbv

end PathGlob
