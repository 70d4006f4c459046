import Mathlib
import PathGlob.Disk.Manifest
import PathGlob.Report
import PathGlob.Proofs.Console
import PathGlob.Proofs.Text.Quoted
import PathGlob.Proofs.Walk.Extent
import PathGlob.Proofs.Walk.Reached

/-! What a report tells of a walk.

Everything that is dumped is printable, so on a console that has columns it is printed as it is
laid out (`Report.text_ofPlan`). The dump of a finding is readable: it tells the path, and the
kind, the number and the reason of an error, and it ends in one place (`Report.readable_entry`).
Paths and reasons stand in quotes, so whatever they hold cannot pass for the text around them.
Since nothing behind the dumps looks like another one, a report tells what was found and in which
order, and it tells nothing else of the tree (`report_told`). A console without columns tells
nothing (`report_untold`). -/
namespace PathGlob

/-! ### Errors and paths -/

theorem Path.clear_debugText (p : Path) : p.debugText.Clear := by
  refine Text.clear_concat ?_ (Text.prints_of_ascii (by decide) (by decide)) (by decide)
  rw [Text.printable_append, Text.printable_quoted, Text.printable_of_ascii (by decide)]
  rfl

theorem Path.readable_debugText : Text.Readable debugText text := by
  intro p q x y hq
  have htext : ∀ (p : Path) (x : Text),
      p.debugText ++ x = "PosixPath(".toList ++ (p.text.quoted ++ ')' :: x) := by
    intro p x
    unfold debugText
    rw [List.append_assoc, List.append_assoc, List.singleton_append]
  rw [htext, htext] at hq
  replace hq := List.append_cancel_left hq
  obtain ⟨hpath, hrest⟩ := Text.readable_quoted hq
  exact ⟨hpath, (List.cons.inj hrest).2⟩

namespace SystemError

/-- What is told of an error. The file that it is about is not. -/
def told (e : SystemError) : Text × Int × Text := (e.kind, e.code, e.reason)

theorem forall_kind {P : Text → Prop} (hkinds : ∀ k ∈ kinds, P k.2.toList)
    (hother : P "OSError".toList) (e : SystemError) : P e.kind := by
  rw [kind]
  cases hname : kinds.lookup e.code with
  | none => exact hother
  | some name =>
    obtain ⟨front, back, hkinds', -⟩ := List.lookup_eq_some_iff.1 hname
    exact hkinds (e.code, name) (hkinds' ▸ List.mem_append_right front List.mem_cons_self)

theorem not_mem_kind (e : SystemError) : '(' ∉ e.kind :=
  forall_kind (P := ('(' ∉ ·)) (by decide +kernel) (by decide) e

theorem printable_kind (e : SystemError) : e.kind.printable = true := by
  have hkinds : ∀ k ∈ kinds,
      k.2.toList.all (fun c => 0x20 ≤ c.toNat && c.toNat < 0x7F) = true := by decide +kernel
  exact forall_kind (P := (Text.printable · = true))
    (fun k hk => Text.printable_of_ascii (hkinds k hk)) (Text.printable_of_ascii (by decide)) e

/-- A number is written with digits, and a sign in front. -/
theorem mem_toString {n : Int} {c : Char} (h : c ∈ (toString n).toList) :
    c = '-' ∨ c.isDigit = true := by
  have hdigits : ∀ k : Nat, c ∈ k.repr.toList → c.isDigit = true := by
    intro k hk
    rw [Nat.toList_repr] at hk
    exact Nat.isDigit_of_mem_toDigits (by decide) (by decide) hk
  rw [Int.toString_eq_repr, Int.repr_eq_if] at h
  split at h
  · exact .inr (hdigits _ h)
  · rw [String.toList_append] at h
    rcases List.mem_append.1 h with hsign | hdigit
    · exact .inl (List.mem_singleton.1 hsign)
    · exact .inr (hdigits _ hdigit)

theorem not_mem_toString (n : Int) : ',' ∉ (toString n).toList := fun h =>
  absurd (mem_toString h) (by decide)

theorem printable_toString (n : Int) : Text.printable (toString n).toList = true := by
  refine List.all_eq_true.2 fun c hc => ?_
  rcases mem_toString hc with rfl | hdigit
  · exact Text.prints_of_ascii (by decide) (by decide)
  · obtain ⟨hlow, hhigh⟩ := Char.isDigit_iff_toNat.1 hdigit
    exact Text.prints_of_ascii (Nat.le_trans (by decide) hlow)
      (Nat.lt_of_le_of_lt hhigh (by decide))

theorem printable_debugText (e : SystemError) : e.debugText.printable = true := by
  have hcode : Text.printable ('(' :: (toString e.code).toList) = true := by
    rw [← List.singleton_append, Text.printable_append, printable_toString,
      Text.printable_of_ascii (by decide)]
    rfl
  simp only [debugText, Text.printable_append, Bool.and_eq_true]
  exact ⟨⟨⟨⟨printable_kind e, hcode⟩, Text.printable_of_ascii (by decide)⟩,
    Text.printable_quoted _⟩, Text.printable_of_ascii (by decide)⟩

theorem readable_debugText : Text.Readable debugText told := by
  intro e f x y hq
  have htext : ∀ (e : SystemError) (x : Text), e.debugText ++ x = e.kind ++ '(' ::
      ((toString e.code).toList ++ ',' :: ' ' :: (e.reason.quoted ++ ')' :: x)) := by
    intro e x
    simp only [debugText, List.append_assoc, List.cons_append]
    rfl
  rw [htext, htext] at hq
  obtain ⟨hkind, hq⟩ := Text.eq_of_ended e.not_mem_kind f.not_mem_kind hq
  obtain ⟨hcode, hq⟩ := Text.eq_of_ended (not_mem_toString _) (not_mem_toString _) hq
  obtain ⟨hreason, hrest⟩ := Text.readable_quoted (List.cons.inj hq).2
  rw [String.toList_inj, Int.toString_eq_repr, Int.toString_eq_repr, Int.repr_inj] at hcode
  refine ⟨?_, (List.cons.inj hrest).2⟩
  exact Prod.ext hkind (Prod.ext hcode hreason)

end SystemError

theorem EntryError.clear_debugText (e : EntryError) : e.debugText.Clear := by
  refine Text.clear_concat ?_ (Text.prints_of_ascii (by decide) (by decide)) (by decide)
  simp only [Text.printable_append, Bool.and_eq_true]
  exact ⟨⟨⟨Text.printable_of_ascii (by decide), e.path.clear_debugText.printable⟩,
    Text.printable_of_ascii (by decide)⟩, e.cause.printable_debugText⟩

theorem EntryError.readable_debugText : Text.Readable debugText (·.cause.told) := by
  intro e f x y hq
  have htext : ∀ (e : EntryError) (x : Text), e.debugText ++ x = "EntryError(path=".toList ++
      (e.path.debugText ++ (", error=".toList ++ (e.cause.debugText ++ ')' :: x))) := by
    intro e x
    unfold debugText
    simp only [List.append_assoc, List.singleton_append]
  rw [htext, htext] at hq
  replace hq := List.append_cancel_left hq
  obtain ⟨-, hq⟩ := Path.readable_debugText hq
  replace hq := List.append_cancel_left hq
  obtain ⟨hcause, hrest⟩ := SystemError.readable_debugText hq
  exact ⟨hcause, (List.cons.inj hrest).2⟩

/-! ### Findings -/

namespace Finding
variable {f : Finding}

/-- What is told of a finding: its path, and what is told of its error if it has one. -/
def told (f : Finding) : Path × Option (Text × Int × Text) :=
  (f.path, f.error.map (·.cause.told))

/-- The finding of which this is told, its error about no file. -/
def ofTold (t : Path × Option (Text × Int × Text)) : Finding :=
  ⟨t.1, t.2.map fun e => ⟨t.1, ⟨e.2.1, e.2.2, none⟩⟩⟩

theorem isSuccess_eq (f : Finding) : f.isSuccess = f.told.2.isNone := Option.isNone_map.symm

theorem paths_eq (fs : List Finding) :
    paths fs = ((fs.map told).filter (·.2.isNone)).map Prod.fst := by
  rw [List.filter_map, List.map_map, paths]
  exact congrArg _ (List.filter_congr fun f _ => f.isSuccess_eq)

theorem countP_eq (q : Bool → Bool) (fs : List Finding) :
    fs.countP (q ·.isSuccess) = (fs.map told).countP (q ·.2.isNone) := by
  rw [List.countP_map]
  exact List.countP_congr fun f _ => by rw [isSuccess_eq]; rfl

theorem length_paths (fs : List Finding) : (paths fs).length = fs.countP isSuccess := by
  rw [paths, List.length_map, List.countP_eq_length_filter]

end Finding

/-- What is found on any tree has a path of names, and its error is about that path. -/
theorem Task.told_of_found {p : Plan} {d : Disk} {t : Task} {f : Finding}
    (hnamed : (t.top p).Named) (h : .found f ∈ (t.run p d).events) : (Event.found f).Told := by
  cases t with
  | start =>
    obtain ⟨-, rfl, -⟩ := found_mem_start.1 h
    exact Event.told_success hnamed
  | visit child live =>
    obtain ⟨cause, -, rfl⟩ | ⟨-, rfl, -⟩ := found_mem_visit.1 h
    · exact Event.told_failure hnamed cause
    · exact Event.told_success hnamed
  | expand folder live =>
    obtain ⟨cause, -, rfl⟩ := found_mem_expand.1 h
    exact Event.told_failure hnamed cause

theorem Task.named_of_leads {p : Plan} {d : Disk} {t : Task} (hp : p.Named)
    (h : LeadsTo p d .start t) : (t.top p).Named := by
  induction h with
  | refl => exact hp.root
  | tail _ hnext ih => exact named_next ih hnext

theorem Plan.told_of_mem_findings {p : Plan} {d : Disk} {f : Finding} (hp : p.Named)
    (h : f ∈ p.findings d) : (Event.found f).Told := by
  obtain ⟨t, hleads, ht⟩ := exists_leads_of_mem (Event.mem_findings.1 h)
  exact Task.told_of_found (Task.named_of_leads hp hleads) ht

theorem Options.printable_debugText (o : Options) : o.debugText.printable = true := by
  have hflag : ∀ b : Bool,
      Text.printable (if b then "True".toList else "False".toList) = true := by
    intro b
    split <;> exact Text.printable_of_ascii (by decide)
  unfold debugText
  simp only [Text.printable_append, Bool.and_eq_true]
  exact ⟨⟨⟨⟨⟨⟨Text.printable_of_ascii (by decide), hflag _⟩, Text.printable_of_ascii (by decide)⟩,
    hflag _⟩, Text.printable_of_ascii (by decide)⟩, hflag _⟩, Text.printable_of_ascii (by decide)⟩

theorem Plan.clear_debugText (p : Plan) : p.debugText.Clear := by
  refine Text.clear_concat ?_ (Text.prints_of_ascii (by decide) (by decide)) (by decide)
  simp only [Text.printable_append, Bool.and_eq_true]
  exact ⟨⟨⟨⟨⟨Text.printable_of_ascii (by decide), Text.printable_quoted _⟩,
    Text.printable_of_ascii (by decide)⟩, p.root.clear_debugText.printable⟩,
    Text.printable_of_ascii (by decide)⟩, p.options.printable_debugText⟩

namespace Report
variable {c : Console} {p : Plan} {d d' : Disk} {cells : Text → Nat}

/-! ### Values -/

theorem clear_errorText (e : Option EntryError) : (errorText e).Clear := by
  cases e with
  | none =>
    exact Text.clear_concat (s := "Non".toList) (Text.printable_of_ascii (by decide))
      (Text.prints_of_ascii (by decide) (by decide)) (by decide)
  | some e => exact e.clear_debugText

theorem clear_finding (f : Finding) : (finding f).Clear := by
  refine ⟨?_, ?_, List.forall_mem_cons.2 ⟨?_, List.forall_mem_singleton.2 ?_⟩⟩
  · exact Text.clear_concat (s := "MatchResult".toList) (Text.printable_of_ascii (by decide))
      (Text.prints_of_ascii (by decide) (by decide)) (by decide)
  · exact Text.clear_concat (s := []) rfl (Text.prints_of_ascii (by decide) (by decide)) (by decide)
  · exact .append (Text.printable_of_ascii (by decide)) f.path.clear_debugText
  · exact .append (Text.printable_of_ascii (by decide)) (clear_errorText f.error)

theorem clear_paths (ps : List Path) : (paths ps).Clear := by
  refine ⟨?_, ?_, List.forall_mem_map.2 fun p _ => p.clear_debugText⟩
  · exact Text.clear_concat (s := []) rfl (Text.prints_of_ascii (by decide) (by decide)) (by decide)
  · exact Text.clear_concat (s := []) rfl (Text.prints_of_ascii (by decide) (by decide)) (by decide)

/-- Lines one below the other. -/
def unlines (lines : List Text) : Text := lines.flatMap (· ++ ['\n'])

theorem unlines_append (ls ms : List Text) : unlines (ls ++ ms) = unlines ls ++ unlines ms :=
  List.flatMap_append

/-- The report as it is read. -/
def text (r : Report) : Text := unlines r.lines

theorem readable_errorText : Text.Readable errorText (Option.map (·.cause.told)) := by
  have hsome : ∀ (e : EntryError) (x : Text), (errorText (some e) ++ x).head? = some 'E' :=
    fun _ _ => rfl
  have hnone : ∀ x : Text, (errorText none ++ x).head? = some 'N' := fun _ => rfl
  intro e f x y hq
  cases e with
  | none =>
    cases f with
    | none => exact ⟨rfl, List.append_cancel_left hq⟩
    | some f =>
      have hhead := (hnone x).symm.trans ((congrArg List.head? hq).trans (hsome f y))
      exact absurd hhead (by decide)
  | some e =>
    cases f with
    | none =>
      have hhead := (hsome e x).symm.trans ((congrArg List.head? hq).trans (hnone y))
      exact absurd hhead (by decide)
    | some f =>
      obtain ⟨hcause, hrest⟩ := EntryError.readable_debugText hq
      exact ⟨congrArg some hcause, hrest⟩

/-- The dump of a finding. -/
def entry (cells : Text → Nat) (f : Finding) : Text :=
  unlines (Text.labelled "result".toList ((finding f).laid cells))

/-- A value of two parts takes one line or four. -/
theorem laid_pair (cells : Text → Nat) (opening closing s t : Text) :
    (Value.row opening closing [s, t]).laid cells =
        [opening ++ (s ++ (", ".toList ++ (t ++ closing)))] ∨
      (Value.row opening closing [s, t]).laid cells =
        [opening, "    ".toList ++ (s ++ [',']), "    ".toList ++ t, closing] := by
  rw [Value.laid]
  split
  · refine .inl ?_
    rw [Value.flat, List.intercalate_cons_cons, List.intercalate_singleton]
    simp only [List.append_assoc]
  · refine .inr ?_
    simp [Value.spread]

/-- A finding is dumped in one of two ways, with the same parts in the same order. -/
theorem entry_append (cells : Text → Nat) (f : Finding) (x : Text) : ∃ spread : Bool,
    entry cells f ++ x = "result = MatchResult(".toList ++
      ((if spread then "\n    " else "").toList ++ ("path=".toList ++ (f.path.debugText ++
        ((if spread then ",\n    " else ", ").toList ++ ("error=".toList ++ (errorText f.error ++
          ((if spread then "\n)\n" else ")\n").toList ++ x))))))) := by
  rw [entry, finding]
  obtain h | h := laid_pair cells "MatchResult(".toList [')']
    ("path=".toList ++ f.path.debugText) ("error=".toList ++ errorText f.error)
  · refine ⟨false, ?_⟩
    rw [h]
    simp only [Text.labelled, unlines, List.flatMap_cons, List.flatMap_nil, List.append_assoc]
    rfl
  · refine ⟨true, ?_⟩
    rw [h]
    simp only [Text.labelled, unlines, List.flatMap_cons, List.flatMap_nil, List.append_assoc]
    rfl

theorem head?_entry (cells : Text → Nat) (f : Finding) (x : Text) :
    (entry cells f ++ x).head? = some 'r' := by
  obtain ⟨spread, hentry⟩ := entry_append cells f x
  rw [hentry]
  rfl

/-- **The dump of a finding tells its path and its error, whatever stands behind it.** -/
theorem readable_entry :
    Text.Readable (entry cells) fun f => (f.path.text, f.error.map (·.cause.told)) := by
  intro f g x y hq
  obtain ⟨spread, hf⟩ := entry_append cells f x
  obtain ⟨spread', hg⟩ := entry_append cells g y
  rw [hf, hg] at hq
  replace hq := List.append_cancel_left hq
  have hspread : spread = spread' := by
    -- What follows is the name of the first part, or the end of the line.
    have hhead := congrArg List.head? hq
    cases spread <;> cases spread'
    · rfl
    · exact absurd (show some 'p' = some '\n' from hhead) (by decide)
    · exact absurd (show some '\n' = some 'p' from hhead) (by decide)
    · rfl
  subst hspread
  replace hq := List.append_cancel_left (List.append_cancel_left hq)
  obtain ⟨hpath, hq⟩ := Path.readable_debugText hq
  replace hq := List.append_cancel_left (List.append_cancel_left hq)
  obtain ⟨herror, hq⟩ := readable_errorText hq
  exact ⟨Prod.ext hpath herror, List.append_cancel_left hq⟩

/-- What is dumped of a finding is what is told of it. -/
theorem finding_ofTold {f : Finding} (hf : (Event.found f).Told) :
    finding (.ofTold f.told) = finding f := by
  have herror : errorText (Finding.ofTold f.told).error = errorText f.error := by
    cases hcase : f.error with
    | none => rw [Finding.ofTold, Finding.told, hcase]; rfl
    | some e =>
      have hpath : e.path = f.path := hf.path_eq f e rfl hcase
      rw [Finding.ofTold, Finding.told, hcase, ← hpath]
      rfl
  rw [finding, herror]
  rfl

/-! ### Reports -/

/-- The text behind the dumps. -/
def closing (c : Console) (source : Text) (s : Summary) : Text :=
  unlines (([[], "Summary".toList, "Pattern:   ".toList ++ source] ++ counters s).flatMap
    (c.print false))

/-- On a console that has columns every value is printed as it is laid out. -/
theorem text_ofPlan (hc : c.Lawful) (hwidth : 0 < c.width) (d : Disk) (p : Plan) :
    (ofPlan c d p).text =
      unlines (Text.labelled "paths".toList ((Value.atom p.debugText).laid c.cells)) ++
        ((p.findings d ++ p.findings d).flatMap (entry c.cells) ++
          (unlines (Text.labelled "collected".toList
              ((paths (Finding.paths (p.findings d))).laid c.cells)) ++
            closing c p.source (summarize (p.findings d) (p.findings d)))) := by
  have hdump : ∀ (label : Text) {v : Value}, label.printable = true → v.Clear →
      unlines (c.dump label v) = unlines (Text.labelled label (v.laid c.cells)) :=
    fun _ _ hlabel hv => congrArg unlines (Console.dump_eq hc hwidth hlabel hv)
  have hresults : ∀ fs : List Finding,
      unlines (fs.flatMap fun f => c.dump "result".toList (finding f)) =
        fs.flatMap (entry c.cells) := by
    intro fs
    rw [unlines, List.flatMap_assoc]
    exact List.flatMap_congr fun f _ =>
      hdump _ (Text.printable_of_ascii (by decide)) (clear_finding f)
  have hpaths := hdump "paths".toList (v := .atom p.debugText)
    (Text.printable_of_ascii (by decide)) p.clear_debugText
  have hcollected := hdump "collected".toList (Text.printable_of_ascii (by decide))
    (clear_paths (Finding.paths (p.findings d)))
  simp only [text, ofPlan, closing, unlines_append, hpaths, hresults, hcollected,
    List.flatMap_append, List.append_assoc]

theorem lines_of_width_zero (hc : c.Lawful) (hwidth : c.width = 0) (d : Disk) (p : Plan) :
    (ofPlan c d p).lines = [] := by
  have hprint := fun unbroken s => hc.print_of_width_zero unbroken s hwidth
  simp only [ofPlan, Console.dump, hprint, List.flatMap_eq_nil_iff, List.append_eq_nil_iff,
    implies_true, and_self]

/-- What stands behind the dumps of findings does not look like one. -/
theorem ne_entry_append {ls : List Text} (hls : ls ≠ []) (x : Text) (f : Finding) (y : Text) :
    unlines (Text.labelled "collected".toList ls) ++ x ≠ entry cells f ++ y := by
  intro hq
  obtain ⟨first, rest, rfl⟩ := List.exists_cons_of_ne_nil hls
  have hhead := (congrArg List.head? hq).trans (head?_entry cells f y)
  exact absurd (show some 'c' = some 'r' from hhead) (by decide)

/-- The text of a report tells the findings. -/
theorem told_eq_of_text_eq (hc : c.Lawful) (hwidth : 0 < c.width) (hp : p.Named)
    (h : (ofPlan c d p).text = (ofPlan c d' p).text) :
    (p.findings d).map Finding.told = (p.findings d').map Finding.told := by
  rw [text_ofPlan hc hwidth, text_ofPlan hc hwidth] at h
  obtain ⟨htwice, -⟩ := readable_entry.flatMap (ne_entry_append (Value.laid_ne_nil _ _) _)
    (ne_entry_append (Value.laid_ne_nil _ _) _) (List.append_cancel_left h)
  have honce := List.append_inj_left (by simpa only [List.map_append] using htwice) (by
    have hlen := congrArg List.length htwice
    simp only [List.map_append, List.length_append] at hlen
    omega)
  have htold : ∀ d, (p.findings d).map Finding.told =
      ((p.findings d).map fun f => (f.path.text, f.error.map (·.cause.told))).map
        (Prod.map Path.ofText id) := by
    intro d
    rw [List.map_map]
    refine List.map_congr_left fun f hf => ?_
    have hnamed := (Plan.told_of_mem_findings hp hf).named
    exact Prod.ext (Path.ofText_text hnamed).symm rfl
  rw [htold, htold, honce]

/-- Nothing else of the tree is in a report. -/
theorem ofPlan_eq_of_told_eq (c : Console) (hp : p.Named)
    (h : (p.findings d).map Finding.told = (p.findings d').map Finding.told) :
    ofPlan c d p = ofPlan c d' p := by
  have hresults : ∀ d, ((p.findings d).flatMap fun f => c.dump "result".toList (finding f)) =
      ((p.findings d).map Finding.told).flatMap fun t =>
        c.dump "result".toList (finding (.ofTold t)) := by
    intro d
    rw [List.flatMap_map]
    refine List.flatMap_congr fun f hf => ?_
    rw [finding_ofTold (Plan.told_of_mem_findings hp hf)]
  have hpaths : Finding.paths (p.findings d) = Finding.paths (p.findings d') := by
    rw [Finding.paths_eq, Finding.paths_eq, h]
  have hsummary : summarize (p.findings d) (p.findings d) =
      summarize (p.findings d') (p.findings d') := by
    rw [summarize, summarize, hpaths, Finding.countP_eq not, Finding.countP_eq not, h,
      ← Finding.length_paths, ← Finding.length_paths, hpaths]
  simp only [ofPlan, hresults, h, hpaths, hsummary]

/-- What a report counts, in its summary and in its last lines. -/
structure Counts (c : Console) (fs : List Finding) (r : Report) : Prop where
  matched_eq : r.summary.matched = fs.countP Finding.isSuccess
  errors_eq : r.summary.errors = fs.countP (!·.isSuccess)
  collected_eq : r.summary.collected = fs.countP Finding.isSuccess
  printed : (counters r.summary).flatMap (c.print false) <:+ r.lines
  /-- Where there is room for the counters they are the last lines as they are. -/
  verbatim : (∀ t ∈ counters r.summary, c.cells t ≤ c.width) → counters r.summary <:+ r.lines

/-- A number ends in a digit. -/
theorem clear_toString (n : Nat) : Text.Clear (toString n).toList := by
  have hne : (toString n).toList ≠ [] := by
    show n.repr.toList ≠ []
    rw [Nat.toList_repr]
    exact Nat.toDigits_ne_nil
  have hlast := List.getLast?_eq_some_getLast hne
  refine ⟨SystemError.printable_toString n, _, hlast, fun hq => ?_⟩
  have hmem : ' ' ∈ (toString (n : Int)).toList := hq ▸ List.getLast_mem hne
  exact absurd (SystemError.mem_toString hmem) (by decide)

theorem clear_counters (s : Summary) : ∀ t ∈ counters s, t.Clear := by
  have hcount : ∀ (label : String) (n : Nat), Text.printable label.toList = true →
      Text.Clear (label.toList ++ (toString n).toList) :=
    fun _ n hlabel => .append hlabel (clear_toString n)
  simp only [counters, List.forall_mem_cons]
  exact ⟨hcount _ _ (Text.printable_of_ascii (by decide)),
    hcount _ _ (Text.printable_of_ascii (by decide)),
    hcount _ _ (Text.printable_of_ascii (by decide)), nofun⟩

theorem counts_ofPlan (hc : c.Lawful) (hwidth : 0 < c.width) (d : Disk) (p : Plan) :
    Counts c (p.findings d) (ofPlan c d p) := by
  have hprinted : (counters (ofPlan c d p).summary).flatMap (c.print false) <:+
      (ofPlan c d p).lines := by
    refine List.IsSuffix.trans ?_ (List.suffix_append _ _)
    exact (List.suffix_append _ _).flatMap _
  refine ⟨rfl, rfl, Finding.length_paths _, hprinted, fun hfits => ?_⟩
  have hverbatim : (counters (ofPlan c d p).summary).flatMap (c.print false) =
      (counters (ofPlan c d p).summary).flatMap fun t => [t] :=
    List.flatMap_congr fun t ht =>
      have hclear := clear_counters _ t ht
      hc.print_of_fits t hwidth hclear.printable (hclear.fits (hfits t ht))
  rwa [hverbatim, List.flatMap_singleton'] at hprinted

end Report

/-- **A report tells the findings of a walk, and nothing else of the tree.** On a console that has
columns, whatever is in the names on two trees, the reports on them are the same text exactly if
the same was found, in the same order, with the same errors; and a report counts what was found. -/
theorem report_told {c : Console} (hc : c.Lawful) (hwidth : 0 < c.width) {o : Options}
    {source : Text} {p : Plan} (hp : Plan.ofSource o source = .ok p) (d d' : Disk) :
    ∃ r r', Report.ofSource c d o source = .ok r ∧ Report.ofSource c d' o source = .ok r' ∧
      (r.text = r'.text ↔ (p.findings d).map Finding.told = (p.findings d').map Finding.told) ∧
      r.Counts c (p.findings d) := by
  have hnamed := Plan.named_of_ofSource hp
  have hreport : ∀ d, Report.ofSource c d o source = .ok (Report.ofPlan c d p) := by
    intro d
    rw [Report.ofSource, hp]
    rfl
  exact ⟨_, _, hreport d, hreport d', ⟨Report.told_eq_of_text_eq hc hwidth hnamed, fun h =>
    congrArg Report.text (Report.ofPlan_eq_of_told_eq c hnamed h)⟩,
    Report.counts_ofPlan hc hwidth d p⟩

/-- A name that goes on like the end of its dump and the next one. -/
def Report.forgedName : Text := "a'), error=None)\nresult = MatchResult(path=PosixPath('b".toList

/-- One file does not pass for two, whatever its name. -/
theorem report_told_forged :
    ∃ p, Plan.ofSource {} "*".toList = .ok p ∧
      p.findings (.ofLines ["a".toList, "b".toList]) =
        [.success (.ofText "a".toList), .success (.ofText "b".toList)] ∧
      ∃ r r', Report.ofSource (.typewriter 80) (.ofLines ["a".toList, "b".toList]) {} "*".toList =
          .ok r ∧
        Report.ofSource (.typewriter 80) (.ofLines [Report.forgedName]) {} "*".toList = .ok r' ∧
        r.text ≠ r'.text ∧
        r.Counts (.typewriter 80) (p.findings (.ofLines ["a".toList, "b".toList])) := by
  have hrun : Token.ofSource "*".toList = .ok [.run] := by cbv
  obtain ⟨p, hp, hfiles, hforged⟩ : ∃ p, Plan.ofSource {} "*".toList = .ok p ∧
      p.findings (.ofLines ["a".toList, "b".toList]) =
        [.success (.ofText "a".toList), .success (.ofText "b".toList)] ∧
      (p.findings (.ofLines [Report.forgedName])).length = 1 :=
    ⟨_, Plan.ofSource_of_components (o := {}) [⟨_, _, hrun⟩] hrun rfl, by cbv, by cbv⟩
  obtain ⟨r, r', hr, hr', htext, hcounts⟩ := report_told (Console.lawful_typewriter 80) (by decide)
    hp (.ofLines ["a".toList, "b".toList]) (.ofLines [Report.forgedName])
  refine ⟨p, hp, hfiles, r, r', hr, hr', fun hq => ?_, hcounts⟩
  have hlen := congrArg List.length (htext.1 hq)
  rw [List.length_map, List.length_map, hfiles, hforged] at hlen
  exact absurd hlen (by decide)

/-- A console without columns tells nothing: the reports on a file and on no file are the same. -/
theorem report_untold :
    ∃ p, Plan.ofSource {} "*".toList = .ok p ∧
      p.findings (.ofLines ["a".toList]) = [.success (.ofText "a".toList)] ∧
      p.findings (.ofLines []) = [] ∧
      ∃ r r', Report.ofSource (.typewriter 0) (.ofLines ["a".toList]) {} "*".toList = .ok r ∧
        Report.ofSource (.typewriter 0) (.ofLines []) {} "*".toList = .ok r' ∧
        r.lines = [] ∧ r'.lines = [] ∧ r.text = r'.text := by
  have hrun : Token.ofSource "*".toList = .ok [.run] := by cbv
  obtain ⟨p, hp, hfile, hnone⟩ : ∃ p, Plan.ofSource {} "*".toList = .ok p ∧
      p.findings (.ofLines ["a".toList]) = [.success (.ofText "a".toList)] ∧
      p.findings (.ofLines []) = [] :=
    ⟨_, Plan.ofSource_of_components (o := {}) [⟨_, _, hrun⟩] hrun rfl, by cbv, by cbv⟩
  have hreport : ∀ d, Report.ofSource (.typewriter 0) d {} "*".toList =
      .ok (Report.ofPlan (.typewriter 0) d p) := by
    intro d
    rw [Report.ofSource, hp]
    rfl
  have hlines := fun d => Report.lines_of_width_zero (Console.lawful_typewriter 0) rfl d p
  refine ⟨p, hp, hfile, hnone, _, _, hreport _, hreport _, hlines _, hlines _, ?_⟩
  rw [Report.text, Report.text, hlines, hlines]

end PathGlob
