import Mathlib
import PathGlob.Console
import PathGlob.Proofs.Text.Wrapped

/-! Consoles, and values on them.

There are consoles: a typewriter is one (`Console.lawful_typewriter`). On any of them a value with
clear parts is printed behind its label as it is laid out, on one line or with a line for each part
(`Console.dump_eq`). -/
namespace PathGlob
variable {s t : Text}

/-! ### Printable texts and clear lines -/

namespace Text

theorem not_mem_of_printable (h : s.printable = true) : '\n' ∉ s := by
  intro hmem
  have hprints : prints '\n' = false := by decide +kernel
  exact absurd (List.all_eq_true.1 h _ hmem) (by rw [hprints]; decide)

theorem printable_intercalate (hs : s.printable = true) {ts : List Text}
    (h : ∀ t ∈ ts, t.printable = true) : printable (s.intercalate ts) = true := by
  induction ts with
  | nil => rfl
  | cons t ts ih =>
    obtain ⟨ht, hts⟩ := List.forall_mem_cons.1 h
    cases ts with
    | nil => rwa [List.intercalate_singleton]
    | cons u us =>
      rw [List.intercalate_cons_cons, printable_append, printable_append, ht, hs, ih hts]
      rfl

theorem Clear.append (hs : s.printable = true) (ht : t.Clear) : (s ++ t).Clear := by
  obtain ⟨c, hlast, hc⟩ := ht.getLast?_ne
  refine ⟨by rw [printable_append, hs, ht.printable]; rfl, c, ?_, hc⟩
  rw [List.getLast?_append, hlast, Option.some_or]

theorem clear_concat {c : Char} (hs : s.printable = true) (hc : prints c = true) (hne : c ≠ ' ') :
    (s ++ [c]).Clear :=
  .append hs ⟨(Bool.and_true _).trans hc, c, rfl, hne⟩

/-- A clear line that is not too wide fits. -/
theorem Clear.fits {c : Console} (h : s.Clear) (hcells : c.cells s ≤ c.width) : c.Fits s := by
  refine ⟨hcells, fun hblank => ?_⟩
  obtain ⟨last, hlast, hne⟩ := h.getLast?_ne
  exact absurd (Option.some.inj (hlast.symm.trans hblank)) hne

/-- Lines, the first one behind a label. -/
def labelled (label : Text) : List Text → List Text
  | [] => []
  | first :: rest => (label ++ " = ".toList ++ first) :: rest

theorem intercalate_labelled (label : Text) {lines : List Text} (h : lines ≠ []) :
    ['\n'].intercalate (labelled label lines) =
      label ++ " = ".toList ++ ['\n'].intercalate lines := by
  obtain ⟨first, rest, rfl⟩ := List.exists_cons_of_ne_nil h
  cases rest with
  | nil => rw [labelled, List.intercalate_singleton, List.intercalate_singleton]
  | cons next rest =>
    simp only [labelled, List.intercalate_cons_cons, List.append_assoc]

end Text

/-! ### Values -/

namespace Value

/-- The texts of a value are clear lines. -/
def Clear : Value → Prop
  | atom text => text.Clear
  | row opening closing parts => opening.Clear ∧ closing.Clear ∧ ∀ part ∈ parts, part.Clear

variable {v : Value}

theorem clear_flat (h : v.Clear) : v.flat.Clear := by
  cases v with
  | atom text => exact h
  | row opening closing parts =>
    obtain ⟨hopening, hclosing, hparts⟩ := h
    have hcomma : Text.printable ", ".toList = true := Text.printable_of_ascii rfl
    have hjoined := Text.printable_intercalate hcomma fun part hpart =>
      (hparts part hpart).printable
    exact .append (by rw [Text.printable_append, hopening.printable, hjoined]; rfl) hclosing

theorem clear_spread (h : v.Clear) : ∀ line ∈ v.spread, line.Clear := by
  cases v with
  | atom text => exact List.forall_mem_singleton.2 h
  | row opening closing parts =>
    obtain ⟨hopening, hclosing, hparts⟩ := h
    have hindented : ∀ line ∈ parts.map ("    ".toList ++ ·), Text.Clear line :=
      List.forall_mem_map.2 fun part hpart =>
        .append (Text.printable_of_ascii rfl) (hparts part hpart)
    refine List.forall_mem_append.2 ⟨List.forall_mem_cons.2 ⟨hopening, ?_⟩,
      List.forall_mem_singleton.2 hclosing⟩
    refine List.forall_mem_append.2
      ⟨List.forall_mem_map.2 fun line hline => ?_, fun line hline => ?_⟩
    · have hline' := hindented line (List.dropLast_subset _ hline)
      exact Text.clear_concat hline'.printable
        (Text.prints_of_ascii (by decide) (by decide)) (by decide)
    · exact hindented line (List.mem_of_getLast? (Option.mem_toList.1 hline))

theorem clear_laid (cells : Text → Nat) (h : v.Clear) : ∀ line ∈ v.laid cells, line.Clear := by
  rw [laid]
  split
  · exact List.forall_mem_singleton.2 (clear_flat h)
  · exact clear_spread h

theorem laid_ne_nil (cells : Text → Nat) (v : Value) : v.laid cells ≠ [] := by
  rw [laid]
  split
  · exact List.cons_ne_nil _ _
  · cases v <;> exact List.cons_ne_nil _ _

end Value

/-! ### Printing -/

namespace Console
variable {c : Console}

/-- **There are consoles.** -/
theorem lawful_typewriter (width : Nat) : (typewriter width).Lawful := by
  have hprint : ∀ unbroken s, 0 < width → (typewriter width).print unbroken s =
      if unbroken then s.splitOn '\n' else s.wrapped width :=
    fun _ _ hwidth => if_neg (Nat.ne_of_gt hwidth)
  refine ⟨fun _ => rfl, fun s hwidth hs hfits => ?_, fun s hwidth _ line hline => ?_,
    fun s hwidth _ _ hlong hq => ?_, fun lines hwidth hne hlines => ?_,
    fun _ _ hwidth => if_pos hwidth⟩
  · rw [hprint _ _ hwidth]
    exact Text.wrapped_of_length_le (Text.not_mem_of_printable hs) hfits.cells_le
  · rw [hprint _ _ hwidth] at hline
    exact Text.length_le_of_wrapped line hline
  · rw [hprint _ _ hwidth] at hq
    have hle := Text.length_le_of_wrapped s (hq ▸ List.mem_singleton_self s)
    exact absurd hlong (Nat.not_lt.2 hle)
  · rw [hprint _ _ hwidth]
    exact List.splitOn_intercalate '\n'
      (fun line hline => Text.not_mem_of_printable (hlines line hline).printable) hne

/-- A value is printed behind its label as it is laid out. -/
theorem dump_eq (hc : c.Lawful) (hwidth : 0 < c.width) {label : Text}
    (hlabel : label.printable = true) {v : Value} (hv : v.Clear) :
    c.dump label v = Text.labelled label (v.laid c.cells) := by
  have hne := v.laid_ne_nil c.cells
  have hclear := Value.clear_laid c.cells hv
  rw [dump, hc.pretty_eq, ← Text.intercalate_labelled label hne]
  generalize v.laid c.cells = lines at hne hclear
  obtain ⟨first, rest, rfl⟩ := List.exists_cons_of_ne_nil hne
  obtain ⟨hfirst, hrest⟩ := List.forall_mem_cons.1 hclear
  refine hc.print_unbroken _ hwidth (List.cons_ne_nil _ _) (List.forall_mem_cons.2 ⟨?_, hrest⟩)
  exact .append (by rw [Text.printable_append, hlabel, Text.printable_of_ascii rfl]; rfl) hfirst

end Console
end PathGlob
