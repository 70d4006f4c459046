import Mathlib
import PathGlob.Command
import PathGlob.Proofs.Console

/-! What `check` tells of texts.

Each text has its verdict and its place behind it, in the order in which the texts are given, and
the exit status is zero exactly if all of them are covered. A verdict is broken to the width of the
console as any text is, so a text is told as it is only where it fits behind the verdict
(`run_check`). -/
namespace PathGlob.Command
variable {s : Setting} {c : Console} {o : Options} {source text : Text} {texts : List Text}
  {p : Pattern}

/-- A line and the lines that it takes on a console. -/
structure Shown (c : Console) (line : Text) (block : List Text) : Prop where
  /-- The line stands there as it is exactly if it fits. -/
  verbatim_iff : block = [line] ↔ 0 < c.width ∧ c.Fits line
  cells_le : ∀ l ∈ block, c.cells l ≤ c.width

theorem shown_print (hc : c.Lawful) {line : Text} (h : line.printable = true) :
    Shown c line (c.print false line) := by
  rcases Nat.eq_zero_or_pos c.width with hzero | hwidth
  · rw [hc.print_of_width_zero _ _ hzero]
    exact ⟨⟨nofun, fun hfits => absurd hzero (Nat.ne_of_gt hfits.1)⟩, nofun⟩
  · have hcells := hc.cells_le_of_print line hwidth h
    refine ⟨⟨fun hq => ⟨hwidth, ?_, fun hblank => ?_⟩, fun hq => ?_⟩, hcells⟩
    · exact hcells line (hq ▸ List.mem_singleton_self line)
    · exact Nat.le_of_not_lt fun hlong => hc.print_ne_of_blank line hwidth h hblank hlong hq
    · exact hc.print_of_fits line hwidth h hq.2

theorem printable_verdict (h : text.printable = true) : (verdict o p text).printable = true := by
  rw [verdict, Text.printable_append, h, Bool.and_true]
  split <;> exact Text.printable_of_ascii rfl

theorem check_eq (c : Console) (o : Options) (hp : Pattern.compile source = .ok p)
    (texts : List Text) : check c o source texts =
      ⟨if texts.all (p.covers o) then 0 else 1,
        (texts.map fun t => c.print false (verdict o p t)).flatten⟩ := by
  rw [check, hp, ← List.flatMap_def]

/-- **A text is told behind its verdict as it is exactly if it fits.** On any console, every text
has its lines, in the order in which the texts are given, and the exit status is zero exactly if
the pattern covers all of them. A verdict and a text that together are wider than the console are
broken like any other text. -/
theorem run_check (hc : s.console.Lawful) (hp : Pattern.compile source = .ok p) (flags : Flags)
    (hprints : ∀ t ∈ texts, t.printable = true) :
    ∃ blocks, run s (.check flags source texts) =
        ⟨if ∀ t ∈ texts, p.covers flags.options t = true then 0 else 1, blocks.flatten⟩ ∧
      List.Forall₂ (fun t block => Shown s.console (verdict flags.options p t) block)
        texts blocks := by
  refine ⟨texts.map fun t => s.console.print false (verdict flags.options p t), ?_, ?_⟩
  · rw [run, check_eq _ _ hp]
    simp only [List.all_eq_true]
  · refine List.forall₂_map_right_iff.2 (List.forall₂_same.2 fun t ht => ?_)
    exact shown_print hc (printable_verdict (hprints t ht))

/-- A console of twelve columns, on an empty tree. -/
def narrow : Setting := { disk := { root := .folder [] none none }, console := .typewriter 12 }

/-- On a console of twelve columns the text that fills them is told as it is. -/
theorem run_check_filled :
    ∃ p, Pattern.compile "*c".toList = .ok p ∧
      ∃ blocks, run narrow (.check { caseInsensitive := true } "*c".toList
            ["a  bC".toList, "d".toList]) =
          ⟨if ∀ t ∈ ["a  bC".toList, "d".toList],
              p.covers (Flags.options { caseInsensitive := true }) t = true then 0 else 1,
            blocks.flatten⟩ ∧
        List.Forall₂ (fun t block => Shown (.typewriter 12)
            (verdict (Flags.options { caseInsensitive := true }) p t) block)
          ["a  bC".toList, "d".toList] blocks := by
  have hp : Token.ofSource "*c".toList = .ok [.run, .char 'c'] := by cbv
  have hprints : ∀ t ∈ ["a  bC".toList, "d".toList], Text.printable t = true := by
    refine List.forall_mem_cons.2 ⟨?_, List.forall_mem_singleton.2 ?_⟩ <;>
      exact Text.printable_of_ascii rfl
  exact ⟨_, Pattern.compile_eq_ok hp, run_check (s := narrow) (Console.lawful_typewriter 12)
    (Pattern.compile_eq_ok hp) _ hprints⟩

/-- The pattern covers a printable text, and no line tells of it as it is: a console of twelve
columns breaks its verdict between the words of the text. -/
theorem broken_verdict :
    ∃ p, Pattern.compile "*".toList = .ok p ∧
      p.covers (Flags.options {}) "aaaa bbbb".toList = true ∧
      Text.printable "aaaa bbbb".toList = true ∧
      run narrow (.check {} "*".toList ["aaaa bbbb".toList]) =
        ⟨0, ["match: aaaa ".toList, "bbbb".toList]⟩ ∧
      "match: aaaa bbbb".toList ∉ ["match: aaaa ".toList, "bbbb".toList] := by
  have hp : Token.ofSource "*".toList = .ok [.run] := by cbv
  have hcompile := Pattern.compile_eq_ok hp
  have hcovers : Pattern.covers (Flags.options {}) ⟨_, _, hp⟩ "aaaa bbbb".toList = true := by cbv
  refine ⟨_, hcompile, hcovers, Text.printable_of_ascii rfl, ?_, by decide⟩
  rw [run, check_eq _ _ hcompile]
  cbv

end PathGlob.Command
