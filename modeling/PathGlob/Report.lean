import PathGlob.Console
import PathGlob.Walk.Basic

/-! The report on a walk: every finding of two passes, the paths collected, a summary.

The values among them are printed unbroken, whatever the width of the console. The lines of
the summary are not. -/
namespace PathGlob

structure Summary where
  matched : Nat
  errors : Nat
  collected : Nat
deriving DecidableEq

structure Report where
  summary : Summary
  lines : List Text

namespace Report

/-- The error of a finding, or that it has none. -/
def errorText : Option EntryError → Text
  | none => "None".toList
  | some e => e.debugText

def finding (f : Finding) : Value :=
  .row "MatchResult(".toList [')']
    ["path=".toList ++ f.path.debugText, "error=".toList ++ errorText f.error]

def paths (ps : List Path) : Value := .row ['['] [']'] (ps.map Path.debugText)

def summarize (fs again : List Finding) : Summary :=
  ⟨fs.countP Finding.isSuccess, fs.countP (!·.isSuccess), (Finding.paths again).length⟩

/-- The counters of a summary, one a line. -/
def counters (s : Summary) : List Text :=
  let count (label : String) (n : Nat) := label.toList ++ (toString n).toList
  [count "Matched:   " s.matched, count "Errors:    " s.errors, count "Collected: " s.collected]

/-- The report on a plan: two walks, one after the other. -/
def ofPlan (c : Console) (d : Disk) (p : Plan) : Report :=
  let first := p.findings d
  let second := p.findings d
  let summary := summarize first second
  let results (fs : List Finding) := fs.flatMap fun f => c.dump "result".toList (finding f)
  let closing :=
    [[], "Summary".toList, "Pattern:   ".toList ++ p.source] ++ counters summary
  ⟨summary, c.dump "paths".toList (.atom p.debugText) ++ results first ++ results second ++
    c.dump "collected".toList (paths (Finding.paths second)) ++
    closing.flatMap (c.print false)⟩

def ofSource (c : Console) (d : Disk) (o : Options) (source : Text) : Except PatternError Report :=
  (Plan.ofSource o source).map (ofPlan c d)

end Report
end PathGlob
