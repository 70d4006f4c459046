import PathGlob.Report

/-! The commands, as functions from what is asked for to printed lines and an exit status.

`scan` prints the report on a pattern; `check` prints one verdict for each text, and its
status tells whether all of them were covered. -/
namespace PathGlob

/-- The switches of a command, as they are given. -/
structure Flags where
  caseInsensitive : Bool := false
  literalSeparator : Bool := false
  literalLeadingDot : Bool := false

def Flags.options (f : Flags) : Options where
  caseSensitive := !f.caseInsensitive
  literalSeparator := f.literalSeparator
  literalLeadingDot := f.literalLeadingDot

inductive Request where
  | version
  | scan (flags : Flags) (source : Option Text)
  | check (flags : Flags) (source : Text) (texts : List Text)

/-- The surroundings of a command: the tree, the console, and a pattern to fall back on. -/
structure Setting where
  disk : Disk
  console : Console
  fallback : Option Text := none

structure Outcome where
  status : Nat
  lines : List Text

namespace Command

def version : Text := "0.1.0".toList

def defaultPattern : Text := "**/__tests__/**".toList

def refused (c : Console) (e : PatternError) : Outcome :=
  ⟨1, c.print false ("Pattern error: ".toList ++ e.message)⟩

def scan (s : Setting) (o : Options) (source : Text) : Outcome :=
  match Report.ofSource s.console s.disk o source with
  | .error e => refused s.console e
  | .ok report => ⟨0, report.lines⟩

/-- What is told of a text: whether the pattern covers it, and the text. -/
def verdict (o : Options) (p : Pattern) (text : Text) : Text :=
  (if p.covers o text then "match: " else "no match: ").toList ++ text

/-- One verdict for each text, in order; the status is 1 if any of them is not covered. -/
def check (c : Console) (o : Options) (source : Text) (texts : List Text) : Outcome :=
  match Pattern.compile source with
  | .error e => refused c e
  | .ok p =>
    ⟨if texts.all (p.covers o) then 0 else 1, texts.flatMap fun t => c.print false (verdict o p t)⟩

/-- Run what is asked for. An empty pattern is no pattern to fall back on. -/
def run (s : Setting) : Request → Outcome
  | .version => ⟨0, s.console.print false version⟩
  | .scan flags source =>
    scan s flags.options (source.getD ((s.fallback.filter (· ≠ [])).getD defaultPattern))
  | .check flags source texts => check s.console flags.options source texts

end Command
end PathGlob
