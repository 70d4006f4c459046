import PathGlob.Command
import PathGlob.Disk.Manifest

/-! The program: `scan [FLAG...] [PATTERN]` and `match [FLAG...] PATTERN TEXT...`.

The tree that `scan` walks is described on standard input, an entry a line. All output
goes to standard error. -/
namespace PathGlob

/-- The lines of a stream. -/
partial def readLines (input : IO.FS.Stream) : IO (List Text) := do
  let line ← input.getLine
  if line.isEmpty then return []
  return line.toList.filter (· ≠ '\n') :: (← readLines input)

/-- The flags in front, and the texts behind them. -/
def readFlags (f : Flags) : List String → Flags × List Text
  | "--case-insensitive" :: rest => readFlags { f with caseInsensitive := true } rest
  | "--require-literal-separator" :: rest => readFlags { f with literalSeparator := true } rest
  | "--require-literal-leading-dot" :: rest => readFlags { f with literalLeadingDot := true } rest
  | texts => (f, texts.map String.toList)

def readRequest : List String → Option Request
  | ["--version"] => some .version
  | "scan" :: rest =>
    match readFlags {} rest with
    | (flags, []) => some (.scan flags none)
    | (flags, [source]) => some (.scan flags source)
    | _ => none
  | "match" :: rest =>
    match readFlags {} rest with
    | (flags, source :: text :: texts) => some (.check flags source (text :: texts))
    | _ => none
  | _ => none

def runCommand (args : List String) : IO UInt32 := do
  let some request := readRequest args
    | IO.eprintln "usage: pathglob scan [FLAG...] [PATTERN] | match [FLAG...] PATTERN TEXT..."
      return 2
  let lines ← if args.head? = some "scan" then readLines (← IO.getStdin) else pure []
  let width := ((← IO.getEnv "COLUMNS").bind String.toNat?).getD 80
  let fallback := (← IO.getEnv "PATHGLOB_PATTERN").map String.toList
  let outcome := Command.run { disk := .ofLines lines, console := .typewriter width, fallback } request
  for line in outcome.lines do
    IO.eprintln (String.ofList line)
  return outcome.status.toUInt32

end PathGlob

def main (args : List String) : IO UInt32 := PathGlob.runCommand args
