import PathGlob.Path
import PathGlob.Walk.Live

/-! What a walk is to find: a root, and components for the names below it.

The source is compiled as a whole first, so an error is placed in the whole source;
then each of its components is compiled alone. Leading plain names are not searched
for but joined to the root. -/
namespace PathGlob

structure Plan where
  source : Text
  root : Path
  components : List Pattern
  /-- Only folders are results: the source ends with a separator. -/
  foldersOnly : Bool
  options : Options
  /-- Look plain names up one by one where no other name can be meant. -/
  probing : Bool := true

namespace Plan

/-- The plan that starts at the anchor of the source and keeps every component. -/
def anchored (o : Options) (source : Text) : Except PatternError Plan :=
  match Pattern.compile source with
  | .error e => .error e
  | .ok _ =>
    ((Path.namesOf source).mapM Pattern.compile).map fun components =>
      { source
        root := ⟨if source.head? = some '/' then .root else .here, []⟩
        components
        foldersOnly := !components.isEmpty && source.getLast? == some '/'
        options := o }

/-- Move the leading plain names of a plan into its root. -/
def joined (p : Plan) : Plan :=
  { p with
    root := (p.components.takeWhile Pattern.isLiteral).foldl (fun r c => r.join c.source) p.root
    components := p.components.dropWhile Pattern.isLiteral }

def ofSource (o : Options) (source : Text) : Except PatternError Plan :=
  (anchored o source).map joined

/-- The same plan with every folder listed, none probed. -/
def listing (p : Plan) : Plan := { p with probing := false }

/-- Whether the root may be a result: it was written in the source, or is all of it. -/
def includesRoot (p : Plan) : Bool :=
  p.source ≠ [] && (p.root ≠ ⟨.here, []⟩ || p.components.isEmpty)

/-- Whether an entry with these live positions is a result. -/
def accepts (p : Plan) (live : Live) (isFolder : Bool) : Bool :=
  live.isFinal p.components && (isFolder || !p.foldersOnly)

/-- Whether the entries of a folder with these live positions are asked for. -/
def descends (p : Plan) (live : Live) (isFolder : Bool) : Bool :=
  isFolder && !(live.pending p.components).isEmpty

/-- Whether the names asked for in a folder are known, so that each is looked up. -/
def probes (p : Plan) (live : Live) : Bool :=
  p.probing && p.options.caseSensitive && (live.pending p.components).all Pattern.isLiteral

end Plan

def Options.debugText (o : Options) : Text :=
  let flag (b : Bool) := if b then "True".toList else "False".toList
  "MatchOptions(case_sensitive=".toList ++ flag o.caseSensitive ++
    ", require_literal_separator=".toList ++ flag o.literalSeparator ++
    ", require_literal_leading_dot=".toList ++ flag o.literalLeadingDot ++ [')']

def Plan.debugText (p : Plan) : Text :=
  "Paths(pattern=".toList ++ p.source.quoted ++ ", root=".toList ++ p.root.debugText ++
    ", options=".toList ++ p.options.debugText ++ [')']

end PathGlob
