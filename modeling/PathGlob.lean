import PathGlob.Options
import PathGlob.Text.Basic
import PathGlob.Text.Blank
import PathGlob.Text.Fold
import PathGlob.Text.FoldTable
import PathGlob.Text.Printing
import PathGlob.Text.Quoted
import PathGlob.Text.Wrap
import PathGlob.Pattern.Token
import PathGlob.Pattern.Item
import PathGlob.Pattern.Basic
import PathGlob.Pattern.Escape
import PathGlob.Pattern.Match
import PathGlob.Pattern.Meaning
import PathGlob.Path
import PathGlob.SystemError
import PathGlob.Disk.Node
import PathGlob.Disk.Spot
import PathGlob.Disk.Basic
import PathGlob.Walk.Live
import PathGlob.Walk.Language
import PathGlob.Walk.Plan
import PathGlob.Walk.Event
import PathGlob.Walk.Children
import PathGlob.Walk.Basic
import PathGlob.Walk.Outline
import PathGlob.Session
import PathGlob.Console
import PathGlob.Report
import PathGlob.Command
import PathGlob.Disk.Manifest
import PathGlob.Main
import PathGlob.Proofs.Lists
import PathGlob.Proofs.Pattern.Shape
import PathGlob.Proofs.Path
import PathGlob.Proofs.Pattern.Matching
import PathGlob.Proofs.Pattern.Grammar
import PathGlob.Proofs.Walk.Sharing
import PathGlob.Proofs.Pattern.Components
import PathGlob.Proofs.Pattern.Covering
import PathGlob.Proofs.Walk.Joined
import PathGlob.Proofs.Disk.Trees
import PathGlob.Proofs.Disk.Leading
import PathGlob.Proofs.Disk.Opened
import PathGlob.Proofs.Walk.Reading
import PathGlob.Proofs.Walk.Finite
import PathGlob.Proofs.Walk.Outlined
import PathGlob.Proofs.Walk.Pulled
import PathGlob.Proofs.Disk.Clean
import PathGlob.Proofs.Pattern.Literal
import PathGlob.Proofs.Walk.Exactly
import PathGlob.Proofs.Walk.Planned
import PathGlob.Proofs.Walk.Found
import PathGlob.Proofs.Pattern.Faults
import PathGlob.Proofs.Pattern.Tokens
import PathGlob.Proofs.Walk.Extent
import PathGlob.Proofs.Walk.Once
import PathGlob.Proofs.Disk.Locked
import PathGlob.Proofs.Walk.Ending
import PathGlob.Proofs.Walk.Locked
import PathGlob.Proofs.Walk.Positions
import PathGlob.Proofs.Walk.Reached
import PathGlob.Proofs.Walk.Hidden
import PathGlob.Proofs.Pattern.Cutting
import PathGlob.Proofs.Walk.Reported
import PathGlob.Proofs.Walk.Refused
import PathGlob.Proofs.Walk.Probed
import PathGlob.Proofs.Walk.Entered
import PathGlob.Proofs.Walk.Broken
import PathGlob.Proofs.Pattern.Recased
import PathGlob.Proofs.Walk.Recased
import PathGlob.Proofs.Pattern.Relaxed
import PathGlob.Proofs.Pattern.Alike
import PathGlob.Proofs.Pattern.Escaped
import PathGlob.Proofs.Walk.Caseless
import PathGlob.Proofs.Walk.Abreast
import PathGlob.Proofs.Walk.Separator
import PathGlob.Proofs.Walk.Repeated
import PathGlob.Proofs.Walk.FoldersOnly
import PathGlob.Proofs.Walk.Escaped
import PathGlob.Proofs.Walk.Needed
import PathGlob.Proofs.Text.Wrapped
import PathGlob.Proofs.Console
import PathGlob.Proofs.Command
import PathGlob.Proofs.Text.Quoted
import PathGlob.Proofs.Report
