import NestedCss.Text.Ranges
import NestedCss.Text.Basic
import NestedCss.Text.Breaks
import NestedCss.Text.Digits
import NestedCss.Text.Word
import NestedCss.Text.Names
import NestedCss.Text.Lowercase
import NestedCss.Text.Printable
import NestedCss.Text.Quoted
import NestedCss.Mark
import NestedCss.Fault
import NestedCss.Statement
import NestedCss.Scan.Lexeme
import NestedCss.Scan.Draft
import NestedCss.Scan.Reading
import NestedCss.Scan.Reader
import NestedCss.Prelude
import NestedCss.Path
import NestedCss.Condition
import NestedCss.Scope
import NestedCss.Rule
import NestedCss.Sheet
import NestedCss.Animation
import NestedCss.Datum
import NestedCss.Settings
import NestedCss.Unnesting
import NestedCss.Number.Double
import NestedCss.Number.Shortest
import NestedCss.Number.Numeral
import NestedCss.Report
import NestedCss.Fragment
import NestedCss.Squeeze
import NestedCss.Compile
import NestedCss.Proofs.Drafts
import NestedCss.Proofs.Filing
import NestedCss.Proofs.Relexing
import NestedCss.Proofs.Spelling
import NestedCss.Proofs.Watching
import NestedCss.Proofs.Containment
import NestedCss.Proofs.Modes
import NestedCss.Proofs.Placeless
import NestedCss.Proofs.Thinning
import NestedCss.Proofs.SqueezedTexts
import NestedCss.Proofs.Transparency
import NestedCss.Proofs.PlainLists
import NestedCss.Proofs.PlainSources
import NestedCss.Proofs.Residue
import NestedCss.Proofs.Spacing
import NestedCss.Proofs.Locality
import NestedCss.Proofs.Grammar
import NestedCss.Proofs.Faultless
import NestedCss.Proofs.Braces
import NestedCss.Proofs.FairCopies
import NestedCss.Proofs.Trimming
import NestedCss.Proofs.FairSources
import NestedCss.Proofs.Joints
import NestedCss.Proofs.Pieces
import NestedCss.Proofs.Anchors
import NestedCss.Proofs.Repeats
import NestedCss.Proofs.Merging
import NestedCss.Proofs.MergedCopies
import NestedCss.Proofs.Conjunctions
import NestedCss.Proofs.FlatSheets
import NestedCss.Proofs.Traces
import NestedCss.Proofs.Regrouping
import NestedCss.Proofs.Arrivals
import NestedCss.Proofs.Replacing
import NestedCss.Proofs.Sessions
import NestedCss.Proofs.Stretches
import NestedCss.Proofs.Parents
import NestedCss.Proofs.Products
import NestedCss.Proofs.Stability
import NestedCss.Proofs.NameRuns
import NestedCss.Proofs.Renaming
import NestedCss.Proofs.Namespaces
import NestedCss.Proofs.BareHeadings
import NestedCss.Proofs.Insertions
import NestedCss.Proofs.ReadBack
import NestedCss.Proofs.ReplacedSheets
import NestedCss.Proofs.Templates
import NestedCss.Proofs.ScopeCopies
import NestedCss.Proofs.UnscopedSheets
import NestedCss.Proofs.Substitution
import NestedCss.Proofs.Attempts
import NestedCss.Proofs.Definedness
import NestedCss.Proofs.Leading
import NestedCss.Proofs.Precedence
import NestedCss.Proofs.Blocks
import NestedCss.Proofs.Swapping
import NestedCss.Proofs.Progress
import NestedCss.Proofs.Lines
import NestedCss.Proofs.Inlining
import NestedCss.Proofs.Rounding
import NestedCss.Proofs.FewestDigits
import NestedCss.Proofs.Numerals
