import Lineage.Cli.Args
import Lineage.Cli.Files
import Lineage.Cli.Run
import Lineage.Corpus
import Lineage.Hierarchy.Basic
import Lineage.Hierarchy.Build
import Lineage.Java.Scan
import Lineage.Java.Syntax
import Lineage.Language
import Lineage.Main
import Lineage.Number.Double
import Lineage.Overlay.Basic
import Lineage.Pattern.Basic
import Lineage.Pattern.Program
import Lineage.Pattern.Search
import Lineage.Python.Scan
import Lineage.Python.Syntax
import Lineage.Report.Data
import Lineage.Report.JsonValue
import Lineage.Report.Search
import Lineage.Report.Tree
import Lineage.Scan.Shapes
import Lineage.Settings.Basic
import Lineage.Settings.Glob
import Lineage.Symbol.Basic
import Lineage.Symbol.Modifier
import Lineage.Symbol.Name
import Lineage.Symbol.Resolve
import Lineage.Text.Blank
import Lineage.Text.Hidden
import Lineage.Text.Quote
import Lineage.Text.Ranges
import Lineage.Text.Trim
import Lineage.Text.Utf8
import Lineage.Text.WordChar
import Lineage.Yaml.Document
import Lineage.Yaml.Event
import Lineage.Yaml.Scalar
import Lineage.Yaml.Token
import Lineage.Yaml.Typed
import Lineage.Proofs.Text.Utf8
import Lineage.Proofs.Text.Wellformed
import Lineage.Proofs.Overlay.Masking
import Lineage.Proofs.Overlay.Showing
import Lineage.Proofs.Pattern.CharSet
import Lineage.Proofs.Pattern.Compile
import Lineage.Proofs.Pattern.Search
import Lineage.Proofs.Pattern.Reads
import Lineage.Proofs.Tree.Shape
import Lineage.Proofs.Tree.Walk
import Lineage.Proofs.Tree.Lookup
import Lineage.Proofs.Scan.Bounds
import Lineage.Proofs.Scan.Java
import Lineage.Proofs.Scan.Python
import Lineage.Proofs.Scan.Termination
import Lineage.Proofs.Pattern.Leads
import Lineage.Proofs.Overlay.Source
import Lineage.Proofs.Scan.DeclarationSpan
import Lineage.Proofs.Scan.Nesting
import Lineage.Proofs.Hierarchy.Resolve
import Lineage.Proofs.Hierarchy.Nodes
import Lineage.Proofs.Hierarchy.Methods
import Lineage.Proofs.Corpus
import Lineage.Proofs.Hierarchy.Ready
import Lineage.Proofs.Hierarchy.Overrides
import Lineage.Proofs.Hierarchy.Ancestry
import Lineage.Proofs.Hierarchy.Walks
import Lineage.Proofs.Tree.Visibility
import Lineage.Proofs.Scan.Widening
import Lineage.Proofs.Scan.OpenScopes
import Lineage.Proofs.Scan.Censoring
import Lineage.Proofs.Tree.Growth
import Lineage.Proofs.Tree.Qualified
import Lineage.Proofs.Scan.Placement
import Lineage.Proofs.QualifiedNames
import Lineage.Proofs.Pattern.Groups
import Lineage.Proofs.Scan.Concealed
import Lineage.Proofs.Scan.Literals
import Lineage.Proofs.Text.Lines
import Lineage.Proofs.Report.Commands
import Lineage.Proofs.Pattern.Brackets
import Lineage.Proofs.Hierarchy.Drawing
import Lineage.Proofs.Tree.Traversal
import Lineage.Proofs.Report.Columns
import Lineage.Proofs.Report.Patterns
import Lineage.Proofs.Scan.Bodies
