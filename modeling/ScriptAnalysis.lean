import ScriptAnalysis.Ast.VisitorKeys
import ScriptAnalysis.Session.Requests
import ScriptAnalysis.Proofs.Project.Files
import ScriptAnalysis.Proofs.Session.History
import ScriptAnalysis.Proofs.Session.Outcome
import ScriptAnalysis.Proofs.Session.Consistency
import ScriptAnalysis.Proofs.Token.Spelling
import ScriptAnalysis.Proofs.Syntax.Bare
import ScriptAnalysis.Proofs.Syntax.Grammar
import ScriptAnalysis.Proofs.Syntax.Printer
import ScriptAnalysis.Proofs.Syntax.Reading
import ScriptAnalysis.Proofs.Syntax.ReadingTypes
import ScriptAnalysis.Proofs.Syntax.Opening
import ScriptAnalysis.Proofs.Syntax.ReadingExpressions
import ScriptAnalysis.Proofs.Syntax.ReadingStatements
import ScriptAnalysis.Proofs.Syntax.RoundTrip
import ScriptAnalysis.Proofs.Ast.Nodes
import ScriptAnalysis.Proofs.Names.Binding
import ScriptAnalysis.Proofs.Names.Common
import ScriptAnalysis.Proofs.Names.Conversion
import ScriptAnalysis.Proofs.Names.Graph
import ScriptAnalysis.Proofs.Names.Headers
import ScriptAnalysis.Proofs.Names.Origins
import ScriptAnalysis.Proofs.Names.Agreement
import ScriptAnalysis.Proofs.Ast.NodeMaps
import ScriptAnalysis.Proofs.Scoping.Lookup
import ScriptAnalysis.Proofs.Syntax.Formatting
import ScriptAnalysis.Proofs.Syntax.Atoms
import ScriptAnalysis.Proofs.Syntax.Lossless
import ScriptAnalysis.Proofs.Token.Cover
import ScriptAnalysis.Proofs.Semantics.NormalTypes
import ScriptAnalysis.Proofs.Semantics.Questions
import ScriptAnalysis.Proofs.Names.Classification
import ScriptAnalysis.Proofs.Session.Routing
import ScriptAnalysis.Proofs.Project.Operations
import ScriptAnalysis.Proofs.Project.Revisions
import ScriptAnalysis.Proofs.Semantics.Calls
import ScriptAnalysis.Proofs.Syntax.Spans
import ScriptAnalysis.Proofs.Syntax.OneTree
import ScriptAnalysis.Proofs.Project.Registration
import ScriptAnalysis.Proofs.Scoping.Coherence
import ScriptAnalysis.Proofs.Ast.Preorder
import ScriptAnalysis.Proofs.Ast.Slots
import ScriptAnalysis.Proofs.Scoping.Sightings
import ScriptAnalysis.Proofs.Scoping.Identifiers
import ScriptAnalysis.Proofs.Syntax.ErrorOrder
import ScriptAnalysis.Proofs.Syntax.Written
import ScriptAnalysis.Proofs.Scoping.HeaderReferences
import ScriptAnalysis.Proofs.Names.Uniformity
import ScriptAnalysis.Proofs.Syntax.Containment
import ScriptAnalysis.Proofs.Token.LongestMatch
import ScriptAnalysis.Proofs.Token.StringForms
import ScriptAnalysis.Proofs.Token.Reprinting
import ScriptAnalysis.Proofs.Text.Lines
import ScriptAnalysis.Proofs.Token.LineBreaks
import ScriptAnalysis.Proofs.Token.Comments
import ScriptAnalysis.Proofs.Semantics.Relays
import ScriptAnalysis.Proofs.Semantics.Objects
import ScriptAnalysis.Proofs.Semantics.SymbolTypes
import ScriptAnalysis.Proofs.Types.Join
import ScriptAnalysis.Proofs.Types.Display
import ScriptAnalysis.Proofs.Names.Kinds
import ScriptAnalysis.Proofs.Semantics.Returns
import ScriptAnalysis.Proofs.Semantics.Mismatches
import ScriptAnalysis.Proofs.Semantics.Nullish
import ScriptAnalysis.Proofs.Semantics.Contradictions
import ScriptAnalysis.Proofs.Config.Decoding
import ScriptAnalysis.Proofs.Ast.Colons
import ScriptAnalysis.Proofs.Decimal.Reading
import ScriptAnalysis.Proofs.Syntax.Literals
import ScriptAnalysis.Proofs.Semantics.NumberLiterals
import ScriptAnalysis.Proofs.Scoping.Strictness
import ScriptAnalysis.Proofs.Scoping.Directives
import ScriptAnalysis.Proofs.Types.Loosening
import ScriptAnalysis.Proofs.Types.Widening
import ScriptAnalysis.Proofs.Syntax.Progress
