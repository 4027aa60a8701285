import WhileStatics.Span
import WhileStatics.Text
import WhileStatics.Ty.Basic
import WhileStatics.Ty.Resolution
import WhileStatics.Ty.Validity
import WhileStatics.Ty.Subtyping
import WhileStatics.Value.Basic
import WhileStatics.Value.Typing
import WhileStatics.Expr.Basic
import WhileStatics.Expr.Dump
import WhileStatics.Stmt
import WhileStatics.Program
import WhileStatics.Table
import WhileStatics.Declarations
import WhileStatics.Scope
import WhileStatics.Fault
import WhileStatics.Diagnostic
import WhileStatics.Event
import WhileStatics.Logged
import WhileStatics.Walk
import WhileStatics.Expansion.Options
import WhileStatics.Expansion.Calls
import WhileStatics.Expansion.Instance
import WhileStatics.Expansion.Program
import WhileStatics.Typing.Expr
import WhileStatics.Typing.Program
import WhileStatics.Analysis
import WhileStatics.Proofs.AliasChains
import WhileStatics.Proofs.AliasCycles
import WhileStatics.Proofs.Outcomes
import WhileStatics.Proofs.WellFormed
import WhileStatics.Proofs.SubtypeDecision
import WhileStatics.Proofs.Sites
import WhileStatics.Proofs.TypingRules
import WhileStatics.Proofs.Scopes
import WhileStatics.Proofs.ScopeRuns
import WhileStatics.Proofs.Inference
import WhileStatics.Proofs.Literals
import WhileStatics.Proofs.Annotation
import WhileStatics.Proofs.Checking
import WhileStatics.Proofs.Tables
import WhileStatics.Proofs.ReturnTypes
import WhileStatics.Proofs.TypedPrograms
import WhileStatics.Proofs.Expanding
import WhileStatics.Proofs.NormalForms
import WhileStatics.Proofs.NodeSpans
import WhileStatics.Proofs.ExpandedPrograms
import WhileStatics.Proofs.Failures
import WhileStatics.Proofs.MacroCalls
import WhileStatics.Proofs.ExpansionFrame
import WhileStatics.Proofs.Signatures
import WhileStatics.Proofs.AnalyzedPrograms
import WhileStatics.Proofs.MacroRecursion
import WhileStatics.Proofs.MacroInstances
import WhileStatics.Proofs.WrittenTypes
import WhileStatics.Proofs.NestedStatements
import WhileStatics.Proofs.CheckingFailures
import WhileStatics.Proofs.NameFaults
import WhileStatics.Proofs.EquivalentTypes
import WhileStatics.Proofs.EquivalentContexts
import WhileStatics.Proofs.Respelling
import WhileStatics.Proofs.AliasTransparency
import WhileStatics.Proofs.InternalFailures
import WhileStatics.Proofs.AnalyzedCalls
import WhileStatics.Proofs.StatementPasses
import WhileStatics.Proofs.NestedBlocks
import WhileStatics.Proofs.Unfoldings
import WhileStatics.Proofs.AgreeingDeclarations
import WhileStatics.Proofs.DeclarationOrder
import WhileStatics.Proofs.ErasedPasses
import WhileStatics.Proofs.StaleSlots
import WhileStatics.Proofs.DiagnosticSpans
import WhileStatics.Proofs.LeastUpperBounds
import WhileStatics.Proofs.PrincipalTypes
import WhileStatics.Proofs.RelaxedOptions
import WhileStatics.Proofs.WrittenLiterals
import WhileStatics.Proofs.NestedCalls
import WhileStatics.Proofs.SubtypeTermination
import WhileStatics.Proofs.TypeTexts
import WhileStatics.Proofs.ExpansionTermination
