import Gradual.Text.Quoted
import Gradual.Text.Space
import Gradual.NameMap
import Gradual.Json.Reader
import Gradual.Json.Number
import Gradual.Json.Writer
import Gradual.Json.Encode
import Gradual.Span
import Gradual.Ty.Meet
import Gradual.Ty.Parse
import Gradual.Ty.Wire
import Gradual.Ty.Host
import Gradual.Oracle.Standard
import Gradual.Oracle.Rules
import Gradual.Json.Basic
import Gradual.Oracle.Docs
import Gradual.Config
import Gradual.Syntax.Build
import Gradual.Syntax.Decode
import Gradual.Syntax.Encode
import Gradual.Scope
import Gradual.Interface
import Gradual.Check.Annotation
import Gradual.Check.Narrowing
import Gradual.Check.Expr
import Gradual.Check.Module
import Gradual.Digest.Sha256
import Gradual.Disk.Path
import Gradual.Program.Basic
import Gradual.Main
import Gradual.Proofs.SubtypeOrder
import Gradual.Proofs.Narrowing
import Gradual.Proofs.CallMatching
import Gradual.Proofs.CacheTransparency
import Gradual.Proofs.NormalOperations
import Gradual.Proofs.WireText
import Gradual.Proofs.CompleteInterfaces
import Gradual.Proofs.LoadClosure
import Gradual.Proofs.Silence
import Gradual.Proofs.DeadCode
import Gradual.Proofs.TypeEquality
import Gradual.Proofs.TextRoundTrip
import Gradual.Proofs.TreeForms
import Gradual.Proofs.TreeRoundTrip
import Gradual.Proofs.Exports
import Gradual.Proofs.ForwardNames
import Gradual.Proofs.Interruption
import Gradual.Proofs.TupleOperators
import Gradual.Proofs.Liveness
import Gradual.Proofs.AnnotatedNames
import Gradual.Proofs.SpreadArguments
import Gradual.Proofs.Approximations
import Gradual.Proofs.AugmentedAssignment
import Gradual.Proofs.ListWidening
import Gradual.Proofs.MeetBounds
import Gradual.Proofs.FunctionBodies
import Gradual.Proofs.SharedScopes
import Gradual.Proofs.ListGrowth
import Gradual.Proofs.Precision
import Gradual.Proofs.MeetSymmetry
import Gradual.Proofs.LongestChains
import Gradual.Proofs.LoadOrder
import Gradual.Proofs.ArgumentOrder
import Gradual.Proofs.ModePolicy
import Gradual.Proofs.TypeGrammar
import Gradual.Proofs.UnionAlgebra
import Gradual.Proofs.WrittenTypes
import Gradual.Proofs.ForwardCalls
import Gradual.Proofs.AttachedHosts
import Gradual.Proofs.RecordFields
import Gradual.Proofs.CacheKeys
