import Treewalk.Main
import Treewalk.Value.Describe
import Treewalk.Syntax.Equality
import Treewalk.Proofs.RoundTrip
import Treewalk.Proofs.SignalContainment
import Treewalk.Proofs.ExceptionSimulation
import Treewalk.Proofs.CallDepth
import Treewalk.Proofs.LexicalFaults
import Treewalk.Proofs.SpacedText
import Treewalk.Proofs.PrecedenceLadder
import Treewalk.Proofs.CapturedScopes
import Treewalk.Proofs.TypedLines
import Treewalk.Proofs.Concatenation
import Treewalk.Proofs.TokenSpans
import Treewalk.Proofs.CalledPrograms
import Treewalk.Proofs.UnitBoundaries
import Treewalk.Proofs.LayoutInsertion
import Treewalk.Proofs.MessageTemplates
import Treewalk.Proofs.QueueDiscipline
import Treewalk.Proofs.FileRuns
import Treewalk.Proofs.IntegerRange
import Treewalk.Proofs.ExecutedAssignments
import Treewalk.Proofs.IntegerRuns
import Treewalk.Proofs.ExactArithmetic
import Treewalk.Proofs.ShellRecovery
import Treewalk.Proofs.Termination
import Treewalk.Proofs.ChainUpdates
import Treewalk.Proofs.RefusedLimits
import Treewalk.Proofs.ParsingProgress
import Treewalk.Proofs.StringLiterals
import Treewalk.Proofs.Lookahead
import Treewalk.Proofs.Identities
import Treewalk.Proofs.FunctionText
import Treewalk.Proofs.Bystanders
import Treewalk.Proofs.OptionalSemicolons
import Treewalk.Proofs.OmittedSemicolons
import Treewalk.Proofs.ClearText
import Treewalk.Proofs.StyledTemplates
import Treewalk.Proofs.ClearSyntax
import Treewalk.Proofs.ClearValues
import Treewalk.Proofs.ClearReports
import Treewalk.Proofs.Decoration
