import Viewlet.Main
import Viewlet.Proofs.Evaluation.Adequacy
import Viewlet.Proofs.TypeSafety
import Viewlet.Proofs.Typing.Completeness
import Viewlet.Proofs.Sessions.Results
import Viewlet.Proofs.Evaluation.Renaming
import Viewlet.Proofs.Evaluation.Portability
import Viewlet.Proofs.Evaluation.RenamedRun
import Viewlet.Proofs.Evaluation.Rebinding
import Viewlet.Proofs.Sessions.LexicalScoping
import Viewlet.Proofs.Reading.Grammar
import Viewlet.Proofs.Reading.GrammarSoundness
import Viewlet.Proofs.Reading.GrammarCompleteness
import Viewlet.Proofs.Reading.Rendering
import Viewlet.Proofs.Sessions.Reachability
import Viewlet.Proofs.Sessions.Persistence
import Viewlet.Proofs.Sessions.WellFormedness
import Viewlet.Proofs.Reading.Placement
import Viewlet.Proofs.Reading.Units
import Viewlet.Proofs.Reading.BlankedText
import Viewlet.Proofs.Reading.ScannedText
import Viewlet.Proofs.Reading.UnitTexts
import Viewlet.Proofs.Sessions.UnitByUnit
import Viewlet.Proofs.Reading.LineBreaks
import Viewlet.Proofs.Reading.WholeText
import Viewlet.Proofs.Evaluation.Coincidence
import Viewlet.Proofs.Sessions.Commutation
import Viewlet.Proofs.Typing.RunInvariant
import Viewlet.Proofs.Typing.AlikeEnvironments
import Viewlet.Proofs.Reading.ReadNames
import Viewlet.Proofs.Reading.RenderedNames
import Viewlet.Proofs.Typing.BareExpressions
import Viewlet.Proofs.Evaluation.PartialEvaluation
import Viewlet.Proofs.Evaluation.ScopeExtrusion
import Viewlet.Proofs.Typing.MostGeneralUnifier
import Viewlet.Proofs.Evaluation.Transport
import Viewlet.Proofs.Evaluation.Steadiness
import Viewlet.Proofs.Evaluation.SteadyOutcomes
import Viewlet.Proofs.Evaluation.Idempotence
import Viewlet.Proofs.Sessions.RootValue
import Viewlet.Proofs.Reading.LineComments
import Viewlet.Proofs.Reading.IntegerLiterals
import Viewlet.Proofs.Reading.Positions
import Viewlet.Proofs.Reading.FaultPlaces
import Viewlet.Proofs.Reading.Tiling
import Viewlet.Proofs.Reading.TokenPlaces
import Viewlet.Proofs.Reading.Complaints
import Viewlet.Proofs.Reading.FurthestComplaint
import Viewlet.Proofs.Reading.Blanking
import Viewlet.Proofs.Typing.UnifierRecursion
import Viewlet.Proofs.Evaluation.IntegerArithmetic
import Viewlet.Proofs.Typing.TypeIdentity
import Viewlet.Proofs.Typing.Composition
import Viewlet.Proofs.Reading.Nesting
import Viewlet.Proofs.Sessions.RenamedSessions
import Viewlet.Proofs.Sessions.FreshParameters
