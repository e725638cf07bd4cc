import Fz.Bitstr.Shortcut
import Fz.Bitstr.SizedField
import Fz.Bitstr.UtfScan
import Fz.Dispatch.CompileCorrect
import Fz.Dispatch.GuardMeaning
import Fz.Dispatch.InputDemand
import Fz.Dispatch.Refines
import Fz.Facts.CompletionEnds
import Fz.Facts.ContributionExact
import Fz.Facts.DemandJoin
import Fz.Facts.ReturnLadderSound
import Fz.Facts.RowOrder
import Fz.Front.OperatorPrint
import Fz.Gc.Park
import Fz.Inventory.SharedOrderRuns
import Fz.Pull.DirtyWitnessRuns
import Fz.Pull.OrderedWorklist
import Fz.Pull.RootedRuns
import Fz.Pull.StrongComponentExact
import Fz.Sched.Agree
import Fz.Sched.Mail
import Fz.Sched.TimerRuns
import Fz.Sched.Wakeup
import Fz.Terms.DenotationRoundTrip
import Fz.Terms.FastCompareSound
import Fz.Terms.MapRuns
import Fz.Terms.Widening
import Fz.Types.AbsorbExact
import Fz.Types.ArrowMask
import Fz.Types.CarveEnds
import Fz.Types.EmptinessCorrect
import Fz.Types.EnvelopeSound
import Fz.Types.EmittedTestSound
import Fz.Types.InternKeeps
import Fz.Types.LaneTestSound
import Fz.Types.ListAxis
import Fz.Types.OrderStable
import Fz.Types.ProductSubtraction
import Fz.Types.Projections
import Fz.Front.StringLiteral
import Fz.Front.Surface
import Fz.Lib.RangeSlice
import Fz.Lib.Sort
import Fz.Lib.TextChunk
import Fz.Lib.TextTrim
