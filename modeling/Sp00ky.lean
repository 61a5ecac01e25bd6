import Sp00ky.Ssp.TopKRuns
import Sp00ky.Ssp.Window
import Sp00ky.Ssp.MergeKeyFacts
import Sp00ky.Ssp.EquiJoin
import Sp00ky.Ssp.PreciseUpdates
import Sp00ky.Ssp.Replicate
import Sp00ky.Ssp.LowerMeaning
import Sp00ky.Ssp.RestoreRuns
import Sp00ky.Ssp.RowFloor
import Sp00ky.Scheduler.EventOrder
import Sp00ky.Scheduler.TwoWriters
import Sp00ky.Scheduler.ReplayTwice
import Sp00ky.Scheduler.WalCrash
import Sp00ky.Scheduler.Handover
import Sp00ky.Core.Push
import Sp00ky.Core.Rollback
import Sp00ky.Core.Impossible
import Sp00ky.Core.Screen
import Sp00ky.Core.SqlScan
import Sp00ky.Core.Converge
import Sp00ky.Core.Bodies
import Sp00ky.Core.Flicker
import Sp00ky.Core.Mirror
import Sp00ky.Core.Sqlite
import Sp00ky.ScheduleCore.Stopped
import Sp00ky.ScheduleCore.StepTruth
import Sp00ky.ScheduleCore.JobRuns
import Sp00ky.ScheduleCore.KeyHeld
import Sp00ky.ScheduleCore.SameOutcome
import Sp00ky.ScheduleCore.FireRuns
import Sp00ky.Durable.OneJob
import Sp00ky.Checkpoint.RoundTrip
import Sp00ky.Checkpoint.Refusals
import Sp00ky.Checkpoint.FlatReads
import Sp00ky.Pool.Budget
import Sp00ky.Pool.Boots
import Sp00ky.Pool.Capacity
import Sp00ky.Ssp.ScalarOrder
import Sp00ky.Ssp.WindowSums
import Sp00ky.Core.MutationIds
import Sp00ky.SspNode.Transactions
import Sp00ky.SspNode.JobMarks
