import Dyplo.Queue.Blocks
import Dyplo.Process.Pipeline
import Dyplo.Queue.BlockProgress
import Dyplo.Scheduler.WaitEmpty
import Dyplo.FileIO.FileInputLook
import Dyplo.FileIO.FileOutputPolls
import Dyplo.Process.FileStageDelivery
import Dyplo.Process.CooperativeSink
import Dyplo.Hardware.BufferBounds
import Dyplo.Hardware.Partitions
import Dyplo.Hardware.DmaRing
import Dyplo.Hardware.DmaMapping
import Dyplo.Image.DescriptionFields
import Dyplo.Image.StaleMemory
import Dyplo.Image.GrantLimits
import Dyplo.Scheduler.ClearWakeup
import Dyplo.FileIO.ReadAll
import Dyplo.FileIO.InterruptRaces
import Dyplo.Hardware.PartitionChoice
import Dyplo.Queue.MaximalRuns
import Dyplo.Scheduler.OneElement
import Dyplo.Process.ThreadEnd
import Dyplo.Process.InterruptedStage
import Dyplo.Solver.RecordedSolution
import Dyplo.Solver.Partitioner
import Dyplo.Hardware.NumberScan
import Dyplo.Hardware.AvailableFifos
import Dyplo.Hardware.License
import Dyplo.Process.ThreadOwner
import Dyplo.FileIO.ByteCounts
import Dyplo.Process.AppProgress
import Dyplo.Process.Crypto
import Dyplo.Hardware.ImageConversion
import Dyplo.Hardware.ControlProgram
import Dyplo.Hardware.ProgramDelivery
import Dyplo.Process.ChainAgreement
import Dyplo.FileIO.PipeLink
