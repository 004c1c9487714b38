import Hermit.Scheduler.YieldEpoch
import Hermit.Scheduler.FairContinuation
import Hermit.Scheduler.UndoPop
import Hermit.Scheduler.TimerGrid
import Hermit.Time.Conservation
import Hermit.HappensBefore.Occurrences
import Hermit.Schedule.BoundaryOrder
import Hermit.Schedule.BoundaryCursor
import Hermit.EditDistance.BubbleStates
import Hermit.Scheduler.BackgroundStarts
import Hermit.Pedigree.VirtualPid
import Hermit.EditDistance.Pairing
import Hermit.Preemptions.Formats
import Hermit.Flock.References
import Hermit.Minimize.Minimality
import Hermit.Scheduler.ChaosStarvation
import Hermit.Scheduler.PidNamespaces
import Hermit.Races.PipeBytes
import Hermit.RobustList.Replay
import Hermit.PiFutex.Arrivals
import Hermit.Network.Upgrade
import Hermit.Network.Arrivals
import Hermit.ContainerMounts.InstalledRows
import Hermit.AddressSpaces
import Hermit.Scheduler.UserNamespaces
import Hermit.Scheduler.StuckChildren
import Hermit.Races.ReverseTurns
import Hermit.Races.Inversions
import Hermit.DirectoryStream
