import Forge.Hash.Sha256
import Forge.Store.JobId
import Forge.Controller.Fifo
import Forge.Lib.RelyGuarantee
import Forge.Lib.CrashFs
import Forge.Store.Completed
import Forge.Worker.Feed
import Forge.Worker.Gate
import Forge.Worker.Protocol
import Forge.Worker.Partition
import Forge.Worker.Paths
import Forge.Worker.Limits
import Forge.Client.Submit
import Forge.Client.Numbers
import Forge.Controller.Records
import Forge.Controller.Crew
import Forge.Controller.Isolation
import Forge.Controller.Removal
import Forge.Controller.Shutdown
import Forge.Controller.Attribution
import Forge.Controller.Engine
import Forge.Controller.Scheduling
import Forge.Controller.Backlog
import Forge.Controller.Tokens
import Forge.Controller.Rewrites
import Forge.Controller.Closing
import Forge.Controller.Capacity
import Forge.Controller.Publication
import Forge.Controller.ProcStat
import Forge.Controller.Rejection
import Forge.Controller.Descriptors
import Forge.Controller.Answers
import Forge.Controller.Channel
import Forge.Controller.Exclusion
import Forge.Controller.Groups
import Forge.Controller.Orphans
import Forge.Controller.Sleep
