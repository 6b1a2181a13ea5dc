import DistLock.Lib.Claim
import DistLock.Acquire.AllOrNothing
import DistLock.Acquire.Handling
import DistLock.Acquire.Beaconed
import DistLock.Acquire.Return
import DistLock.Acquire.Verdict
import DistLock.Model.Addressee
import DistLock.System.Exclusion
import DistLock.System.Survivor
import DistLock.System.Arrived
import DistLock.Beacon.Ready
import DistLock.Beacon.Order
import DistLock.Query.Observers
import DistLock.Members.Count
import DistLock.Members.Query
import DistLock.Members.Sections
import DistLock.Acquire.Independence
import DistLock.Handler.Shutdown
import DistLock.Handler.Teardown
import DistLock.Tool.Child
import DistLock.Tool.Waiting
import DistLock.Tool.Parent
import DistLock.Tool.CommandLine
import DistLock.Query.Budget
import DistLock.Wire.Datagram
import DistLock.Handler.Dispatch
import DistLock.Handler.Links
import DistLock.Handler.Construct
import DistLock.Handler.Receiver
import DistLock.Tool.Environment
import DistLock.Tool.StringReplace
import DistLock.Lifetime.Mirror
