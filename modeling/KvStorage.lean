import KvStorage.Data.TableRuns
import KvStorage.Data.KeyRange
import KvStorage.Data.History
import KvStorage.Client.FrameLength
import KvStorage.Server.Monitor
import KvStorage.Server.LockRelease
import KvStorage.Server.Descriptors
import KvStorage.Server.Listings
import KvStorage.Server.Requests
import KvStorage.Server.Sizes
import KvStorage.Server.Statistics
import KvStorage.Chain.Linear
import KvStorage.Membership.Views
import KvStorage.Membership.JoinProgress
import KvStorage.Membership.JoinAgreement
import KvStorage.Membership.FailoverAgreement
import KvStorage.Membership.OneChain
import KvStorage.Membership.Startup
import KvStorage.Membership.Events
import KvStorage.Client.HeadTail
import KvStorage.Client.Console
import KvStorage.Membership.Convergence
import KvStorage.Memory.Sessions
import KvStorage.Client.Shell
import KvStorage.Server.Connections
import KvStorage.Wire.Runs
