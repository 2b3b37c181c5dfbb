import Carillon.Lib.Runs
import Carillon.Lib.Gregorian
import Carillon.Ntp
import Carillon.Time
import Carillon.Leap.Table
import Carillon.Leap.Object
import Carillon.Leap.Store
import Carillon.Leap.Updater
import Carillon.Leap.Transitions
import Carillon.Leap.Activation
import Carillon.Leap.Durable
import Carillon.Leap.Reload
import Carillon.Discipline.Measurement
import Carillon.Discipline.Loop
import Carillon.Discipline.Select
import Carillon.Discipline.System
import Carillon.Discipline.Intersection
import Carillon.Discipline.Selection
import Carillon.Discipline.Settling
import Carillon.Engine.Latch
import Carillon.Engine.Once
import Carillon.Engine.Boundary
import Carillon.Discipline.Stepping
import Carillon.Engine.Expiry
import Carillon.Discipline.Filter
import Carillon.Source.Ntp
import Carillon.Refclock.Pps
import Carillon.Refclock.Sentence
import Carillon.Refclock.Nmea
import Carillon.Refclock.Invalidation
import Carillon.Engine.Drivers
import Carillon.Engine.Epoch
import Carillon.Discipline.Silence
import Carillon.Discipline.StepSafety
import Carillon.Discipline.ErrorBound
import Carillon.Lib.Channel
import Carillon.Lib.Recurrence
import Carillon.Engine.Queue
import Carillon.Engine.Requeue
import Carillon.Engine.DriftWriter
import Carillon.Discipline.Convergence
import Carillon.Lib.Sweep
import Carillon.Lib.Rates
import Carillon.Discipline.Accounting
import Carillon.Lib.Octets
import Carillon.Ntp.Packet
import Carillon.Leap.Wire
import Carillon.Ntp.Auth
import Carillon.Ntp.Timestamp
import Carillon.Leap.Distributor
import Carillon.Lib.Tokens
import Carillon.Server.Address
import Carillon.Server.RateLimit
import Carillon.Server.Responder
import Carillon.Server.Ends
import Carillon.Server.Safety
import Carillon.Server.Isolation
import Carillon.Leap.Fetch
import Carillon.Server.Transfer
import Carillon.Source.Exchange
import Carillon.Server.Interop
import Carillon.Discipline.Bootstrap
import Carillon.Discipline.SlewSafety
import Carillon.Discipline.FilterBatch
import Carillon.Lib.Rotation
import Carillon.Source.Poller
import Carillon.Source.Resolve
import Carillon.Server.BucketBound
import Carillon.Leap.Budget
import Carillon.Leap.Lines
import Carillon.Refclock.Chronology
import Carillon.Engine.DriftGate
import Carillon.Refclock.Sequence
import Carillon.Lib.Gf2
import Carillon.Ntp.Cmac
import Carillon.Config.Devices
import Carillon.Server.EventTime
import Carillon.Lib.Linked
import Carillon.Server.Table
import Carillon.Lib.FileTree
import Carillon.Stats.Writer
import Carillon.Stats.Retention
import Carillon.Lib.CrashFs
import Carillon.Engine.DriftFile
import Carillon.Leap.Commit
import Carillon.Leap.Rollback
import Carillon.Leap.Network
import Carillon.Clock.Words
import Carillon.Engine.Kernel
import Carillon.Leap.Schedule
