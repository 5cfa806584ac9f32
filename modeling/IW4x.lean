import IW4x.Lib.Runs
import IW4x.Lib.RingBuffer
import IW4x.Lib.Stacks
import IW4x.Gdk.Types
import IW4x.Gdk.TaskPort
import IW4x.Gdk.PortThreads
import IW4x.Gdk.PortInvariants
import IW4x.Gdk.Queues
import IW4x.Gdk.Async
import IW4x.Gdk.AsyncThreads
import IW4x.Gdk.AsyncSteps
import IW4x.Gdk.Holds
import IW4x.Gdk.Serials
import IW4x.Gdk.FindRace
import IW4x.Gdk.HoldAccounts
import IW4x.Gdk.Providers
import IW4x.Gdk.Retirement
import IW4x.Gdk.Routing
import IW4x.Gdk.ProviderCalls
import IW4x.Gdk.Announcements
import IW4x.Hex.Digits
import IW4x.Hex.Encode
import IW4x.Hex.Decode
import IW4x.Hex.Relaxed
import IW4x.Lib.Sweep
import IW4x.XCurl.Local
import IW4x.XCurl.Transfer
import IW4x.XCurl.Libcurl
import IW4x.XCurl.Multi
import IW4x.XCurl.Presence
import IW4x.XCurl.Absence
import IW4x.XCurl.Removal
import IW4x.XCurl.Pools
import IW4x.XCurl.Heard
import IW4x.XCurl.Cleanup
import IW4x.XCurl.Membership
import IW4x.XCurl.Watch
import IW4x.XCurl.Courses
import IW4x.XCurl.Answers
import IW4x.Gdk.ProcessQueue
import IW4x.Gdk.ProcessThreads
import IW4x.Lib.LastSome
import IW4x.XCurl.Setopt
import IW4x.XCurl.Methods
import IW4x.XCurl.Services
import IW4x.Lib.Unicode
import IW4x.Gdk.PoolPorts
import IW4x.Gdk.QueueSteps
import IW4x.Gdk.PoolThreads
import IW4x.Gdk.QueueTickets
import IW4x.Gdk.ClosedPorts
import IW4x.Gdk.ReusedQueues
import IW4x.Gdk.SelfJoin
import IW4x.Gdk.Contexts
import IW4x.Gdk.Path
import IW4x.Gdk.Save
import IW4x.Gdk.BlobNames
import IW4x.Gdk.BlobMap
import IW4x.Gdk.NamedFiles
import IW4x.Gdk.PoolCalls
import IW4x.Gdk.BlobFailures
import IW4x.Gdk.ContainerInfo
import IW4x.Gdk.SaveHandles
import IW4x.Gdk.SaveUpdates
import IW4x.Gdk.SaveTargets
import IW4x.Gdk.TimedPort
import IW4x.Gdk.PortOrder
import IW4x.Gdk.PortSleep
import IW4x.XCurl.Redirects
import IW4x.Win32.ExitProcess
import IW4x.Gdk.Handlers
import IW4x.Gdk.Notices
import IW4x.Gdk.Handouts
import IW4x.Gdk.Rounds
import IW4x.Lib.Notes
import IW4x.Gdk.Completions
import IW4x.Gdk.Deliveries
import IW4x.Gdk.ProviderBegins
import IW4x.Gdk.QueueCourses
import IW4x.Gdk.Terminations
import IW4x.Gdk.TerminationOrder
import IW4x.Lib.Numerals
import IW4x.Hex.Integers
import IW4x.Hex.Dump
import IW4x.Hex.Canonical
import IW4x.XCurl.UrlParts
import IW4x.XCurl.Reads
import IW4x.XCurl.Outcomes
import IW4x.Gdk.BlobBuffers
import IW4x.Gdk.ChildNames
import IW4x.Gdk.DelayedOrder
import IW4x.Gdk.Dispatch
import IW4x.Lib.Placeholders
import IW4x.Gdk.TextWriter
import IW4x.Gdk.Format
import IW4x.Gdk.Failures
import IW4x.Lib.PercentEncoding
import IW4x.Lib.Utf8Boundaries
import IW4x.Lib.Loops
import IW4x.Gdk.PathBuffer
import IW4x.Gdk.Invites
import IW4x.Gdk.Gamertag
import IW4x.Gdk.Identity
import IW4x.Gdk.Vtable
import IW4x.Gdk.Directories
import IW4x.Lib.Refinements
import IW4x.Gdk.HandlerSlots
import IW4x.Gdk.FileTransfers
import IW4x.Lib.Scopes
import IW4x.Contracts.Checks
import IW4x.Contracts.Levels
import IW4x.Contracts.Rules
import IW4x.XCurl.Parameters
import IW4x.Lib.Ownership
import IW4x.Gdk.CheckedPaths
import IW4x.Gdk.Resources
import IW4x.Gdk.Tokens
import IW4x.Gdk.StatusWaits
import IW4x.Gdk.Interfaces
import IW4x.Gdk.Catalog
import IW4x.Hex.Formatting
import IW4x.Hex.Layouts
import IW4x.Gdk.OperationTypes
import IW4x.Lib.Objects
import IW4x.Gdk.LifeCycles
import IW4x.Lib.Once
import IW4x.Gdk.PlayerIds
import IW4x.Gdk.PlayerPicker
import IW4x.Lib.Forced
import IW4x.XCurl.Callbacks
import IW4x.XCurl.Nesting
import IW4x.XCurl.Returning
