import ZnetServer.Transition
import ZnetServer.Scheduler
import ZnetServer.SchedulerWakeup
import ZnetServer.SchedulerParallel
import ZnetServer.TaskPool
import ZnetServer.SchedulerDrain
import ZnetServer.SchedulerExclusive
import ZnetServer.TaskTurns
import ZnetServer.Fiber
import ZnetServer.SchedulerContext
import ZnetServer.SchedulerPlaces
import ZnetServer.SchedulerCurrent
import ZnetServer.SchedulerReturn
import ZnetServer.SchedulerRefinement
import ZnetServer.SchedulerFinish
import ZnetServer.LogFormatter
import ZnetServer.Config
import ZnetServer.ConfigLoad
import ZnetServer.LogPattern
import ZnetServer.Log
import ZnetServer.LoggerManager
import ZnetServer.LoggerInvariant
import ZnetServer.LogYaml
import ZnetServer.LoggerReconcile
import ZnetServer.LogConfig
import ZnetServer.LoggerHandles
import ZnetServer.LogDelivery
import ZnetServer.LoggerSync
import ZnetServer.LogRoundTrip
import ZnetServer.LoggerExport
import ZnetServer.LexicalCast
import ZnetServer.ConfigListeners
import ZnetServer.ConfigRegistry
import ZnetServer.ConfigReload
import ZnetServer.LogFiles
import ZnetServer.LogTarget
import ZnetServer.LoggerRegistry
import ZnetServer.LoggerLevels
import ZnetServer.ConfigReentry
import ZnetServer.ConfigAddress
import ZnetServer.ConfigGraph
import ZnetServer.LogBoundary
import ZnetServer.ContainerShape
import ZnetServer.StringElements
import ZnetServer.LoggerChange
import ZnetServer.LoggerFallback
import ZnetServer.LogLiterals
import ZnetServer.LogRepattern
import ZnetServer.SchedulerLife
import ZnetServer.FiberCounter
import ZnetServer.ReferenceCount
import ZnetServer.SchedulerOwners
import ZnetServer.SchedulerFrames
import ZnetServer.SchedulerCalls
import ZnetServer.SchedulerRelease
import ZnetServer.SchedulerRestart
import ZnetServer.Iteration
import ZnetServer.LogScanner
import ZnetServer.LogTime
import ZnetServer.ThreadHandover
import ZnetServer.ScopedLock
import ZnetServer.LogToken
import ZnetServer.RunBudget
import ZnetServer.SchedulerStop
import ZnetServer.SchedulerRoot
import ZnetServer.SchedulerRename
import ZnetServer.SchedulerOrder
import ZnetServer.SchedulerStack
import ZnetServer.ThreadStart
import ZnetServer.OrderedSetFirst
import ZnetServer.LoggerLoad
import ZnetServer.SchedulerQuiet
import ZnetServer.ConfigStore
import ZnetServer.LogRecords
import ZnetServer.LoggerConfigured
import ZnetServer.Directory
import ZnetServer.LoggerValues
import ZnetServer.LogService
