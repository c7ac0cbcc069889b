import OsLabs.AppendingThreads
import OsLabs.BufferScan
import OsLabs.BufferedWriter
import OsLabs.CInteger
import OsLabs.CMemory
import OsLabs.ClientSession
import OsLabs.CoalescedRuns
import OsLabs.CyclicList
import OsLabs.DaemonLock
import OsLabs.DaemonPidFile
import OsLabs.DaemonSignals
import OsLabs.Daemonize
import OsLabs.Delimited
import OsLabs.DepthRows
import OsLabs.DescriptorTable
import OsLabs.ErrDoit
import OsLabs.FileSystemModule
import OsLabs.FolderLinks
import OsLabs.FortuneFailures
import OsLabs.FortuneFence
import OsLabs.FortuneLayout
import OsLabs.FortuneLoading
import OsLabs.FortuneModules
import OsLabs.FortuneRead
import OsLabs.FortuneRecords
import OsLabs.FortuneRoundTrip
import OsLabs.FortuneSession
import OsLabs.FortuneStore
import OsLabs.FortuneWriters
import OsLabs.FtwAnswers
import OsLabs.FtwCalls
import OsLabs.FtwFailures
import OsLabs.FtwLimits
import OsLabs.FtwListing
import OsLabs.FtwRefines
import OsLabs.FtwResources
import OsLabs.FtwTotals
import OsLabs.FtwTree
import OsLabs.FtwWalk
import OsLabs.InfoFromFile
import OsLabs.KeyListing
import OsLabs.KeyLog
import OsLabs.LinkedChain
import OsLabs.LinkedStack
import OsLabs.ListingSteps
import OsLabs.LockedCopies
import OsLabs.MapsBlocks
import OsLabs.MapsBounds
import OsLabs.MapsDump
import OsLabs.MapsLine
import OsLabs.MapsSplits
import OsLabs.MapsTermination
import OsLabs.PagemapReads
import OsLabs.PagemapRows
import OsLabs.Printf
import OsLabs.ProcReport
import OsLabs.ProcessStat
import OsLabs.ResourceLedger
import OsLabs.ReusedBuffer
import OsLabs.RingWalk
import OsLabs.Runs
import OsLabs.SelectServer
import OsLabs.SeqfileCursor
import OsLabs.SeqfileShow
import OsLabs.SeqfileText
import OsLabs.ServerLines
import OsLabs.ServerLockstep
import OsLabs.ServerNumbers
import OsLabs.ServerPass
import OsLabs.ServerService
import OsLabs.ServerReady
import OsLabs.ServerTable
import OsLabs.ServerWords
import OsLabs.SharedPosition
import OsLabs.SharedStream
import OsLabs.SocketLives
import OsLabs.SocketMessages
import OsLabs.SocketServer
import OsLabs.SocketService
import OsLabs.TaskList
import OsLabs.TaskletKeys
import OsLabs.TaskletModule
import OsLabs.TaskletReads
import OsLabs.TextColumns
import OsLabs.TwoDescriptors
import OsLabs.TwoStreams
import OsLabs.TwoWriters
import OsLabs.WhileLoop
import OsLabs.WorkQueueKeys
import OsLabs.WorkQueueModule
