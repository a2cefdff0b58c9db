import Deai.PendingWork
import Deai.TrialDeletion
import Deai.Release
import Deai.Collector
import Deai.CollectorMark
import Deai.CollectorScan
import Deai.CollectorFinalize
import Deai.GarbageCollection
import Deai.Mutator
import Deai.EventPromise
import Deai.PromiseSteps
import Deai.PromiseRuns
import Deai.PromiseQueue
import Deai.PromiseCalls
import Deai.PromiseHandlers
import Deai.PromiseChain
import Deai.PromiseTurns
import Deai.DerivedPromise
import Deai.AnyPromise
import Deai.JoinPromises
import Deai.Signal
import Deai.SignalRuns
import Deai.SignalCounts
import Deai.SignalEmission
import Deai.ListenHandles
import Deai.EventSources
import Deai.Timers
import Deai.IoEvents
import Deai.Watchers
import Deai.AfterExit
import Deai.Callbacks
import Deai.Destruction
import Deai.DestructionAccounts
import Deai.ThirdPass
import Deai.WeakReferences
import Deai.Numbers
import Deai.Conversion
import Deai.OwnedConversion
import Deai.DbusMessage
import Deai.DbusDecoding
import Deai.DbusFilter
import Deai.DbusEncoding
import Deai.DbusRoundTrip
import Deai.SplicedForest
import Deai.SplicedSubtree
import Deai.Descendants
import Deai.OnceListeners
import Deai.LuaProxies
import Deai.ProxyTracking
import Deai.DbusSignals
import Deai.DbusOwners
import Deai.OwnerDirectories
import Deai.DesyncedOwners
import Deai.OwnerQueries
import Deai.OwnerHistory
import Deai.OwnerOrder
import Deai.DifferenceSystem
import Deai.CountedLoop
import Deai.DifferenceConstraints
import Deai.Relaxation
import Deai.ConstraintSolving
import Deai.BipartiteMatch
import Deai.MatchingSearch
import Deai.BipartiteMatching
import Deai.OutputModes
import Deai.ConfigureOutputs
import Deai.OutputPlans
import Deai.ConstraintCalls
import Deai.OutputWrites
import Deai.OutputConstraints
import Deai.OutputLayout
import Deai.DbusGrammar
import Deai.DbusAcceptance
import Deai.FilledBuffer
import Deai.SignatureBuffers
import Deai.SignatureReading
import Deai.SignatureWriting
import Deai.SignatureFitting
import Deai.DbusAppending
import Deai.DbusArity
import Deai.DbusInference
import Deai.StringBuffer
import Deai.Lines
import Deai.ChildOutput
import Deai.ChildExit
import Deai.LuaEnumeration
import Deai.MemberEnumeration
import Deai.AccountedRun
import Deai.MemberHandlers
import Deai.MethodCalls
import Deai.ListenFailures
import Deai.OrderedTable
import Deai.AnonymousRoots
import Deai.Finalization
import Deai.MemberReplacement
import Deai.ReplacementRuns
import Deai.SharedLists
import Deai.Modifiers
import Deai.RegistrySlots
import Deai.TwinTables
import Deai.FileWatch
import Deai.FileEvents
import Deai.AtomCache
import Deai.KeyBindings
import Deai.InputProperties
import Deai.LuaStack
import Deai.LuaConversion
import Deai.LuaWalk
import Deai.LuaReading
import Deai.LuaTermination
import Deai.LuaArrays
import Deai.LuaPushing
import Deai.LuaBalance
import Deai.LuaRoundTrip
import Deai.AtomTables
import Deai.CommandLine
import Deai.SystemStrings
import Deai.CountedReferences
import Deai.CopiedStorage
import Deai.SearchRoots
import Deai.ObjectConstruction
import Deai.IsolatedRoots
import Deai.LinkedNodes
import Deai.CircularNodes
import Deai.UtHash
import Deai.UtHashChains
import Deai.UtHashExpand
import Deai.UtHashTable
import Deai.UtHashDelete
import Deai.UtHashWalks
import Deai.UtHashRuns
import Deai.MemberTable
import Deai.ListHead
import Deai.ObjectLists
import Deai.ObjectListRuns
import Deai.Descriptors
import Deai.SpawnDescriptors
import Deai.SpawnStart
import Deai.SpawnRuns
import Deai.Closures
import Deai.RequestTokens
import Deai.DbusReplies
