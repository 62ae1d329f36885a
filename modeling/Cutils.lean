import Cutils.Lib.Reach
import Cutils.Lib.Cyclic
import Cutils.Lib.Fifo
import Cutils.Proof.RingFifo
import Cutils.Spec.RingRace
import Cutils.Proof.RingRace
import Cutils.Lib.Count
import Cutils.Proof.DispatchRun
import Cutils.Proof.DispatchShutdown
import Cutils.Proof.PoolOwnership
import Cutils.Proof.PoolDestructor
import Cutils.Proof.TsQueueFifo
import Cutils.Proof.TsQueueMutex
import Cutils.Proof.TsQueueWakeup
import Cutils.Proof.StateMachineStop
import Cutils.Proof.StateMachineTrace
import Cutils.Lib.Links
import Cutils.Spec.KList
import Cutils.Proof.KListLinks
import Cutils.Proof.NotifierLists
import Cutils.Spec.Asyncio
import Cutils.Spec.AsyncioCycle
import Cutils.Proof.AsyncioView
import Cutils.Proof.AsyncioCycle
import Cutils.Lib.Fair
import Cutils.Proof.AsyncioWait
import Cutils.Proof.AsyncioLifecycle
import Cutils.Proof.AsyncioReader
import Cutils.Spec.AsyncioTransmit
import Cutils.Proof.AsyncioTransmitView
import Cutils.Proof.AsyncioTokens
import Cutils.Proof.AsyncioReceive
import Cutils.Proof.AsyncioTransmit
import Cutils.Spec.EventLoop
import Cutils.Proof.EventLoopServe
import Cutils.Proof.EventLoopRun
import Cutils.Proof.EventLoopOrder
import Cutils.Proof.AccumulatorWindow
import Cutils.Proof.LogBufferContents
import Cutils.Spec.KQueue
import Cutils.Proof.KQueueFifo
import Cutils.Spec.FreeList
import Cutils.Proof.FreeListOwnership
import Cutils.Proof.EventFlagPorts
import Cutils.Lib.Live
import Cutils.Spec.Resources
import Cutils.Proof.ResourceBalance
import Cutils.Proof.RingRange
import Cutils.Proof.RingCreate
import Cutils.Proof.AccumulatorAdvance
import Cutils.Proof.AccumulatorIterators
import Cutils.Proof.TsQueueCounters
import Cutils.Proof.TsQueueTimeout
import Cutils.Proof.EventFlagWaits
import Cutils.Proof.DispatchDepth
import Cutils.Proof.EventLoopClosing
import Cutils.Lib.SearchTree
import Cutils.Spec.Bst
import Cutils.Proof.BstOrder
import Cutils.Proof.KQueueStale
import Cutils.Proof.KQueueDrop
import Cutils.Proof.VariadicCalls
import Cutils.Proof.FreeListFrame
import Cutils.Spec.TsLogBuffer
import Cutils.Proof.LogBufferLevels
import Cutils.Lib.CString
import Cutils.Proof.AsyncioNames
import Cutils.Proof.LogLines
import Cutils.Proof.AsyncioSend
import Cutils.Proof.LogBufferChunks
import Cutils.Lib.Bytes
import Cutils.Proof.ByteSwap
import Cutils.Lib.Layout
import Cutils.Spec.PoolMemory
import Cutils.Proof.PoolGuardWords
import Cutils.Proof.PoolMemory
import Cutils.Lib.Simulation
import Cutils.Lib.History
import Cutils.Spec.TsQueueSteps
import Cutils.Proof.TsQueueAtomic
import Cutils.Proof.TsQueueNoSleep
import Cutils.Proof.TsQueueLinear
import Cutils.Spec.DispatchAssembly
import Cutils.Proof.DispatchAssembly
import Cutils.Spec.NotifierThreads
import Cutils.Proof.NotifierThreads
import Cutils.Proof.DispatchLive
import Cutils.Proof.EventFlagLinear
import Cutils.Proof.EventLoopLive
import Cutils.Lib.Monitor
import Cutils.Spec.TsLogBufferThreads
import Cutils.Proof.LogBufferThreads
import Cutils.Spec.TaskNames
import Cutils.Proof.TaskNames
import Cutils.Proof.EventFlagLive
import Cutils.Proof.TsQueueLive
