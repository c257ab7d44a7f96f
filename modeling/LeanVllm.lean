import LeanVllm.Collections.Dict
import LeanVllm.Collections.RefPool
import LeanVllm.Collections.Writes
import LeanVllm.Decoding.Greedy
import LeanVllm.Transition.Runs
import LeanVllm.Engine.Sequence
import LeanVllm.Engine.HashChain
import LeanVllm.Engine.BlockManager
import LeanVllm.Engine.BlockAccounting
import LeanVllm.Engine.Policy
import LeanVllm.KvTransfer.Base
import LeanVllm.Engine.Scheduler
import LeanVllm.Engine.SchedulerInvariant
import LeanVllm.Engine.Transitions
import LeanVllm.Engine.Operations
import LeanVllm.Engine.Moves
import LeanVllm.Engine.Scheduling
import LeanVllm.Engine.Launching
import LeanVllm.Engine.Reconciling
import LeanVllm.Engine.Reports
import LeanVllm.Engine.ModelRunner
import LeanVllm.Engine.LLMEngine
import LeanVllm.Engine.Flights
import LeanVllm.Engine.Stepping
import LeanVllm.Engine.EngineRuns
import LeanVllm.Engine.Between
import LeanVllm.Engine.Records
import LeanVllm.Engine.Queues
import LeanVllm.Engine.BlockConservation
import LeanVllm.Engine.WriteExclusivity
import LeanVllm.Engine.TokenCounts
import LeanVllm.Engine.Progress
import LeanVllm.Engine.Finalization
import LeanVllm.Engine.Streams
import LeanVllm.Engine.TokenStreams
import LeanVllm.Engine.CacheModel
import LeanVllm.Engine.CacheCoherence
import LeanVllm.Engine.CacheRuns
import LeanVllm.Engine.ArrivalOrder
import LeanVllm.Engine.Preemption
import LeanVllm.Engine.StepLimits
import LeanVllm.Collections.Rations
import LeanVllm.Engine.DecodeService
import LeanVllm.Engine.CapacityDrops
import LeanVllm.Engine.WholePrompts
import LeanVllm.Collections.Segments
import LeanVllm.Engine.BatchLayout
import LeanVllm.Engine.BatchRefinement
import LeanVllm.Engine.RowPairing
import LeanVllm.Engine.DraftLog
import LeanVllm.Engine.DraftTokens
import LeanVllm.Collections.Rounds
import LeanVllm.KvTransfer.Aggregator
import LeanVllm.Collections.Occurrences
import LeanVllm.Transition.Channel
import LeanVllm.Engine.OutputProcessor
import LeanVllm.KvTransfer.Aggregation
import LeanVllm.Engine.Allocation
import LeanVllm.Engine.HandOver
import LeanVllm.Engine.HeldTables
import LeanVllm.Entrypoints.StopChecker
import LeanVllm.Entrypoints.ApiServer
import LeanVllm.Engine.RankBatch
import LeanVllm.Engine.TensorParallel
import LeanVllm.Probability.Draws
import LeanVllm.Probability.Verification
import LeanVllm.Layers.Sampler
import LeanVllm.Layers.TopKTopP
import LeanVllm.SpecDecode.RejectionSampler
import LeanVllm.SpecDecode.Lossless
import LeanVllm.Engine.CoreClient
import LeanVllm.Engine.EngineCore
import LeanVllm.Engine.AsyncLLM
import LeanVllm.Engine.ServiceEffects
import LeanVllm.Engine.ServiceRuns
import LeanVllm.Engine.Delivery
import LeanVllm.Engine.ServiceSteps
import LeanVllm.Engine.StreamEnds
import LeanVllm.Engine.RequestIds
import LeanVllm.Engine.StreamOrder
import LeanVllm.Engine.Admissions
import LeanVllm.Engine.Shutdown
import LeanVllm.Engine.Orphans
import LeanVllm.Collections.Ranges
import LeanVllm.KvTransfer.Shares
import LeanVllm.KvTransfer.BlockDescs
import LeanVllm.KvTransfer.QueuedLoads
import LeanVllm.KvTransfer.ReadPlans
import LeanVllm.KvTransfer.NixlWorker
import LeanVllm.KvTransfer.NixlFleet
import LeanVllm.KvTransfer.NixlTurns
import LeanVllm.KvTransfer.NixlRuns
import LeanVllm.KvTransfer.Dues
import LeanVllm.KvTransfer.HeldBlocks
import LeanVllm.Transition.Accounts
import LeanVllm.KvTransfer.Releases
import LeanVllm.KvTransfer.LoadReports
import LeanVllm.KvTransfer.LoadedShares
import LeanVllm.KvTransfer.PassedOn
import LeanVllm.SpecDecode.RaggedRows
import LeanVllm.Engine.BatchStages
import LeanVllm.Engine.BatchSpec
import LeanVllm.Attention.Context
import LeanVllm.Engine.MoveBack
import LeanVllm.Engine.TokenIds
import LeanVllm.SpecDecode.MtpProposer
import LeanVllm.SpecDecode.DraftAlignment
import LeanVllm.Numeric.Softmax
import LeanVllm.Collections.Pages
import LeanVllm.Attention.Merge
import LeanVllm.Attention.TorchBackend
import LeanVllm.Models.DeepseekV2
import LeanVllm.Layers.LatentDecode
import LeanVllm.Layers.ContextChunks
import LeanVllm.Layers.ChunkCover
import LeanVllm.Layers.ChunkedPrefill
import LeanVllm.Attention.Forward
import LeanVllm.Attention.BatchForward
import LeanVllm.Engine.BatchSplit
import LeanVllm.Attention.FlashInfer
import LeanVllm.Kernels.Buffer
import LeanVllm.Kernels.TileOrder
import LeanVllm.Collections.KeyRuns
import LeanVllm.Collections.StableSort
import LeanVllm.Layers.AlignBlocks
import LeanVllm.Layers.AlignSpec
import LeanVllm.Layers.AlignReference
import LeanVllm.Layers.FusedMoe
import LeanVllm.Layers.BlockedProducts
import LeanVllm.Layers.Linear
import LeanVllm.Layers.Moe
import LeanVllm.Layers.FusedExperts
import LeanVllm.Layers.TorchExperts
import LeanVllm.Layers.ExpertParallel
import LeanVllm.Collections.TopPicks
import LeanVllm.Layers.SelectExperts
import LeanVllm.Layers.RoutingGroups
import LeanVllm.Layers.RoutingAgrees
import LeanVllm.Layers.RoutedRows
import LeanVllm.Models.Qwen3
import LeanVllm.Layers.ShardedLinear
import LeanVllm.Layers.ShardedHeads
import LeanVllm.Layers.ShardedExperts
import LeanVllm.Utils.Loader
import LeanVllm.Utils.LoaderBlocks
import LeanVllm.Utils.Completeness
