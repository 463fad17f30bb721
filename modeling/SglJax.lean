import SglJax.Foundation.NodeTable
import SglJax.Foundation.PopOrder
import SglJax.MemCache.KeyedTree
import SglJax.MemCache.RadixCache
import SglJax.MemCache.PrefixMap
import SglJax.MemCache.RadixWalk
import SglJax.MemCache.RadixRefinement
import SglJax.MemCache.Allocator
import SglJax.MemCache.AllocatorSpec
import SglJax.MemCache.SwaAllocator
import SglJax.MemCache.SwaRollback
import SglJax.MemCache.KvAllocator
import SglJax.Managers.LogprobSlices
import SglJax.Managers.ChunkedPrefill
import SglJax.Managers.ChunkCounter
import SglJax.Managers.ChunkRounds
import SglJax.MemCache.PageLayout
import SglJax.Foundation.NodeAccounts
import SglJax.MemCache.RadixCustody
import SglJax.MemCache.KvRequests
import SglJax.MemCache.KvConservation
import SglJax.MemCache.KvPartition
import SglJax.Managers.GrammarQueue
import SglJax.Foundation.Columns
import SglJax.Managers.ScheduleBatch
import SglJax.Managers.BatchRows
import SglJax.Managers.DecodeCaches
import SglJax.MemCache.TenantIsolation
import SglJax.Managers.DecodeSafety
import SglJax.Managers.PrefillAdder
import SglJax.Managers.RejectedAdmission
import SglJax.MemCache.RadixBudget
import SglJax.Managers.PrefillMemory
import SglJax.Managers.PrefillSafety
import SglJax.Managers.PrefillServed
import SglJax.Managers.PrefillCaches
import SglJax.Disaggregation.DrainLosses
import SglJax.Disaggregation.HostAgreement
import SglJax.MemCache.DeepseekAllocator
import SglJax.MemCache.DeepseekLedger
import SglJax.MemCache.DeepseekPlan
import SglJax.MemCache.DeepseekRelease
import SglJax.MemCache.DeepseekRuns
import SglJax.MemCache.HostKvPool
import SglJax.MemCache.HostStaleness
import SglJax.Disaggregation.PullAckSafety
import SglJax.Disaggregation.PullAckProtocol
import SglJax.Managers.HostSlotSafety
import SglJax.Managers.HostSlotRounds
import SglJax.Managers.HostSlotRuns
import SglJax.Disaggregation.DecodePages
import SglJax.Disaggregation.DecodePagesSafety
import SglJax.Disaggregation.DecodePagesRuns
import SglJax.Disaggregation.TransferRegistry
import SglJax.Disaggregation.RegistryRuns
import SglJax.Foundation.LimitedDict
import SglJax.Managers.Detokenizer
import SglJax.Managers.DetokenizerRuns
import SglJax.Managers.DetokenizerFlags
import SglJax.Foundation.Utf8
import SglJax.Managers.StreamOutput
import SglJax.Managers.StreamDelivery
import SglJax.Foundation.TopK
import SglJax.Speculative.DraftLists
import SglJax.Speculative.DraftClosure
import SglJax.Foundation.ParentTree
import SglJax.Speculative.EagleTree
import SglJax.Speculative.EagleTreeLinks
import SglJax.Speculative.EagleTreeMask
import SglJax.Speculative.EagleTreeSpec
import SglJax.Speculative.VerifyTree
import SglJax.Speculative.VerifyGreedy
import SglJax.Speculative.VerifyRound
import SglJax.Foundation.TextSearch
import SglJax.Parsing.ReasoningParser
import SglJax.Parsing.ReasoningSplit
import SglJax.Disaggregation.PathwaysMigration
import SglJax.Disaggregation.PathwaysRoom
import SglJax.Foundation.Json
import SglJax.Foundation.TextMatch
import SglJax.FunctionCall.ToolCalls
import SglJax.FunctionCall.MiMoDetector
import SglJax.FunctionCall.SchemaTypes
import SglJax.FunctionCall.GlmArguments
import SglJax.FunctionCall.Glm47MoeDetector
import SglJax.FunctionCall.Glm4MoeDetector
import SglJax.FunctionCall.StreamCuts
import SglJax.FunctionCall.ToolCallCuts
import SglJax.Foundation.AxisArrays
import SglJax.Foundation.Replicas
import SglJax.Eplb.Deepseek
import SglJax.Eplb.BalancedPacking
import SglJax.Eplb.ExpertReplicas
import SglJax.Eplb.ExpertLocation
import SglJax.Eplb.ExpertPlacement
import SglJax.Eplb.ExpertDispatch
import SglJax.Managers.FutureTokenWrites
import SglJax.Managers.FutureTokenBatches
import SglJax.Managers.FutureTokenRuns
import SglJax.Managers.SpecReservation
import SglJax.Managers.SpecReservationSafety
import SglJax.Managers.SpecReservationCover
import SglJax.Sampling.Penalties
import SglJax.Sampling.PenaltyRuns
import SglJax.Sampling.PenaltyHistory
import SglJax.MemCache.EagleRelease
import SglJax.MemCache.UnifiedInsert
import SglJax.MemCache.UnifiedRelease
import SglJax.MemCache.EagleSlots
import SglJax.Managers.CacheLoc
import SglJax.Managers.FinishCheck
import SglJax.Managers.SwaPeak
import SglJax.Foundation.SharedBudget
import SglJax.Managers.IgnoreEosAdmission
import SglJax.Managers.ExtendLengths
import SglJax.Foundation.ResidualSampling
import SglJax.Speculative.TreeSampling
import SglJax.Speculative.TreeSamplingArea
import SglJax.Foundation.PoolLedger
import SglJax.MemCache.HcaAllocator
import SglJax.MemCache.PageTier
import SglJax.MemCache.HcaOwnership
import SglJax.MemCache.HcaRollback
import SglJax.MemCache.HcaGrowth
import SglJax.MemCache.HcaRuns
import SglJax.MemCache.HcaTables
import SglJax.Entrypoints.ChatLogprobs
import SglJax.Foundation.Interrupted
import SglJax.Lora.LoraWeights
import SglJax.Lora.LoraMemoryPool
import SglJax.Lora.LoraManager
import SglJax.Speculative.ChainInputs
import SglJax.Speculative.ChainVerify
import SglJax.Foundation.Utf8Stream
import SglJax.Managers.StreamText
import SglJax.FunctionCall.Qwen3CoderDetector
import SglJax.Entrypoints.ToolCallStream
import SglJax.Foundation.Binary32
import SglJax.Layers.BinarySearch
import SglJax.Layers.LogitMasks
import SglJax.Layers.Sampler
import SglJax.Foundation.GroupedRows
import SglJax.Foundation.Segments
import SglJax.Foundation.TriangularSolve
import SglJax.Layers.Moe
import SglJax.Layers.MoeShards
import SglJax.Layers.MoeDense
import SglJax.Managers.DpIntake
import SglJax.Managers.DpLoad
import SglJax.Foundation.KeyedList
import SglJax.Foundation.ListScheduling
import SglJax.Foundation.SliceWrites
import SglJax.Multimodal.BatchMerge
import SglJax.Multimodal.LanePacking
import SglJax.Multimodal.PrefillEmbeddings
import SglJax.Multimodal.PrefillRuns
import SglJax.Layers.GatedDeltaRuns
import SglJax.Layers.CausalConv
