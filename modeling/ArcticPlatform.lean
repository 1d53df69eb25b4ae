import ArcticPlatform.Chat.Logprobs
import ArcticPlatform.CombineReplay.OwnOutputs
import ArcticPlatform.Distillation.Targets
import ArcticPlatform.Engram.Hashing
import ArcticPlatform.Engram.ShardedLookup
import ArcticPlatform.ExpertParallel.Collectives
import ArcticPlatform.ExpertParallel.Rounds
import ArcticPlatform.ForestCascade.AttendsOnce
import ArcticPlatform.Grpo.M2poMask
import ArcticPlatform.HybridState.BlockZeroer
import ArcticPlatform.LmHeadMasks.Bitmasks
import ArcticPlatform.LmHeadMasks.LogitsToKeep
import ArcticPlatform.LmHeadMasks.PackRows
import ArcticPlatform.Metrics.ConcurrencyHistory
import ArcticPlatform.Metrics.SplitIndependence
import ArcticPlatform.ModelRunner.AsyncDrafts
import ArcticPlatform.ModelRunner.SuffixContext
import ArcticPlatform.NemotronH.BiasShift
import ArcticPlatform.Packing.Positions
import ArcticPlatform.Parallel.Groups
import ArcticPlatform.PinnedStaging.HardMaximum
import ArcticPlatform.PipelinePacking.Pipeline
import ArcticPlatform.PipelinePacking.Splitting
import ArcticPlatform.PrefixPool.FailedAllocations
import ArcticPlatform.RecomputeRouting.SameExperts
import ArcticPlatform.ReplicaPool.Lifecycle
import ArcticPlatform.ReplicaPool.NodeSlots
import ArcticPlatform.RouterReplay.Discards
import ArcticPlatform.RouterReplay.Lockstep
import ArcticPlatform.RouterReplay.RxCache
import ArcticPlatform.Scheduling.Counters
import ArcticPlatform.Scheduling.Stickiness
import ArcticPlatform.SemiPersistence.Acks
import ArcticPlatform.SemiPersistence.Demuxer
import ArcticPlatform.SemiPersistence.Generates
import ArcticPlatform.SemiPersistence.Ownership
import ArcticPlatform.SemiPersistence.Pipeline
import ArcticPlatform.Sharding.PackGroups
import ArcticPlatform.SpecDecode.Grammar
import ArcticPlatform.Streaming.Delivery
import ArcticPlatform.Streaming.TextStream
import ArcticPlatform.SuffixCache.CachedCounts
import ArcticPlatform.SwiftKV.Survivors
import ArcticPlatform.Tiling.FeedForward
import ArcticPlatform.Tiling.LogProbs
import ArcticPlatform.Training.Operations
import ArcticPlatform.Ulysses.CaptureSizes
import ArcticPlatform.Ulysses.Modes
import ArcticPlatform.Ulysses.ShiftLogits
import ArcticPlatform.WeightExport.ExpertLora
import ArcticPlatform.WeightLoading.DirectViews
import ArcticPlatform.WeightSync.Targets
import ArcticPlatform.WeightSync.Views
import ArcticPlatform.ZorroTrain.Extraction
import ArcticPlatform.ZorroTrain.MicroBatchLimits
import ArcticPlatform.ZorroTrain.SampleOrder
