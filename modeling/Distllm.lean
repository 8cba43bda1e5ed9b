import Distllm.Table
import Distllm.Recency
import Distllm.Run
import Distllm.Notify
import Distllm.Stages
import Distllm.RelayState
import Distllm.RelaySpec
import Distllm.RelayRun
import Distllm.RelayQueues
import Distllm.RelayLedger
import Distllm.RelayChains
import Distllm.RelayRefinement
import Distllm.RelayRetention
import Distllm.RelayPolls
import Distllm.RelayBindings
import Distllm.RelayViews
import Distllm.RelaySignals
import Distllm.RelayWaits
import Distllm.RelayAges
import Distllm.RelayRoles
import Distllm.RelayAffinity
import Distllm.RelaySessions
import Distllm.RelayRestart
import Distllm.RouteText
import Distllm.PyRelayState
import Distllm.PyRelayFailures
import Distllm.StageState
import Distllm.StageSpec
import Distllm.StageFaults
import Distllm.StageBatch
import Distllm.StageRecency
import Distllm.StagePadding
import Distllm.StageRequests
import Distllm.StageSelection
import Distllm.StageStacking
import Distllm.StageEntries
import Distllm.StageConfined
import Distllm.Script
import Distllm.Causal
import Distllm.Decoding
import Distllm.StageCausal
import Distllm.PipelineState
import Distllm.PipelineSpec
import Distllm.PipelineExact
import Distllm.PipelineProgress
import Distllm.AuditState
import Distllm.AuditSpec
import Distllm.AuditExact
import Distllm.SpeculativeState
import Distllm.SpeculativeExact
import Distllm.ClusterState
import Distllm.ClusterSealed
import Distllm.SpeculativeLoop
import Distllm.Url
import Distllm.TokenState
import Distllm.AuthState
import Distllm.AuthGuard
import Distllm.PayloadState
import Distllm.WorkerState
import Distllm.RouteCalls
import Distllm.SealedCalls
import Distllm.RelayCalls
import Distllm.ClientCalls
import Distllm.NetworkState
import Distllm.NetworkSpec
import Distllm.NetworkCalls
import Distllm.NetworkRetries
import Distllm.ClusterWire
import Distllm.StageLayers
import Distllm.ServingState
import Distllm.ServingStage
import Distllm.ServingBatch
import Distllm.ServingWire
import Distllm.ServingSpec
import Distllm.ServingClient
import Distllm.ServingExact
import Distllm.RelayAgree
import Distllm.PyRelayMirror
import Distllm.PyRelayPolls
import Distllm.RelayLockstep
import Distllm.PyRelayAnswers
import Distllm.RelayWakeups
import Distllm.PollWait
import Distllm.StopChecks
import Distllm.RelayLosses
import Distllm.Line
import Distllm.RelayOrder
import Distllm.RelayLeases
import Distllm.WorkerReports
import Distllm.DraftHistory
import Distllm.Tree
import Distllm.TensorState
import Distllm.ShortForms
import Distllm.TensorTrip
import Distllm.Watch
import Distllm.RustTokens
import Distllm.TokenFiles
import Distllm.Splits
import Distllm.TokenSettings
import Distllm.Ranking
import Distllm.Sampling
import Distllm.Ranges
import Distllm.LayerNames
import Distllm.StageLoading
import Distllm.While
import Distllm.Apportion
import Distllm.PlanState
import Distllm.PlanSplit
import Distllm.PlannedStages
