import Distllm.PlanSplit
import Distllm.StageLoading

/-! From a plan to the stages: where each row of a plan is loaded as a stage, the stages have the whole
model between them, and each layer once. -/

namespace Distllm.LayerPlan

open LayerNames Ranges StageLoading

variable {Kind : Type} {arch : Architecture Kind} {config : Config Kind} {args : Args} {rounds : ℕ}
  {stages : List Stage}

/-- `--layer-start` and `--layer-end` of a row's command -/
def Stage.range (stage : Stage) : ℕ × ℕ := (stage.first, stage.last)

/-- The tensors that the stages of a plan ask for, stage by stage. -/
def plannedSources (arch : Architecture Kind) (config : Config Kind) (stages : List Stage) : List Text :=
  (stages.map Stage.range).flatMap fun r => sources arch config r.1 r.2

/-- The layers of the stages, stage after stage: which layer of the model each stands for, and its type. -/
def stageLayers (config : Config Kind) (stages : List Stage) : List (ℕ × Option Kind) :=
  stages.flatMap fun stage =>
    let stageConfig := config.stageConfig stage.first stage.last
    (List.range stageConfig.numHiddenLayers).map fun j => (stage.first + j, stageConfig.layerType j)

/-- The rows of a plan, loaded as stages from a checkpoint that has the model's tensors, are the model. -/
structure Serves (arch : Architecture Kind) (config : Config Kind) (modules : Modules Kind)
    (checkpoint : Text → Bool) (stages : List Stage) : Prop where
  loads : ∀ stage ∈ stages, loadStage arch config modules checkpoint stage.first stage.last
    = .ok (config.stageConfig stage.first stage.last, wanted arch config stage.first stage.last)
  order : stageLayers config stages = (List.range config.numHiddenLayers).map fun i => (i, config.layerType i)
  first : ∀ (k : ℕ) (stage : Stage), stages[k]? = some stage → (isFirst stage.first ↔ k = 0)
  last : ∀ (k : ℕ) (stage : Stage), stages[k]? = some stage → (isLast config stage.last ↔ k + 1 = stages.length)
  once : ∀ name ∈ arch.stateDict config, (search name).isSome →
    (plannedSources arch config stages).count name = 1
  whole : ∀ name ∈ arch.stateDict config, name ∈ plannedSources arch config stages

end Distllm.LayerPlan
