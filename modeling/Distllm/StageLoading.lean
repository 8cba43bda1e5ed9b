import Distllm.LayerNames
import Distllm.Ranges
import Mathlib.Data.List.Infix
import Mathlib.Data.List.Nodup

/-! Loading a stage: which tensors of the checkpoint `load_stage` reads for the layers from
`layer_start` to `layer_end`, and under which names the model built for the stage takes them. Over the
ranges of a split every layer is read once, by the stage that holds it; the embeddings go to the first
stage, the norm and the head to the last, and tied embeddings to both. -/

namespace Distllm.StageLoading

open LayerNames Ranges

/-! ### Configs and the models built from them -/

/-- What a stage's config differs in, and what decides where its tensors go. -/
structure Config (Kind : Type) where
  numHiddenLayers : ℕ
  layerTypes : Option (List Kind)
  tieWordEmbeddings : Bool

variable {Kind : Type}

namespace Config

/-- `layer_types[i]`, if the config has types -/
def layerType (config : Config Kind) (i : ℕ) : Option Kind := config.layerTypes.bind (·[i]?)

/-- `_stage_config` -/
def stageConfig (config : Config Kind) (layerStart layerEnd : ℕ) : Config Kind :=
  { config with
    numHiddenLayers := layerEnd - layerStart + 1
    layerTypes := config.layerTypes.map fun kinds =>
      -- An empty list counts as none and is kept.
      if kinds.isEmpty then kinds else (kinds.take (layerEnd + 1)).drop layerStart }

/-- A layer of the stage has the type of the layer that it stands for. -/
theorem layerType_stageConfig (config : Config Kind) {layerStart layerEnd j : ℕ} (hle : layerStart ≤ layerEnd)
    (hj : j < (config.stageConfig layerStart layerEnd).numHiddenLayers) :
    (config.stageConfig layerStart layerEnd).layerType j = config.layerType (layerStart + j) := by
  have hlayers : j < layerEnd - layerStart + 1 := hj
  cases hkinds : config.layerTypes with
  | none => simp [layerType, stageConfig, hkinds]
  | some kinds =>
      simp only [layerType, stageConfig, hkinds, Option.map_some, Option.bind_some]
      split
      · rename_i hempty
        rw [List.isEmpty_iff.mp hempty, List.getElem?_nil, List.getElem?_nil]
      · rw [List.getElem?_drop, List.getElem?_take_of_lt (by omega)]

end Config

/-- The tensors of the models that `AutoModelForCausalLM.from_config` builds from the configs of an
architecture: in each layer those of its type, and others that belong to no layer. -/
structure Architecture (Kind : Type) where
  stateDict : Config Kind → List Text
  tensors : Bool → Option Kind → List LayerTensor
  others : Bool → List Text
  nodup : ∀ config, (stateDict config).Nodup
  unmatched : ∀ tied, ∀ name ∈ others tied, search name = none
  mem_stateDict : ∀ config name, name ∈ stateDict config ↔
    (∃ i < config.numHiddenLayers, ∃ tensor ∈ tensors config.tieWordEmbeddings (config.layerType i),
      tensor.name i = name) ∨ name ∈ others config.tieWordEmbeddings

variable (arch : Architecture Kind) (config : Config Kind)

namespace Architecture

variable {arch config}

theorem layer_mem_iff {tensor : LayerTensor} {i : ℕ} :
    tensor.name i ∈ arch.stateDict config ↔
      i < config.numHiddenLayers ∧ tensor ∈ arch.tensors config.tieWordEmbeddings (config.layerType i) := by
  rw [arch.mem_stateDict]
  constructor
  · rintro (⟨j, hj, tensor', htensor, hname⟩ | hother)
    · obtain ⟨rfl, rfl⟩ := LayerTensor.name_inj hname
      exact ⟨hj, htensor⟩
    · have hnone := arch.unmatched _ _ hother
      rw [tensor.search_name] at hnone
      cases hnone
  · rintro ⟨hi, htensor⟩
    exact .inl ⟨i, hi, tensor, htensor, rfl⟩

theorem other_mem_iff {name : Text} (h : search name = none) :
    name ∈ arch.stateDict config ↔ name ∈ arch.others config.tieWordEmbeddings := by
  rw [arch.mem_stateDict, or_iff_right]
  rintro ⟨i, -, tensor, -, rfl⟩
  rw [tensor.search_name] at h
  cases h

/-- A name of the model is that of a tensor in a layer, or no layer is found in it. -/
theorem layer_or_other {name : Text} (h : name ∈ arch.stateDict config) :
    (∃ (tensor : LayerTensor) (i : ℕ), name = tensor.name i) ∨ search name = none := by
  rcases (arch.mem_stateDict config name).mp h with ⟨i, -, tensor, -, rfl⟩ | hother
  · exact .inl ⟨tensor, i, rfl⟩
  · exact .inr (arch.unmatched _ name hother)

/-- The builder that lists the tensors of a table: first those of no layer, then layer by layer. -/
def ofTable (tensors : Bool → Option Kind → List LayerTensor) (others : Bool → List Text)
    (htensors : ∀ tied kind, (tensors tied kind).Nodup) (hothers : ∀ tied, (others tied).Nodup)
    (hunmatched : ∀ tied, ∀ name ∈ others tied, search name = none) : Architecture Kind where
  stateDict config := others config.tieWordEmbeddings ++ (List.range config.numHiddenLayers).flatMap fun i =>
    (tensors config.tieWordEmbeddings (config.layerType i)).map (·.name i)
  tensors := tensors
  others := others
  unmatched := hunmatched
  mem_stateDict config name := by
    simp only [List.mem_append, List.mem_flatMap, List.mem_range, List.mem_map]
    exact or_comm
  nodup config := by
    have hmixed : ∀ name ∈ others config.tieWordEmbeddings, ∀ (tensor : LayerTensor) (i : ℕ), tensor.name i ≠ name := by
      rintro _ hother tensor i rfl
      have hnone := hunmatched _ _ hother
      rw [tensor.search_name] at hnone
      cases hnone
    rw [List.nodup_append]
    refine ⟨hothers _, List.nodup_flatMap.mpr ⟨fun i _ => ?_, ?_⟩, fun name hother name' hlayer => ?_⟩
    · exact (htensors _ _).map fun _ _ hname => (LayerTensor.name_inj hname).1
    · refine List.nodup_range.imp fun {i j} hne name hi hj => hne ?_
      obtain ⟨tensor, -, rfl⟩ := List.mem_map.mp hi
      obtain ⟨tensor', -, hname⟩ := List.mem_map.mp hj
      exact (LayerTensor.name_inj hname).2.symm
    · obtain ⟨i, -, hi⟩ := List.mem_flatMap.mp hlayer
      obtain ⟨tensor, -, rfl⟩ := List.mem_map.mp hi
      exact (hmixed name hother tensor i).symm

end Architecture

/-! ### `load_stage` -/

/-- `"embed_tokens" in name` -/
def isEmbedding (name : Text) : Bool := decide ("embed_tokens".toList <:+: name)

def isFirst (layerStart : ℕ) : Bool := layerStart == 0

def isLast (layerEnd : ℕ) : Bool := layerEnd + 1 == config.numHiddenLayers

/-- The name in the checkpoint of a tensor that the stage takes. -/
def wantedName (layerStart layerEnd : ℕ) (name : Text) : Option Text :=
  match search name with
  | some found => some (found.shifted layerStart)
  | none =>
      if isEmbedding name then
        if isFirst layerStart || (isLast config layerEnd && config.tieWordEmbeddings) then some name else none
      -- final norm, lm_head
      else if isLast config layerEnd then some name else none

/-- The names of the stage with their names in the checkpoint. -/
def wanted (layerStart layerEnd : ℕ) : List (Text × Text) :=
  (arch.stateDict (config.stageConfig layerStart layerEnd)).filterMap fun name =>
    (wantedName config layerStart layerEnd name).map (name, ·)

def lmHead : Text := "lm_head.weight".toList

/-- The head shares the embeddings that the stage reads; `checkpoint` says which tensors there are. -/
def lmHeadFromEmbed (checkpoint : Text → Bool) (layerStart layerEnd : ℕ) : Bool :=
  isLast config layerEnd && config.tieWordEmbeddings
    && (wanted arch config layerStart layerEnd).any fun p => p.1 == lmHead && !checkpoint p.2

/-- The order in which Python sorts texts. -/
def upTo (a b : Text) : Bool := !b.lex a fun c d => c.toNat < d.toNat

def missing (checkpoint : Text → Bool) (layerStart layerEnd : ℕ) : List Text :=
  (((wanted arch config layerStart layerEnd).filter fun p =>
    !checkpoint p.2 && !(p.1 == lmHead && lmHeadFromEmbed arch config checkpoint layerStart layerEnd)).map
      Prod.fst).mergeSort upTo

/-- What is not in the state dicts of the models of an architecture: the name of the base, and the
buffers that are not saved, apart from those of the base's `rotary_emb`. -/
structure Modules (Kind : Type) where
  base : Text
  buffers : Config Kind → List Text

namespace Modules

/-- The name of a tensor in a module of the base. -/
def within (modules : Modules Kind) (module name : String) : Text :=
  modules.base ++ module.toList ++ name.toList

/-- What is set anew in any stage, and what is taken out of one that is not the first or the last. -/
def replaced (modules : Modules Kind) (first last : Bool) (name : Text) : Bool :=
  (modules.within ".rotary_emb." "").isPrefixOf name ||
    (!first && (modules.within ".embed_tokens." "").isPrefixOf name) ||
    (!last && ((modules.within ".norm." "").isPrefixOf name || "lm_head.".toList.isPrefixOf name))

end Modules

/-- Whether the last stage has a head: one that was read, or one that shares the embeddings. A model
without a head or without embeddings raises there as well. -/
def headFound (modules : Modules Kind) (checkpoint : Text → Bool) (layerStart layerEnd : ℕ) : Bool :=
  let names := (wanted arch config layerStart layerEnd).map Prod.fst
  !isLast config layerEnd || (names.contains lmHead &&
    (!lmHeadFromEmbed arch config checkpoint layerStart layerEnd ||
      names.contains (modules.within ".embed_tokens." "weight")))

/-- The tensors that have no values when all is read. -/
def leftover (modules : Modules Kind) (layerStart layerEnd : ℕ) : List Text :=
  let stageConfig := config.stageConfig layerStart layerEnd
  (arch.stateDict stageConfig ++ modules.buffers stageConfig).filter fun name =>
    !((wanted arch config layerStart layerEnd).map Prod.fst).contains name &&
      !modules.replaced (isFirst layerStart) (isLast config layerEnd) name

inductive LoadError where
  | invalidRange (layerStart layerEnd : ℤ) (layers : ℕ)
  | noTensors (missing : List Text)
  | noHead
  | uninitialized (leftover : List Text)
  deriving DecidableEq

/-- `repr` of a list of names without quotes, backslashes and unprintable characters -/
def listed (names : List Text) : String :=
  "[" ++ ", ".intercalate (names.map fun name => "'" ++ String.ofList name ++ "'") ++ "]"

/-- The text of the `ValueError`. -/
def LoadError.text (modelId : String) : LoadError → String
  | .invalidRange layerStart layerEnd layers =>
      s!"Invalid layer range [{layerStart}, {layerEnd}] for a model with {layers} layers"
  | .noTensors missing =>
      s!"Checkpoint of {modelId} has no tensors {listed (missing.take 4)}... " ++
        "Only decoder-only *ForCausalLM checkpoints whose tensor names match the " ++
        "model's parameter names are supported (multimodal checkpoints are not)."
  | .noHead => "lm_head weight not found in checkpoint"
  | .uninitialized leftover =>
      s!"Unsupported architecture: tensors left uninitialized: {listed (leftover.take 4)}"

/-- The config of the stage, and which tensors it takes from the checkpoint. -/
def loadStage (modules : Modules Kind) (checkpoint : Text → Bool) (layerStart layerEnd : ℤ) :
    Except LoadError (Config Kind × List (Text × Text)) :=
  if 0 ≤ layerStart ∧ layerStart ≤ layerEnd ∧ layerEnd < config.numHiddenLayers then
    let first := layerStart.toNat
    let last := layerEnd.toNat
    match missing arch config checkpoint first last with
    | name :: names => .error (.noTensors (name :: names))
    | [] =>
      if headFound arch config modules checkpoint first last then
        match leftover arch config modules first last with
        | name :: names => .error (.uninitialized (name :: names))
        | [] => .ok (config.stageConfig first last, wanted arch config first last)
      else .error .noHead
  else .error (.invalidRange layerStart layerEnd config.numHiddenLayers)

/-! ### What a stage reads -/

/-- Whether a stage reads a tensor that belongs to no layer. -/
def owns (layerStart layerEnd : ℕ) (name : Text) : Bool :=
  if isEmbedding name then isFirst layerStart || (isLast config layerEnd && config.tieWordEmbeddings)
  else isLast config layerEnd

/-- The names in the checkpoint that a stage asks for, `wanted.values()`. -/
def sources (layerStart layerEnd : ℕ) : List Text := (wanted arch config layerStart layerEnd).map Prod.snd

section Stage

variable {arch config} {layerStart layerEnd : ℕ}

theorem mem_wanted {name source : Text} :
    (name, source) ∈ wanted arch config layerStart layerEnd ↔
      name ∈ arch.stateDict (config.stageConfig layerStart layerEnd) ∧
        wantedName config layerStart layerEnd name = some source := by
  simp only [wanted, List.mem_filterMap, Option.map_eq_some_iff, Prod.mk.injEq]
  constructor
  · rintro ⟨_, hmem, _, hsource, rfl, rfl⟩
    exact ⟨hmem, hsource⟩
  · rintro ⟨hmem, hsource⟩
    exact ⟨name, hmem, source, hsource, rfl, rfl⟩

theorem mem_sources {source : Text} :
    source ∈ sources arch config layerStart layerEnd ↔
      ∃ name ∈ arch.stateDict (config.stageConfig layerStart layerEnd),
        wantedName config layerStart layerEnd name = some source := by
  rw [sources, List.mem_map]
  constructor
  · rintro ⟨⟨name, _⟩, hmem, rfl⟩
    exact ⟨name, mem_wanted.mp hmem⟩
  · rintro ⟨name, hname⟩
    exact ⟨(name, source), mem_wanted.mpr hname, rfl⟩

/-- A layer of the stage is read from the layer that stands as far behind the first. -/
theorem wantedName_layer (tensor : LayerTensor) (j : ℕ) :
    wantedName config layerStart layerEnd (tensor.name j) = some (tensor.name (layerStart + j)) := by
  rw [wantedName, tensor.search_name]
  exact congrArg some (tensor.shifted_name j layerStart)

theorem wantedName_other {name source : Text} (h : search name = none) :
    wantedName config layerStart layerEnd name = some source ↔
      source = name ∧ owns config layerStart layerEnd name := by
  rw [wantedName, h, owns]
  dsimp only
  split
  · rw [Option.ite_none_right_eq_some, Option.some.injEq, and_comm, eq_comm (a := name)]
  · rw [Option.ite_none_right_eq_some, Option.some.injEq, and_comm, eq_comm (a := name)]

/-- Two tensors of a stage are not read from one. -/
theorem wantedName_inj {name name' source : Text}
    (hname : name ∈ arch.stateDict (config.stageConfig layerStart layerEnd))
    (hname' : name' ∈ arch.stateDict (config.stageConfig layerStart layerEnd))
    (h : wantedName config layerStart layerEnd name = some source)
    (h' : wantedName config layerStart layerEnd name' = some source) : name = name' := by
  -- A layer's tensor is read from a layer, any other tensor from where no layer is found.
  have hmixed : ∀ (tensor : LayerTensor) (j : ℕ) {other : Text}, search other = none →
      wantedName config layerStart layerEnd (tensor.name j) = some source →
      wantedName config layerStart layerEnd other = some source → False := by
    intro tensor j other hother hlayer hplain
    rw [wantedName_layer, Option.some.injEq] at hlayer
    obtain ⟨rfl, -⟩ := (wantedName_other hother).mp hplain
    rw [← hlayer, tensor.search_name] at hother
    cases hother
  rcases Architecture.layer_or_other hname with ⟨tensor, j, rfl⟩ | hother
  · rcases Architecture.layer_or_other hname' with ⟨tensor', j', rfl⟩ | hother'
    · rw [wantedName_layer, Option.some.injEq] at h h'
      obtain ⟨rfl, hindex⟩ := LayerTensor.name_inj (h.trans h'.symm)
      rw [Nat.add_left_cancel hindex]
    · exact (hmixed tensor j hother' h h').elim
  · rcases Architecture.layer_or_other hname' with ⟨tensor', j', rfl⟩ | hother'
    · exact (hmixed tensor' j' hother h' h).elim
    · exact ((wantedName_other hother).mp h).1.symm.trans ((wantedName_other hother').mp h').1

theorem nodup_sources : (sources arch config layerStart layerEnd).Nodup := by
  have hpairs : (wanted arch config layerStart layerEnd).Nodup := by
    refine List.Nodup.filterMap (fun name name' p hp hp' => ?_) (arch.nodup _)
    obtain ⟨_, -, rfl⟩ := Option.map_eq_some_iff.mp hp
    obtain ⟨_, -, heq⟩ := Option.map_eq_some_iff.mp hp'
    exact (Prod.mk.inj heq).1.symm
  refine List.Nodup.map_on (fun p hp q hq hsource => ?_) hpairs
  obtain ⟨name, source⟩ := p
  obtain ⟨name', source'⟩ := q
  obtain rfl : source = source' := hsource
  obtain ⟨hname, hwanted⟩ := mem_wanted.mp hp
  obtain ⟨hname', hwanted'⟩ := mem_wanted.mp hq
  rw [wantedName_inj hname hname' hwanted hwanted']

/-- Of the layers a stage reads the tensors of those that it holds. -/
theorem layer_mem_sources (hle : layerStart ≤ layerEnd) (hlast : layerEnd < config.numHiddenLayers)
    {tensor : LayerTensor} {i : ℕ} :
    tensor.name i ∈ sources arch config layerStart layerEnd ↔
      tensor.name i ∈ arch.stateDict config ∧ holds i (layerStart, layerEnd) := by
  rw [mem_sources, Architecture.layer_mem_iff, holds_iff]
  constructor
  · rintro ⟨name, hname, hsource⟩
    rcases Architecture.layer_or_other hname with ⟨tensor', j, rfl⟩ | hother
    · rw [wantedName_layer, Option.some.injEq] at hsource
      obtain ⟨rfl, rfl⟩ := LayerTensor.name_inj hsource
      obtain ⟨hj, htensor⟩ := Architecture.layer_mem_iff.mp hname
      rw [config.layerType_stageConfig hle hj] at htensor
      have hlayers : j < layerEnd - layerStart + 1 := hj
      exact ⟨⟨by omega, htensor⟩, by omega, by omega⟩
    · obtain ⟨rfl, -⟩ := (wantedName_other hother).mp hsource
      rw [tensor.search_name] at hother
      cases hother
  · rintro ⟨⟨hi, htensor⟩, hstart, hend⟩
    obtain ⟨j, rfl⟩ := Nat.exists_eq_add_of_le hstart
    have hlayers : j < layerEnd - layerStart + 1 := by
      dsimp only at hend
      omega
    refine ⟨tensor.name j, Architecture.layer_mem_iff.mpr ⟨hlayers, ?_⟩, wantedName_layer tensor j⟩
    rw [config.layerType_stageConfig hle hlayers]
    exact htensor

/-- Of the other tensors a stage reads those that it owns. -/
theorem other_mem_sources {name : Text} (h : search name = none) :
    name ∈ sources arch config layerStart layerEnd ↔
      name ∈ arch.stateDict config ∧ owns config layerStart layerEnd name := by
  rw [mem_sources, Architecture.other_mem_iff h]
  constructor
  · rintro ⟨name', hname, hsource⟩
    rcases Architecture.layer_or_other hname with ⟨tensor, j, rfl⟩ | hother
    · rw [wantedName_layer, Option.some.injEq] at hsource
      rw [← hsource, tensor.search_name] at h
      cases h
    · obtain ⟨rfl, howns⟩ := (wantedName_other hother).mp hsource
      have hmem := (Architecture.other_mem_iff hother).mp hname
      exact ⟨hmem, howns⟩
  · rintro ⟨hname, howns⟩
    exact ⟨name, (Architecture.other_mem_iff h).mpr hname, (wantedName_other h).mpr ⟨rfl, howns⟩⟩

theorem lmHead_other : search lmHead = none ∧ isEmbedding lmHead = false := by decide

/-- A checkpoint that has the tensors of the model, a tied head apart, lacks none that a stage asks for. -/
theorem missing_eq_nil {checkpoint : Text → Bool} (hle : layerStart ≤ layerEnd)
    (hlast : layerEnd < config.numHiddenLayers)
    (hcheckpoint : ∀ name ∈ arch.stateDict config, checkpoint name ∨ config.tieWordEmbeddings ∧ name = lmHead) :
    missing arch config checkpoint layerStart layerEnd = [] := by
  have hfound : ∀ p ∈ wanted arch config layerStart layerEnd,
      checkpoint p.2 ∨ p.1 = lmHead ∧ lmHeadFromEmbed arch config checkpoint layerStart layerEnd := by
    rintro ⟨name, source⟩ hp
    obtain ⟨hname, hsource⟩ := mem_wanted.mp hp
    have hread : source ∈ sources arch config layerStart layerEnd := mem_sources.mpr ⟨name, hname, hsource⟩
    rcases Architecture.layer_or_other hname with ⟨tensor, j, rfl⟩ | hother
    · rw [wantedName_layer, Option.some.injEq] at hsource
      rw [← hsource] at hread ⊢
      rcases hcheckpoint _ ((layer_mem_sources hle hlast).mp hread).1 with hthere | ⟨-, hhead⟩
      · exact .inl hthere
      · have hnone := lmHead_other.1
        rw [← hhead, tensor.search_name] at hnone
        cases hnone
    · obtain ⟨rfl, howns⟩ := (wantedName_other hother).mp hsource
      by_cases hthere : checkpoint source
      · exact .inl hthere
      · obtain ⟨htied, rfl⟩ := (hcheckpoint _ ((other_mem_sources hother).mp hread).1).resolve_left hthere
        rw [owns, lmHead_other.2] at howns
        refine .inr ⟨rfl, ?_⟩
        rw [lmHeadFromEmbed, Bool.and_eq_true, Bool.and_eq_true, List.any_eq_true]
        exact ⟨⟨howns, htied⟩, (lmHead, lmHead), hp, by simpa using hthere⟩
  rw [missing]
  apply List.Perm.eq_nil
  refine (List.mergeSort_perm _ _).trans ?_
  rw [List.perm_nil, List.map_eq_nil_iff, List.filter_eq_nil_iff]
  intro p hp
  rcases hfound p hp with hthere | ⟨hhead, hembed⟩
  · simp [hthere]
  · simp [hhead, hembed]

/-- Outside its layers the model has what `load_stage` knows: the embeddings, the norm and the rotary
buffers of its base, and a head. -/
structure Modules.Known (modules : Modules Kind) (arch : Architecture Kind) (config : Config Kind) :
    Prop where
  head : lmHead ∈ arch.others config.tieWordEmbeddings
  embedding : modules.within ".embed_tokens." "weight" ∈ arch.others config.tieWordEmbeddings
  embeddings : ∀ name ∈ arch.others config.tieWordEmbeddings, isEmbedding name →
    (modules.within ".embed_tokens." "").isPrefixOf name
  others : ∀ name ∈ arch.others config.tieWordEmbeddings, ¬isEmbedding name →
    (modules.within ".rotary_emb." "").isPrefixOf name ∨
      (modules.within ".norm." "").isPrefixOf name ∨ "lm_head.".toList.isPrefixOf name
  buffers : ∀ config, modules.buffers config = []

theorem mem_wanted_names {name : Text} :
    name ∈ (wanted arch config layerStart layerEnd).map Prod.fst ↔
      name ∈ arch.stateDict (config.stageConfig layerStart layerEnd) ∧
        (wantedName config layerStart layerEnd name).isSome := by
  rw [List.mem_map]
  constructor
  · rintro ⟨⟨_, source⟩, hp, rfl⟩
    obtain ⟨hname, hsource⟩ := mem_wanted.mp hp
    exact ⟨hname, by rw [hsource]; rfl⟩
  · rintro ⟨hname, hsome⟩
    obtain ⟨source, hsource⟩ := Option.isSome_iff_exists.mp hsome
    exact ⟨(name, source), mem_wanted.mpr ⟨hname, hsource⟩, rfl⟩

theorem wantedName_isSome {name : Text} (h : search name = none) :
    (wantedName config layerStart layerEnd name).isSome ↔ owns config layerStart layerEnd name := by
  rw [Option.isSome_iff_exists]
  exact ⟨fun ⟨source, hsource⟩ => ((wantedName_other h).mp hsource).2,
    fun howns => ⟨name, (wantedName_other h).mpr ⟨rfl, howns⟩⟩⟩

variable {modules : Modules Kind}

/-- The last stage finds its head. -/
theorem Modules.Known.headFound (h : modules.Known arch config) (checkpoint : Text → Bool) :
    headFound arch config modules checkpoint layerStart layerEnd = true := by
  have hread : ∀ name ∈ arch.others config.tieWordEmbeddings, owns config layerStart layerEnd name →
      name ∈ (wanted arch config layerStart layerEnd).map Prod.fst := by
    intro name hname howns
    have hother := arch.unmatched _ name hname
    exact mem_wanted_names.mpr
      ⟨(Architecture.other_mem_iff hother).mpr hname, (wantedName_isSome hother).mpr howns⟩
  rw [StageLoading.headFound, Bool.or_eq_true, Bool.not_eq_true', Bool.and_eq_true,
    Bool.or_eq_true, Bool.not_eq_true', List.contains_iff_mem, List.contains_iff_mem]
  cases hlast : isLast config layerEnd with
  | false => exact .inl rfl
  | true =>
      refine .inr ⟨hread _ h.head (by rw [owns, lmHead_other.2]; exact hlast), ?_⟩
      cases hshared : lmHeadFromEmbed arch config checkpoint layerStart layerEnd with
      | false => exact .inl rfl
      | true =>
          -- the embeddings are tied, so that the last stage reads them too
          rw [lmHeadFromEmbed, Bool.and_eq_true, Bool.and_eq_true] at hshared
          have hembed : isEmbedding (modules.within ".embed_tokens." "weight") := by
            refine decide_eq_true ⟨modules.base ++ ['.'], ".weight".toList, ?_⟩
            rw [Modules.within, List.append_assoc, List.append_assoc, List.append_assoc]
            rfl
          refine .inr (hread _ h.embedding ?_)
          rw [owns, if_pos hembed, hlast, hshared.1.2]
          exact Bool.or_true _

end Stage

/-! ### A split of the layers -/

/-- What the stages of a split read: together the whole model, and each layer once. -/
structure ReadsWhole (ranges : List (ℕ × ℕ)) : Prop where
  found : ∀ checkpoint : Text → Bool,
    (∀ name ∈ arch.stateDict config, checkpoint name ∨ config.tieWordEmbeddings ∧ name = lmHead) →
    ∀ r ∈ ranges, r.1 ≤ r.2 ∧ r.2 < config.numHiddenLayers ∧
      missing arch config checkpoint r.1 r.2 = []
  layers_once : ∀ name ∈ arch.stateDict config, (search name).isSome →
    (ranges.flatMap fun r => sources arch config r.1 r.2).count name = 1
  injective : ∀ r ∈ ranges, ∀ p ∈ wanted arch config r.1 r.2, ∀ q ∈ wanted arch config r.1 r.2, p.2 = q.2 → p = q
  shifted : ∀ r ∈ ranges, ∀ (tensor : LayerTensor) (j : ℕ) (source : Text),
    (tensor.name j, source) ∈ wanted arch config r.1 r.2 ↔
      tensor.name j ∈ arch.stateDict (config.stageConfig r.1 r.2) ∧ source = tensor.name (r.1 + j)
  types : ∀ r ∈ ranges, ∀ j < (config.stageConfig r.1 r.2).numHiddenLayers,
    (config.stageConfig r.1 r.2).layerType j = config.layerType (r.1 + j)
  embeddings : ∀ (k : ℕ) (r : ℕ × ℕ), ranges[k]? = some r →
    ∀ name ∈ arch.stateDict config, search name = none → isEmbedding name →
      (name ∈ sources arch config r.1 r.2 ↔ k = 0 ∨ config.tieWordEmbeddings ∧ k + 1 = ranges.length)
  others : ∀ (k : ℕ) (r : ℕ × ℕ), ranges[k]? = some r →
    ∀ name ∈ arch.stateDict config, search name = none → ¬ isEmbedding name →
      (name ∈ sources arch config r.1 r.2 ↔ k + 1 = ranges.length)
  nothing_else : ∀ r ∈ ranges, ∀ name ∈ sources arch config r.1 r.2, name ∈ arch.stateDict config

section Split

variable {arch config} {ranges : List (ℕ × ℕ)}

theorem isFirst_iff (h : Consecutive 0 config.numHiddenLayers ranges) {k : ℕ} {r : ℕ × ℕ}
    (hk : ranges[k]? = some r) : isFirst r.1 ↔ k = 0 := by
  rw [isFirst, beq_iff_eq, h.first_iff hk]

theorem isLast_iff (h : Consecutive 0 config.numHiddenLayers ranges) {k : ℕ} {r : ℕ × ℕ}
    (hk : ranges[k]? = some r) : isLast config r.2 ↔ k + 1 = ranges.length := by
  rw [isLast, beq_iff_eq, h.last_iff hk]

theorem count_sources (h : Consecutive 0 config.numHiddenLayers ranges) {name : Text}
    (hname : name ∈ arch.stateDict config) (hlayer : (search name).isSome) :
    (ranges.flatMap fun r => sources arch config r.1 r.2).count name = 1 := by
  rcases Architecture.layer_or_other hname with ⟨tensor, i, rfl⟩ | hother
  · have hi := (Architecture.layer_mem_iff.mp hname).1
    rw [count_flatMap (i := i), h.countP_holds (Nat.zero_le i) hi]
    intro r hr
    obtain ⟨-, hle, hlast⟩ := h.bounds hr
    have hmem : tensor.name i ∈ sources arch config r.1 r.2 ↔ holds i r :=
      (layer_mem_sources hle hlast).trans (and_iff_right hname)
    rw [nodup_sources.count]
    exact if_congr hmem rfl rfl
  · rw [hother] at hlayer
    cases hlayer

/-- The stages of a split read the whole model, and each layer once. -/
theorem split_readsWhole (arch : Architecture Kind) (config : Config Kind) (ranges : List (ℕ × ℕ))
    (h : Consecutive 0 config.numHiddenLayers ranges) : ReadsWhole arch config ranges where
  found checkpoint hcheckpoint r hr := by
    obtain ⟨-, hle, hlast⟩ := h.bounds hr
    exact ⟨hle, hlast, missing_eq_nil hle hlast hcheckpoint⟩
  layers_once name hname hlayer := count_sources h hname hlayer
  injective r _ := by
    rintro ⟨name, source⟩ hp ⟨name', source'⟩ hq hsource
    obtain rfl : source = source' := hsource
    obtain ⟨hname, hwanted⟩ := mem_wanted.mp hp
    obtain ⟨hname', hwanted'⟩ := mem_wanted.mp hq
    rw [wantedName_inj hname hname' hwanted hwanted']
  shifted r _ tensor j source := by
    rw [mem_wanted, wantedName_layer, Option.some.injEq, eq_comm (b := source)]
  types r hr j hj := config.layerType_stageConfig (h.bounds hr).2.1 hj
  embeddings k r hk name hname hother hembed := by
    rw [other_mem_sources hother, and_iff_right hname, owns, if_pos hembed, Bool.or_eq_true, Bool.and_eq_true,
      isFirst_iff h hk, isLast_iff h hk, and_comm]
  others k r hk name hname hother hembed := by
    rw [other_mem_sources hother, and_iff_right hname, owns, if_neg hembed, isLast_iff h hk]
  nothing_else r hr name hname := by
    obtain ⟨-, hle, hlast⟩ := h.bounds hr
    obtain ⟨name', hname', hsource⟩ := mem_sources.mp hname
    rcases Architecture.layer_or_other hname' with ⟨tensor, j, rfl⟩ | hother
    · rw [wantedName_layer, Option.some.injEq] at hsource
      subst hsource
      exact ((layer_mem_sources hle hlast).mp hname).1
    · obtain ⟨rfl, -⟩ := (wantedName_other hother).mp hsource
      exact ((other_mem_sources hother).mp hname).1

/-- A model with one tensor in each layer. -/
def plainModel : Architecture Unit :=
  Architecture.ofTable (fun _ _ => [⟨"model.".toList, "mlp.weight".toList, .inr ⟨"model".toList, rfl⟩, by decide⟩])
    (fun _ => ["model.embed_tokens.weight".toList, "model.norm.weight".toList, "lm_head.weight".toList])
    (fun _ _ => List.nodup_singleton _) (fun _ => by decide) fun _ => by decide

theorem split_readsWhole_plainModel : ReadsWhole plainModel ⟨12, none, true⟩ [(0, 3), (4, 11)] :=
  split_readsWhole plainModel ⟨12, none, true⟩ [(0, 3), (4, 11)] (by decide)

end Split

end Distllm.StageLoading
