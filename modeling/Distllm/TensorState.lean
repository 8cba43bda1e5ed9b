import Mathlib.Algebra.BigOperators.Group.List.Basic
import Distllm.RelayState
import Distllm.Tree

/-! Tensors on the wire (`transport.py`): a tensor is a view of a storage, its elements listed in
row-major order are what is sent. An element is the bytes it is made of. Legacy messages hold numpy
arrays; what becomes of them is left open, and so is what `torch.empty` finds in memory. -/

namespace Distllm.Wire

open Relay (Bytes)

/-! ### Element types -/

inductive Dtype where
  | float16 | bfloat16 | float32 | float64
  | int8 | uint8 | int16 | int32 | int64 | bool
  /-- A type that torch has and `_DTYPES` has not. -/
  | other (name : String) (itemsize : Nat)
  deriving DecidableEq

namespace Dtype

/-- `str(dtype).removeprefix("torch.")` -/
def name : Dtype → String
  | float16 => "float16" | bfloat16 => "bfloat16" | float32 => "float32" | float64 => "float64"
  | int8 => "int8" | uint8 => "uint8" | int16 => "int16" | int32 => "int32" | int64 => "int64"
  | bool => "bool"
  | other name _ => name

def itemsize : Dtype → Nat
  | int8 | uint8 | bool => 1
  | float16 | bfloat16 | int16 => 2
  | float32 | int32 => 4
  | float64 | int64 => 8
  | other _ itemsize => itemsize

end Dtype

/-- `_DTYPES` -/
def dtypes : List Dtype :=
  [.float16, .bfloat16, .float32, .float64, .int8, .uint8, .int16, .int32, .int64, .bool]

/-- `_DTYPES.get(name)` -/
def dtypeNamed (name : String) : Option Dtype := dtypes.find? fun dtype => dtype.name == name

theorem dtypeNamed_mem {name : String} {dtype : Dtype} (h : dtypeNamed name = some dtype) :
    dtype.name = name ∧ 0 < dtype.itemsize := by
  have hname := List.find?_some h
  have hmem := List.mem_of_find?_eq_some h
  refine ⟨eq_of_beq hname, ?_⟩
  have hall : dtypes.all fun dtype => decide (0 < dtype.itemsize) := by decide
  exact of_decide_eq_true (List.all_eq_true.mp hall dtype hmem)

/-! ### Tensors -/

/-- Where the elements of a view are, in row-major order. -/
def offsets : List (Nat × Nat) → Nat → List Nat
  | [], base => [base]
  | (size, stride) :: dims, base => (List.range size).flatMap fun i => offsets dims (base + i * stride)

/-- The strides of a contiguous tensor. -/
def rowMajor : List Nat → List Nat
  | [] => []
  | _ :: shape => shape.prod :: rowMajor shape

theorem length_rowMajor (shape : List Nat) : (rowMajor shape).length = shape.length := by
  induction shape with
  | nil => rfl
  | cons size shape ih => exact congrArg Nat.succ ih

theorem length_offsets {shape stride : List Nat} (h : stride.length = shape.length) (base : Nat) :
    (offsets (shape.zip stride) base).length = shape.prod := by
  induction shape generalizing stride base with
  | nil => rfl
  | cons size shape ih =>
      obtain ⟨step, stride, rfl⟩ := List.exists_cons_of_length_eq_add_one h
      have hrest : stride.length = shape.length := Nat.succ.inj h
      rw [List.zip_cons_cons, offsets, List.length_flatMap, List.prod_cons]
      simp [ih hrest]

theorem range_mul (m n : Nat) :
    List.range (m * n) = (List.range m).flatMap fun i => (List.range n).map (i * n + ·) := by
  induction m with
  | zero => rw [Nat.zero_mul]; rfl
  | succ m ih =>
      rw [Nat.succ_mul, List.range_add, ih, List.range_succ, List.flatMap_append,
        List.flatMap_singleton]

theorem offsets_rowMajor (shape : List Nat) (base : Nat) :
    offsets (shape.zip (rowMajor shape)) base = (List.range shape.prod).map (base + ·) := by
  induction shape generalizing base with
  | nil => rfl
  | cons size shape ih =>
      rw [rowMajor, List.zip_cons_cons, offsets, List.prod_cons, range_mul, List.map_flatMap]
      refine congrArg (List.range size).flatMap (funext fun i => ?_)
      rw [ih, List.map_map]
      apply List.map_congr_left
      intro j _
      rw [Function.comp_apply, Nat.add_assoc]

structure Tensor where
  dtype : Dtype
  shape : List Nat
  stride : List Nat
  offset : Nat
  storage : List Bytes
  length_stride : stride.length = shape.length
  inside : ∀ i ∈ offsets (shape.zip stride) offset, i < storage.length
  sized : ∀ item ∈ storage, item.length = dtype.itemsize
  shape_lt : ∀ size ∈ shape, size < 2 ^ 63

namespace Tensor

def numel (t : Tensor) : Nat := t.shape.prod

/-- The elements in row-major order. -/
def elements (t : Tensor) : List Bytes :=
  (offsets (t.shape.zip t.stride) t.offset).map fun i => t.storage.getD i []

/-- A tensor with these elements in a storage of its own. -/
def ofItems (dtype : Dtype) (shape : List Nat) (items : List Bytes)
    (hlength : items.length = shape.prod) (hsized : ∀ item ∈ items, item.length = dtype.itemsize)
    (hshape : ∀ size ∈ shape, size < 2 ^ 63) : Tensor where
  dtype := dtype
  shape := shape
  stride := rowMajor shape
  offset := 0
  storage := items
  length_stride := length_rowMajor shape
  inside := fun i hi => by
    rw [offsets_rowMajor, List.mem_map] at hi
    obtain ⟨j, hj, rfl⟩ := hi
    rw [hlength, Nat.zero_add]
    exact List.mem_range.mp hj
  sized := hsized
  shape_lt := hshape

theorem elements_ofItems {dtype : Dtype} {shape : List Nat} {items : List Bytes}
    (hlength : items.length = shape.prod) (hsized : ∀ item ∈ items, item.length = dtype.itemsize)
    (hshape : ∀ size ∈ shape, size < 2 ^ 63) :
    (ofItems dtype shape items hlength hsized hshape).elements = items := by
  change (offsets (shape.zip (rowMajor shape)) 0).map (fun i => items.getD i []) = items
  rw [offsets_rowMajor, List.map_map, ← hlength]
  apply List.ext_getElem
  · rw [List.length_map, List.length_range]
  · intro i _ hi
    simp [List.getElem?_eq_getElem hi]

/-- Only the items matter, not why they fit. -/
theorem ofItems_congr {dtype : Dtype} {shape : List Nat} {items items' : List Bytes}
    (h : items = items') (hlength : items.length = shape.prod)
    (hsized : ∀ item ∈ items, item.length = dtype.itemsize)
    (hshape : ∀ size ∈ shape, size < 2 ^ 63) :
    ofItems dtype shape items hlength hsized hshape =
      ofItems dtype shape items' (h ▸ hlength) (h ▸ hsized) hshape := by
  subst h
  rfl

theorem length_elements (t : Tensor) : t.elements.length = t.shape.prod := by
  rw [elements, List.length_map, length_offsets t.length_stride]

theorem elements_sized (t : Tensor) : ∀ item ∈ t.elements, item.length = t.dtype.itemsize := by
  intro item hitem
  obtain ⟨i, hi, rfl⟩ := List.mem_map.mp hitem
  have hlt := t.inside i hi
  rw [List.getD_eq_getElem?_getD, List.getElem?_eq_getElem hlt]
  exact t.sized _ (List.getElem_mem hlt)

/-- `tensor.detach().contiguous().cpu()` -/
def contiguous (t : Tensor) : Tensor :=
  ofItems t.dtype t.shape t.elements t.length_elements t.elements_sized t.shape_lt

@[simp] theorem elements_contiguous (t : Tensor) : t.contiguous.elements = t.elements :=
  elements_ofItems ..

end Tensor

/-! ### Items in a buffer -/

/-- The buffer as items of one size. -/
def chunks (size : Nat) (data : Bytes) : List Bytes :=
  (List.range (data.length / size)).map fun i => (data.drop (i * size)).take size

theorem chunks_sized {size : Nat} (data : Bytes) : ∀ item ∈ chunks size data, item.length = size := by
  intro item hitem
  obtain ⟨i, hi, rfl⟩ := List.mem_map.mp hitem
  have hlt : i < data.length / size := List.mem_range.mp hi
  have hroom : (i + 1) * size ≤ data.length :=
    calc (i + 1) * size ≤ data.length / size * size := Nat.mul_le_mul_right size hlt
      _ ≤ data.length := Nat.div_mul_le_self ..
  rw [Nat.succ_mul] at hroom
  rw [List.length_take, List.length_drop]
  omega

theorem length_chunks (size : Nat) (data : Bytes) :
    (chunks size data).length = data.length / size := by
  rw [chunks, List.length_map, List.length_range]

theorem length_flatten_sized {size : Nat} {items : List Bytes}
    (h : ∀ item ∈ items, item.length = size) : items.flatten.length = items.length * size := by
  induction items with
  | nil => rw [List.length_nil, Nat.zero_mul]; rfl
  | cons item rest ih =>
      rw [List.forall_mem_cons] at h
      rw [List.flatten_cons, List.length_append, ih h.2, h.1, List.length_cons, Nat.succ_mul,
        Nat.add_comm]

/-- Items of one size are found again in what they make up. -/
theorem chunks_flatten {size : Nat} (hsize : 0 < size) {items : List Bytes}
    (h : ∀ item ∈ items, item.length = size) : chunks size items.flatten = items := by
  induction items with
  | nil => rw [chunks, List.flatten_nil, List.length_nil, Nat.zero_div]; rfl
  | cons item rest ih =>
      rw [List.forall_mem_cons] at h
      have hcount : (item :: rest).flatten.length / size = rest.flatten.length / size + 1 := by
        rw [List.flatten_cons, List.length_append, h.1, Nat.add_comm, Nat.add_div_right _ hsize]
      rw [chunks, hcount, List.range_succ_eq_map, List.map_cons, List.map_map, Nat.zero_mul,
        List.drop_zero, List.flatten_cons, List.take_left' h.1]
      refine congrArg (List.cons item) (Eq.trans (List.map_congr_left fun i _ => ?_) (ih h.2))
      rw [Function.comp_apply, Nat.succ_mul, Nat.add_comm, ← List.drop_drop, List.drop_left' h.1]

theorem flatten_take (size k : Nat) (data : Bytes) :
    ((List.range k).map fun i => (data.drop (i * size)).take size).flatten =
      data.take (k * size) := by
  induction k with
  | zero => rw [Nat.zero_mul]; rfl
  | succ k ih =>
      rw [List.range_succ, List.map_append, List.flatten_append, ih, Nat.succ_mul, List.take_add,
        List.map_singleton, List.flatten_singleton]

/-- A whole number of items makes up the buffer. -/
theorem flatten_chunks {size : Nat} {data : Bytes} (h : data.length % size = 0) :
    (chunks size data).flatten = data := by
  rw [chunks, flatten_take, Nat.div_mul_cancel (Nat.dvd_of_mod_eq_zero h), List.take_length]

/-! ### Encoding and decoding -/

inductive Scalar where
  | none
  | bool (b : Bool)
  | int (n : Int)
  | float (bits : UInt64)
  | str (s : String)
  | bytes (b : Bytes)
  deriving DecidableEq

inductive Leaf where
  | scalar (x : Scalar)
  | tensor (t : Tensor)

inductive Error where
  /-- `TypeError`: `Unsupported tensor dtype for transport: ...` -/
  | unsupportedDtype (dtype : Dtype)
  /-- `ValueError`: `Unsupported tensor dtype in payload: ...` -/
  | unknownDtype (name : String)
  | keyError (key : String)
  /-- Raised by msgpack, numpy, torch or Python. -/
  | library
  deriving DecidableEq

def tensorKey : String := "__tensor__"

/-- The map that stands for a tensor. -/
def tensorMap (name : String) (shape : List Nat) (data : Bytes) : Tree Scalar :=
  .map [(tensorKey, .leaf (.bool true)), ("dtype", .leaf (.str name)),
    ("shape", .list (shape.map fun size : Nat => .leaf (.int size))), ("data", .leaf (.bytes data))]

/-- `_encode_tensor` -/
def encodeTensor (t : Tensor) : Except Error (Tree Scalar) :=
  let t := t.contiguous
  if (dtypeNamed t.dtype.name).isNone then .error (.unsupportedDtype t.dtype)
  else .ok (tensorMap t.dtype.name t.shape (if t.numel ≠ 0 then t.elements.flatten else []))

/-- The libraries behind the decoder. -/
structure Libraries where
  /-- What `torch.empty` finds in memory for so many items, if there is room for them. -/
  memory : (dtype : Dtype) → (count : Nat) → Option (List Bytes)
  memory_length : ∀ {dtype count items}, memory dtype count = some items → items.length = count
  memory_sized : ∀ {dtype count items}, memory dtype count = some items →
    ∀ item ∈ items, item.length = dtype.itemsize
  /-- `_decode_tensor` of a map with a numpy array under `arr`. -/
  fromArray : List (String × Tree Leaf) → Except Error Tensor
  /-- `unpack_tensor` of what a map without `data` and `arr` has under `__tensor__`. -/
  nested : Tree Leaf → Except Error Tensor
  /-- `_decode_tensor` of a map with fields that are not of the types that the encoder writes. -/
  illTyped : List (String × Tree Leaf) → Except Error Tensor

/-- `torch.empty(shape, dtype=dtype)` -/
def torchEmpty (lib : Libraries) (dtype : Dtype) (shape : List Nat) : Except Error Tensor :=
  if hshape : ∀ size ∈ shape, size < 2 ^ 63 then
    if hzero : shape.prod = 0 then
      .ok (.ofItems dtype shape [] hzero.symm (fun _ h => nomatch h) hshape)
    else
      match hitems : lib.memory dtype shape.prod with
      | none => .error .library
      | some items => .ok (.ofItems dtype shape items (lib.memory_length hitems)
          (lib.memory_sized hitems) hshape)
  else .error .library

/-- `torch.frombuffer(bytearray(data), dtype=dtype).reshape(shape)` -/
def fromBuffer (dtype : Dtype) (shape : List Nat) (data : Bytes) : Except Error Tensor :=
  if data.length % dtype.itemsize = 0 then
    if h : (chunks dtype.itemsize data).length = shape.prod ∧ ∀ size ∈ shape, size < 2 ^ 63 then
      .ok (.ofItems dtype shape (chunks dtype.itemsize data) h.1 (chunks_sized data) h.2)
    else .error .library
  else .error .library

/-- A list of sizes that are not negative. -/
def sizes : List (Tree Leaf) → Option (List Nat)
  | [] => some []
  | .leaf (.scalar (.int (.ofNat size))) :: rest => (sizes rest).map (size :: ·)
  | _ :: _ => none

/-- A shape and data of the types that the encoder writes. -/
def shapeAndData : Tree Leaf → Tree Leaf → Option (List Nat × Bytes)
  | .list shape, .leaf (.scalar (.bytes data)) => (sizes shape).map fun shape => (shape, data)
  | _, _ => none

/-- `_decode_tensor` -/
def decodeTensor (lib : Libraries) (obj : List (String × Tree Leaf)) : Except Error Tensor :=
  match obj.lookup "data", obj.lookup "dtype" with
  | none, _ => lib.fromArray obj
  | some _, none => .error (.keyError "dtype")
  | some data, some (.leaf (.scalar (.str name))) =>
    match dtypeNamed name with
    | none => .error (.unknownDtype name)
    | some dtype =>
      match obj.lookup "shape" with
      | none => .error (.keyError "shape")
      | some shape =>
        match shapeAndData shape data with
        | none => lib.illTyped obj
        | some (shape, []) => torchEmpty lib dtype shape
        | some (shape, data) => fromBuffer dtype shape data
  | some _, some _ => lib.illTyped obj

theorem sizes_map (shape : List Nat) :
    sizes (shape.map fun size : Nat => .leaf (.scalar (.int size))) = some shape := by
  induction shape with
  | nil => rfl
  | cons size shape ih => exact congrArg (Option.map (size :: ·)) ih

/-- A new-format map is decoded from its three fields alone. -/
theorem decodeTensor_fields {lib : Libraries} {obj : List (String × Tree Leaf)} {name : String}
    {shape : List Nat} {data : Bytes} {dtype : Dtype}
    (hdata : obj.lookup "data" = some (.leaf (.scalar (.bytes data))))
    (hdtype : obj.lookup "dtype" = some (.leaf (.scalar (.str name))))
    (hshape : obj.lookup "shape" =
      some (.list (shape.map fun size : Nat => .leaf (.scalar (.int size)))))
    (hnamed : dtypeNamed name = some dtype) :
    decodeTensor lib obj =
      if data = [] then torchEmpty lib dtype shape else fromBuffer dtype shape data := by
  unfold decodeTensor
  rw [hdata, hdtype, hshape]
  dsimp only
  rw [hnamed]
  dsimp only
  rw [shapeAndData, sizes_map, Option.map_some]
  cases data with
  | nil => rfl
  | cons first rest => rfl

theorem decodeTensor_unknown {lib : Libraries} {obj : List (String × Tree Leaf)} {name : String}
    {data : Tree Leaf} (hdata : obj.lookup "data" = some data)
    (hdtype : obj.lookup "dtype" = some (.leaf (.scalar (.str name))))
    (hnamed : dtypeNamed name = none) : decodeTensor lib obj = .error (.unknownDtype name) := by
  unfold decodeTensor
  rw [hdata, hdtype]
  dsimp only
  rw [hnamed]

/-! ### What the decoder accepts -/

/-- What has been decoded is as long as its shape says, and is encoded as it came. -/
def Accepts (lib : Libraries) (obj : List (String × Tree Leaf)) (name : String) (shape : List Nat)
    (data : Bytes) : Prop :=
  ∀ t, decodeTensor lib obj = .ok t →
    (∃ dtype, dtypeNamed name = some dtype ∧ data.length = shape.prod * dtype.itemsize) ∧
    encodeTensor t = .ok (tensorMap name shape data)

theorem encodeTensor_supported {t : Tensor} (h : dtypeNamed t.dtype.name = some t.dtype) :
    encodeTensor t = .ok (tensorMap t.dtype.name t.shape t.elements.flatten) := by
  have hdata : (if t.contiguous.numel ≠ 0 then t.contiguous.elements.flatten else []) =
      t.elements.flatten := by
    rw [Tensor.elements_contiguous]
    by_cases hzero : t.contiguous.numel = 0
    · have hnone : t.elements = [] := List.length_eq_zero_iff.mp (t.length_elements.trans hzero)
      rw [if_neg (not_not_intro hzero), hnone]
      rfl
    · rw [if_pos hzero]
  have hsome : (dtypeNamed t.contiguous.dtype.name).isNone = false := by
    change (dtypeNamed t.dtype.name).isNone = false
    rw [h]
    rfl
  unfold encodeTensor
  dsimp only
  rw [hdata, hsome]
  rfl

/-- A tensor that has been put together from items is encoded with their bytes. -/
theorem encodeTensor_ofItems {name : String} {dtype : Dtype} {shape : List Nat} {items : List Bytes}
    (hnamed : dtypeNamed name = some dtype) (hlength : items.length = shape.prod)
    (hsized : ∀ item ∈ items, item.length = dtype.itemsize)
    (hshape : ∀ size ∈ shape, size < 2 ^ 63) :
    encodeTensor (.ofItems dtype shape items hlength hsized hshape) =
      .ok (tensorMap name shape items.flatten) := by
  obtain rfl : dtype.name = name := (dtypeNamed_mem hnamed).1
  have hencode := @encodeTensor_supported (.ofItems dtype shape items hlength hsized hshape) hnamed
  rw [Tensor.elements_ofItems] at hencode
  exact hencode

/-- A buffer that fits its shape. -/
theorem fromBuffer_ok {name : String} {dtype : Dtype} {shape : List Nat} {data : Bytes} {t : Tensor}
    (hnamed : dtypeNamed name = some dtype) (h : fromBuffer dtype shape data = .ok t) :
    data.length = shape.prod * dtype.itemsize ∧ encodeTensor t = .ok (tensorMap name shape data) := by
  unfold fromBuffer at h
  split at h
  · rename_i hwhole
    split at h
    · rename_i hfits
      obtain rfl := Except.ok.inj h
      have hcount := hfits.1
      rw [length_chunks] at hcount
      rw [encodeTensor_ofItems hnamed, flatten_chunks hwhole, ← hcount]
      exact ⟨(Nat.div_mul_cancel (Nat.dvd_of_mod_eq_zero hwhole)).symm, rfl⟩
    · cases h
  · cases h

theorem torchEmpty_zero {lib : Libraries} {name : String} {dtype : Dtype} {shape : List Nat}
    {t : Tensor} (hnamed : dtypeNamed name = some dtype) (hzero : shape.prod = 0)
    (h : torchEmpty lib dtype shape = .ok t) : encodeTensor t = .ok (tensorMap name shape []) := by
  unfold torchEmpty at h
  split at h
  · obtain rfl := Except.ok.inj h
    exact encodeTensor_ofItems hnamed _ _ _
  · cases h

/-- The decoder accepts only what the encoder produces, except for a shape with elements but
without data, for which there is room in memory. -/
theorem decodeTensor_accepts_iff {lib : Libraries} {obj : List (String × Tree Leaf)} {name : String}
    {shape : List Nat} {data : Bytes}
    (hdata : obj.lookup "data" = some (.leaf (.scalar (.bytes data))))
    (hdtype : obj.lookup "dtype" = some (.leaf (.scalar (.str name))))
    (hshape : obj.lookup "shape" =
      some (.list (shape.map fun size : Nat => .leaf (.scalar (.int size))))) :
    Accepts lib obj name shape data ↔
      (data = [] → shape.prod ≠ 0 → ∀ dtype, dtypeNamed name = some dtype →
        ∃ e, torchEmpty lib dtype shape = .error e) := by
  cases hnamed : dtypeNamed name with
  | none =>
      refine iff_of_true (fun t ht => ?_) fun _ _ dtype hdtype' => by cases hdtype'
      rw [decodeTensor_unknown hdata hdtype hnamed] at ht
      cases ht
  | some dtype =>
      have hdecode := @decodeTensor_fields lib _ _ _ _ _ hdata hdtype hshape hnamed
      unfold Accepts
      rw [hdecode, hnamed]
      by_cases hempty : data = []
      · rw [if_pos hempty]
        subst hempty
        constructor
        · intro haccepts _ hne dtype' hdtype'
          obtain rfl := Option.some.inj hdtype'
          cases hopen : torchEmpty lib dtype shape with
          | error e => exact ⟨e, rfl⟩
          | ok t =>
              -- no bytes for a shape with elements
              obtain ⟨⟨dtype', hdtype'', hlength⟩, -⟩ := haccepts t hopen
              obtain rfl := Option.some.inj hdtype''
              have hsize := (dtypeNamed_mem hnamed).2
              rcases Nat.mul_eq_zero.mp hlength.symm with hzero | hzero
              · exact absurd hzero hne
              · exact absurd hzero (Nat.ne_of_gt hsize)
        · intro hcondition t ht
          by_cases hzero : shape.prod = 0
          · refine ⟨⟨dtype, rfl, ?_⟩, torchEmpty_zero hnamed hzero ht⟩
            rw [hzero, Nat.zero_mul]
            rfl
          · obtain ⟨e, he⟩ := hcondition rfl hzero dtype rfl
            rw [he] at ht
            cases ht
      · rw [if_neg hempty]
        refine iff_of_true (fun t ht => ?_) fun hnil => absurd hnil hempty
        obtain ⟨hlength, hencode⟩ := fromBuffer_ok hnamed ht
        exact ⟨⟨dtype, rfl, hlength⟩, hencode⟩

/-- Libraries that find zeros in memory, and raise for anything that the encoder does not write. -/
def zeroedLibraries : Libraries where
  memory := fun dtype count => some (List.replicate count (List.replicate dtype.itemsize 0))
  memory_length := fun h => by
    obtain rfl := Option.some.inj h
    exact List.length_replicate
  memory_sized := fun h item hitem => by
    obtain rfl := Option.some.inj h
    rw [List.eq_of_mem_replicate hitem, List.length_replicate]
  fromArray := fun _ => .error .library
  nested := fun _ => .error .library
  illTyped := fun _ => .error .library

/-- What a peer sends as a tensor of this shape with this data. -/
def peerFields (name : String) (shape : List Nat) (data : Bytes) : List (String × Tree Leaf) :=
  [("dtype", .leaf (.scalar (.str name))),
    ("shape", .list (shape.map fun size : Nat => .leaf (.scalar (.int size)))),
    ("data", .leaf (.scalar (.bytes data))), (tensorKey, .leaf (.scalar (.bool true)))]

theorem decodeTensor_accepts_pair :
    Accepts zeroedLibraries (peerFields "int16" [2, 1] [1, 0, 2, 0]) "int16" [2, 1] [1, 0, 2, 0] :=
  (decodeTensor_accepts_iff rfl rfl rfl).mpr fun h => nomatch h

/-- A peer gets six elements of what is in memory without sending any. -/
theorem no_data_reads_memory :
    ¬ Accepts zeroedLibraries (peerFields "float32" [2, 3] []) "float32" [2, 3] [] := by
  intro h
  obtain ⟨⟨dtype, hnamed, hlength⟩, -⟩ := h _ rfl
  obtain rfl : Dtype.float32 = dtype := Option.some.inj hnamed
  exact absurd hlength (by decide)

end Distllm.Wire
