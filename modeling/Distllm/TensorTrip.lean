import Distllm.ShortForms

/-! Payloads on the wire. `pack_payload` and `unpack_payload` put their hooks around MessagePack,
which is given: a tensor leaves as a map with a reserved key, and the map comes back as a tensor. -/

namespace Distllm.Wire

open Relay (Bytes)
open Distllm.Tree (mapLeaves expand restore)

/-! ### The functions -/

/-- `msgpack.packb` and `msgpack.unpackb` without hooks. -/
structure MsgPack where
  packb : Tree Scalar → Except Error Bytes
  unpackb : Bytes → Except Error (Tree Scalar)

/-- The hook `encode`, with what is no tensor packed as it is. -/
def encode : Leaf → Except Error (Tree Scalar)
  | .scalar x => .ok (.leaf x)
  | .tensor t => encodeTensor t

/-- The hook `decode`. -/
def decode (lib : Libraries) (obj : List (String × Tree Leaf)) : Except Error (Tree Leaf) :=
  match obj.lookup tensorKey with
  | none => .ok (.map obj)
  | some nested =>
    if (obj.lookup "data").isSome ∨ (obj.lookup "arr").isSome then
      (decodeTensor lib obj).map fun t => .leaf (.tensor t)
    else (lib.nested nested).map fun t => .leaf (.tensor t)

section Payload

variable (M : MsgPack) (lib : Libraries)

def packPayload (payload : Tree Leaf) : Except Error Bytes :=
  (expand encode payload).bind M.packb

def unpackPayload (data : Bytes) : Except Error (Tree Leaf) :=
  (M.unpackb data).bind (restore .scalar (decode lib))

end Payload

/-! ### What is packed -/

/-- MessagePack's integers, signed and unsigned ones. -/
def Scalar.InRange : Scalar → Prop
  | .int n => -2 ^ 63 ≤ n ∧ n < 2 ^ 64
  | _ => True

/-- Packing and unpacking are inverse on plain trees. -/
def MsgPack.Inverse (M : MsgPack) : Prop :=
  ∀ t : Tree Scalar, t.All Scalar.InRange List.Nodup →
    ∃ data, M.packb t = .ok data ∧ M.unpackb data = .ok t

/-- Its type is one of those in `_DTYPES`. -/
def Tensor.Supported (t : Tensor) : Prop := dtypeNamed t.dtype.name = some t.dtype

def Leaf.Sendable : Leaf → Prop
  | .scalar x => x.InRange
  | .tensor t => t.Supported

/-- The keys of a dictionary, without the reserved one. -/
def Unreserved (names : List String) : Prop := names.Nodup ∧ tensorKey ∉ names

/-- What a leaf is to its reader: a tensor is its type, its shape and its elements. -/
inductive Content where
  | scalar (x : Scalar)
  | tensor (dtype : Dtype) (shape : List Nat) (elements : List Bytes)
  deriving DecidableEq

def Leaf.content : Leaf → Content
  | .scalar x => .scalar x
  | .tensor t => .tensor t.dtype t.shape t.elements

/-- A leaf after the trip: a tensor has got a storage of its own. -/
def Leaf.unpacked : Leaf → Leaf
  | .scalar x => .scalar x
  | .tensor t => .tensor t.contiguous

theorem content_unpacked (x : Leaf) : x.unpacked.content = x.content := by
  cases x with
  | scalar x => rfl
  | tensor t => exact congrArg (Content.tensor t.dtype t.shape) t.elements_contiguous

/-! ### The tensors of a payload -/

/-- The elements of a tensor, put together again from its data. -/
theorem decode_elements {lib : Libraries} {t : Tensor} (h : t.Supported) :
    (if t.elements.flatten = [] then torchEmpty lib t.dtype t.shape
      else fromBuffer t.dtype t.shape t.elements.flatten) = .ok t.contiguous := by
  have hsize := (dtypeNamed_mem h).2
  have hchunks := chunks_flatten hsize t.elements_sized
  have hlength := length_flatten_sized t.elements_sized
  rw [t.length_elements] at hlength
  by_cases hempty : t.elements.flatten = []
  · rw [if_pos hempty]
    rw [hempty, List.length_nil] at hlength
    have hzero : t.shape.prod = 0 :=
      (Nat.mul_eq_zero.mp hlength.symm).resolve_right (Nat.ne_of_gt hsize)
    have helements : t.elements = [] :=
      List.length_eq_zero_iff.mp (t.length_elements.trans hzero)
    unfold torchEmpty
    rw [dif_pos t.shape_lt, dif_pos hzero]
    exact congrArg Except.ok (Tensor.ofItems_congr helements.symm _ _ _)
  · rw [if_neg hempty]
    have hwhole : t.elements.flatten.length % t.dtype.itemsize = 0 := by
      rw [hlength, Nat.mul_mod_left]
    have hfits : (chunks t.dtype.itemsize t.elements.flatten).length = t.shape.prod ∧
        ∀ size ∈ t.shape, size < 2 ^ 63 := by
      rw [hchunks]
      exact ⟨t.length_elements, t.shape_lt⟩
    unfold fromBuffer
    rw [if_pos hwhole, dif_pos hfits]
    exact congrArg Except.ok (Tensor.ofItems_congr hchunks _ _ _)

section Hooks

variable {lib : Libraries}

theorem restoreItems_sizes (shape : List Nat) :
    Tree.restoreItems .scalar (decode lib) (shape.map fun size : Nat => .leaf (.int size)) =
      .ok (shape.map fun size : Nat => .leaf (.scalar (.int size))) := by
  induction shape with
  | nil => rfl
  | cons size shape ih =>
      rw [List.map_cons, Tree.restoreItems, ih]
      rfl

theorem sizes_plain {shape : List Nat} (h : ∀ size ∈ shape, size < 2 ^ 63) :
    Tree.AllItems Scalar.InRange List.Nodup
      (shape.map fun size : Nat => .leaf (.int size)) := by
  induction shape with
  | nil => trivial
  | cons size shape ih =>
      rw [List.forall_mem_cons] at h
      refine ⟨⟨?_, ?_⟩, ih h.2⟩
      · omega
      · have hlt := h.1
        omega

/-- The map of a tensor is decoded by the branch for data. -/
theorem restore_tensorMap {t : Tensor} (h : t.Supported) :
    restore .scalar (decode lib) (tensorMap t.dtype.name t.shape t.elements.flatten) =
      .ok (.leaf (.tensor t.contiguous)) := by
  have hentries : restore .scalar (decode lib)
      (tensorMap t.dtype.name t.shape t.elements.flatten) =
        decode lib [(tensorKey, .leaf (.scalar (.bool true))),
          ("dtype", .leaf (.scalar (.str t.dtype.name))),
          ("shape", .list (t.shape.map fun size : Nat => .leaf (.scalar (.int size)))),
          ("data", .leaf (.scalar (.bytes t.elements.flatten)))] := by
    simp only [tensorMap, Tree.restore, Tree.restoreEntries, restoreItems_sizes]
    rfl
  have hdecode := @decodeTensor_fields lib [(tensorKey, .leaf (.scalar (.bool true))),
    ("dtype", .leaf (.scalar (.str t.dtype.name))),
    ("shape", .list (t.shape.map fun size : Nat => .leaf (.scalar (.int size)))),
    ("data", .leaf (.scalar (.bytes t.elements.flatten)))] _ _ _ _ rfl rfl rfl h
  rw [decode_elements h] at hdecode
  rw [hentries]
  exact congrArg (Except.map fun t => Tree.leaf (Leaf.tensor t)) hdecode

theorem lookup_notMem {obj : List (String × Tree Leaf)} {key : String} (h : key ∉ Tree.keys obj) :
    obj.lookup key = none := by
  rw [List.lookup_eq_none_iff]
  intro entry hentry
  rw [bne_iff_ne]
  rintro rfl
  exact h (List.mem_map.mpr ⟨entry, hentry, rfl⟩)

/-- Tensors return, and no other map of a payload is taken for one. -/
theorem encode_returns (lib : Libraries) : Tree.Returns Leaf.Sendable Scalar.InRange Unreserved
    List.Nodup encode .scalar (decode lib) Leaf.unpacked where
  names := fun _ h => h.1
  leaf := fun x hx => by
    cases x with
    | scalar x => exact ⟨.leaf x, rfl, hx, rfl⟩
    | tensor t =>
        have hnames : [tensorKey, "dtype", "shape", "data"].Nodup := by decide
        exact ⟨_, encodeTensor_supported hx,
          ⟨hnames, trivial, trivial, sizes_plain t.shape_lt, trivial, trivial⟩,
          restore_tensorMap hx⟩
  map := fun entries h => by
    rw [decode, lookup_notMem h.2]

end Hooks

/-- A payload comes back with its tensors of the same type, shape and elements. -/
theorem unpackPayload_packPayload {M : MsgPack} (hM : M.Inverse) (lib : Libraries)
    (payload : Tree Leaf) (hpayload : payload.All Leaf.Sendable Unreserved) :
    ∃ data unpacked, packPayload M payload = .ok data ∧
      unpackPayload M lib data = .ok unpacked ∧
      mapLeaves Leaf.content unpacked = mapLeaves Leaf.content payload := by
  obtain ⟨packed, hexpand, hplain, hrestore⟩ :=
    Tree.restore_expand (encode_returns lib) payload hpayload
  obtain ⟨data, hpack, hunpack⟩ := hM packed hplain
  refine ⟨data, mapLeaves Leaf.unpacked payload, ?_, ?_, ?_⟩
  · rw [packPayload, hexpand]
    exact hpack
  · rw [unpackPayload, hunpack]
    exact hrestore
  · rw [Tree.mapLeaves_mapLeaves]
    exact congrArg (mapLeaves · payload) (funext content_unpacked)

/-- MessagePack where it has a short form for everything in the tree. -/
def shortForms : MsgPack where
  packb := fun t => .ok (ShortForms.pack t)
  unpackb := fun data =>
    match ShortForms.unpack data.length data with
    | some (t, []) => .ok t
    | _ => .error .library

theorem shortForms_inverse : shortForms.Inverse := by
  intro t _
  have hunpack := ShortForms.unpack_pack t (ShortForms.pack t).length [] (Nat.le_refl _)
  rw [List.append_nil] at hunpack
  refine ⟨ShortForms.pack t, rfl, ?_⟩
  simp only [shortForms, hunpack]

/-- A transposed view of four elements, beside a tensor without any. -/
def samplePayload : Tree Leaf :=
  .map [("id", .leaf (.scalar (.str "a"))),
    ("x", .list [.leaf (.tensor ⟨.int16, [2, 2], [1, 2], 0, [[1, 0], [2, 0], [3, 0], [4, 0]],
      rfl, by decide, by decide, by decide⟩), .leaf (.scalar .none)]),
    ("y", .leaf (.tensor ⟨.bool, [0, 4], [4, 1], 0, [], rfl, by decide, by decide, by decide⟩))]

theorem unpackPayload_packPayload_sample : ∃ data unpacked,
    packPayload shortForms samplePayload = .ok data ∧
      unpackPayload shortForms zeroedLibraries data = .ok unpacked ∧
      mapLeaves Leaf.content unpacked = mapLeaves Leaf.content samplePayload := by
  have hnames : Unreserved ["id", "x", "y"] := ⟨by decide, by decide⟩
  exact unpackPayload_packPayload shortForms_inverse zeroedLibraries samplePayload
    ⟨hnames, trivial, ⟨rfl, trivial, trivial⟩, rfl, trivial⟩

end Distllm.Wire
