import RealmHnsw.Basic
/-!
# The persisted root

`save_to_storage` writes the whole index into a fresh root array: slot 0 the metadata
`[version, entry key, entry layer, dimension, M, ef_construction, ef_search]`, then one array per
node holding its info `[obj_key, layer]`, its vector as `int64` bit patterns, and one connection
array for each layer `0..layer`. `load_from_storage` reads it back when an index is opened.
-/

namespace RealmHnsw

/-- `memcpy` of a `double` into an `int64_t`. -/
def Double.toInt64 (d : Double) : Int :=
  if d.bits.toNat < 2 ^ 63 then d.bits.toNat else d.bits.toNat - 2 ^ 64

/-- `memcpy` of an `int64_t` into a `double`. -/
def Double.ofInt64 (x : Int) : Double := ⟨UInt64.ofNat (x % 2 ^ 64).toNat⟩

theorem Double.ofInt64_toInt64 (d : Double) : Double.ofInt64 d.toInt64 = d := by
  have hlt := d.bits.toNat_lt_size
  have : (d.toInt64 % 2 ^ 64).toNat = d.bits.toNat := by
    unfold Double.toInt64; split <;> simp only [UInt64.size] at hlt <;> omega
  rw [Double.ofInt64, this]
  exact congrArg Double.mk (UInt64.toNat.inj (UInt64.toNat_ofNat_of_lt hlt))

/-- `int64_t(x)` for a `size_t` `x`. -/
def int64OfSize (x : Nat) : Int :=
  if x % 2 ^ 64 < 2 ^ 63 then (x % 2 ^ 64 : Nat) else (x % 2 ^ 64 : Nat) - 2 ^ 64

/-- `static_cast<size_t>(x)` for an `int64_t` `x`. -/
def sizeOfInt64 (x : Int) : Nat := (x % 2 ^ 64).toNat

/-- `static_cast<int>(x)` for an `int64_t` `x`. -/
def intOfInt64 (x : Int) : Int := (x + 2 ^ 31) % 2 ^ 32 - 2 ^ 31

theorem sizeOfInt64_int64OfSize {x : Nat} (h : x < 2 ^ 64) : sizeOfInt64 (int64OfSize x) = x := by
  unfold sizeOfInt64 int64OfSize; split <;> omega

theorem intOfInt64_of_range {x : Int} (h₁ : -2 ^ 31 ≤ x) (h₂ : x < 2 ^ 31) : intOfInt64 x = x := by
  unfold intOfInt64; omega

/-! ## Arrays -/

namespace Arr

/-- `Array::size()`. -/
def size : Arr → Nat
  | .ints vs => vs.length
  | .refs cs => cs.length

/-- `Array::get(i)`, read where the code has checked `i < size()`. -/
def get : Arr → Nat → Except HnswError Int
  | .ints vs, i => .ok (vs.getD i 0)
  | .refs _, _ => .error .corruptRef

/-- `Array::get_as_ref(i)`: a null ref is `none`. -/
def getAsRef : Arr → Nat → Except HnswError (Option Arr)
  | .refs cs, i => .ok (cs.getD i none)
  | .ints vs, i => if vs.getD i 0 = 0 then .ok none else .error .corruptRef

/-- All the values of an `int64` array, in order. -/
def values (a : Arr) : Except HnswError (List Int) := (List.range a.size).mapM a.get

end Arr

/-! ## Saving -/

/-- The array `save_to_storage` writes for a node. -/
def nodeArray (n : Node) : Arr :=
  .refs (some (.ints [n.objKey, n.layer]) :: some (.ints (n.vector.map Double.toInt64)) ::
    (List.range (n.layer + 1).toNat).map fun l => some (.ints (n.connections.getD l [])))

/-- The metadata array, with `k_format_version = 1`. -/
def metadataArray (nullKey : Int) (idx : HNSWIndex) : Arr :=
  .ints [1, idx.entryPoint.getD nullKey, idx.entryPointLayer,
    int64OfSize idx.config.vectorDimension, int64OfSize idx.config.M,
    int64OfSize idx.config.efConstruction, int64OfSize idx.config.efSearch]

/-- `save_to_storage`: a new root built from the whole index replaces the old one. -/
def saveToStorage (nullKey : Int) (idx : HNSWIndex) : HNSWIndex :=
  { idx with array := .refs (some (metadataArray nullKey idx) :: idx.vectors.nodes.map (some ∘ nodeArray)) }

@[simp] theorem saveToStorage_vectors (nullKey : Int) (idx : HNSWIndex) :
    (saveToStorage nullKey idx).vectors = idx.vectors := rfl

@[simp] theorem saveToStorage_entryPoint (nullKey : Int) (idx : HNSWIndex) :
    (saveToStorage nullKey idx).entryPoint = idx.entryPoint := rfl

@[simp] theorem saveToStorage_entryPointLayer (nullKey : Int) (idx : HNSWIndex) :
    (saveToStorage nullKey idx).entryPointLayer = idx.entryPointLayer := rfl

/-- A second save writes the same root: the root is built from everything but itself. -/
@[simp] theorem saveToStorage_saveToStorage (nullKey : Int) (idx : HNSWIndex) :
    saveToStorage nullKey (saveToStorage nullKey idx) = saveToStorage nullKey idx := rfl

/-! ## Loading -/

/-- The connection arrays of a node array, for layers `0..layer` while slots last; a null ref
gives an empty list. -/
def loadConnections (a : Arr) (layer : Int) : Except HnswError (List (List Int)) :=
  (List.range (layer + 1).toNat).mapM fun l =>
    if 2 + l < a.size then do
      match ← a.getAsRef (2 + l) with
      | some conn => conn.values
      | none => pure []
    else pure []

/-- One node of `load_from_storage`; `none` for a node array with fewer than two slots. A node
whose info array is missing or short keeps the null key and an uninitialised layer, which
`connections.resize(layer + 1)` then reads; a negative `layer + 1` makes that resize throw. -/
def loadNode (nullKey : Int) (a : Arr) : Except HnswError (Option Node) :=
  if a.size < 2 then .ok none
  else do
    let info ← a.getAsRef 0
    let (key, layer) ← match info with
      | some info =>
        if 2 ≤ info.size then do
          let k ← info.get 0
          let l ← info.get 1
          pure (k, some (intOfInt64 l))
        else pure (nullKey, none)
      | none => pure (nullKey, none)
    let vector ← match ← a.getAsRef 1 with
      | some v => do
        let bits ← v.values
        pure (bits.map Double.ofInt64)
      | none => pure []
    let layer ← match layer with
      | some l => if l + 1 < 0 then .error .badAlloc else pure l
      | none => .error .uninitializedLayer
    let connections ← loadConnections a layer
    pure (some ⟨key, vector, layer, connections⟩)

/-- The node loop of `load_from_storage` over root slots `i`: null refs are skipped, and each
loaded node is stored under its key. -/
def loadNodes (nullKey : Int) (root : Arr) : List Nat → NodeMap → Except HnswError NodeMap
  | [], m => .ok m
  | i :: rest, m => do
    match ← root.getAsRef i with
    | none => loadNodes nullKey root rest m
    | some a =>
      match ← loadNode nullKey a with
      | some n => loadNodes nullKey root rest (m.insertOrAssign n)
      | none => loadNodes nullKey root rest m

/-- The metadata read of `load_from_storage`, with `REALM_ASSERT(version == k_format_version)`. -/
def loadMetadata (nullKey : Int) (md : Arr) (idx : HNSWIndex) : Except HnswError HNSWIndex :=
  if 7 ≤ md.size then do
    let version ← md.get 0
    if version ≠ 1 then .error (.assertVersion version)
    else do
      let ep ← md.get 1
      let epl ← md.get 2
      let dim ← md.get 3
      let mm ← md.get 4
      let efc ← md.get 5
      let efs ← md.get 6
      let config : Config := { idx.config with
        vectorDimension := sizeOfInt64 dim
        M := sizeOfInt64 mm
        efConstruction := sizeOfInt64 efc
        efSearch := sizeOfInt64 efs }
      pure { idx with
        entryPoint := if ep = nullKey then none else some ep
        entryPointLayer := intOfInt64 epl
        config := config }
  else .ok idx

/-- `load_from_storage`, into a fresh index on the root `idx.array`. -/
def loadFromStorage (nullKey : Int) (idx : HNSWIndex) : Except HnswError HNSWIndex :=
  if idx.array.size = 0 then .ok idx
  else do
    let idx ← match ← idx.array.getAsRef 0 with
      | some md => loadMetadata nullKey md idx
      | none => pure idx
    let m ← loadNodes nullKey idx.array (List.range' 1 (idx.array.size - 1)) idx.vectors
    pure { idx with vectors := m }

/-! ## Round trip -/

/-- A node as `load_from_storage` rebuilds it from its array: its lists at layers `0..layer`, and
none above. -/
def Node.persisted (n : Node) : Node :=
  { n with connections := (List.range (n.layer + 1).toNat).map fun l => n.connections.getD l [] }

theorem mapM_ok {α β : Type} (f : α → Except HnswError β) (g : α → β) :
    ∀ l : List α, (∀ x ∈ l, f x = .ok (g x)) → l.mapM f = .ok (l.map g)
  | [], _ => rfl
  | x :: xs, h => by
    rw [List.mapM_cons, h x (by simp), mapM_ok f g xs (fun y hy => h y (by simp [hy]))]
    rfl

theorem values_ints (vs : List Int) : (Arr.ints vs).values = .ok vs := by
  rw [Arr.values, mapM_ok (Arr.ints vs).get (fun i => vs.getD i 0) _ (fun _ _ => rfl)]
  congr 1
  refine List.ext_getElem (by simp [Arr.size]) fun i h₁ h₂ => ?_
  simp [List.getD_eq_getElem?_getD, List.getElem?_eq_getElem h₂]

theorem loadConnections_nodeArray (n : Node) :
    loadConnections (nodeArray n) n.layer =
      .ok ((List.range (n.layer + 1).toNat).map fun l => n.connections.getD l []) := by
  refine mapM_ok _ _ _ fun l hl => ?_
  have hl : l < (n.layer + 1).toNat := List.mem_range.1 hl
  have hsize : 2 + l < (nodeArray n).size := by simp [nodeArray, Arr.size]; omega
  rw [if_pos hsize]
  simp [nodeArray, Arr.getAsRef, List.getD_eq_getElem?_getD, List.getElem?_range hl,
    show 2 + l = l + 1 + 1 by omega, values_ints]

/-- A node's array loads back as the node, up to its lists above its layer. -/
theorem loadNode_nodeArray (nullKey : Int) (n : Node) (h₁ : -1 ≤ n.layer) (h₂ : n.layer < 2 ^ 31) :
    loadNode nullKey (nodeArray n) = .ok (some n.persisted) := by
  have hv : (n.vector.map Double.toInt64).map Double.ofInt64 = n.vector := by
    simp [Function.comp_def, Double.ofInt64_toInt64]
  have hl : intOfInt64 n.layer = n.layer := intOfInt64_of_range (by omega) h₂
  have hs : ¬(nodeArray n).size < 2 := by simp [nodeArray, Arr.size]
  have h0 : (nodeArray n).getAsRef 0 = .ok (some (.ints [n.objKey, n.layer])) := rfl
  have h1 : (nodeArray n).getAsRef 1 = .ok (some (.ints (n.vector.map Double.toInt64))) := rfl
  simp only [loadNode, hs, if_false, h0, h1, ok_bind, Arr.size, Arr.get, pure_except, values_ints, hv,
    hl, List.length_cons, List.length_nil, Nat.reduceAdd, le_refl, if_true, List.getD_cons_zero,
    List.getD_cons_succ, show ¬n.layer + 1 < 0 by omega]
  rw [loadConnections_nodeArray, ok_bind]
  rfl

/-- A node and its persisted form write the same array. -/
theorem nodeArray_persisted (n : Node) : nodeArray n.persisted = nodeArray n := by
  simp only [nodeArray, Node.persisted]
  congr 3
  refine List.map_congr_left fun l hl => ?_
  rw [List.mem_range] at hl
  simp [List.getD_eq_getElem?_getD, List.getElem?_range hl]

/-- The map `load_from_storage` rebuilds from a saved map. -/
def NodeMap.persisted (m : NodeMap) : NodeMap :=
  ⟨m.nodes.map Node.persisted, NodeMap.nodup_map_of_key _ (fun _ => rfl) m.nodup⟩

/-- The `size_t` fields of a configuration are `size_t` values. -/
def Config.Fits (c : Config) : Prop :=
  c.M < 2 ^ 64 ∧ c.M0 < 2 ^ 64 ∧ c.efConstruction < 2 ^ 64 ∧ c.efSearch < 2 ^ 64 ∧
    c.vectorDimension < 2 ^ 64

instance (c : Config) : Decidable c.Fits := inferInstanceAs (Decidable (_ ∧ _ ∧ _ ∧ _ ∧ _))

theorem Config.default_fits (metric : DistanceMetric) : (Config.default metric).Fits := by
  simp [Config.Fits, Config.default]

theorem NodeMap.insertOrAssign_nodes_of_fresh (m : NodeMap) (n : Node) (h : n.objKey ∉ m.keys) :
    (m.insertOrAssign n).nodes = m.nodes ++ [n] := by
  unfold insertOrAssign; split
  · contradiction
  · rfl

theorem loadNodes_saved (nullKey : Int) (pre : List (Option Arr)) (ns : List Node) (m : NodeMap)
    (hl : ∀ n ∈ ns, -1 ≤ n.layer ∧ n.layer < 2 ^ 31) (hk : ((m.nodes ++ ns).map (·.objKey)).Nodup) :
    ∃ m', loadNodes nullKey (.refs (pre ++ ns.map (some ∘ nodeArray))) (List.range' pre.length ns.length) m
      = .ok m' ∧ m'.nodes = m.nodes ++ ns.map Node.persisted := by
  induction ns generalizing pre m with
  | nil => exact ⟨m, rfl, by simp⟩
  | cons n ns ih =>
    have hn := hl n (by simp)
    have fresh : n.persisted.objKey ∉ m.keys := by
      simp only [List.map_append, List.map_cons, List.nodup_append, List.nodup_cons] at hk
      exact fun h => hk.2.2 h (List.mem_cons_self _ _)
    obtain ⟨m', h, hm'⟩ := ih (pre ++ [some (nodeArray n)]) (m.insertOrAssign n.persisted)
      (fun x hx => hl x (by simp [hx]))
      (by rw [NodeMap.insertOrAssign_nodes_of_fresh _ _ fresh]; simpa [Node.persisted] using hk)
    refine ⟨m', ?_, by rw [hm', NodeMap.insertOrAssign_nodes_of_fresh _ _ fresh]; simp⟩
    have hget : (Arr.refs (pre ++ (n :: ns).map (some ∘ nodeArray))).getAsRef pre.length =
        .ok (some (nodeArray n)) := by
      simp [Arr.getAsRef, List.getD_eq_getElem?_getD, List.getElem?_append_right (le_refl _)]
    simp only [List.length_cons, List.range'_succ, loadNodes, hget, ok_bind,
      loadNode_nodeArray nullKey n hn.1 hn.2]
    simpa using h

/-- Opening an index on the root `save_to_storage` wrote gives back the index, except that each
node keeps only its lists at layers `0..layer`. -/
theorem loadFromStorage_saved (nullKey : Int) (idx : HNSWIndex) (c : Config)
    (hl : ∀ n ∈ idx.vectors.nodes, -1 ≤ n.layer ∧ n.layer < 2 ^ 31)
    (he : idx.entryPoint ≠ some nullKey) (hel₁ : -2 ^ 31 ≤ idx.entryPointLayer)
    (hel₂ : idx.entryPointLayer < 2 ^ 31) (hc : idx.config.Fits) :
    loadFromStorage nullKey ⟨c, (saveToStorage nullKey idx).array, .empty, none, -1⟩ =
      .ok ⟨{ c with
              vectorDimension := idx.config.vectorDimension
              M := idx.config.M
              efConstruction := idx.config.efConstruction
              efSearch := idx.config.efSearch },
        (saveToStorage nullKey idx).array, idx.vectors.persisted, idx.entryPoint,
        idx.entryPointLayer⟩ := by
  obtain ⟨m', hload, hm'⟩ := loadNodes_saved nullKey [some (metadataArray nullKey idx)]
    idx.vectors.nodes .empty hl (by simpa [NodeMap.empty] using idx.vectors.nodup)
  obtain ⟨h1, -, h3, h4, h5⟩ := hc
  have hep : (if idx.entryPoint.getD nullKey = nullKey then none else some (idx.entryPoint.getD nullKey))
      = idx.entryPoint := by
    cases h : idx.entryPoint with
    | none => simp
    | some e => simp only [Option.getD_some]; rw [if_neg (fun h' => he (by rw [h, h']))]
  simp only [loadFromStorage, saveToStorage, Arr.size, List.length_cons, List.length_map,
    Nat.add_one_ne_zero, if_false, Arr.getAsRef, List.getD_cons_zero, ok_bind, loadMetadata,
    metadataArray, Arr.get]
  simp only [List.getD_eq_getElem?_getD, List.getElem?_cons_zero, List.getElem?_cons_succ,
    Option.getD_some, Nat.add_sub_cancel, ne_eq, not_true_eq_false, if_false, ok_bind,
    sizeOfInt64_int64OfSize h1, sizeOfInt64_int64OfSize h3, sizeOfInt64_int64OfSize h4,
    sizeOfInt64_int64OfSize h5, intOfInt64_of_range hel₁ hel₂, hep, List.length_nil, Nat.reduceAdd,
    le_refl, if_true, pure_except, List.length_cons, List.length_map]
  rw [show [some (metadataArray nullKey idx)].length = 1 from rfl] at hload
  simp only [show ([some (metadataArray nullKey idx)] ++ idx.vectors.nodes.map (some ∘ nodeArray)) =
    some (metadataArray nullKey idx) :: idx.vectors.nodes.map (some ∘ nodeArray) from rfl] at hload
  simp only [metadataArray] at hload
  have hm : m' = idx.vectors.persisted := NodeMap.ext (by simpa [NodeMap.empty] using hm')
  rw [hload, ok_bind, hm]

/-- `HNSWIndex(ref, parent, ndx, target_column, alloc, config)`: an index opened on a persisted
root, normalised after loading. -/
def HNSWIndex.open (nullKey : Int) (root : Arr) (config : Config) : Except HnswError HNSWIndex :=
  (loadFromStorage nullKey ⟨config, root, .empty, none, -1⟩).map fun idx =>
    { idx with config := idx.config.normalize }

end RealmHnsw
