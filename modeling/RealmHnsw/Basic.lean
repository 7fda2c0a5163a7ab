import Mathlib
/-!
# The HNSW index: data model

`HNSWIndex` (`realm/index_hnsw.hpp`) keeps its graph in `m_vectors`, an `unordered_map` from row
key to `Node`, beside an entry point, its layer and the persisted root array. A row key (`ObjKey`)
is its `int64` value and the null `ObjKey()` is `none`. A `double` is its IEEE-754 bit pattern,
which is what the index persists; the floating-point operations of the distance kernels are taken
as given (`Fpu`): the index logic is modelled, the floating-point unit is not.
-/

namespace RealmHnsw

/-- A C++ `double`, as its bit pattern. -/
structure Double where
  bits : UInt64
deriving DecidableEq, Repr

namespace Double

/-- `0.0`. -/
def zero : Double := ⟨0⟩

/-- `1.0`. -/
def one : Double := ⟨0x3FF0000000000000⟩

end Double

/-- The `double` operations the kernels and the searches perform. -/
structure Fpu where
  add : Double → Double → Double
  sub : Double → Double → Double
  mul : Double → Double → Double
  div : Double → Double → Double
  neg : Double → Double
  sqrt : Double → Double
  lt : Double → Double → Bool
  eq : Double → Double → Bool

/-- What the index takes from outside: the floating-point unit, and the `int64` value of the null
`ObjKey()` (`realm/keys.hpp` is not among the sources). -/
structure Env where
  fpu : Fpu
  nullKey : Int

/-- `DistanceMetric` (`hnsw_config.hpp`). -/
inductive DistanceMetric
  | euclidean
  | cosine
  | dotProduct
deriving DecidableEq, Repr

/-- `HNSWIndexConfig`. `ml` and `random_seed` only feed the layer draw of `select_layer`, which
the model takes as an input, so they are left out. -/
structure Config where
  metric : DistanceMetric
  M : Nat
  M0 : Nat
  efConstruction : Nat
  efSearch : Nat
  vectorDimension : Nat
deriving DecidableEq, Repr

namespace Config

/-- `HNSWIndexConfig(metric)`. -/
def default (metric : DistanceMetric) : Config := ⟨metric, 16, 32, 200, 50, 0⟩

/-- What both constructors do to the configuration: `M0 == 0` becomes `2·M` and
`ef_search == 0` becomes `max(64, 8·M)`, in `size_t` arithmetic. -/
def normalize (c : Config) : Config :=
  { c with M0 := if c.M0 = 0 then c.M * 2 % 2 ^ 64 else c.M0,
           efSearch := if c.efSearch = 0 then max 64 (c.M * 8 % 2 ^ 64) else c.efSearch }

/-- `(layer == 0) ? m_config.M0 : m_config.M`, the neighbour cap of `insert` and
`prune_connections`. -/
def maxConn (c : Config) (layer : Nat) : Nat := if layer = 0 then c.M0 else c.M

end Config

/-- `HNSWIndex::Node`: `connections[l]` lists the neighbours at layer `l`. -/
structure Node where
  objKey : Int
  vector : List Double
  layer : Int
  connections : List (List Int)
deriving DecidableEq, Repr

/-! ## The node map -/

/-- `m_vectors`. Every write stores a node under its own `obj_key`, so the map is a list of nodes
with distinct keys; the list order stands for the map's iteration order. -/
@[ext]
structure NodeMap where
  nodes : List Node
  nodup : (nodes.map (·.objKey)).Nodup

instance : DecidableEq NodeMap := fun a b =>
  decidable_of_iff (a.nodes = b.nodes) ⟨NodeMap.ext, fun h => h ▸ rfl⟩

namespace NodeMap

theorem nodup_map_of_key {l : List Node} (f : Node → Node) (hf : ∀ x, (f x).objKey = x.objKey)
    (h : (l.map (·.objKey)).Nodup) : ((l.map f).map (·.objKey)).Nodup := by
  rwa [List.map_map, show ((·.objKey) ∘ f) = (·.objKey) from funext hf]

/-- An empty `m_vectors`. -/
def empty : NodeMap := ⟨[], List.nodup_nil⟩

/-- `m_vectors.find(k)`. -/
def find (m : NodeMap) (k : Int) : Option Node := m.nodes.find? (·.objKey == k)

/-- `m_vectors[n.obj_key.value] = n`: replaces the node under that key, or adds one. -/
def insertOrAssign (m : NodeMap) (n : Node) : NodeMap :=
  if h : n.objKey ∈ m.nodes.map (·.objKey) then
    ⟨m.nodes.map (fun x => if x.objKey = n.objKey then n else x),
      nodup_map_of_key _ (fun x => by split <;> simp_all) m.nodup⟩
  else
    ⟨m.nodes ++ [n], by
      rw [List.map_append, List.nodup_append]
      exact ⟨m.nodup, List.nodup_singleton _, by simpa using h⟩⟩

/-- `m_vectors.erase(k)`. -/
def erase (m : NodeMap) (k : Int) : NodeMap :=
  ⟨m.nodes.filter (·.objKey ≠ k), m.nodup.sublist ((List.filter_sublist _).map _)⟩

/-- Changes the connections of the node under `k`, as a write through its `Node&` does. -/
def modify (m : NodeMap) (k : Int) (f : List (List Int) → List (List Int)) : NodeMap :=
  ⟨m.nodes.map (fun x => if x.objKey = k then { x with connections := f x.connections } else x),
    nodup_map_of_key _ (fun x => by split <;> rfl) m.nodup⟩

/-- `m_vectors[k].connections[l]`, or empty when there is no such node or list. -/
def conns (m : NodeMap) (k : Int) (l : Nat) : List Int :=
  match m.find k with
  | some n => n.connections.getD l []
  | none => []

/-- The row keys. -/
def keys (m : NodeMap) : List Int := m.nodes.map (·.objKey)

theorem find_eq_some {m : NodeMap} {k : Int} {n : Node} :
    m.find k = some n ↔ n ∈ m.nodes ∧ n.objKey = k := by
  constructor
  · intro h
    exact ⟨List.mem_of_find?_eq_some h, by simpa using List.find?_some h⟩
  · rintro ⟨hn, rfl⟩
    obtain ⟨x, hx⟩ : ∃ x, m.find n.objKey = some x :=
      Option.isSome_iff_exists.1 (List.find?_isSome.2 ⟨n, hn, by simp⟩)
    have hk : x.objKey = n.objKey := by simpa using List.find?_some hx
    rw [hx, List.inj_on_of_nodup_map m.nodup (List.mem_of_find?_eq_some hx) hn hk]

theorem find_eq_none {m : NodeMap} {k : Int} : m.find k = none ↔ k ∉ m.keys := by
  simp [find, keys, List.find?_eq_none]

theorem mem_keys {m : NodeMap} {k : Int} : k ∈ m.keys ↔ ∃ n, m.find k = some n := by
  simp only [keys, List.mem_map, find_eq_some]

theorem find_key {m : NodeMap} {k : Int} {n : Node} (h : m.find k = some n) : n.objKey = k :=
  (find_eq_some.1 h).2

/-- Looking up a key after a write that keeps every key. -/
theorem find_map {m : NodeMap} (f : Node → Node) (hf : ∀ x, (f x).objKey = x.objKey) (j : Int) :
    (m.nodes.map f).find? (·.objKey == j) = (m.find j).map f := by
  have : ((·.objKey == j) ∘ f) = (·.objKey == j) := funext fun x => by simp [hf]
  rw [List.find?_map, this]; rfl

@[simp] theorem empty_find (k : Int) : empty.find k = none := rfl

@[simp] theorem modify_find (m : NodeMap) (k j : Int) (f) :
    (m.modify k f).find j = (m.find j).map
      (fun x => if j = k then { x with connections := f x.connections } else x) := by
  rw [modify, find, find_map _ (fun x => by split <;> rfl)]
  cases h : m.find j with
  | none => rfl
  | some x => simp [find_key h]

@[simp] theorem erase_find (m : NodeMap) (k j : Int) :
    (m.erase k).find j = if j = k then none else m.find j := by
  split
  · subst_vars
    exact find_eq_none.2 (by simp [keys, erase])
  · cases h : m.find j with
    | none =>
      refine find_eq_none.2 fun hm => ?_
      obtain ⟨x, hx, rfl⟩ := List.mem_map.1 hm
      exact absurd (find_eq_some.2 ⟨(List.mem_filter.1 hx).1, rfl⟩) (by simp [h])
    | some n =>
      obtain ⟨hn, rfl⟩ := find_eq_some.1 h
      exact find_eq_some.2 ⟨List.mem_filter.2 ⟨hn, by simpa⟩, rfl⟩

@[simp] theorem insertOrAssign_find (m : NodeMap) (n : Node) (j : Int) :
    (m.insertOrAssign n).find j = if j = n.objKey then some n else m.find j := by
  unfold insertOrAssign
  split
  · rename_i hmem
    rw [find, find_map _ (fun x => by split <;> simp_all)]
    obtain ⟨y, hy, hyk⟩ := List.mem_map.1 hmem
    split
    · subst_vars
      rw [find_eq_some.2 ⟨hy, hyk⟩]; simp [hyk]
    · cases h : m.find j with
      | none => rfl
      | some x => simp [find_key h, *]
  · rename_i hmem
    split
    · subst_vars
      have h : m.find n.objKey = none := find_eq_none.2 hmem
      simp only [find] at h ⊢
      simp [List.find?_append, h]
    · have : ¬n.objKey = j := Ne.symm ‹_›
      simp [find, List.find?_append, this]

@[simp] theorem modify_keys (m : NodeMap) (k : Int) (f) : (m.modify k f).keys = m.keys := by
  simp only [keys, modify, List.map_map]
  exact List.map_congr_left (fun x _ => by simp only [Function.comp]; split <;> rfl)

theorem conns_eq (m : NodeMap) (k : Int) (l : Nat) :
    m.conns k l = ((m.find k).map fun n => n.connections.getD l []).getD [] := by
  unfold conns; cases m.find k <;> rfl

@[simp] theorem modify_conns (m : NodeMap) (k j : Int) (f) (l : Nat) :
    (m.modify k f).conns j l =
      if j = k then ((m.find j).map fun n => (f n.connections).getD l []).getD []
      else m.conns j l := by
  rw [conns_eq, conns_eq, modify_find]
  cases m.find j <;> by_cases j = k <;> simp_all

end NodeMap

/-! ## The index -/

/-- A block-arena array: `type_Normal` holds `int64` values, `type_HasRefs` refs to other arrays
(`none` for a null ref). -/
inductive Arr where
  | ints (values : List Int)
  | refs (children : List (Option Arr))
deriving Repr

/-- `HNSWIndex`'s state: `m_config`, `m_array` (the persisted root), `m_vectors`,
`m_entry_point` and `m_entry_point_layer`. -/
structure HNSWIndex where
  config : Config
  array : Arr
  vectors : NodeMap
  entryPoint : Option Int
  entryPointLayer : Int

/-- `HNSWIndex(target_column, alloc, config)`: no nodes, on a new empty root array. -/
def HNSWIndex.create (config : Config) : HNSWIndex := ⟨config.normalize, .refs [], .empty, none, -1⟩

/-- What a call raises. -/
inductive HnswError where
  /-- `InvalidArgument(ErrorCodes::InvalidQuery, ...)` from `validate_vector_dimension`. -/
  | dimensionMismatch (expected actual : Nat)
  /-- A distance kernel called on vectors of two lengths: the kernels read `v2[i]` for every
  index of `v1` and are written for one length only (no defensive check). -/
  | kernelLengths (len1 len2 : Nat)
  /-- `REALM_ASSERT(version == k_format_version)` failing in `load_from_storage`. -/
  | assertVersion (version : Int)
  /-- `load_from_storage` reading `Node::layer`, which no slot of the node array initialised. -/
  | uninitializedLayer
  /-- `connections.resize(layer + 1)` in `load_from_storage` with a negative count, which
  `std::vector` rejects (`std::length_error`). -/
  | badAlloc
  /-- An `int64` slot read as a ref, or a ref slot read as an `int64`. -/
  | corruptRef
deriving DecidableEq, Repr

/-- The text `what()` gives. -/
def HnswError.message : HnswError → String
  | .dimensionMismatch e a =>
    "Vector dimension mismatch: expected " ++ toString e ++ " but got " ++ toString a
  | .kernelLengths _ _ => "distance kernel on vectors of two lengths"
  | .assertVersion _ => "Assertion failed: version == k_format_version"
  | .uninitializedLayer => "read of an uninitialized Node::layer"
  | .badAlloc => "vector::_M_default_append"
  | .corruptRef => "corrupt ref"

/-! ## Calls that throw -/

@[simp] theorem ok_bind {ε α β : Type} (a : α) (f : α → Except ε β) : (Except.ok a >>= f) = f a := rfl

@[simp] theorem error_bind {ε α β : Type} (e : ε) (f : α → Except ε β) :
    (Except.error e >>= f) = Except.error e := rfl

@[simp] theorem pure_except {ε α : Type} (a : α) : (pure a : Except ε α) = Except.ok a := rfl

/-- A call that returned went through each step it sequenced. -/
theorem bind_eq_ok {ε α β : Type} {x : Except ε α} {f : α → Except ε β} {r : β}
    (h : (x >>= f) = .ok r) : ∃ a, x = .ok a ∧ f a = .ok r := by
  cases x with
  | error e => cases h
  | ok a => exact ⟨a, rfl, h⟩

/-- A sequence of calls returns when each of them does. -/
theorem bind_ok {ε α β : Type} {x : Except ε α} {f : α → Except ε β} (hx : ∃ a, x = .ok a)
    (hf : ∀ a, ∃ r, f a = .ok r) : ∃ r, (x >>= f) = .ok r := by
  obtain ⟨a, rfl⟩ := hx
  exact hf a

/-! ## Kernels and validation -/

section Kernels

variable (fpu : Fpu)

/-- `euclidean_distance`: `sqrt(Σ (v1[i] - v2[i])²)`. -/
def euclideanDistance (v1 v2 : List Double) : Double :=
  fpu.sqrt ((v1.zip v2).foldl
    (fun sum p => let diff := fpu.sub p.1 p.2; fpu.add sum (fpu.mul diff diff)) Double.zero)

/-- `cosine_distance`: `1 - dot / (‖v1‖·‖v2‖)`, and `1.0` when a norm is zero. -/
def cosineDistance (v1 v2 : List Double) : Double :=
  let acc := (v1.zip v2).foldl (fun (a : Double × Double × Double) p =>
    (fpu.add a.1 (fpu.mul p.1 p.2), fpu.add a.2.1 (fpu.mul p.1 p.1), fpu.add a.2.2 (fpu.mul p.2 p.2)))
    (Double.zero, Double.zero, Double.zero)
  if fpu.eq acc.2.1 Double.zero || fpu.eq acc.2.2 Double.zero then Double.one
  else fpu.sub Double.one (fpu.div acc.1 (fpu.mul (fpu.sqrt acc.2.1) (fpu.sqrt acc.2.2)))

/-- `dot_product_distance`: `-(v1 · v2)`. -/
def dotProductDistance (v1 v2 : List Double) : Double :=
  fpu.neg ((v1.zip v2).foldl (fun dot p => fpu.add dot (fpu.mul p.1 p.2)) Double.zero)

/-- `compute_distance`. The kernels loop over the indices of `v1` and read `v2[i]`; a call on two
lengths is outside what they are written for, and the model makes it a fault. -/
def computeDistance (metric : DistanceMetric) (v1 v2 : List Double) : Except HnswError Double :=
  if v1.length = v2.length then
    .ok (match metric with
      | .euclidean => euclideanDistance fpu v1 v2
      | .cosine => cosineDistance fpu v1 v2
      | .dotProduct => dotProductDistance fpu v1 v2)
  else .error (.kernelLengths v1.length v2.length)

theorem computeDistance_ok {metric : DistanceMetric} {v1 v2 : List Double}
    (h : v1.length = v2.length) : ∃ d, computeDistance fpu metric v1 v2 = .ok d :=
  ⟨_, if_pos h⟩

end Kernels

/-- `validate_vector_dimension`: the first vector fixes the dimension (through a `const_cast`),
every later one must have it. Gives the dimension after the call. -/
def validateVectorDimension (dim : Nat) (v : List Double) : Except HnswError Nat :=
  if dim = 0 then .ok v.length
  else if v.length ≠ dim then .error (.dimensionMismatch dim v.length)
  else .ok dim

theorem validateVectorDimension_eq_ok {dim d : Nat} {v : List Double} :
    validateVectorDimension dim v = .ok d ↔ d = v.length ∧ (dim = 0 ∨ v.length = dim) := by
  unfold validateVectorDimension
  split
  · simp_all [eq_comm]
  · split <;> simp_all [eq_comm]

theorem validateVectorDimension_eq_error {dim : Nat} {v : List Double} {e : HnswError} :
    validateVectorDimension dim v = .error e ↔
      e = .dimensionMismatch dim v.length ∧ dim ≠ 0 ∧ v.length ≠ dim := by
  unfold validateVectorDimension
  split
  · simp_all
  · split <;> simp_all [eq_comm]

/-- `select_layer`: the draw `static_cast<int>(-log(r) * ml)`, capped at `k_max_layer_cap = 32`.
The draw is an input of the model, and a `Nat`: this assumes `ml >= 0` and `r > 0`. Neither is
checked by the code. `m_config.ml` is a public `double` that nothing validates, and a negative one
gives a negative layer. `uniform_real_distribution(0.0, 1.0)` samples `[0, 1)`, and `r = 0` gives
`-log(0) = inf`, whose conversion to `int` is undefined. -/
def selectLayer (draw : Nat) : Nat := min draw 32

end RealmHnsw
