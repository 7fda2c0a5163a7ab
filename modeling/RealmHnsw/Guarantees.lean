import RealmHnsw.Invariants
/-!
# What a reachable index guarantees

From `Reachable.inv`: the entry point is a node of greatest layer, every adjacency list is within
its cap, every distance call of a write or a search pairs two vectors of one length, and
reopening an index on its root gives it back up to the lists above each node's layer.
-/

namespace RealmHnsw

/-- The call made no `compute_distance` call on vectors of two lengths: no kernel read past the
end of its second vector. -/
def KernelSafe {α : Type} (r : Except HnswError α) : Prop :=
  ∀ a b, r ≠ .error (.kernelLengths a b)

theorem KernelSafe.of_ok {α : Type} {r : Except HnswError α} (h : ∃ a, r = .ok a) : KernelSafe r := by
  obtain ⟨a, rfl⟩ := h
  intro _ _ h
  cases h

/-- A call that validates its vector first is safe when everything after a successful
validation returns. -/
theorem KernelSafe.validate_bind {α : Type} {dim : Nat} {v : List Double}
    {f : Nat → Except HnswError α}
    (h : ∀ d, validateVectorDimension dim v = .ok d → ∃ r, f d = .ok r) :
    KernelSafe (validateVectorDimension dim v >>= f) := by
  cases hv : validateVectorDimension dim v with
  | error e =>
    intro a b he
    rw [(validateVectorDimension_eq_error.1 hv).1] at he
    cases he
  | ok d => exact .of_ok (h d hv)

theorem HNSWIndex.DimOk.allDim {idx : HNSWIndex} (h : idx.DimOk) :
    idx.vectors.AllDim idx.config.vectorDimension :=
  fun _ n hn => h.1 n (NodeMap.find_eq_some.1 hn).1

/-- In a non-empty index, a vector that passes validation has the index dimension. -/
theorem HNSWIndex.DimOk.validated {idx : HNSWIndex} (h : idx.DimOk) (hne : idx.vectors.nodes ≠ [])
    {v : List Double} {d : Nat} (hv : validateVectorDimension idx.config.vectorDimension v = .ok d) :
    idx.vectors.AllDim v.length := by
  obtain ⟨-, h0 | h0⟩ := validateVectorDimension_eq_ok.1 hv
  · exact absurd (h.2 hne) (by omega)
  · exact h0 ▸ h.allDim

section

variable {env : Env} {cfg : Config} {idx : HNSWIndex} {query : List Double}

/-- `insert` on an index whose vectors have its dimension returns once its vector passes
validation, whatever the key and the draw. -/
theorem insert_ok (hd : idx.DimOk) {key : Int} {vector : List Double} {d : Nat}
    (hv : validateVectorDimension idx.config.vectorDimension vector = .ok d) (draw : Nat) :
    ∃ idx', insert env key vector draw idx = .ok idx' := by
  unfold insert
  split
  · exact ⟨_, rfl⟩
  · rw [hv, ok_bind]
    obtain ⟨rfl, -⟩ := validateVectorDimension_eq_ok.1 hv
    split
    · exact ⟨_, rfl⟩
    · rename_i hne
      have hm := hd.validated (by simpa using hne) hv
      have hm' : (idx.vectors.insertOrAssign (newNode key vector (selectLayer draw))).AllDim
          vector.length := by
        intro k n hn
        rw [NodeMap.insertOrAssign_find] at hn
        split at hn
        · cases hn; rfl
        · exact hm k n hn
      exact bind_ok (descend_ok env hm _ _ _) fun _ =>
        bind_ok (linkLayers_ok _ hm' _) fun _ => ⟨_, rfl⟩

/-- `insert` on an index whose vectors have its dimension makes no distance call on two lengths,
whatever the key: it returns, or `validate_vector_dimension` throws. -/
theorem insert_kernelSafe (hd : idx.DimOk) (key : Int) (vector : List Double) (draw : Nat) :
    KernelSafe (insert env key vector draw idx) := by
  cases hv : validateVectorDimension idx.config.vectorDimension vector with
  | ok d => exact .of_ok (insert_ok hd hv draw)
  | error e =>
    intro a b h
    unfold insert at h
    split at h
    · cases h
    · rw [hv, error_bind, (validateVectorDimension_eq_error.1 hv).1] at h
      cases h

theorem searchKnn_ok (hm : idx.vectors.AllDim query.length)
    (hv : ∃ d, validateVectorDimension idx.config.vectorDimension query = .ok d) (k efSearch : Nat) :
    ∃ r, searchKnn env idx query k efSearch = .ok r := by
  unfold searchKnn
  split
  · exact ⟨_, rfl⟩
  · split
    · exact ⟨_, rfl⟩
    · exact bind_ok hv fun _ => bind_ok (descend_ok env hm _ _ _) fun _ =>
        bind_ok (searchLayerWithDistances_ok hm _ _ _) fun _ => ⟨_, rfl⟩

theorem searchKnn_kernelSafe (hd : idx.DimOk) (query : List Double) (k efSearch : Nat) :
    KernelSafe (searchKnn env idx query k efSearch) := by
  unfold searchKnn
  split
  · exact .of_ok ⟨_, rfl⟩
  · split
    · exact .of_ok ⟨_, rfl⟩
    · refine .validate_bind fun d hv => ?_
      have hm := hd.validated (by simp_all) hv
      exact bind_ok (descend_ok env hm _ _ _) fun _ =>
        bind_ok (searchLayerWithDistances_ok hm _ _ _) fun _ => ⟨_, rfl⟩

theorem searchRadius_kernelSafe (hd : idx.DimOk) (query : List Double) (maxDistance : Double) :
    KernelSafe (searchRadius env idx query maxDistance) := by
  unfold searchRadius
  split
  · exact .of_ok ⟨_, rfl⟩
  · split
    · exact .of_ok ⟨_, rfl⟩
    · refine .validate_bind fun d hv => ?_
      have hm := hd.validated (by simp_all) hv
      obtain ⟨rfl, -⟩ := validateVectorDimension_eq_ok.1 hv
      exact bind_ok (@searchKnn_ok env { idx with config.vectorDimension := query.length } query hm
        ⟨_, validateVectorDimension_eq_ok.2 ⟨rfl, .inr rfl⟩⟩ _ _)
        fun ⟨_, _⟩ => ⟨_, rfl⟩

/-! ## Every reachable index -/

/-- The entry point of a reachable index is the null key at layer `-1` when the map is empty, and
otherwise a present node whose layer is `m_entry_point_layer`, the greatest of all. -/
theorem entryPoint_of_reachable (h : Reachable env cfg idx) : idx.EntryOk :=
  h.inv.entry

theorem entryPoint_of_reachable_four :
    Reachable Env.integral (Config.default .euclidean) fourInserts ∧ fourInserts.EntryOk :=
  ⟨reachable_fourInserts, entryPoint_of_reachable reachable_fourInserts⟩

/-- Every adjacency list a node of a reachable index holds is within the cap of its layer, `M0` at
layer 0 and `M` above. -/
theorem connections_capped_of_reachable (h : Reachable env cfg idx) :
    ∀ n ∈ idx.vectors.nodes, ∀ l (hl : l < n.connections.length),
      n.connections[l].length ≤ idx.config.maxConn l := by
  intro n hn l hl
  have := h.inv.capped n.objKey l
  rwa [NodeMap.conns_eq, NodeMap.find_eq_some.2 ⟨hn, rfl⟩, Option.map_some', Option.getD_some,
    List.getD_eq_getElem _ _ hl] at this

theorem connections_capped_of_reachable_four :
    Reachable Env.integral (Config.default .euclidean) fourInserts ∧
      ∀ n ∈ fourInserts.vectors.nodes, ∀ l (hl : l < n.connections.length),
        n.connections[l].length ≤ fourInserts.config.maxConn l :=
  ⟨reachable_fourInserts, connections_capped_of_reachable reachable_fourInserts⟩

/-- In a reachable index every vector has the index dimension, which is positive once a node is
stored; so no `insert`, `set`, `search_knn` or `search_radius` call makes a distance call on two
lengths. -/
theorem distance_lengths_of_reachable (h : Reachable env cfg idx) :
    idx.DimOk ∧
      (∀ key vector draw, KernelSafe (insert env key vector draw idx)) ∧
      (∀ key vector draw a b, (set env key vector draw idx).2 ≠ some (.kernelLengths a b)) ∧
      (∀ query k efSearch, KernelSafe (searchKnn env idx query k efSearch)) ∧
      (∀ query maxDistance, KernelSafe (searchRadius env idx query maxDistance)) := by
  have hi := h.inv
  refine ⟨hi.dim, insert_kernelSafe hi.dim, fun key vector draw a b => ?_, searchKnn_kernelSafe hi.dim,
    searchRadius_kernelSafe hi.dim⟩
  unfold set
  split
  · nofun
  · rename_i e he
    intro h'
    cases h'
    exact insert_kernelSafe (hi.erase key).dim key vector draw a b he

theorem distance_lengths_of_reachable_four :
    Reachable Env.integral (Config.default .euclidean) fourInserts ∧ fourInserts.DimOk ∧
      KernelSafe (insert Env.integral 5 [Double.one] 0 fourInserts) ∧
      KernelSafe (searchKnn Env.integral fourInserts [Double.one] 2 0) :=
  have h := distance_lengths_of_reachable reachable_fourInserts
  ⟨reachable_fourInserts, h.1, h.2.1 5 [Double.one] 0, h.2.2.2.1 [Double.one] 2 0⟩

/-- Opening an index on the root of a reachable index, with a configuration of the metric and `M0`
it was created with. A fresh index's root is empty, as `save_to_storage` never wrote it: opening
it gives a fresh index of the supplied configuration. Every other root is one `save_to_storage`
wrote, and opening it gives the index back except that each node keeps only its adjacency lists
at layers `0..layer`: the same keys, vectors, layers and lists up to each node's layer, the same
entry point and entry layer, and the dimension, `M`, `ef_construction` and `ef_search` that the
metadata restores, whatever the supplied configuration holds. -/
theorem reopen_of_reachable (h : Reachable env cfg idx) (c : Config) (hm : c.metric = cfg.metric)
    (hM0 : c.M0 = cfg.M0) :
    HNSWIndex.open env.nullKey idx.array c =
      .ok (if idx.array.size = 0 then HNSWIndex.create c
        else { idx with vectors := idx.vectors.persisted }) ∧
    (idx.array.size = 0 ↔ idx = HNSWIndex.create cfg) := by
  have hi := h.inv
  rcases hi.saved with rfl | hs
  · exact ⟨rfl, iff_of_true rfl rfl⟩
  · have hsize : idx.array.size ≠ 0 := by rw [hs]; simp [saveToStorage, Arr.size]
    refine ⟨by rw [if_neg hsize]; exact hi.open_saved hs c hm hM0, iff_of_false hsize fun he => ?_⟩
    exact hsize (by rw [he]; rfl)

/-- `fourInserts` reopened with `M = 4`, `ef_construction = 7` and `ef_search = 9` supplied: the
metadata restores the index's `16`, `200` and `50`. -/
theorem reopen_of_reachable_four :
    Reachable Env.integral (Config.default .euclidean) fourInserts ∧
      HNSWIndex.open (-1) fourInserts.array
          { Config.default .euclidean with M := 4, efConstruction := 7, efSearch := 9 } =
        .ok { fourInserts with vectors := fourInserts.vectors.persisted } :=
  ⟨reachable_fourInserts, (reopen_of_reachable reachable_fourInserts
    { Config.default .euclidean with M := 4, efConstruction := 7, efSearch := 9 } rfl rfl).1.trans
    (congrArg _ (if_neg (by decide)))⟩

/-- On a reachable index `insert` throws exactly when `validate_vector_dimension` rejects a
non-empty vector, and then with `DimensionMismatch` of the index dimension and the vector's. -/
theorem insert_error_iff (h : Reachable env cfg idx) (key : Int) (vector : List Double) (draw : Nat)
    (e : HnswError) :
    insert env key vector draw idx = .error e ↔
      vector ≠ [] ∧ idx.config.vectorDimension ≠ 0 ∧ vector.length ≠ idx.config.vectorDimension ∧
        e = .dimensionMismatch idx.config.vectorDimension vector.length := by
  cases hv : validateVectorDimension idx.config.vectorDimension vector with
  | ok d =>
    obtain ⟨idx', h'⟩ := insert_ok h.inv.dim hv draw
    obtain ⟨-, h0⟩ := validateVectorDimension_eq_ok.1 hv
    rw [h']
    exact iff_of_false (fun h => by cases h) fun ⟨_, h1, h2, _⟩ => h0.elim h1 h2
  | error e' =>
    obtain ⟨rfl, hD, hl⟩ := validateVectorDimension_eq_error.1 hv
    unfold insert
    by_cases hne : vector = []
    · subst hne
      rw [if_pos List.isEmpty_nil]
      exact iff_of_false (fun h => by cases h) fun h => h.1 rfl
    · rw [if_neg (by simpa using hne), hv, error_bind, Except.error.injEq]
      exact ⟨fun h => ⟨hne, hD, hl, h.symm⟩, fun h => h.2.2.2.symm⟩

theorem insert_error_iff_mismatch :
    ∃ idx, Reachable Env.sample (Config.default .euclidean) idx ∧
      insert Env.sample 2 [Double.one, Double.one] 0 idx = .error (.dimensionMismatch 1 2) := by
  have hr : Reachable Env.sample (Config.default .euclidean)
      (saveToStorage (-1) ⟨{ Config.default .euclidean with vectorDimension := 1 }, .refs [],
        NodeMap.empty.insertOrAssign (newNode 1 [Double.one] 0), some 1, 0⟩) :=
    .step (.insert 1 [Double.one] 0) (.create (by decide)) ⟨by decide, by decide, by decide⟩ rfl
  exact ⟨_, hr, (insert_error_iff hr 2 [Double.one, Double.one] 0 _).2
    ⟨by decide, by decide, by decide, rfl⟩⟩

end

end RealmHnsw
