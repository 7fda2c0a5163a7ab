import RealmHnsw.Invariants
/-!
# `load_from_storage` on an arbitrary root

`load_from_storage` reads whatever root array it is given. Every node it loads has a layer of at
least `-1` and one connection list for each layer `0..layer` (`Node.Sized`, `loadFromStorage_sized`).
A failed resize refuses only layers below `-1`.

It refuses nothing else as malformed; the source has no error that reports a corrupt root:
- a metadata slot that is null or shorter than 7 entries is skipped, so a root with node slots
  opens with nodes and no entry point;
- a stored layer of `-1` loads as a node with no lists;
- a version other than 1 fails `REALM_ASSERT`;
- a node with no info array reads its uninitialised layer.
-/

namespace RealmHnsw

/-- The shape `load_from_storage` gives a node: a layer of at least `-1`, and one list for each
layer `0..layer`. -/
def Node.Sized (n : Node) : Prop := -1 ≤ n.layer ∧ n.connections.length = (n.layer + 1).toNat

theorem length_of_mapM_ok {α β : Type} {f : α → Except HnswError β} :
    ∀ {l : List α} {r : List β}, l.mapM f = .ok r → r.length = l.length
  | [], r, h => by cases h; rfl
  | x :: xs, r, h => by
    rw [List.mapM_cons] at h
    obtain ⟨y, -, h⟩ := bind_eq_ok h
    obtain ⟨ys, hys, h⟩ := bind_eq_ok h
    cases h
    simp [length_of_mapM_ok hys]

/-- `load_from_storage` reads one connection list for each layer `0..layer`. -/
theorem loadConnections_length {a : Arr} {layer : Int} {cs : List (List Int)}
    (h : loadConnections a layer = .ok cs) : cs.length = (layer + 1).toNat :=
  (length_of_mapM_ok h).trans (List.length_range _)

/-- Every node `load_from_storage` builds from a node array is `Sized`. -/
theorem loadNode_sized {nullKey : Int} {a : Arr} {n : Node}
    (h : loadNode nullKey a = .ok (some n)) : n.Sized := by
  unfold loadNode at h
  simp only [bind, Except.bind, pure, Except.pure] at h
  repeat' split at h
  all_goals first
    | (cases h; exact ⟨by dsimp only; omega, loadConnections_length ‹_›⟩)
    | cases h

theorem mem_insertOrAssign_nodes {m : NodeMap} {n x : Node} (h : x ∈ (m.insertOrAssign n).nodes) :
    x = n ∨ x ∈ m.nodes := by
  unfold NodeMap.insertOrAssign at h
  split at h
  · obtain ⟨y, hy, rfl⟩ := List.mem_map.1 h
    split
    · exact .inl rfl
    · exact .inr hy
  · rcases List.mem_append.1 h with h | h
    · exact .inr h
    · exact .inl (List.mem_singleton.1 h)

/-- The node loop adds only `Sized` nodes. -/
theorem loadNodes_sized {nullKey : Int} {root : Arr} :
    ∀ {is : List Nat} {m m' : NodeMap}, (∀ n ∈ m.nodes, n.Sized) →
      loadNodes nullKey root is m = .ok m' → ∀ n ∈ m'.nodes, n.Sized
  | [], _, _, hm, h => by cases h; exact hm
  | i :: rest, m, m', hm, h => by
    unfold loadNodes at h
    obtain ⟨slot, -, h⟩ := bind_eq_ok h
    split at h
    · exact loadNodes_sized hm h
    · obtain ⟨node, hn, h⟩ := bind_eq_ok h
      split at h
      · refine loadNodes_sized (fun x hx => ?_) h
        rcases mem_insertOrAssign_nodes hx with rfl | hx
        exacts [loadNode_sized hn, hm x hx]
      · exact loadNodes_sized hm h

/-- The metadata read changes the configuration and the entry point, never the nodes. -/
theorem loadMetadata_vectors {nullKey : Int} {md : Arr} {idx idx' : HNSWIndex}
    (h : loadMetadata nullKey md idx = .ok idx') : idx'.vectors = idx.vectors := by
  unfold loadMetadata at h
  simp only [bind, Except.bind, pure, Except.pure] at h
  repeat' split at h
  all_goals cases h
  all_goals rfl

/-- Every node of an index opened on any root has a layer of at least `-1` and one list for each
layer `0..layer`. -/
theorem loadFromStorage_sized {nullKey : Int} {config : Config} {root : Arr} {idx : HNSWIndex}
    (h : loadFromStorage nullKey ⟨config, root, .empty, none, -1⟩ = .ok idx) :
    ∀ n ∈ idx.vectors.nodes, n.Sized := by
  have hempty : ∀ n ∈ NodeMap.empty.nodes, n.Sized := fun _ => List.not_mem_nil _ |>.elim
  unfold loadFromStorage at h
  simp only [bind, Except.bind, pure, Except.pure] at h
  repeat' split at h
  all_goals cases h
  · exact hempty
  · rename_i hmd _ _ hm
    exact loadNodes_sized (by rw [loadMetadata_vectors hmd]; exact hempty) hm
  · exact loadNodes_sized hempty ‹_›

/-! ## Roots the decoder does not refuse -/

/-- A metadata array shorter than 7 entries is skipped. -/
theorem loadMetadata_short {nullKey : Int} {md : Arr} {idx : HNSWIndex} (h : md.size < 7) :
    loadMetadata nullKey md idx = .ok idx :=
  if_neg (by omega)

/-- A version other than `k_format_version` fails the assertion. -/
theorem loadMetadata_version {nullKey v : Int} {md : Arr} {idx : HNSWIndex} (hs : 7 ≤ md.size)
    (hv : md.get 0 = .ok v) (h1 : v ≠ 1) :
    loadMetadata nullKey md idx = .error (.assertVersion v) := by
  simp only [loadMetadata, if_pos hs, hv, ok_bind, if_pos h1]

/-- A root whose metadata slot is null or short loads its node slots into an index with no
entry point. -/
theorem loadFromStorage_skipMetadata {nullKey : Int} {config : Config} {md : Option Arr}
    {slots : List (Option Arr)} (hmd : ∀ a, md = some a → a.size < 7) :
    loadFromStorage nullKey ⟨config, .refs (md :: slots), .empty, none, -1⟩ =
      (loadNodes nullKey (.refs (md :: slots)) (List.range' 1 slots.length) .empty).map
        fun m => ⟨config, .refs (md :: slots), m, none, -1⟩ := by
  cases md with
  | none =>
    simp only [loadFromStorage, Arr.size, List.length_cons, Nat.add_one_ne_zero, if_false,
      Arr.getAsRef, List.getD_cons_zero, ok_bind, pure_except, Nat.add_sub_cancel]
    exact (map_eq_pure_bind _ _).symm
  | some a =>
    simp only [loadFromStorage, Arr.size, List.length_cons, Nat.add_one_ne_zero, if_false,
      Arr.getAsRef, List.getD_cons_zero, ok_bind, loadMetadata_short (hmd a rfl), Nat.add_sub_cancel]
    exact (map_eq_pure_bind _ _).symm

/-- What `load_from_storage` does with roots that `save_to_storage` never wrote: it loads every
node `Sized`, but it skips a null or short metadata slot (the nodes load with no entry point),
loads a stored layer of `-1` as a node with no lists, and raises no error of its own for a
corrupt root: a bad version fails the assertion and a missing info array leaves the layer
uninitialised. -/
theorem open_accepts_malformed_roots (nullKey : Int) (config : Config) :
    (∀ root idx, HNSWIndex.open nullKey root config = .ok idx →
      ∀ n ∈ idx.vectors.nodes, n.Sized) ∧
    (∀ md slots, (∀ a, md = some a → a.size < 7) →
      HNSWIndex.open nullKey (.refs (md :: slots)) config =
        (loadNodes nullKey (.refs (md :: slots)) (List.range' 1 slots.length) .empty).map
          fun m => ⟨config.normalize, .refs (md :: slots), m, none, -1⟩) ∧
    (∀ k vs rest, loadNode nullKey (.refs (some (.ints [k, -1]) :: some (.ints vs) :: rest)) =
      .ok (some ⟨k, vs.map Double.ofInt64, -1, []⟩)) ∧
    (∀ md slots v, 7 ≤ md.size → md.get 0 = .ok v → v ≠ 1 →
      HNSWIndex.open nullKey (.refs (some md :: slots)) config = .error (.assertVersion v)) ∧
    (∀ info vs rest, (∀ a, info = some a → a.size < 2) →
      loadNode nullKey (.refs (info :: some (.ints vs) :: rest)) = .error .uninitializedLayer) := by
  refine ⟨fun root idx h => ?_, fun md slots hmd => ?_, fun k vs rest => ?_,
    fun md slots v hs hv h1 => ?_, fun info vs rest hinfo => ?_⟩
  · unfold HNSWIndex.open at h
    cases hl : loadFromStorage nullKey ⟨config, root, .empty, none, -1⟩ with
    | error e => rw [hl] at h; cases h
    | ok idx0 => rw [hl] at h; cases h; exact (loadFromStorage_sized hl :)
  · unfold HNSWIndex.open
    rw [loadFromStorage_skipMetadata hmd]
    cases loadNodes nullKey (.refs (md :: slots)) (List.range' 1 slots.length) .empty <;> rfl
  · have hs : ¬(Arr.refs (some (.ints [k, -1]) :: some (.ints vs) :: rest)).size < 2 := by
      simp [Arr.size]
    simp only [loadNode, hs, if_false, Arr.getAsRef, List.getD_cons_zero, List.getD_cons_succ,
      ok_bind, Arr.size, Arr.get, pure_except, values_ints, List.length_cons, List.length_nil,
      Nat.reduceAdd, le_refl, if_true, show intOfInt64 (-1) = -1 from rfl,
      show ¬((-1 : Int) + 1 < 0) by decide]
    rfl
  · simp only [HNSWIndex.open, loadFromStorage, Arr.size, List.length_cons, Nat.add_one_ne_zero,
      if_false, Arr.getAsRef, List.getD_cons_zero, ok_bind, loadMetadata_version hs hv h1,
      error_bind]
    rfl
  · have hs : ¬(Arr.refs (info :: some (.ints vs) :: rest)).size < 2 := by simp [Arr.size]
    cases info with
    | none =>
      simp only [loadNode, hs, if_false, Arr.getAsRef, List.getD_cons_zero, List.getD_cons_succ,
        ok_bind, pure_except, values_ints]
      rfl
    | some a =>
      simp only [loadNode, hs, if_false, Arr.getAsRef, List.getD_cons_zero, List.getD_cons_succ,
        ok_bind, pure_except, values_ints, if_neg (show ¬2 ≤ a.size by have := hinfo a rfl; omega)]
      rfl

/-- A root with no metadata slot and one node opens with a node and no entry point; a stored layer
of `-1`, a version of 2 and a missing info array behave as the theorem says. -/
theorem open_accepts_malformed_roots_headless :
    (∃ idx, HNSWIndex.open (-1) (.refs [none, some (nodeArray (newNode 1 [Double.one] 0))])
        (Config.default .euclidean) = .ok idx ∧
      (∀ n ∈ idx.vectors.nodes, n.Sized) ∧ idx.vectors.nodes ≠ [] ∧ ¬idx.EntryOk) ∧
    loadNode (-1) (.refs [some (.ints [1, -1]), some (.ints [0])]) =
      .ok (some ⟨1, [Double.ofInt64 0], -1, []⟩) ∧
    HNSWIndex.open (-1) (.refs [some (.ints [2, 0, 0, 0, 0, 0, 0])]) (Config.default .euclidean) =
      .error (.assertVersion 2) ∧
    loadNode (-1) (.refs [none, some (.ints [0])]) = .error .uninitializedLayer := by
  have h := open_accepts_malformed_roots (-1) (Config.default .euclidean)
  refine ⟨?_, h.2.2.1 1 [0] [], h.2.2.2.1 _ [] 2 (by decide) rfl (by decide),
    h.2.2.2.2 none [0] [] nofun⟩
  have hopen := h.2.1 none [some (nodeArray (newNode 1 [Double.one] 0))] nofun
  have hload : loadNodes (-1) (.refs [none, some (nodeArray (newNode 1 [Double.one] 0))])
      (List.range' 1 1) .empty = .ok (NodeMap.empty.insertOrAssign (newNode 1 [Double.one] 0)) := rfl
  rw [List.length_singleton, hload] at hopen
  have hne : (NodeMap.empty.insertOrAssign (newNode 1 [Double.one] 0)).nodes ≠ [] := by
    simp [NodeMap.insertOrAssign, NodeMap.empty]
  exact ⟨_, hopen, h.1 _ _ hopen, hne, fun he => hne ((HNSWIndex.entryOk_none rfl).1 he).1⟩

end RealmHnsw
