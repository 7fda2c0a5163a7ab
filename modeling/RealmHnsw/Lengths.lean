import RealmHnsw.Index
/-!
# One length for every distance call

The kernels are written for two vectors of one length. Every `compute_distance` call of the
searches, of the neighbour selection and of `prune_connections` pairs the query, or the vector of
a node, with the vectors of nodes of the map. When all of these have one length, no call faults,
and each of these functions returns: the searches, the selections, the prunes, and `insert` past
its `validate_vector_dimension`.
-/

namespace RealmHnsw

/-- Every node of `m` holds a vector of length `d`. -/
def NodeMap.AllDim (m : NodeMap) (d : Nat) : Prop := ∀ k n, m.find k = some n → n.vector.length = d

theorem NodeMap.AllDim.of_shape {m m' : NodeMap} {d : Nat} (hm : m.AllDim d) (h : m'.shape = m.shape) :
    m'.AllDim d := by
  intro k n hn
  have := NodeMap.find_of_shape h k
  rw [hn] at this
  obtain ⟨n0, h0, he⟩ := Option.map_eq_some'.1 this.symm
  have hv : n0.vector = n.vector := congrArg Prod.fst he
  rw [← hv]
  exact hm k n0 h0

section Search

variable {fpu : Fpu} {m : NodeMap} {metric : DistanceMetric} {query : List Double}

theorem visitNeighbors_ok (hm : m.AllDim query.length) (ef : Nat) :
    ∀ nbs st, ∃ st', visitNeighbors fpu m metric query ef nbs st = .ok st'
  | [], st => ⟨st, rfl⟩
  | nb :: rest, st => by
    unfold visitNeighbors
    split
    · exact visitNeighbors_ok hm ef rest st
    · split
      · exact visitNeighbors_ok hm ef rest _
      · rename_i node hn
        refine bind_ok (computeDistance_ok fpu (hm nb node hn).symm) fun d => ?_
        split
        · exact visitNeighbors_ok hm ef rest _
        · exact visitNeighbors_ok hm ef rest _

theorem searchLoop_ok (hm : m.AllDim query.length) (ef layer : Nat) :
    ∀ fuel st, ∃ st', searchLoop fpu m metric query ef layer fuel st = .ok st'
  | 0, st => ⟨st, rfl⟩
  | fuel + 1, st => by
    unfold searchLoop
    split
    · exact ⟨_, rfl⟩
    · dsimp only
      split
      · exact ⟨_, rfl⟩
      · split
        · exact searchLoop_ok hm ef layer fuel _
        · split
          · exact bind_ok (visitNeighbors_ok hm ef _ _) fun _ => searchLoop_ok hm ef layer fuel _
          · exact searchLoop_ok hm ef layer fuel _

theorem searchLayerWithDistances_ok (hm : m.AllDim query.length) (ep : Option Int) (ef layer : Nat) :
    ∃ r, searchLayerWithDistances fpu m metric query ep ef layer = .ok r := by
  unfold searchLayerWithDistances
  split
  · exact ⟨_, rfl⟩
  · split
    · exact ⟨_, rfl⟩
    · split
      · exact ⟨_, rfl⟩
      · rename_i ep _ _ entry hn
        exact bind_ok (computeDistance_ok fpu (hm ep entry hn).symm) fun _ =>
          bind_ok (searchLoop_ok hm ef layer _ _) fun _ => ⟨_, rfl⟩

theorem searchLayer_ok (hm : m.AllDim query.length) (ep : Option Int) (ef layer : Nat) :
    ∃ r, searchLayer fpu m metric query ep ef layer = .ok r := by
  obtain ⟨r, h⟩ : ∃ r, searchLayerWithDistances fpu m metric query ep ef layer = .ok r :=
    searchLayerWithDistances_ok hm ep ef layer
  exact ⟨_, by rw [searchLayer, h]; rfl⟩

theorem descend_ok (env : Env) (hm : m.AllDim query.length) :
    ∀ lc n curr, ∃ r, descend env m metric query lc n curr = .ok r
  | _, 0, curr => ⟨curr, rfl⟩
  | lc, _ + 1, curr => bind_ok (searchLayer_ok hm curr 1 lc) fun _ => descend_ok env hm _ _ _

end Search

section Select

variable {fpu : Fpu} {m : NodeMap} {metric : DistanceMetric} {d : Nat}

theorem extendFrom_ok {query : List Double} (hm : m.AllDim query.length) :
    ∀ nbs acc, ∃ r, extendFrom fpu m metric query nbs acc = .ok r
  | [], acc => ⟨acc, rfl⟩
  | nb :: rest, (ws, seen) => by
    unfold extendFrom
    split
    · exact extendFrom_ok hm rest _
    · split
      · exact extendFrom_ok hm rest _
      · rename_i node hn
        exact bind_ok (computeDistance_ok fpu (hm nb node hn).symm) fun _ => extendFrom_ok hm rest _

theorem extendCandidates_ok {query : List Double} (hm : m.AllDim query.length) (layer : Nat) :
    ∀ cs acc, ∃ r, extendCandidates fpu m metric query layer cs acc = .ok r
  | [], acc => ⟨acc, rfl⟩
  | c :: cs, acc => by
    unfold extendCandidates
    split
    · split
      · exact bind_ok (extendFrom_ok hm _ _) fun _ => extendCandidates_ok hm layer cs _
      · exact extendCandidates_ok hm layer cs _
    · exact extendCandidates_ok hm layer cs _

theorem shouldAdd_ok (hm : m.AllDim d) {cand : List Double} (hc : cand.length = d) (candDist : Double) :
    ∀ sel, ∃ r, shouldAdd fpu m metric cand candDist sel = .ok r
  | [] => ⟨true, rfl⟩
  | s :: rest => by
    unfold shouldAdd
    split
    · rename_i node hn
      refine bind_ok (computeDistance_ok fpu (hc.trans (hm s node hn).symm)) fun _ => ?_
      split
      · exact ⟨_, rfl⟩
      · exact shouldAdd_ok hm hc candDist rest
    · exact shouldAdd_ok hm hc candDist rest

theorem keepCandidate_ok (hm : m.AllDim d) (c : Int × Double) (result : List Int) :
    ∃ r, keepCandidate fpu m metric c result = .ok r := by
  unfold keepCandidate
  split
  · rename_i node hn
    exact shouldAdd_ok hm (hm c.1 node hn) c.2 result
  · exact ⟨true, rfl⟩

theorem selectDiverse_ok (hm : m.AllDim d) (M : Nat) :
    ∀ ws result, ∃ r, selectDiverse fpu m metric M ws result = .ok r
  | [], result => ⟨result, rfl⟩
  | c :: cs, result => by
    unfold selectDiverse
    split
    · exact ⟨_, rfl⟩
    · exact bind_ok (keepCandidate_ok hm c result) fun _ => selectDiverse_ok hm M cs _

theorem selectNeighborsHeuristic_ok {query : List Double} (hm : m.AllDim query.length)
    (candidates : List (Int × Double)) (M layer : Nat) (extend : Bool) :
    ∃ r, selectNeighborsHeuristic fpu m metric query candidates M layer extend = .ok r := by
  refine bind_ok ?_ fun ws => selectDiverse_ok hm M ws []
  unfold workingSet
  split
  · obtain ⟨acc, h⟩ : ∃ acc, extendCandidates fpu m metric query layer candidates
        (candidates, candidates.map (·.1)) = .ok acc := extendCandidates_ok hm layer candidates _
    exact ⟨_, by rw [h]; rfl⟩
  · exact ⟨_, rfl⟩

end Select

section Prune

variable {fpu : Fpu} {cfg : Config} {m : NodeMap} {d : Nat}

theorem neighborDistances_ok (hm : m.AllDim d) {v : List Double} (hv : v.length = d) :
    ∀ nbs, ∃ r, neighborDistances fpu m cfg.metric v nbs = .ok r
  | [] => ⟨[], rfl⟩
  | nb :: rest => by
    unfold neighborDistances
    split
    · rename_i node hn
      exact bind_ok (computeDistance_ok fpu (hv.trans (hm nb node hn).symm)) fun _ =>
        bind_ok (neighborDistances_ok hm hv rest) fun _ => ⟨_, rfl⟩
    · exact neighborDistances_ok hm hv rest

theorem pruneConnections_ok (hm : m.AllDim d) (key : Int) (layer : Nat) :
    ∃ m', pruneConnections fpu cfg m key layer = .ok m' := by
  unfold pruneConnections
  split
  · exact ⟨_, rfl⟩
  · rename_i node hn
    have hv : m.AllDim node.vector.length := fun k n h => (hm k n h).trans (hm key node hn).symm
    split
    · dsimp only
      split
      · exact ⟨_, rfl⟩
      · exact bind_ok (neighborDistances_ok hm (hm key node hn) _) fun _ =>
          bind_ok (selectNeighborsHeuristic_ok hv _ _ _ _) fun _ => ⟨_, rfl⟩
    · exact ⟨_, rfl⟩

end Prune

end RealmHnsw
