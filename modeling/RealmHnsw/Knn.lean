import RealmHnsw.SearchLoop
import RealmHnsw.Connectivity
import RealmHnsw.Guarantees
/-!
# What `search_knn` and `search_radius` return

`search_knn` descends greedily to layer 0. It then searches layer 0 from the node it reached, with
`ef = min(ef_search or max(config ef_search, k), N)`, and keeps the first `min(k, N)` results.

With `ef` at least the node count `N`, `w` never drops a candidate. Every present key the loop
visits is then in `w` (`Pushed`), and each candidate of `w` is open or has had its list visited
(`Expanded`). When the loop ends with no open candidate, `w` holds every node its start reaches
(`covers_of_closed`); when it stops early, `w` is full and holds every node. On a connected layer
the search therefore returns every node with its distance (`searchLayerWithDistances_covers`).
Under IEEE-754 comparisons, when no distance from the query to a stored vector is NaN, it returns
them nearest first, and `search_knn` is a brute-force k-NN answer (`KnnOf`). A NaN vector breaks
both: in `nanSix` a search of every node misses the nearest one, and lists its results out of
order.

`ef_search` is not raised to `k`, so an explicit `ef_search` below `k` caps the results at
`ef_search`. Neither search validates the query before its early returns, and a negative
threshold returns nothing even under the dot-product metric, whose distances can be negative.
-/

namespace RealmHnsw

/-! ## A search that never drops a candidate -/

section Full

variable (m : NodeMap) (layer : Nat)

/-- `w` holds every present key the loop has visited. -/
def Pushed (st : SearchState) : Prop := ∀ x ∈ st.visited, x ∈ m.keys → ∃ c ∈ st.w, c.objKey = x

/-- Each candidate of `w` is still open, or its list at the layer has been visited. -/
def Expanded (st : SearchState) : Prop :=
  ∀ c ∈ st.w, (∃ c' ∈ st.candidates, c'.objKey = c.objKey) ∨
    ∀ y ∈ m.conns c.objKey layer, y ∈ st.visited

/-- `w` holds every present key. -/
def Covers (st : SearchState) : Prop := ∀ x ∈ m.keys, ∃ c ∈ st.w, c.objKey = x

/-- What a neighbour loop does to the state: it visits more, opens more, and what it adds to `w`
it also opens. -/
def Grows (st st' : SearchState) : Prop :=
  st.visited ⊆ st'.visited ∧ st.candidates ⊆ st'.candidates ∧
    ∀ c ∈ st'.w, c ∈ st.w ∨ c ∈ st'.candidates

variable {fpu : Fpu} {m : NodeMap} {metric : DistanceMetric} {query : List Double} {ef : Nat}
  {layer : Nat}

theorem Grows.refl (st : SearchState) : Grows st st :=
  ⟨List.Subset.refl _, List.Subset.refl _, fun _ hc => .inl hc⟩

theorem Grows.trans {a b c : SearchState} (h₁ : Grows a b) (h₂ : Grows b c) : Grows a c :=
  ⟨h₁.1.trans h₂.1, h₁.2.1.trans h₂.2.1, fun x hx =>
    (h₂.2.2 x hx).elim (fun hb => (h₁.2.2 x hb).imp_right fun h => h₂.2.1 h) .inr⟩

theorem visitOne_grows {st st' : SearchState} {nb : Int}
    (h : visitOne fpu m metric query ef st nb = .ok st') : Grows st st' := by
  rcases visitOne_cases h with ⟨-, rfl⟩ | ⟨-, rfl, -⟩ | ⟨-, n, d, -, -, -, rfl⟩
  · exact Grows.refl _
  · exact ⟨List.subset_cons_self _ _, List.Subset.refl _, fun _ hc => .inl hc⟩
  · refine ⟨List.subset_cons_self _ _, fun x hx => Heap.mem_push.2 (.inr hx), fun c hc => ?_⟩
    rcases mem_pushBounded fpu ef hc with rfl | hc
    · exact .inr (Heap.mem_push.2 (.inl rfl))
    · exact .inl hc

theorem visitNeighbors_grows {nbs : List Int} {st st' : SearchState}
    (h : visitNeighbors fpu m metric query ef nbs st = .ok st') : Grows st st' :=
  visitNeighbors_induction (fun s => Grows st s) (fun hg h => hg.trans (visitOne_grows h))
    (Grows.refl st) h

/-- The neighbour loop visits every neighbour it is given. -/
theorem visitNeighbors_visits : ∀ {nbs : List Int} {st st' : SearchState},
    visitNeighbors fpu m metric query ef nbs st = .ok st' → ∀ y ∈ nbs, y ∈ st'.visited
  | [], _, _, _, _, hy => nomatch hy
  | nb :: rest, st, st', h, y, hy => by
    rw [visitNeighbors_cons] at h
    obtain ⟨st1, h1, h2⟩ := bind_eq_ok h
    rcases List.mem_cons.1 hy with rfl | hy
    · refine (visitNeighbors_grows h2).1 ?_
      rcases visitOne_cases h1 with ⟨hv, rfl⟩ | ⟨-, rfl, -⟩ | ⟨-, n, d, -, -, -, rfl⟩
      exacts [hv, .head _, .head _]
    · exact visitNeighbors_visits h2 y hy

theorem LoopInv.keys_w {st : SearchState} (hi : LoopInv fpu m metric query ef st) :
    ∀ c ∈ st.w, c.objKey ∈ m.keys := fun c hc =>
  let ⟨n, hn, _⟩ := hi.wScored c hc
  NodeMap.mem_keys.2 ⟨n, hn⟩

/-- A present key not visited yet leaves `w` short of the node count. -/
theorem LoopInv.length_w_lt {st : SearchState} {nb : Int} (hi : LoopInv fpu m metric query ef st)
    (hnb : nb ∈ m.keys) (hv : nb ∉ st.visited) : st.w.length < m.keys.length := by
  have hsub : nb :: st.w.map (·.objKey) ⊆ m.keys := by
    rintro x (_ | ⟨_, hx⟩)
    · exact hnb
    · obtain ⟨c, hc, rfl⟩ := List.mem_map.1 hx
      exact hi.keys_w c hc
  simpa using ((List.nodup_cons.2 ⟨fresh_of_visited hi.wVisited hv, hi.wKeys⟩).subperm hsub).length_le

/-- A `w` as long as the node count holds every present key. -/
theorem LoopInv.covers_of_length {st : SearchState} (hi : LoopInv fpu m metric query ef st)
    (h : m.keys.length ≤ st.w.length) : Covers m st := by
  have hp := (hi.wKeys.subperm fun x hx => by
    obtain ⟨c, hc, rfl⟩ := List.mem_map.1 hx
    exact hi.keys_w c hc).perm_of_length_le (by simpa using h)
  exact fun x hx => List.mem_map.1 (hp.symm.subset hx)

section Room

variable (hN : m.keys.length ≤ ef)
include hN

/-- With `ef` at least the node count, a neighbour step never drops anything from `w`. -/
theorem w_subset_visitOne {st st' : SearchState} {nb : Int} (hi : LoopInv fpu m metric query ef st)
    (h : visitOne fpu m metric query ef st nb = .ok st') : st.w ⊆ st'.w := by
  rcases visitOne_cases h with ⟨-, rfl⟩ | ⟨-, rfl, -⟩ | ⟨hv, n, d, hn, -, -, rfl⟩
  · exact List.Subset.refl _
  · exact List.Subset.refl _
  · rw [pushBounded_of_lt _ ((hi.length_w_lt (NodeMap.mem_keys.2 ⟨n, hn⟩) hv).trans_le hN)]
    exact fun x hx => Heap.mem_push.2 (.inr hx)

/-- With `ef` at least the node count, a neighbour step pushes every present key it visits. -/
theorem Pushed.visitOne {st st' : SearchState} {nb : Int} (hi : LoopInv fpu m metric query ef st)
    (hp : Pushed m st) (h : visitOne fpu m metric query ef st nb = .ok st') : Pushed m st' := by
  have hsub := w_subset_visitOne hN hi h
  rcases visitOne_cases h with ⟨-, rfl⟩ | ⟨hv, rfl, hnone | ⟨n, d, hn, -, hcond⟩⟩ |
    ⟨hv, n, d, hn, -, -, rfl⟩
  · exact hp
  · intro x hx hk
    rcases List.mem_cons.1 hx with rfl | hx
    · exact absurd hk (NodeMap.find_eq_none.1 hnone)
    · exact hp x hx hk
  · -- a present key finds room in `w`, so it is never only marked
    have hlt := (hi.length_w_lt (NodeMap.mem_keys.2 ⟨n, hn⟩) hv).trans_le hN
    simp only [Bool.or_eq_false_iff, decide_eq_false_iff_not] at hcond
    exact absurd hlt hcond.2
  · intro x hx hk
    rcases List.mem_cons.1 hx with rfl | hx
    · rw [pushBounded_of_lt _ ((hi.length_w_lt (NodeMap.mem_keys.2 ⟨n, hn⟩) hv).trans_le hN)]
      exact ⟨_, Heap.mem_push.2 (.inl rfl), rfl⟩
    · obtain ⟨c, hc, hck⟩ := hp x hx hk
      exact ⟨c, hsub hc, hck⟩

/-- A full round keeps `Pushed` and `Expanded`: the popped candidate's list is visited by the
round, and every other open candidate stays open. -/
theorem full_round {st st' : SearchState} {cur : SearchCandidate}
    (hi : LoopInv fpu m metric query ef st) (hp : Pushed m st) (he : Expanded m layer st)
    (hcur : st.candidates.head? = some cur)
    (h : visitNeighbors fpu m metric query ef (m.conns cur.objKey layer)
      { st with candidates := Heap.pop (SearchCandidate.greater fpu) st.candidates } = .ok st') :
    Pushed m st' ∧ Expanded m layer st' := by
  have hg := visitNeighbors_grows h
  refine ⟨(visitNeighbors_induction (fun s => LoopInv fpu m metric query ef s ∧ Pushed m s)
    (fun hs h => ⟨hs.1.visitOne h, hs.2.visitOne hN hs.1 h⟩) ⟨hi.pop, hp⟩ h).2, fun c hc => ?_⟩
  rcases hg.2.2 c hc with hc | hc
  · rcases he c hc with ⟨c', hc', hkey⟩ | hvis
    · by_cases hcur' : c' = cur
      · rw [hcur'] at hkey
        exact .inr fun y hy => visitNeighbors_visits h y (by rw [hkey]; exact hy)
      · exact .inl ⟨c', hg.2.1 (Heap.mem_pop_of_ne hcur hc' hcur'), hkey⟩
    · exact .inr fun y hy => hg.1 (hvis y hy)
  · exact .inl ⟨c, hc, rfl⟩

theorem Covers.visitNeighbors {nbs : List Int} {st st' : SearchState}
    (hi : LoopInv fpu m metric query ef st) (hc : Covers m st)
    (h : visitNeighbors fpu m metric query ef nbs st = .ok st') : Covers m st' :=
  (visitNeighbors_induction (fun s => LoopInv fpu m metric query ef s ∧ Covers m s)
    (fun hs h => ⟨hs.1.visitOne h, fun x hx =>
      let ⟨c, hc, hck⟩ := hs.2 x hx
      ⟨c, w_subset_visitOne hN hs.1 h hc, hck⟩⟩) ⟨hi, hc⟩ h).2

end Room

/-- The loop ends with no open candidate, or on a stop with `w` full. -/
theorem searchLoop_ends : ∀ {fuel : Nat} {st st' : SearchState},
    LoopInv fpu m metric query ef st → searchBudget m st ≤ fuel →
      searchLoop fpu m metric query ef layer fuel st = .ok st' →
        st'.candidates = [] ∨ ef ≤ st'.w.length
  | 0, st, st', _, hb, h => by
    cases h
    exact .inl (List.length_eq_zero.1 (by unfold searchBudget at hb; omega))
  | fuel + 1, st, st', hi, hb, h => by
    cases hn : st.candidates.head? with
    | none =>
      rw [searchLoop_none hn] at h
      cases h
      exact .inl (List.head?_eq_none_iff.1 hn)
    | some cur =>
      rw [searchLoop_some hn] at h
      split at h
      · rename_i hcond
        cases h
        simp only [Bool.and_eq_true, decide_eq_true_eq] at hcond
        exact .inr hcond.2
      · obtain ⟨st1, h1, h2⟩ := bind_eq_ok h
        have hp := @searchBudget_pop fpu m _ _ hn
        have hv := searchBudget_visitNeighbors hi.pop h1
        exact searchLoop_ends (hi.pop.visitNeighbors h1) (by omega) h2

/-- With nothing open, a `w` that is `Pushed` and `Expanded` holds every present node that a
visited node reaches. -/
theorem covers_of_closed (hconn : m.Connected layer) {st : SearchState} (hp : Pushed m st)
    (he : Expanded m layer st) (hc : st.candidates = []) {ep : Int} (hep : ep ∈ st.visited)
    (hk : ep ∈ m.keys) : Covers m st := by
  have reach : ∀ {a z : Int}, m.Reach layer a z → a ∈ st.visited → z ∈ m.keys →
      ∃ c ∈ st.w, c.objKey = z := by
    intro a z hr
    induction hr with
    | refl x => exact fun hx hk => hp x hx hk
    | @step x y z hxy _ ih =>
      intro hx hz
      have hxk : x ∈ m.keys := by
        by_contra hxk
        simp [NodeMap.conns, NodeMap.find_eq_none.2 hxk] at hxy
      obtain ⟨c, hc', rfl⟩ := hp x hx hxk
      rcases he c hc' with ⟨c', hc'', -⟩ | hvis
      · rw [hc] at hc''; cases hc''
      · exact ih (hvis y hxy) hz
  exact fun y hy => reach (hconn ep hk y hy) hep hy

/-- With `ef` at least the node count, a loop that starts `Pushed` and `Expanded` from a visited
present key ends with `w` holding every present key, on a connected layer. -/
theorem searchLoop_covers (hN : m.keys.length ≤ ef) (hconn : m.Connected layer) {fuel : Nat}
    {st st' : SearchState} (hi : LoopInv fpu m metric query ef st) (hp : Pushed m st)
    (he : Expanded m layer st) {ep : Int} (hep : ep ∈ st.visited) (hk : ep ∈ m.keys)
    (hb : searchBudget m st ≤ fuel) (h : searchLoop fpu m metric query ef layer fuel st = .ok st') :
    Covers m st' := by
  have hrun := searchLoop_induction
    (fun s => LoopInv fpu m metric query ef s ∧ ep ∈ s.visited ∧
      ((Pushed m s ∧ Expanded m layer s) ∨ Covers m s))
    (fun hs _ hcond => ⟨hs.1.pop, hs.2.1, .inr (by
      rcases hs.2.2 with - | hc
      · simp only [Bool.and_eq_true, decide_eq_true_eq] at hcond
        exact hs.1.covers_of_length (hN.trans hcond.2)
      · exact hc)⟩)
    (fun hs hn hv => ⟨hs.1.pop.visitNeighbors hv, (visitNeighbors_grows hv).1 hs.2.1,
      hs.2.2.imp (fun hf => full_round hN hs.1 hf.1 hf.2 hn hv)
        fun hc => hc.visitNeighbors hN hs.1.pop hv⟩)
    ⟨hi, hep, .inl ⟨hp, he⟩⟩ h
  obtain ⟨hi', hep', hf | hc⟩ := hrun
  · rcases searchLoop_ends hi hb h with hnil | hlen
    · exact covers_of_closed hconn hf.1 hf.2 hnil hep' hk
    · exact hi'.covers_of_length (hN.trans hlen)
  · exact hc

/-- With `ef` at least the node count, a search of a connected layer from a present entry returns
every present key once. -/
theorem searchLayerWithDistances_covers (hN : m.keys.length ≤ ef) (hconn : m.Connected layer)
    {ep : Int} (hk : ep ∈ m.keys) {r : List (Int × Double)}
    (h : searchLayerWithDistances fpu m metric query (some ep) ef layer = .ok r) :
    (r.map (·.1)).Perm m.keys := by
  rcases searchLayerWithDistances_eq_ok h with rfl | ⟨ep', entry, d, st, hep', hn, hd, hs, rfl⟩
  · exact absurd rfl ((searchLayerWithDistances_spec h).2 hk)
  · cases hep'
    have hi := (loopInv_startState hn hd).searchLoop hs
    have hc := searchLoop_covers hN hconn (loopInv_startState hn hd)
      (fun x hx _ => ⟨⟨ep, d⟩, .head _, (List.mem_singleton.1 hx).symm⟩)
      (fun c hc => .inl ⟨c, hc, rfl⟩) (.head _) hk (searchBudget_startState hk d) hs
    refine ((drain_reverse_perm st.w).map Prod.fst).trans ?_
    rw [List.map_map]
    refine (List.perm_ext_iff_of_nodup hi.wKeys m.nodup).2 fun x =>
      ⟨fun hx => ?_, fun hx => List.mem_map.2 (hc x hx)⟩
    obtain ⟨c, hc', rfl⟩ := List.mem_map.1 hx
    exact hi.keys_w c hc'

end Full

/-! ## Brute force -/

section Brute

variable (fpu : Fpu) (m : NodeMap) (metric : DistanceMetric) (query : List Double)

/-- The pair carries `compute_distance(query, v)` for the vector `v` stored under its key. -/
def ScoredPair (p : Int × Double) : Prop :=
  ∃ n, m.find p.1 = some n ∧ computeDistance fpu metric query n.vector = .ok p.2

/-- The brute-force scan the searches are measured against: every stored key with the distance of
its vector to the query. -/
def bruteForce : Except HnswError (List (Int × Double)) :=
  m.nodes.mapM fun n => (computeDistance fpu metric query n.vector).map fun d => (n.objKey, d)

/-- `r` is a k-nearest answer over `all`: `min(k, |all|)` pairs that, followed by the other pairs
of `all`, list `all` in `<=` order of distance. -/
def KnnOf (all : List (Int × Double)) (k : Nat) (r : List (Int × Double)) : Prop :=
  r.length = min k all.length ∧
    ∃ rest, (r ++ rest).Perm all ∧ (r ++ rest).Pairwise fun a b => (fpu.lt a.2 b.2 || fpu.eq a.2 b.2) = true

variable {fpu m metric query}

/-- A key has one distance to the query. -/
theorem ScoredPair.eq {p q : Int × Double} (hp : ScoredPair fpu m metric query p)
    (hq : ScoredPair fpu m metric query q) (h : p.1 = q.1) : p = q := by
  obtain ⟨n, hn, hd⟩ := hp
  obtain ⟨n', hn', hd'⟩ := hq
  rw [h, hn'] at hn
  cases hn
  exact Prod.ext h (Except.ok.inj (hd.symm.trans hd'))

/-- Two lists of scored pairs over the same keys, each key once, are permutations of each other. -/
theorem perm_of_scored {l₁ l₂ : List (Int × Double)} (h₁ : ∀ p ∈ l₁, ScoredPair fpu m metric query p)
    (h₂ : ∀ p ∈ l₂, ScoredPair fpu m metric query p) (hnd : (l₁.map (·.1)).Nodup)
    (hk : (l₁.map (·.1)).Perm (l₂.map (·.1))) : l₁.Perm l₂ := by
  refine (List.perm_ext_iff_of_nodup (List.Nodup.of_map _ hnd)
    (List.Nodup.of_map _ (hk.nodup_iff.1 hnd))).2 fun p => ⟨fun hp => ?_, fun hp => ?_⟩
  · obtain ⟨q, hq, hpq⟩ := List.mem_map.1 (hk.subset (List.mem_map_of_mem _ hp))
    rwa [(h₁ p hp).eq (h₂ q hq) hpq.symm]
  · obtain ⟨q, hq, hpq⟩ := List.mem_map.1 (hk.symm.subset (List.mem_map_of_mem _ hp))
    rwa [(h₂ p hp).eq (h₁ q hq) hpq.symm]

theorem mapM_scores (hm : m.AllDim query.length) : ∀ ns : List Node,
    (∀ n ∈ ns, m.find n.objKey = some n) →
    ∃ all, ns.mapM (fun n => (computeDistance fpu metric query n.vector).map fun d => (n.objKey, d)) =
      .ok all ∧ all.map (·.1) = ns.map (·.objKey) ∧ ∀ p ∈ all, ScoredPair fpu m metric query p
  | [], _ => ⟨[], rfl, rfl, nofun⟩
  | n :: ns, hns => by
    obtain ⟨d, hd⟩ := @computeDistance_ok fpu metric _ _ (hm _ _ (hns n (.head _))).symm
    obtain ⟨all, hall, hkeys, hsc⟩ := mapM_scores hm ns fun n' h => hns n' (.tail _ h)
    refine ⟨(n.objKey, d) :: all, ?_, by simp [hkeys], ?_⟩
    · rw [List.mapM_cons, hd, hall]; rfl
    · rintro p (_ | ⟨_, hp⟩)
      · exact ⟨n, hns n (.head _), hd⟩
      · exact hsc p hp

/-- On vectors of the query's length, the brute-force scan scores every key once. -/
theorem bruteForce_ok (hm : m.AllDim query.length) :
    ∃ all, bruteForce fpu m metric query = .ok all ∧ all.map (·.1) = m.keys ∧
      ∀ p ∈ all, ScoredPair fpu m metric query p :=
  mapM_scores hm m.nodes fun _ hn => NodeMap.find_eq_some.2 ⟨hn, rfl⟩

end Brute

/-! ## Connected layers, and a run with NaN vectors -/

/-- A layer where every present key is a hub `a`, or lists `a` and is listed by it, is
connected. -/
theorem connected_of_hub {m : NodeMap} {layer : Nat} (a : Int)
    (hk : ∀ x ∈ m.keys, x = a ∨ x ∈ m.conns a layer ∧ a ∈ m.conns x layer) : m.Connected layer := by
  have to_hub : ∀ x ∈ m.keys, m.Reach layer x a := fun x hx =>
    (hk x hx).elim (fun h => h ▸ .refl _) fun h => .step h.2 (.refl _)
  have from_hub : ∀ y ∈ m.keys, m.Reach layer a y := fun y hy =>
    (hk y hy).elim (fun h => h ▸ .refl _) fun h => .step h.1 (.refl _)
  exact fun x hx y hy => (to_hub x hx).trans (from_hub y hy)

/-- `M = 2`, `M0 = 6`, `ef_construction = 3`, Euclidean. -/
def nanConfig : Config := { Config.default .euclidean with M := 2, M0 := 6, efConstruction := 3 }

/-- Keys 2 and 4 with NaN vectors, key 4 drawn to layer 1, then keys 3, 1 and 5 at `13.0`, `17.0`
and `17.0`, and key 6 with a NaN vector, inserted in that order under `nanConfig`: the index the
sixth `insert` leaves. -/
def nanSix : HNSWIndex :=
  saveToStorage (-1) ⟨{ nanConfig with vectorDimension := 1 }, .refs [],
    (((((NodeMap.empty.insertOrAssign ⟨2, [Double.nan], 0, [[4, 3, 1, 5, 6], [4]]⟩).insertOrAssign
      ⟨4, [Double.nan], 1, [[2, 3, 1, 5, 6], [2]]⟩).insertOrAssign
      ⟨3, [Double.ofIntegral false 13], 0, [[2, 4, 1, 5, 6]]⟩).insertOrAssign
      ⟨1, [Double.ofIntegral false 17], 0, [[3, 2, 4]]⟩).insertOrAssign
      ⟨5, [Double.ofIntegral false 17], 0, [[3, 2, 4]]⟩).insertOrAssign
      ⟨6, [Double.nan], 0, [[3, 2, 4]]⟩, some 4, 1⟩

set_option maxRecDepth 100000 in
theorem insertRun_nanSix : ReachableBy Env.integral nanConfig Write.IsInsert nanSix :=
  .step (.insert 6 [Double.nan] 0) trivial
  (.step (.insert 5 [Double.ofIntegral false 17] 0) trivial
  (.step (.insert 1 [Double.ofIntegral false 17] 0) trivial
  (.step (.insert 3 [Double.ofIntegral false 13] 0) trivial
  (.step (.insert 4 [Double.nan] 1) trivial
  (.step (.insert 2 [Double.nan] 0) trivial (.create (by decide))
    ⟨by decide, by decide, by decide⟩ rfl)
    ⟨by decide, by decide, by decide⟩ rfl)
    ⟨by decide, by decide, by decide⟩ rfl)
    ⟨by decide, by decide, by decide⟩ rfl)
    ⟨by decide, by decide, by decide⟩ rfl)
    ⟨by decide, by decide, by decide⟩ rfl

/-! ## `search_knn` -/

section Index

variable {env : Env} {cfg : Config} {idx : HNSWIndex} {query : List Double}

/-- How `search_knn` returns: early with nothing, or with the first `min(k, N)` results of the
layer-0 search from where the descent ended. -/
theorem searchKnn_eq_ok {idx' : HNSWIndex} {k efSearch : Nat} {r : List (Int × Double)}
    (h : searchKnn env idx query k efSearch = .ok (idx', r)) :
    ((idx.vectors.nodes = [] ∨ idx.entryPoint = none ∨ k = 0) ∧ r = []) ∨
    ∃ curr results, idx.vectors.nodes ≠ [] ∧ idx.entryPoint ≠ none ∧ k ≠ 0 ∧
      descend env idx.vectors idx.config.metric query idx.entryPointLayer.toNat
        idx.entryPointLayer.toNat idx.entryPoint = .ok curr ∧
      searchLayerWithDistances env.fpu idx.vectors idx.config.metric query curr
        (min (if efSearch = 0 then max idx.config.efSearch k else efSearch)
          idx.vectors.nodes.length) 0 = .ok results ∧
      r = results.take (min k idx.vectors.nodes.length) := by
  unfold searchKnn at h
  split at h
  · rename_i hc
    cases h
    simp only [Bool.or_eq_true, List.isEmpty_iff, Option.isNone_iff_eq_none] at hc
    exact .inl ⟨hc.elim .inl (.inr ∘ .inl), rfl⟩
  · rename_i hc
    simp only [Bool.or_eq_true, List.isEmpty_iff, Option.isNone_iff_eq_none, not_or] at hc
    split at h
    · cases h; exact .inl ⟨.inr (.inr ‹_›), rfl⟩
    · obtain ⟨dim, -, h⟩ := bind_eq_ok h
      obtain ⟨curr, hcurr, h⟩ := bind_eq_ok h
      obtain ⟨results, hres, h⟩ := bind_eq_ok h
      cases h
      exact .inr ⟨curr, results, hc.1, hc.2, ‹_›, hcurr, hres, rfl⟩

/-- `search_knn` on a reachable index returns for every query of the index dimension. -/
theorem searchKnn_ok_of_reachable (hr : Reachable env cfg idx)
    (hq : query.length = idx.config.vectorDimension) (k efSearch : Nat) :
    ∃ idx' r, searchKnn env idx query k efSearch = .ok (idx', r) := by
  have hm : idx.vectors.AllDim query.length := by rw [hq]; exact hr.inv.dim.allDim
  obtain ⟨⟨idx', r⟩, h⟩ :=
    searchKnn_ok hm ⟨_, validateVectorDimension_eq_ok.2 ⟨rfl, .inr hq⟩⟩ k efSearch
  exact ⟨idx', r, h⟩

/-- On a reachable index whose layer 0 is connected, the layer-0 search of `search_knn` with
`ef = N`, from where the descent ends, returns the brute-force scan in some order. -/
theorem layerZero_perm_scan (hr : Reachable env cfg idx) (hconn : idx.vectors.Connected 0)
    {all : List (Int × Double)} (hkeys : all.map (·.1) = idx.vectors.keys)
    (hsc : ∀ p ∈ all, ScoredPair env.fpu idx.vectors idx.config.metric query p)
    (hne : idx.vectors.nodes ≠ []) {curr : Option Int} {results : List (Int × Double)}
    (hcurr : descend env idx.vectors idx.config.metric query idx.entryPointLayer.toNat
      idx.entryPointLayer.toNat idx.entryPoint = .ok curr)
    (hres : searchLayerWithDistances env.fpu idx.vectors idx.config.metric query curr
      idx.vectors.nodes.length 0 = .ok results) :
    results.Perm all := by
  have hN : idx.vectors.keys.length = idx.vectors.nodes.length := List.length_map _ _
  obtain ⟨e, he, hek⟩ := hr.inv.entry.exists_mem hne
  rw [he] at hcurr
  obtain ⟨x, rfl, hx⟩ := descend_mem ⟨e, rfl, hek⟩ hcurr
  obtain ⟨-, hnd, hsr⟩ := searchLayerWithDistances_results hres
  exact perm_of_scored hsr hsc hnd (by
    rw [hkeys]; exact searchLayerWithDistances_covers hN.le hconn hx hres)

/-- On a reachable index whose layer 0 is connected, with `ef` at least the node count, under
IEEE-754 comparisons and with no NaN distance from the query to a stored vector, `search_knn` is a
brute-force k-NN answer: `min(k, N)` distinct keys, whose distances are the `min(k, N)` least of
the scan, nearest first. -/
theorem searchKnn_refines (hc : env.fpu.IeeeCompare) (hr : Reachable env cfg idx)
    (hconn : idx.vectors.Connected 0) (hq : query.length = idx.config.vectorDimension)
    (hno : NoNaNDistance env.fpu idx.vectors idx.config.metric query)
    {k efSearch : Nat} (hk : 1 ≤ k) (hef : idx.vectors.nodes.length ≤ efSearch ∨
      (efSearch = 0 ∧ idx.vectors.nodes.length ≤ idx.config.efSearch)) :
    ∃ idx' r all, searchKnn env idx query k efSearch = .ok (idx', r) ∧
      bruteForce env.fpu idx.vectors idx.config.metric query = .ok all ∧
      r.length = min k idx.vectors.nodes.length ∧ (r.map (·.1)).Nodup ∧ KnnOf env.fpu all k r := by
  have hm : idx.vectors.AllDim query.length := by rw [hq]; exact hr.inv.dim.allDim
  obtain ⟨all, hall, hkeys, hsc⟩ := @bruteForce_ok env.fpu idx.vectors idx.config.metric query hm
  have hN : idx.vectors.keys.length = idx.vectors.nodes.length := List.length_map _ _
  have hlen : all.length = idx.vectors.nodes.length := by
    rw [← List.length_map all (·.1), hkeys, hN]
  obtain ⟨idx', r, h⟩ := searchKnn_ok_of_reachable hr hq k efSearch
  refine ⟨idx', r, all, h, hall, ?_⟩
  rcases searchKnn_eq_ok h with ⟨hearly, rfl⟩ | ⟨curr, results, hne, -, -, hcurr, hres, rfl⟩
  · -- an early return: the index holds no node
    have h0 : idx.vectors.nodes = [] := by
      rcases hearly with h0 | h0 | h0
      · exact h0
      · exact ((HNSWIndex.entryOk_none h0).1 hr.inv.entry).1
      · omega
    rw [h0, List.length_eq_zero.1 (hlen.trans (by rw [h0]; rfl))]
    exact ⟨by simp, List.nodup_nil, by simp, [], .nil, .nil⟩
  · -- the layer-0 search has `ef = N` and sees every node
    have hef' : min (if efSearch = 0 then max idx.config.efSearch k else efSearch)
        idx.vectors.nodes.length = idx.vectors.nodes.length := by
      apply Nat.min_eq_right
      split_ifs <;> omega
    rw [hef'] at hres
    have hperm := layerZero_perm_scan hr hconn hkeys hsc hne hcurr hres
    have hnd := (searchLayerWithDistances_results hres).2.1
    have hrl : results.length = idx.vectors.nodes.length := hperm.length_eq.trans hlen
    refine ⟨by rw [List.length_take, hrl]; omega,
      by rw [List.map_take]; exact hnd.sublist (List.take_sublist _ _),
      by rw [List.length_take, hrl, hlen]; omega, results.drop (min k idx.vectors.nodes.length), ?_, ?_⟩
    · rw [List.take_append_drop]; exact hperm
    · rw [List.take_append_drop]; exact searchLayerWithDistances_le hc hno hres

set_option maxRecDepth 100000 in
/-- `fourInserts`, connected at layer 0 through node 1, and its nearest key to `12.0`. -/
theorem searchKnn_refines_four :
    ∃ idx' r all, searchKnn Env.integral fourInserts [Double.ofIntegral false 12] 1 0 = .ok (idx', r) ∧
      bruteForce Fpu.integral fourInserts.vectors .euclidean [Double.ofIntegral false 12] = .ok all ∧
      r.length = 1 ∧ KnnOf Fpu.integral all 1 r :=
  let ⟨idx', r, all, h, hb, hl, _, hk⟩ :=
    searchKnn_refines Fpu.integral_ieeeCompare reachable_fourInserts (connected_of_hub 1 (by decide))
      (rfl : [Double.ofIntegral false 12].length = 1) (by decide) le_rfl (.inr ⟨rfl, by decide⟩)
  ⟨idx', r, all, h, hb, hl, hk⟩

set_option maxRecDepth 100000 in
/-- With NaN vectors the search misses the nearest node: layer 0 of `nanSix` is connected, and
`search_knn([13.0], 1, 0)` searches it with `ef = N = 6`, yet returns key 1 at `4.0` while key 3
is at `0.0`. -/
theorem searchKnn_misses_nearest_nan :
    ReachableBy Env.integral nanConfig Write.IsInsert nanSix ∧ nanSix.vectors.Connected 0 ∧
      nanSix.vectors.nodes.length ≤ nanSix.config.efSearch ∧
      searchKnn Env.integral nanSix [Double.ofIntegral false 13] 1 0 =
        .ok (nanSix, [(1, Double.ofIntegral false 4)]) ∧
      bruteForce Fpu.integral nanSix.vectors .euclidean [Double.ofIntegral false 13] =
        .ok [(2, Double.nan), (4, Double.nan), (3, Double.ofIntegral false 0),
          (1, Double.ofIntegral false 4), (5, Double.ofIntegral false 4), (6, Double.nan)] ∧
      ¬ KnnOf Fpu.integral [(2, Double.nan), (4, Double.nan), (3, Double.ofIntegral false 0),
          (1, Double.ofIntegral false 4), (5, Double.ofIntegral false 4), (6, Double.nan)] 1
        [(1, Double.ofIntegral false 4)] := by
  refine ⟨insertRun_nanSix, connected_of_hub 2 (by decide), by decide, rfl, rfl, ?_⟩
  rintro ⟨-, rest, hp, hs⟩
  have h3 := hp.symm.subset (.tail _ (.tail _ (.head _)))
  rcases List.mem_append.1 h3 with h | h
  · simp at h
  · exact absurd ((List.pairwise_append.1 hs).2.2 _ (.head _) _ h) (by decide)

/-- An explicit `ef_search` caps what `search_knn` returns, whatever `k`: `ef` is
`min(ef_search, N)`, not raised to `k`. -/
theorem searchKnn_length_le_efSearch {idx' : HNSWIndex} {k efSearch : Nat}
    {r : List (Int × Double)} (he : efSearch ≠ 0)
    (h : searchKnn env idx query k efSearch = .ok (idx', r)) : r.length ≤ efSearch := by
  rcases searchKnn_eq_ok h with ⟨-, rfl⟩ | ⟨curr, results, -, -, -, -, hres, rfl⟩
  · exact Nat.zero_le _
  · have hlen := (searchLayerWithDistances_results hres).1
    rw [if_neg he] at hlen
    calc (results.take _).length ≤ results.length := List.length_take_le' _ _
      _ ≤ max (min efSearch idx.vectors.nodes.length) 1 := hlen
      _ ≤ efSearch := max_le (min_le_left _ _) (Nat.one_le_iff_ne_zero.2 he)

theorem searchKnn_length_le_efSearch_two :
    ∃ idx, ReachableBy Env.sample (Config.default .euclidean) Write.IsInsert idx ∧
      idx.vectors.nodes.length = 2 ∧ idx.vectors.Connected 0 ∧
      ∃ idx' r, searchKnn Env.sample idx [Double.one] 2 1 = .ok (idx', r) ∧ r.length ≤ 1 := by
  have hr : ReachableBy Env.sample (Config.default .euclidean) Write.IsInsert _ :=
    .step (.insert 2 [Double.one] 0) trivial
      (.step (.insert 1 [Double.one] 0) trivial (.create (by decide))
        ⟨by decide, by decide, by decide⟩ rfl)
      ⟨by decide, by decide, by decide⟩ rfl
  obtain ⟨idx', r, h⟩ := searchKnn_ok_of_reachable hr.reachable rfl 2 1
  exact ⟨_, hr, rfl, connected_of_hub 1 (by decide),
    idx', r, h, searchKnn_length_le_efSearch one_ne_zero h⟩

/-- Each search returns nothing on an index with no node or no entry point, and `search_knn` for
`k = 0`, `search_radius` for a negative threshold, all before the query is validated. Only past
those returns does a query of the wrong length raise `DimensionMismatch`. -/
theorem searchKnn_of_mismatch (hD : idx.config.vectorDimension ≠ 0)
    (hq : query.length ≠ idx.config.vectorDimension) (k efSearch : Nat) (maxDistance : Double) :
    searchKnn env idx query k efSearch =
      (if idx.vectors.nodes = [] ∨ idx.entryPoint = none ∨ k = 0 then .ok (idx, [])
        else .error (.dimensionMismatch idx.config.vectorDimension query.length)) ∧
    searchRadius env idx query maxDistance =
      (if idx.vectors.nodes = [] ∨ idx.entryPoint = none ∨
          env.fpu.lt maxDistance Double.zero = true then .ok (idx, [])
        else .error (.dimensionMismatch idx.config.vectorDimension query.length)) := by
  have hv : validateVectorDimension idx.config.vectorDimension query =
      .error (.dimensionMismatch idx.config.vectorDimension query.length) :=
    validateVectorDimension_eq_error.2 ⟨rfl, hD, hq⟩
  have hearly : (idx.vectors.nodes.isEmpty || idx.entryPoint.isNone) = true ↔
      idx.vectors.nodes = [] ∨ idx.entryPoint = none := by simp
  constructor
  · unfold searchKnn
    by_cases h₁ : idx.vectors.nodes = [] ∨ idx.entryPoint = none
    · rw [if_pos (hearly.2 h₁), if_pos (or_assoc.1 (.inl h₁))]
    · by_cases h₂ : k = 0
      · rw [if_neg (mt hearly.1 h₁), if_pos h₂, if_pos (.inr (.inr h₂))]
      · rw [if_neg (mt hearly.1 h₁), if_neg h₂, if_neg (by tauto), hv]; rfl
  · unfold searchRadius
    by_cases h₁ : idx.vectors.nodes = [] ∨ idx.entryPoint = none
    · rw [if_pos (hearly.2 h₁), if_pos (or_assoc.1 (.inl h₁))]
    · by_cases h₂ : env.fpu.lt maxDistance Double.zero = true
      · rw [if_neg (mt hearly.1 h₁), if_pos h₂, if_pos (.inr (.inr h₂))]
      · rw [if_neg (mt hearly.1 h₁), if_neg h₂, if_neg (by tauto), hv]; rfl

theorem searchKnn_of_mismatch_one :
    searchKnn Env.integral (oneNode .euclidean) [Double.one, Double.one] 0 5 =
        .ok (oneNode .euclidean, []) ∧
      searchRadius Env.integral (oneNode .euclidean) [Double.one, Double.one] Double.negOne =
        .ok (oneNode .euclidean, []) :=
  have h := @searchKnn_of_mismatch Env.integral (oneNode .euclidean) [Double.one, Double.one]
    (by decide) (by decide) 0 5 Double.negOne
  ⟨h.1.trans (if_pos (.inr (.inr rfl))), h.2.trans (if_pos (.inr (.inr (by decide))))⟩

/-- A negative threshold makes `search_radius` return nothing, before any distance is computed,
whatever the metric. -/
theorem searchRadius_negative {maxDistance : Double} (h : env.fpu.lt maxDistance Double.zero = true) :
    searchRadius env idx query maxDistance = .ok (idx, []) := by
  unfold searchRadius
  split <;> simp only [h, if_true]

theorem searchRadius_negative_dot :
    (oneNode .dotProduct).vectors.nodes.length ≤ 2 * (oneNode .dotProduct).config.efSearch ∧
    (oneNode .dotProduct).vectors.Connected 0 ∧
    computeDistance Fpu.integral .dotProduct [Double.one] [Double.one] = .ok Double.negOne ∧
    (Fpu.integral.lt Double.negOne Double.negOne || Fpu.integral.eq Double.negOne Double.negOne) =
      true ∧
    searchRadius Env.integral (oneNode .dotProduct) [Double.one] Double.negOne =
      .ok (oneNode .dotProduct, []) :=
  ⟨by decide, connected_of_hub 1 (by decide), rfl, by decide,
    searchRadius_negative (by decide)⟩

/-! ## `search_radius` within its budget -/

/-- With `k = N` and `ef` at least `N`, on a reachable index whose layer 0 is connected,
`search_knn` returns the whole brute-force scan, nearest first. -/
theorem searchKnn_all (hc : env.fpu.IeeeCompare) (hr : Reachable env cfg idx)
    (hconn : idx.vectors.Connected 0) (hq : query.length = idx.config.vectorDimension)
    (hno : NoNaNDistance env.fpu idx.vectors idx.config.metric query)
    (efSearch : Nat) (hef : idx.vectors.nodes.length ≤ efSearch) :
    ∃ idx' r all, searchKnn env idx query idx.vectors.nodes.length efSearch = .ok (idx', r) ∧
      bruteForce env.fpu idx.vectors idx.config.metric query = .ok all ∧ r.Perm all ∧
      r.Pairwise fun a b => (env.fpu.lt a.2 b.2 || env.fpu.eq a.2 b.2) = true := by
  have hm : idx.vectors.AllDim query.length := by rw [hq]; exact hr.inv.dim.allDim
  obtain ⟨all, hall, hkeys, hsc⟩ := @bruteForce_ok env.fpu idx.vectors idx.config.metric query hm
  have hN : idx.vectors.keys.length = idx.vectors.nodes.length := List.length_map _ _
  obtain ⟨idx', r, h⟩ := searchKnn_ok_of_reachable hr hq idx.vectors.nodes.length efSearch
  refine ⟨idx', r, all, h, hall, ?_⟩
  rcases searchKnn_eq_ok h with ⟨hearly, rfl⟩ | ⟨curr, results, hne, -, -, hcurr, hres, rfl⟩
  · -- an early return: the index holds no node, and neither does the scan
    have h0 : idx.vectors.keys = [] := by
      rcases hearly with h0 | h0 | h0
      · simp [NodeMap.keys, h0]
      · simp [NodeMap.keys, ((HNSWIndex.entryOk_none h0).1 hr.inv.entry).1]
      · exact List.length_eq_zero.1 (hN.trans h0)
    rw [List.map_eq_nil_iff.1 (hkeys.trans h0)]
    exact ⟨.nil, .nil⟩
  · -- `ef = N`: the layer-0 search sees every node
    have hpos : 0 < idx.vectors.nodes.length := List.length_pos.2 hne
    rw [if_neg (by omega), Nat.min_eq_right hef] at hres
    have hperm := layerZero_perm_scan hr hconn hkeys hsc hne hcurr hres
    rw [Nat.min_self, List.take_of_length_le (by rw [hperm.length_eq, ← List.length_map all (·.1),
      hkeys, hN])]
    exact ⟨hperm, searchLayerWithDistances_le hc hno hres⟩

/-- On a reachable index whose layer 0 is connected and whose node count is at most
`2·ef_search` (in `size_t` arithmetic), for a threshold that is not negative and a query of the
index dimension, under IEEE-754 comparisons and with no NaN distance from the query to a stored
vector, `search_radius` returns the pairs of a `<=`-ordering of the brute-force scan, up to the
first one farther than the threshold. -/
theorem searchRadius_refines (hc : env.fpu.IeeeCompare) (hr : Reachable env cfg idx)
    (hconn : idx.vectors.Connected 0) (hq : query.length = idx.config.vectorDimension)
    (hno : NoNaNDistance env.fpu idx.vectors idx.config.metric query)
    {maxDistance : Double} (hmax : env.fpu.lt maxDistance Double.zero = false)
    (hef : idx.vectors.nodes.length ≤ idx.config.efSearch * 2 % 2 ^ 64) :
    ∃ idx' r all, searchRadius env idx query maxDistance = .ok (idx', r) ∧
      bruteForce env.fpu idx.vectors idx.config.metric query = .ok all ∧
      ∃ sorted : List (Int × Double), sorted.Perm all ∧
        sorted.Pairwise (fun a b => (env.fpu.lt a.2 b.2 || env.fpu.eq a.2 b.2) = true) ∧
        r = sorted.takeWhile fun p => env.fpu.lt p.2 maxDistance || env.fpu.eq p.2 maxDistance := by
  have hm : idx.vectors.AllDim query.length := by rw [hq]; exact hr.inv.dim.allDim
  obtain ⟨all, hall, hkeys, -⟩ := @bruteForce_ok env.fpu idx.vectors idx.config.metric query hm
  unfold searchRadius
  split
  · -- an early return: the index holds no node
    rename_i hearly
    have h0 : idx.vectors.nodes = [] := by
      simp only [Bool.or_eq_true, List.isEmpty_iff, Option.isNone_iff_eq_none] at hearly
      exact hearly.elim id fun h0 => ((HNSWIndex.entryOk_none h0).1 hr.inv.entry).1
    have hall0 : all = [] := by simpa [NodeMap.keys, h0] using hkeys
    exact ⟨_, [], all, rfl, hall, [], by rw [hall0], .nil, rfl⟩
  · rw [if_neg (by simp [hmax]), validateVectorDimension_eq_ok.2 ⟨hq.symm, .inr hq⟩]
    obtain ⟨idx', r, all', h, hall', hperm, hsorted⟩ :=
      searchKnn_all hc hr hconn hq hno (min (idx.config.efSearch * 2 % 2 ^ 64)
        (max idx.config.efSearch idx.vectors.nodes.length)) (by omega)
    rw [hall] at hall'
    cases hall'
    exact ⟨idx', _, all, by simp only [h, bind, Except.bind], hall, r, hperm, hsorted, rfl⟩

set_option maxRecDepth 100000 in
/-- Keys 1 and 2 at `0.0` and `10.0`, linked to each other at layer 0: a radius search around
`0.0` with threshold `5.0`. -/
theorem searchRadius_refines_pair :
    ∃ idx, Reachable Env.integral (Config.default .euclidean) idx ∧ ∃ idx' r all,
      searchRadius Env.integral idx [Double.ofIntegral false 0] (Double.ofIntegral false 5) =
        .ok (idx', r) ∧
      bruteForce Fpu.integral idx.vectors .euclidean [Double.ofIntegral false 0] = .ok all ∧
      ∃ sorted : List (Int × Double), sorted.Perm all ∧
        sorted.Pairwise (fun a b => (Fpu.integral.lt a.2 b.2 || Fpu.integral.eq a.2 b.2) = true) ∧
        r = sorted.takeWhile fun p => Fpu.integral.lt p.2 (Double.ofIntegral false 5) ||
          Fpu.integral.eq p.2 (Double.ofIntegral false 5) := by
  have r2 : Reachable Env.integral (Config.default .euclidean)
      (saveToStorage (-1) ⟨{ (Config.default .euclidean).normalize with vectorDimension := 1 },
        .refs [], (NodeMap.empty.insertOrAssign ⟨1, [Double.ofIntegral false 0], 0, [[2]]⟩).insertOrAssign
          ⟨2, [Double.ofIntegral false 10], 0, [[1]]⟩, some 1, 0⟩) :=
    .step (.insert 2 [Double.ofIntegral false 10] 0)
      (.step (.insert 1 [Double.ofIntegral false 0] 0) (.create (by decide))
        ⟨by decide, by decide, by decide⟩ rfl)
      ⟨by decide, by decide, by decide⟩ rfl
  exact ⟨_, r2, searchRadius_refines Fpu.integral_ieeeCompare r2 (connected_of_hub 1 (by decide))
    (rfl : [Double.ofIntegral false 0].length = 1) (by decide) (by decide) (by decide)⟩

set_option maxRecDepth 100000 in
/-- With NaN vectors the radius search stops early: on `nanSix`, `search_radius([13.0], 13.0)`
returns key 1 alone, as `search_knn` does, while keys 3 and 5, at `0.0` and `4.0`, are within the
threshold too. -/
theorem searchRadius_drops_nearest_nan :
    ReachableBy Env.integral nanConfig Write.IsInsert nanSix ∧ nanSix.vectors.Connected 0 ∧
      searchRadius Env.integral nanSix [Double.ofIntegral false 13] (Double.ofIntegral false 13) =
        .ok (nanSix, [(1, Double.ofIntegral false 4)]) ∧
      bruteForce Fpu.integral nanSix.vectors .euclidean [Double.ofIntegral false 13] =
        .ok [(2, Double.nan), (4, Double.nan), (3, Double.ofIntegral false 0),
          (1, Double.ofIntegral false 4), (5, Double.ofIntegral false 4), (6, Double.nan)] :=
  ⟨insertRun_nanSix, connected_of_hub 2 (by decide), rfl, rfl⟩

end Index

end RealmHnsw
