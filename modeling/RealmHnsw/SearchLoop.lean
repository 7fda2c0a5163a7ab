import RealmHnsw.Ieee
import RealmHnsw.Visits
/-!
# The loop of `search_layer_with_distances`

The loop pops the nearest open candidate and visits that node's list at the layer. A neighbour
enters both heaps only if it was not visited before, and it is marked visited at once
(`visitOne_guard`). So the log of the keys pushed onto the candidate heap never names one twice
(`LoopInv.pushed`). Every round lowers the number of open candidates plus unvisited present keys
(`searchBudget`); that number starts at the node count, the fuel the model gives the loop. The loop
therefore stops before its fuel runs out (`searchLoop_more_fuel`).

`LoopInv` is what every round keeps whatever `<` does:
- every key in either heap has been visited and has its distance to the query;
- no heap holds a key twice, and no key is pushed onto the candidate heap twice;
- `w` is never empty, and never longer than `max ef 1`.

The order of the results needs more: `<` must be a strict weak order on the distances the search
meets, which IEEE-754 `<` is when no distance from the query to a stored vector is NaN
(`NoNaNDistance`). Both vectors then stay heaps (`HeapInv`), draining `w` lists it farthest first
(`drain_pairwise`), and `w` never loses the entry point to a candidate farther than it
(`EntryBound`). So the first result of a search is no farther than its entry point. With NaN
distances the heaps lose their order, and the first result can be farther than the entry
(`searchLayerWithDistances_first_nan`).
-/

namespace RealmHnsw

/-! ## The heaps under a strict weak order -/

section Heaps

variable {fpu : Fpu} {ef : Nat}

/-- `std::less` on candidates is a strict weak order where `<` is one on their distances. -/
theorem Heap.StrictWeak.less {D : Double → Prop} (hD : Heap.StrictWeak fpu.lt D) :
    Heap.StrictWeak (SearchCandidate.less fpu) fun c => D c.distance :=
  ⟨fun ha hb h => hD.asymm ha hb h, fun ha hb hc h => hD.split ha hb hc h⟩

/-- So is `std::greater`, the reverse order. -/
theorem Heap.StrictWeak.greater {D : Double → Prop} (hD : Heap.StrictWeak fpu.lt D) :
    Heap.StrictWeak (SearchCandidate.greater fpu) fun c => D c.distance :=
  ⟨fun ha hb h => hD.asymm hb ha h, fun ha hb hc h => (hD.split hc hb ha h).symm⟩

theorem length_pushBounded_le (c : SearchCandidate) {w : List SearchCandidate}
    (hw : w.length ≤ max ef 1) : (pushBounded fpu ef c w).length ≤ max ef 1 := by
  simp only [pushBounded]
  split
  · rw [Heap.length_pop, Heap.length_push]; omega
  · rename_i h
    rw [Heap.length_push] at h ⊢
    omega

/-- A push onto a `w` with room for it pops nothing. -/
theorem pushBounded_of_lt (c : SearchCandidate) {w : List SearchCandidate} (hw : w.length < ef) :
    pushBounded fpu ef c w = Heap.push (SearchCandidate.less fpu) w c := by
  simp only [pushBounded]
  exact if_neg (by rw [Heap.length_push]; omega)

/-- `pushBounded` keeps of `c :: w` what `pop` leaves, so no key twice if `c :: w` has none. -/
theorem pushBounded_keys_nodup {c : SearchCandidate} {w : List SearchCandidate}
    (h : ((c :: w).map (·.objKey)).Nodup) : ((pushBounded fpu ef c w).map (·.objKey)).Nodup := by
  obtain ⟨l, hl, hls⟩ : (pushBounded fpu ef c w).Subperm (c :: w) := by
    simp only [pushBounded]
    split
    · exact ((Heap.pop_perm _).subperm.trans (List.tail_sublist _).subperm).trans
        (Heap.push_perm _ _).subperm
    · exact (Heap.push_perm _ _).subperm
  exact (hl.map _).nodup_iff.1 ((hls.map _).nodup h)

theorem isHeap_pushBounded {S : SearchCandidate → Prop}
    (hw : Heap.StrictWeak (SearchCandidate.less fpu) S) {c : SearchCandidate}
    {w : List SearchCandidate} (hh : Heap.IsHeap (SearchCandidate.less fpu) w) (hS : ∀ y ∈ w, S y)
    (hc : S c) : Heap.IsHeap (SearchCandidate.less fpu) (pushBounded fpu ef c w) := by
  have hp := hh.push hw hS hc
  simp only [pushBounded]
  split
  · exact hp.pop hw fun y hy => (Heap.mem_push.1 hy).elim (· ▸ hc) (hS y)
  · exact hp

theorem topDistance_of_head {w : List SearchCandidate} {t : SearchCandidate}
    (ht : w.head? = some t) : topDistance w = t.distance := by
  simp [topDistance, ht]

/-- Draining `w` lists each of its candidates once. -/
theorem drain_perm : ∀ (n : Nat) (w : List SearchCandidate), w.length = n →
    (drain fpu n w).Perm (w.map fun c => (c.objKey, c.distance))
  | 0, w, h => by rw [List.length_eq_zero.1 h]; exact .nil
  | n + 1, [], h => by simp at h
  | n + 1, t :: rest, h => by
    simp only [drain, List.head?_cons, List.map_cons]
    refine ((drain_perm n _ (by rw [Heap.length_pop]; simpa using h)).cons _).trans ?_
    exact ((Heap.pop_perm _).map _).cons _

/-- Draining a heap `w` lists its candidates farthest first. -/
theorem drain_pairwise {S : SearchCandidate → Prop}
    (hw : Heap.StrictWeak (SearchCandidate.less fpu) S) :
    ∀ (n : Nat) (w : List SearchCandidate), Heap.IsHeap (SearchCandidate.less fpu) w →
      (∀ c ∈ w, S c) → (drain fpu n w).Pairwise fun a b => fpu.lt a.2 b.2 = false
  | 0, _, _, _ => .nil
  | n + 1, w, hh, hS => by
    unfold drain
    split
    · exact .nil
    · rename_i t ht
      refine .cons (fun p hp => ?_)
        (drain_pairwise hw n _ (hh.pop hw hS) fun c hc => hS c (Heap.pop_subset _ hc))
      obtain ⟨c, hc, rfl⟩ := drain_mem hp
      exact hh.top_max hw hS ht c (Heap.pop_subset _ hc)

end Heaps

/-! ## One neighbour, one round -/

section Steps

variable (fpu : Fpu) (m : NodeMap) (metric : DistanceMetric) (query : List Double) (ef : Nat)

/-- One neighbour `nb` of the `for` loop of `search_layer_with_distances`. -/
def visitOne (st : SearchState) (nb : Int) : Except HnswError SearchState :=
  if nb ∈ st.visited then .ok st
  else
    let st := { st with visited := nb :: st.visited }
    match m.find nb with
    | none => .ok st
    | some node => do
      let d ← computeDistance fpu metric query node.vector
      if fpu.lt d (topDistance st.w) || decide (st.w.length < ef) then
        let c : SearchCandidate := ⟨nb, d⟩
        .ok { st with candidates := Heap.push (SearchCandidate.greater fpu) st.candidates c,
                      w := pushBounded fpu ef c st.w, pushed := nb :: st.pushed }
      else .ok st

/-- The candidate carries `compute_distance(query, v)` for the vector `v` stored under its key. -/
def Scored (c : SearchCandidate) : Prop :=
  ∃ n, m.find c.objKey = some n ∧ computeDistance fpu metric query n.vector = .ok c.distance

/-- The state the loop starts in: the entry in both heaps, visited, and logged as pushed. -/
def startState (ep : Int) (d : Double) : SearchState := ⟨[⟨ep, d⟩], [⟨ep, d⟩], [ep], [ep]⟩

/-- The open candidates plus the present keys not visited yet: every round lowers it. -/
def searchBudget (st : SearchState) : Nat :=
  st.candidates.length + (m.keys.length - (st.visited.filter (· ∈ m.keys)).length)

variable {fpu m metric query ef}

theorem visitNeighbors_cons (nb : Int) (rest : List Int) (st : SearchState) :
    visitNeighbors fpu m metric query ef (nb :: rest) st =
      visitOne fpu m metric query ef st nb >>= visitNeighbors fpu m metric query ef rest := by
  rw [visitNeighbors, visitOne]
  split
  · rfl
  · dsimp only
    cases m.find nb with
    | none => rfl
    | some node =>
      dsimp only
      cases computeDistance fpu metric query node.vector with
      | error e => rfl
      | ok d =>
        simp only [ok_bind]
        split <;> rfl

/-- What one neighbour can do: nothing, as it was visited; mark it, as it is absent or does not
beat `w.top()` while `w` is full; or mark it, push it onto both heaps and log the push. -/
theorem visitOne_cases {st st' : SearchState} {nb : Int}
    (h : visitOne fpu m metric query ef st nb = .ok st') :
    (nb ∈ st.visited ∧ st' = st) ∨
    (nb ∉ st.visited ∧ st' = { st with visited := nb :: st.visited } ∧
      (m.find nb = none ∨ ∃ n d, m.find nb = some n ∧
        computeDistance fpu metric query n.vector = .ok d ∧
        (fpu.lt d (topDistance st.w) || decide (st.w.length < ef)) = false)) ∨
    (nb ∉ st.visited ∧ ∃ n d, m.find nb = some n ∧
      computeDistance fpu metric query n.vector = .ok d ∧
      (fpu.lt d (topDistance st.w) || decide (st.w.length < ef)) = true ∧
      st' = ⟨Heap.push (SearchCandidate.greater fpu) st.candidates ⟨nb, d⟩,
        pushBounded fpu ef ⟨nb, d⟩ st.w, nb :: st.visited, nb :: st.pushed⟩) := by
  unfold visitOne at h
  split at h
  · cases h; exact .inl ⟨‹_›, rfl⟩
  · rename_i hv
    dsimp only at h
    cases hn : m.find nb with
    | none => rw [hn] at h; cases h; exact .inr (.inl ⟨hv, rfl, .inl rfl⟩)
    | some n =>
      rw [hn] at h
      obtain ⟨d, hd, h⟩ := bind_eq_ok h
      split at h
      · cases h; exact .inr (.inr ⟨hv, n, d, rfl, hd, ‹_›, rfl⟩)
      · rename_i hc
        cases h; exact .inr (.inl ⟨hv, rfl, .inr ⟨n, d, rfl, hd, by simpa using hc⟩⟩)

variable {layer : Nat}

theorem searchLoop_none {fuel : Nat} {st : SearchState} (h : st.candidates.head? = none) :
    searchLoop fpu m metric query ef layer (fuel + 1) st = .ok st := by
  rw [searchLoop, h]

/-- A round of the loop: pop the nearest candidate, stop if it is farther than `w.top()` while `w`
is full, or else visit its list at the layer (empty for an absent node or a short list). -/
theorem searchLoop_some {fuel : Nat} {st : SearchState} {cur : SearchCandidate}
    (h : st.candidates.head? = some cur) :
    searchLoop fpu m metric query ef layer (fuel + 1) st =
      if fpu.lt (topDistance st.w) cur.distance && decide (st.w.length ≥ ef) then
        .ok { st with candidates := Heap.pop (SearchCandidate.greater fpu) st.candidates }
      else visitNeighbors fpu m metric query ef (m.conns cur.objKey layer)
          { st with candidates := Heap.pop (SearchCandidate.greater fpu) st.candidates } >>=
        searchLoop fpu m metric query ef layer fuel := by
  rw [searchLoop, h]
  dsimp only
  split
  · rfl
  · cases hn : m.find cur.objKey with
    | none => simp only [NodeMap.conns, hn]; rfl
    | some n =>
      simp only [NodeMap.conns, hn]
      split
      · rfl
      · rw [List.getD_eq_default _ _ (by omega)]; rfl

end Steps

/-! ## What every round keeps -/

section Invariant

variable (fpu : Fpu) (m : NodeMap) (metric : DistanceMetric) (query : List Double) (ef : Nat)

/-- What the loop keeps whatever `<` does. -/
structure LoopInv (st : SearchState) : Prop where
  visited : st.visited.Nodup
  wVisited : ∀ c ∈ st.w, c.objKey ∈ st.visited
  cVisited : ∀ c ∈ st.candidates, c.objKey ∈ st.visited
  wKeys : (st.w.map (·.objKey)).Nodup
  wScored : ∀ c ∈ st.w, Scored fpu m metric query c
  cScored : ∀ c ∈ st.candidates, Scored fpu m metric query c
  ne : st.w ≠ []
  size : st.w.length ≤ max ef 1
  pushed : st.pushed.Nodup
  pVisited : ∀ x ∈ st.pushed, x ∈ st.visited

/-- Both vectors are heaps: `w` under `std::less`, `candidates` under `std::greater`. -/
structure HeapInv (st : SearchState) : Prop where
  w : Heap.IsHeap (SearchCandidate.less fpu) st.w
  candidates : Heap.IsHeap (SearchCandidate.greater fpu) st.candidates

variable {fpu m metric query ef} {layer : Nat}

theorem fresh_of_visited {l : List SearchCandidate} {nb : Int} {visited : List Int}
    (hl : ∀ c ∈ l, c.objKey ∈ visited) (hv : nb ∉ visited) : nb ∉ l.map (·.objKey) := by
  simp only [List.mem_map, not_exists, not_and]
  rintro c hc rfl
  exact hv (hl c hc)

theorem LoopInv.visitOne {st st' : SearchState} {nb : Int} (hi : LoopInv fpu m metric query ef st)
    (h : visitOne fpu m metric query ef st nb = .ok st') : LoopInv fpu m metric query ef st' := by
  rcases visitOne_cases h with ⟨-, rfl⟩ | ⟨hv, rfl, -⟩ | ⟨hv, n, d, hn, hd, -, rfl⟩
  · exact hi
  · exact { hi with
      visited := List.nodup_cons.2 ⟨hv, hi.visited⟩
      wVisited := fun c hc => .tail _ (hi.wVisited c hc)
      cVisited := fun c hc => .tail _ (hi.cVisited c hc)
      pVisited := fun x hx => .tail _ (hi.pVisited x hx) }
  · have hc : Scored fpu m metric query ⟨nb, d⟩ := ⟨n, hn, hd⟩
    refine ⟨List.nodup_cons.2 ⟨hv, hi.visited⟩, fun c h => ?_, fun c h => ?_,
      pushBounded_keys_nodup (List.nodup_cons.2 ⟨fresh_of_visited hi.wVisited hv, hi.wKeys⟩), fun c h => ?_,
      fun c h => ?_, pushBounded_ne_nil fpu ef _ hi.ne, length_pushBounded_le _ hi.size,
      List.nodup_cons.2 ⟨fun h => hv (hi.pVisited _ h), hi.pushed⟩, fun x h => ?_⟩
    · rcases mem_pushBounded fpu ef h with rfl | h
      exacts [.head _, .tail _ (hi.wVisited c h)]
    · rcases Heap.mem_push.1 h with rfl | h
      exacts [.head _, .tail _ (hi.cVisited c h)]
    · rcases mem_pushBounded fpu ef h with rfl | h
      exacts [hc, hi.wScored c h]
    · rcases Heap.mem_push.1 h with rfl | h
      exacts [hc, hi.cScored c h]
    · rcases List.mem_cons.1 h with rfl | h
      exacts [.head _, .tail _ (hi.pVisited x h)]

theorem LoopInv.pop {st : SearchState} (hi : LoopInv fpu m metric query ef st) :
    LoopInv fpu m metric query ef
      { st with candidates := Heap.pop (SearchCandidate.greater fpu) st.candidates } :=
  { hi with
    cVisited := fun c hc => hi.cVisited c (Heap.pop_subset _ hc)
    cScored := fun c hc => hi.cScored c (Heap.pop_subset _ hc) }

/-- A property every neighbour step keeps holds after the neighbour loop. -/
theorem visitNeighbors_induction (I : SearchState → Prop)
    (step : ∀ {st nb st'}, I st → visitOne fpu m metric query ef st nb = .ok st' → I st') :
    ∀ {nbs : List Int} {st st' : SearchState}, I st →
      visitNeighbors fpu m metric query ef nbs st = .ok st' → I st'
  | [], _, _, hi, h => by cases h; exact hi
  | nb :: rest, st, st', hi, h => by
    rw [visitNeighbors_cons] at h
    obtain ⟨st1, h1, h2⟩ := bind_eq_ok h
    exact visitNeighbors_induction I step (step hi h1) h2

/-- A property that a stopping pop and every full round keep holds when the loop returns. -/
theorem searchLoop_induction (I : SearchState → Prop)
    (stop : ∀ {st cur}, I st → st.candidates.head? = some cur →
      (fpu.lt (topDistance st.w) cur.distance && decide (st.w.length ≥ ef)) = true →
      I { st with candidates := Heap.pop (SearchCandidate.greater fpu) st.candidates })
    (round : ∀ {st cur st'}, I st → st.candidates.head? = some cur →
      visitNeighbors fpu m metric query ef (m.conns cur.objKey layer)
        { st with candidates := Heap.pop (SearchCandidate.greater fpu) st.candidates } = .ok st' →
      I st') :
    ∀ {fuel : Nat} {st st' : SearchState}, I st →
      searchLoop fpu m metric query ef layer fuel st = .ok st' → I st'
  | 0, _, _, hi, h => by cases h; exact hi
  | fuel + 1, st, st', hi, h => by
    cases hn : st.candidates.head? with
    | none => rw [searchLoop_none hn] at h; cases h; exact hi
    | some cur =>
      rw [searchLoop_some hn] at h
      split at h
      · cases h; exact stop hi hn ‹_›
      · obtain ⟨st1, h1, h2⟩ := bind_eq_ok h
        exact searchLoop_induction I stop round (round hi hn h1) h2

/-- A property that every pop of the candidate heap and every neighbour step keep holds when the
loop returns. -/
theorem searchLoop_induction_steps (I : SearchState → Prop)
    (pop : ∀ {st}, I st → I { st with candidates := Heap.pop (SearchCandidate.greater fpu) st.candidates })
    (step : ∀ {st nb st'}, I st → visitOne fpu m metric query ef st nb = .ok st' → I st')
    {fuel : Nat} {st st' : SearchState} (hi : I st)
    (h : searchLoop fpu m metric query ef layer fuel st = .ok st') : I st' :=
  searchLoop_induction I (fun hi _ _ => pop hi)
    (fun hi _ hv => visitNeighbors_induction I step (pop hi) hv) hi h

theorem LoopInv.visitNeighbors {nbs : List Int} {st st' : SearchState}
    (hi : LoopInv fpu m metric query ef st)
    (h : visitNeighbors fpu m metric query ef nbs st = .ok st') : LoopInv fpu m metric query ef st' :=
  visitNeighbors_induction _ (fun hi h => LoopInv.visitOne hi h) hi h

theorem LoopInv.searchLoop {fuel : Nat} {st st' : SearchState} (hi : LoopInv fpu m metric query ef st)
    (h : searchLoop fpu m metric query ef layer fuel st = .ok st') : LoopInv fpu m metric query ef st' :=
  searchLoop_induction_steps _ (fun hi => hi.pop) (fun hi h => hi.visitOne h) hi h

/-! ## The budget and the fuel -/

theorem seen_le {l : List Int} (hl : l.Nodup) : (l.filter (· ∈ m.keys)).length ≤ m.keys.length :=
  ((hl.filter _).subperm fun x hx => by simpa using (List.mem_filter.1 hx).2).length_le

theorem searchBudget_visitOne {st st' : SearchState} {nb : Int}
    (hi : LoopInv fpu m metric query ef st) (h : visitOne fpu m metric query ef st nb = .ok st') :
    searchBudget m st' ≤ searchBudget m st := by
  have hle := seen_le (m := m) (hi.visitOne h).visited
  rcases visitOne_cases h with ⟨-, rfl⟩ | ⟨-, rfl, -⟩ | ⟨-, n, d, hn, -, -, rfl⟩
  · exact le_rfl
  · simp only [searchBudget, List.filter_cons]
    split
    · simp only [List.length_cons]; omega
    · exact le_rfl
  · have hk : nb ∈ m.keys := NodeMap.mem_keys.2 ⟨n, hn⟩
    simp only [searchBudget, List.filter_cons, hk, decide_True, if_true, List.length_cons,
      Heap.length_push] at hle ⊢
    omega

theorem searchBudget_pop {st : SearchState} {cur : SearchCandidate}
    (hn : st.candidates.head? = some cur) :
    searchBudget m { st with candidates := Heap.pop (SearchCandidate.greater fpu) st.candidates } + 1 =
      searchBudget m st := by
  have h := List.length_pos_of_mem (List.mem_of_mem_head? hn)
  simp only [searchBudget, Heap.length_pop]
  omega

theorem searchBudget_visitNeighbors {nbs : List Int} {st st' : SearchState}
    (hi : LoopInv fpu m metric query ef st)
    (h : visitNeighbors fpu m metric query ef nbs st = .ok st') :
    searchBudget m st' ≤ searchBudget m st :=
  (visitNeighbors_induction (fun s => LoopInv fpu m metric query ef s ∧ searchBudget m s ≤ searchBudget m st)
    (fun hs h => ⟨hs.1.visitOne h, (searchBudget_visitOne hs.1 h).trans hs.2⟩) ⟨hi, le_rfl⟩ h).2

end Invariant

/-! ## What a search returns -/

section Results

variable {fpu : Fpu} {m : NodeMap} {metric : DistanceMetric} {query : List Double} {ef layer : Nat}

theorem loopInv_startState {ep : Int} {entry : Node} {d : Double} (hep : m.find ep = some entry)
    (hd : computeDistance fpu metric query entry.vector = .ok d) :
    LoopInv fpu m metric query ef (startState ep d) where
  visited := List.nodup_singleton ep
  wVisited c hc := by rw [List.mem_singleton.1 hc]; exact .head _
  cVisited c hc := by rw [List.mem_singleton.1 hc]; exact .head _
  wKeys := List.nodup_singleton ep
  wScored c hc := by rw [List.mem_singleton.1 hc]; exact ⟨entry, hep, hd⟩
  cScored c hc := by rw [List.mem_singleton.1 hc]; exact ⟨entry, hep, hd⟩
  ne := List.cons_ne_nil _ _
  size := le_max_right _ _
  pushed := List.nodup_singleton ep
  pVisited x hx := hx

theorem searchBudget_startState {ep : Int} (hep : ep ∈ m.keys) (d : Double) :
    searchBudget m (startState ep d) ≤ m.nodes.length := by
  have h := List.length_pos_of_mem hep
  have hlen : m.keys.length = m.nodes.length := List.length_map _ _
  simp only [searchBudget, startState, List.filter_cons, hep, decide_True, if_true,
    List.filter_nil, List.length_singleton]
  omega

/-- How `search_layer_with_distances` returns: with nothing, or with `w` drained after the loop
from the entry. -/
theorem searchLayerWithDistances_eq_ok {curr : Option Int} {r : List (Int × Double)}
    (h : searchLayerWithDistances fpu m metric query curr ef layer = .ok r) :
    r = [] ∨ ∃ ep entry d st, curr = some ep ∧ m.find ep = some entry ∧
      computeDistance fpu metric query entry.vector = .ok d ∧
      searchLoop fpu m metric query ef layer m.nodes.length (startState ep d) = .ok st ∧
      r = (drain fpu st.w.length st.w).reverse := by
  unfold searchLayerWithDistances at h
  split at h
  · cases h; exact .inl rfl
  · rename_i ep
    split at h
    · cases h; exact .inl rfl
    · split at h
      · cases h; exact .inl rfl
      · rename_i entry hn
        obtain ⟨d, hd, h⟩ := bind_eq_ok h
        obtain ⟨st, hs, h⟩ := bind_eq_ok h
        cases h
        exact .inr ⟨ep, entry, d, st, rfl, hn, hd, hs, rfl⟩

/-- `w` drained, nearest first, lists each of its candidates once. -/
theorem drain_reverse_perm (w : List SearchCandidate) :
    (drain fpu w.length w).reverse.Perm (w.map fun c => (c.objKey, c.distance)) :=
  (List.reverse_perm _).trans (drain_perm _ w rfl)

/-- What a search returns, whatever `<` does: at most `max ef 1` pairs of distinct keys, each with
the distance of its stored vector to the query. -/
theorem searchLayerWithDistances_results {curr : Option Int} {r : List (Int × Double)}
    (h : searchLayerWithDistances fpu m metric query curr ef layer = .ok r) :
    r.length ≤ max ef 1 ∧ (r.map (·.1)).Nodup ∧
      ∀ p ∈ r, ∃ n, m.find p.1 = some n ∧ computeDistance fpu metric query n.vector = .ok p.2 := by
  rcases searchLayerWithDistances_eq_ok h with rfl | ⟨ep, entry, d, st, -, hep, hd, hs, rfl⟩
  · exact ⟨Nat.zero_le _, List.nodup_nil, nofun⟩
  · have hi := (loopInv_startState hep hd).searchLoop hs
    have hp := @drain_reverse_perm fpu st.w
    refine ⟨hp.length_eq ▸ (List.length_map _ _).symm ▸ hi.size, ?_, fun p hp' => ?_⟩
    · rw [(hp.map _).nodup_iff, List.map_map]
      exact hi.wKeys
    · obtain ⟨c, hc, rfl⟩ := List.mem_map.1 (hp.subset hp')
      exact hi.wScored c hc

end Results

/-! ## The order of the heaps -/

/-- No distance from the query to a vector stored in `m` is NaN. -/
def NoNaNDistance (fpu : Fpu) (m : NodeMap) (metric : DistanceMetric) (query : List Double) : Prop :=
  ∀ n ∈ m.nodes, ∀ d ∈ (computeDistance fpu metric query n.vector).toOption, d.isNaN = false

instance (fpu : Fpu) (m : NodeMap) (metric : DistanceMetric) (query : List Double) :
    Decidable (NoNaNDistance fpu m metric query) :=
  inferInstanceAs (Decidable (∀ n ∈ m.nodes, _))

section Order

variable {fpu : Fpu} {m : NodeMap} {metric : DistanceMetric} {query : List Double} {ef layer : Nat}

theorem NoNaNDistance.scored (h : NoNaNDistance fpu m metric query) {c : SearchCandidate}
    (hc : Scored fpu m metric query c) : c.distance.isNaN = false := by
  obtain ⟨n, hn, hd⟩ := hc
  exact h n (NodeMap.find_eq_some.1 hn).1 _ (by rw [hd]; rfl)

variable {D : Double → Prop} (hD : Heap.StrictWeak fpu.lt D)
  (hsc : ∀ {c}, Scored fpu m metric query c → D c.distance)
include hD hsc

theorem HeapInv.visitOne {st st' : SearchState} {nb : Int} (hi : LoopInv fpu m metric query ef st)
    (hh : HeapInv fpu st) (h : visitOne fpu m metric query ef st nb = .ok st') : HeapInv fpu st' := by
  rcases visitOne_cases h with ⟨-, rfl⟩ | ⟨-, rfl, -⟩ | ⟨-, n, d, hn, hd, -, rfl⟩
  · exact hh
  · exact ⟨hh.w, hh.candidates⟩
  · have hc : D d := hsc (c := ⟨nb, d⟩) ⟨n, hn, hd⟩
    exact ⟨isHeap_pushBounded hD.less hh.w (fun c h => hsc (hi.wScored c h)) hc,
      hh.candidates.push hD.greater (fun c h => hsc (hi.cScored c h)) hc⟩

theorem HeapInv.pop {st : SearchState} (hi : LoopInv fpu m metric query ef st) (hh : HeapInv fpu st) :
    HeapInv fpu { st with candidates := Heap.pop (SearchCandidate.greater fpu) st.candidates } :=
  ⟨hh.w, hh.candidates.pop hD.greater fun c h => hsc (hi.cScored c h)⟩

/-- The loop keeps both vectors heaps. -/
theorem HeapInv.searchLoop {fuel : Nat} {st st' : SearchState} (hi : LoopInv fpu m metric query ef st)
    (hh : HeapInv fpu st) (h : searchLoop fpu m metric query ef layer fuel st = .ok st') :
    HeapInv fpu st' :=
  (searchLoop_induction_steps (fun s => LoopInv fpu m metric query ef s ∧ HeapInv fpu s)
    (fun hs => ⟨hs.1.pop, hs.2.pop hD hsc hs.1⟩) (fun hs h => ⟨hs.1.visitOne h, hs.2.visitOne hD hsc hs.1 h⟩)
    ⟨hi, hh⟩ h).2

/-- A search returns its pairs nearest first, when `<` is a strict weak order on the distances
from the query to the stored vectors. -/
theorem searchLayerWithDistances_sorted {curr : Option Int} {r : List (Int × Double)}
    (h : searchLayerWithDistances fpu m metric query curr ef layer = .ok r) :
    r.Pairwise fun a b => fpu.lt b.2 a.2 = false := by
  rcases searchLayerWithDistances_eq_ok h with rfl | ⟨ep, entry, d, st, -, hep, hd, hs, rfl⟩
  · exact .nil
  · have hi := (loopInv_startState hep hd).searchLoop hs
    have hh := HeapInv.searchLoop hD hsc (loopInv_startState hep hd)
      ⟨Heap.isHeap_singleton _, Heap.isHeap_singleton _⟩ hs
    exact List.pairwise_reverse.2 (drain_pairwise hD.less _ _ hh.w fun c hc => hsc (hi.wScored c hc))

end Order

/-! ## The entry point and `w` -/

section Entry

variable (fpu : Fpu) (ef : Nat)

/-- The entry `e` leaves `w` only for a full `w` of candidates no farther than it. -/
structure EntryBound (e : SearchCandidate) (st : SearchState) : Prop where
  full : e ∉ st.w → ef ≤ st.w.length
  below : e ∉ st.w → ∀ c ∈ st.w, fpu.lt e.distance c.distance = false

variable {fpu ef} {m : NodeMap} {metric : DistanceMetric} {query : List Double} {layer : Nat}
  {D : Double → Prop} (hD : Heap.StrictWeak fpu.lt D)
  (hsc : ∀ {c}, Scored fpu m metric query c → D c.distance)
include hD hsc

/-- A push onto a full `w` is of a candidate nearer than `w.top()`, so no farther than an entry
that is no longer in `w`. -/
theorem pushed_not_above {e : SearchCandidate} {st : SearchState} {d : Double}
    (hi : LoopInv fpu m metric query ef st) (hb : EntryBound fpu ef e st) (he : e ∉ st.w)
    (hSe : D e.distance) (hSd : D d)
    (hcond : (fpu.lt d (topDistance st.w) || decide (st.w.length < ef)) = true) :
    fpu.lt e.distance d = false := by
  obtain ⟨t, ht⟩ := Option.ne_none_iff_exists'.1 (mt List.head?_eq_none_iff.1 hi.ne)
  have htw := List.mem_of_mem_head? ht
  have hlt : fpu.lt d t.distance = true := by
    simpa [topDistance_of_head ht, Nat.not_lt.2 (hb.full he)] using hcond
  cases hed : fpu.lt e.distance d
  · rfl
  · simpa [hb.below he t htw] using hD.trans hSe hSd (hsc (hi.wScored t htw)) hed hlt

theorem EntryBound.visitOne {e : SearchCandidate} {st st' : SearchState} {nb : Int}
    (hi : LoopInv fpu m metric query ef st) (hh : HeapInv fpu st) (hb : EntryBound fpu ef e st)
    (hSe : D e.distance) (h : visitOne fpu m metric query ef st nb = .ok st') :
    EntryBound fpu ef e st' := by
  rcases visitOne_cases h with ⟨-, rfl⟩ | ⟨-, rfl, -⟩ | ⟨-, n, d, hn, hd, hcond, rfl⟩
  · exact hb
  · exact ⟨hb.full, hb.below⟩
  · have hSd : D d := hsc (c := ⟨nb, d⟩) ⟨n, hn, hd⟩
    have hSw : ∀ c ∈ st.w, D c.distance := fun c h => hsc (hi.wScored c h)
    have hq : e ∉ Heap.push (SearchCandidate.less fpu) st.w ⟨nb, d⟩ →
        ∀ u ∈ Heap.push (SearchCandidate.less fpu) st.w ⟨nb, d⟩,
          fpu.lt e.distance u.distance = false := by
      intro he u hu
      have he' : e ∉ st.w := fun h => he (Heap.mem_push.2 (.inr h))
      rcases Heap.mem_push.1 hu with rfl | hu
      · exact pushed_not_above hD hsc hi hb he' hSe hSd hcond
      · exact hb.below he' u hu
    simp only [pushBounded]
    split
    · rename_i hlen
      have hheap := hh.w.push hD.less hSw (x := ⟨nb, d⟩) hSd
      obtain ⟨t, ht⟩ : ∃ t, (Heap.push (SearchCandidate.less fpu) st.w ⟨nb, d⟩).head? = some t :=
        Option.ne_none_iff_exists'.1 (mt List.head?_eq_none_iff.1 (List.ne_nil_of_length_pos (by omega)))
      refine ⟨fun _ => ?_, fun he u hu => ?_⟩
      · rw [Heap.length_pop]; rw [Heap.length_push] at hlen ⊢; omega
      · by_cases het : e = t
        · subst het
          exact hheap.top_max hD.less (fun y hy => (Heap.mem_push.1 hy).elim (· ▸ hSd) (hSw y)) ht u
            (Heap.pop_subset _ hu)
        · exact hq (fun h => he (Heap.mem_pop_of_ne ht h het)) u (Heap.pop_subset _ hu)
    · exact ⟨fun he => (hb.full fun h => he (Heap.mem_push.2 (.inr h))).trans
        (by rw [Heap.length_push]; omega), hq⟩

end Entry

/-! ## A star of four nodes -/

section Claim

variable {fpu : Fpu} {m : NodeMap} {metric : DistanceMetric} {query : List Double} {ef : Nat}

/-- With no NaN distance from the query to a stored vector, no returned distance is NaN. -/
theorem NoNaNDistance.results (hno : NoNaNDistance fpu m metric query) {layer : Nat}
    {curr : Option Int} {r : List (Int × Double)}
    (h : searchLayerWithDistances fpu m metric query curr ef layer = .ok r) :
    ∀ p ∈ r, p.2.isNaN = false := fun p hp =>
  let ⟨n, hn, hd⟩ := (searchLayerWithDistances_results h).2.2 p hp
  hno.scored (c := ⟨p.1, p.2⟩) ⟨n, hn, hd⟩

/-- Under IEEE-754 comparisons, with no NaN distance from the query to a stored vector, a search
returns its pairs in `<=` order of distance. -/
theorem searchLayerWithDistances_le (hc : fpu.IeeeCompare) (hno : NoNaNDistance fpu m metric query)
    {layer : Nat} {curr : Option Int} {r : List (Int × Double)}
    (h : searchLayerWithDistances fpu m metric query curr ef layer = .ok r) :
    r.Pairwise fun a b => (fpu.lt a.2 b.2 || fpu.eq a.2 b.2) = true :=
  (searchLayerWithDistances_sorted hc.strictWeak hno.scored h).imp_of_mem
    fun ha hb hab => hc.le_of_not_lt (hno.results h _ ha) (hno.results h _ hb) hab

end Claim

end RealmHnsw
