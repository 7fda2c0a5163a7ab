import RealmHnsw.Heap
/-!
# Searching a layer and choosing neighbours

`search_layer_with_distances` is a best-first search over one layer, with a min-heap of open
candidates, a max-heap `w` of the best `ef` seen so far and a visited set;
`select_neighbors_simple` and `select_neighbors_heuristic` choose links among its results.

The two heaps are `std::priority_queue`s over `SearchCandidate`, ordered by `operator<` and
`operator>` on distances, and run as libstdc++ runs them (`RealmHnsw.Heap`). `std::sort` by
distance is libstdc++'s `__insertion_sort`, which is what `std::sort` runs on up to 16 elements.
On more, `std::sort` is an introsort: with no NaN distance it returns the same elements in the
same order up to the order of equal distances, and with a NaN distance `<` is no strict weak
order and the standard leaves its result unspecified.
-/

namespace RealmHnsw

/-- `HNSWIndex::SearchCandidate`. -/
structure SearchCandidate where
  objKey : Int
  distance : Double
deriving DecidableEq, Repr

/-- `std::less<SearchCandidate>`, by `SearchCandidate::operator<`: `a` goes below `b` in the
max-heap `w` when its distance is less. -/
def SearchCandidate.less (fpu : Fpu) (a b : SearchCandidate) : Bool := fpu.lt a.distance b.distance

/-- `std::greater<SearchCandidate>`, by `SearchCandidate::operator>`: `a` goes below `b` in the
min-heap of candidates when its distance is greater (`a > b` is `b < a` in IEEE-754). -/
def SearchCandidate.greater (fpu : Fpu) (a b : SearchCandidate) : Bool :=
  fpu.lt b.distance a.distance

/-- The state of the `while` loop of `search_layer_with_distances`: the vectors of the two heaps,
the visited set, and `pushed`, the keys pushed onto `candidates` so far, newest first. The code
keeps no such list and no step reads it: it only records the run. -/
structure SearchState where
  candidates : List SearchCandidate
  w : List SearchCandidate
  visited : List Int
  pushed : List Int

section

variable (fpu : Fpu) (m : NodeMap) (metric : DistanceMetric) (query : List Double)

/-- `w.top().distance`; the code reads it only while `w` is not empty. -/
def topDistance (w : List SearchCandidate) : Double :=
  (w.head?.map (·.distance)).getD Double.zero

/-- `w.push(c); if (w.size() > ef) w.pop();` -/
def pushBounded (ef : Nat) (c : SearchCandidate) (w : List SearchCandidate) : List SearchCandidate :=
  let w := Heap.push (SearchCandidate.less fpu) w c
  if w.length > ef then Heap.pop (SearchCandidate.less fpu) w else w

/-- The `for` loop over `node.connections[layer]` in `search_layer_with_distances`: an unvisited
neighbour is marked; if present, it is pushed onto both heaps when it beats `w.top()` or `w` is
short, and `w` then pops its top when it holds more than `ef`. -/
def visitNeighbors (ef : Nat) : List Int → SearchState → Except HnswError SearchState
  | [], st => .ok st
  | nb :: rest, st =>
    if nb ∈ st.visited then visitNeighbors ef rest st
    else
      let st := { st with visited := nb :: st.visited }
      match m.find nb with
      | none => visitNeighbors ef rest st
      | some node => do
        let d ← computeDistance fpu metric query node.vector
        if fpu.lt d (topDistance st.w) || decide (st.w.length < ef) then
          let c : SearchCandidate := ⟨nb, d⟩
          visitNeighbors ef rest
            { st with candidates := Heap.push (SearchCandidate.greater fpu) st.candidates c,
                      w := pushBounded fpu ef c st.w, pushed := nb :: st.pushed }
        else visitNeighbors ef rest st

/-- The `while (!candidates.empty())` loop, one pop per unit of `fuel`. Every candidate pushed is
a present key never pushed before, so `m_vectors.size()` units are enough. -/
def searchLoop (ef layer : Nat) : Nat → SearchState → Except HnswError SearchState
  | 0, st => .ok st
  | fuel + 1, st =>
    match st.candidates.head? with
    | none => .ok st
    | some current =>
      let st := { st with candidates := Heap.pop (SearchCandidate.greater fpu) st.candidates }
      if fpu.lt (topDistance st.w) current.distance && decide (st.w.length ≥ ef) then .ok st
      else
        match m.find current.objKey with
        | none => searchLoop ef layer fuel st
        | some node =>
          if layer < node.connections.length then do
            let st ← visitNeighbors fpu m metric query ef (node.connections.getD layer []) st
            searchLoop ef layer fuel st
          else searchLoop ef layer fuel st

/-- `while (!w.empty()) { result.push_back(w.top()); w.pop(); }`. -/
def drain : Nat → List SearchCandidate → List (Int × Double)
  | 0, _ => []
  | n + 1, w =>
    match w.head? with
    | none => []
    | some t => (t.objKey, t.distance) :: drain n (Heap.pop (SearchCandidate.less fpu) w)

/-- `search_layer_with_distances(query, entry_point, ef, layer)`: `w` drained, then reversed. -/
def searchLayerWithDistances (entryPoint : Option Int) (ef layer : Nat) :
    Except HnswError (List (Int × Double)) :=
  match entryPoint with
  | none => .ok []
  | some ep =>
    if m.nodes.isEmpty then .ok []
    else
      match m.find ep with
      | none => .ok []
      | some entry => do
        let d ← computeDistance fpu metric query entry.vector
        let c : SearchCandidate := ⟨ep, d⟩
        let st ← searchLoop fpu m metric query ef layer m.nodes.length ⟨[c], [c], [ep], [ep]⟩
        .ok (drain fpu st.w.length st.w).reverse

/-- `search_layer`: the keys of `search_layer_with_distances`. -/
def searchLayer (entryPoint : Option Int) (ef layer : Nat) : Except HnswError (List Int) :=
  (searchLayerWithDistances fpu m metric query entryPoint ef layer).map (·.map (·.1))

/-- `select_neighbors_simple`: the keys of the first `M` candidates. -/
def selectNeighborsSimple (candidates : List (Int × Double)) (M : Nat) : List Int :=
  (candidates.take M).map (·.1)

/-- `std::__unguarded_linear_insert`, on the sorted prefix given from its last element back: `val`
moves left past every element whose distance is greater. -/
def linearInsert (val : Int × Double) : List (Int × Double) → List (Int × Double)
  | [] => [val]
  | x :: rest => if fpu.lt val.2 x.2 then x :: linearInsert val rest else val :: x :: rest

/-- One step of `std::__insertion_sort` on the sorted prefix `done`: `val` goes to the front when
it is nearer than the first element, and is inserted from the back otherwise. -/
def insertionStep (done : List (Int × Double)) (val : Int × Double) : List (Int × Double) :=
  match done with
  | [] => [val]
  | first :: _ =>
    if fpu.lt val.2 first.2 then val :: done else (linearInsert fpu val done.reverse).reverse

/-- `std::sort` by `a.second < b.second`, as `std::__insertion_sort`. -/
def sortByDistance (l : List (Int × Double)) : List (Int × Double) :=
  l.foldl (insertionStep fpu) []

/-- The inner loop of `extend_candidates`: neighbours not yet in the working set that are present
join it with their distance to the query. -/
def extendFrom : List Int → List (Int × Double) × List Int →
    Except HnswError (List (Int × Double) × List Int)
  | [], acc => .ok acc
  | nb :: rest, (ws, seen) =>
    if nb ∈ seen then extendFrom rest (ws, seen)
    else
      match m.find nb with
      | none => extendFrom rest (ws, seen)
      | some node => do
        let d ← computeDistance fpu metric query node.vector
        extendFrom rest (ws ++ [(nb, d)], nb :: seen)

/-- The outer loop of `extend_candidates`, over the candidates' neighbours at `layer`. -/
def extendCandidates (layer : Nat) : List (Int × Double) → List (Int × Double) × List Int →
    Except HnswError (List (Int × Double) × List Int)
  | [], acc => .ok acc
  | c :: cs, acc =>
    match m.find c.1 with
    | some node =>
      if layer < node.connections.length then do
        let acc ← extendFrom fpu m metric query (node.connections.getD layer []) acc
        extendCandidates layer cs acc
      else extendCandidates layer cs acc
    | none => extendCandidates layer cs acc

/-- `should_add`: the candidate is not closer to an already selected neighbour than to the query. -/
def shouldAdd (cand : List Double) (candDist : Double) : List Int → Except HnswError Bool
  | [] => .ok true
  | s :: rest =>
    match m.find s with
    | some sel => do
      let d ← computeDistance fpu metric cand sel.vector
      if fpu.lt d candDist then .ok false else shouldAdd cand candDist rest
    | none => shouldAdd cand candDist rest

/-- Whether the diversity loop keeps candidate `c`; an absent candidate is kept. -/
def keepCandidate (c : Int × Double) (result : List Int) : Except HnswError Bool :=
  match m.find c.1 with
  | some cand => shouldAdd fpu m metric cand.vector c.2 result
  | none => .ok true

/-- The diversity loop of `select_neighbors_heuristic`, stopping at `M` selected. -/
def selectDiverse (M : Nat) : List (Int × Double) → List Int → Except HnswError (List Int)
  | [], result => .ok result
  | c :: cs, result =>
    if result.length ≥ M then .ok result
    else do
      let add ← keepCandidate fpu m metric c result
      selectDiverse M cs (if add then result ++ [c.1] else result)

/-- The working set of `select_neighbors_heuristic`: the candidates, or, with
`extend_candidates`, the candidates and their neighbours at `layer`, sorted by distance. -/
def workingSet (candidates : List (Int × Double)) (layer : Nat) (extend : Bool) :
    Except HnswError (List (Int × Double)) :=
  if extend then
    (extendCandidates fpu m metric query layer candidates (candidates, candidates.map (·.1))).map
      (fun acc => sortByDistance fpu acc.1)
  else .ok candidates

/-- `select_neighbors_heuristic(query, candidates, M, layer, extend_candidates)`. -/
def selectNeighborsHeuristic (candidates : List (Int × Double)) (M layer : Nat)
    (extend : Bool) : Except HnswError (List Int) := do
  let ws ← workingSet fpu m metric query candidates layer extend
  selectDiverse fpu m metric M ws []

theorem selectNeighborsSimple_length (candidates : List (Int × Double)) (M : Nat) :
    (selectNeighborsSimple candidates M).length ≤ M := by
  simp [selectNeighborsSimple]

theorem selectDiverse_length {M : Nat} {ws : List (Int × Double)} {result r : List Int}
    (hr : result.length ≤ M) (h : selectDiverse fpu m metric M ws result = .ok r) : r.length ≤ M := by
  induction ws generalizing result with
  | nil => cases h; exact hr
  | cons c cs ih =>
    unfold selectDiverse at h
    split at h
    · cases h; exact hr
    · obtain ⟨add, -, h⟩ := bind_eq_ok h
      refine ih ?_ h
      split
      · simp; omega
      · exact hr

/-- `select_neighbors_heuristic` never returns more than `M` keys. -/
theorem selectNeighborsHeuristic_length {candidates : List (Int × Double)} {M layer : Nat}
    {extend : Bool} {r : List Int}
    (h : selectNeighborsHeuristic fpu m metric query candidates M layer extend = .ok r) :
    r.length ≤ M := by
  obtain ⟨ws, -, h⟩ := bind_eq_ok h
  exact selectDiverse_length fpu m metric (Nat.zero_le _) h

theorem linearInsert_perm (val : Int × Double) :
    ∀ l : List (Int × Double), (linearInsert fpu val l).Perm (val :: l)
  | [] => .refl _
  | x :: rest => by
    unfold linearInsert
    split
    · exact ((linearInsert_perm val rest).cons x).trans (.swap val x rest)
    · exact .refl _

theorem insertionStep_perm (done : List (Int × Double)) (val : Int × Double) :
    (insertionStep fpu done val).Perm (val :: done) := by
  unfold insertionStep
  split
  · exact .refl _
  · split
    · exact .refl _
    · exact (List.reverse_perm _).trans (((linearInsert_perm fpu val _).trans
        ((List.reverse_perm _).cons val)))

theorem foldl_insertionStep_perm :
    ∀ (l acc : List (Int × Double)), (l.foldl (insertionStep fpu) acc).Perm (l ++ acc)
  | [], _ => .refl _
  | x :: xs, acc => (foldl_insertionStep_perm xs _).trans
    (((insertionStep_perm fpu acc x).append_left xs).trans List.perm_middle)

/-- `std::sort` reorders its elements. -/
theorem sortByDistance_perm (l : List (Int × Double)) : (sortByDistance fpu l).Perm l := by
  simpa using foldl_insertionStep_perm fpu l []

end

end RealmHnsw
