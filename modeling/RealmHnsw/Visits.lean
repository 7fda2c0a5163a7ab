import RealmHnsw.Search
/-!
# What the searches and the selections return

A search of a layer from a present entry returns at least one candidate, and every candidate is a
present node that the layer's lists lead to: the entry itself, or an element of some list at the
layer (`searchLayerWithDistances_spec`). The neighbours `select_neighbors_simple` and
`select_neighbors_heuristic` choose are candidates, or present nodes their lists name.
-/

namespace RealmHnsw

/-! ## The heaps -/

section Heaps

variable (fpu : Fpu) (ef : Nat)

/-- `pushBounded` adds only `c` to `w`. -/
theorem mem_pushBounded {w : List SearchCandidate} {c x : SearchCandidate}
    (hx : x ∈ pushBounded fpu ef c w) : x = c ∨ x ∈ w := by
  simp only [pushBounded] at hx
  split at hx
  · exact Heap.mem_push.1 (Heap.pop_subset _ hx)
  · exact Heap.mem_push.1 hx

theorem pushBounded_ne_nil (c : SearchCandidate) {w : List SearchCandidate} (hw : w ≠ []) :
    pushBounded fpu ef c w ≠ [] := by
  rw [← List.length_pos]
  simp only [pushBounded]
  split
  · rw [Heap.length_pop, Heap.length_push]; exact List.length_pos.2 hw
  · rw [Heap.length_push]; omega

end Heaps

/-! ## The search of one layer -/

/-- What the search loop keeps of its heaps: every candidate satisfies `P`, and `w` is never
empty. -/
structure SearchInv (P : Int → Prop) (st : SearchState) : Prop where
  w : ∀ c ∈ st.w, P c.objKey
  candidates : ∀ c ∈ st.candidates, P c.objKey
  ne : st.w ≠ []

section Search

variable {fpu : Fpu} {m : NodeMap} {metric : DistanceMetric} {query : List Double}
  {P : Int → Prop}

/-- The neighbour loop pushes only present neighbours. -/
theorem visitNeighbors_inv {ef : Nat} :
    ∀ {nbs : List Int} {st st' : SearchState}, (∀ nb ∈ nbs, (m.find nb).isSome → P nb) →
      SearchInv P st → visitNeighbors fpu m metric query ef nbs st = .ok st' → SearchInv P st'
  | [], _, _, _, hi, h => by cases h; exact hi
  | nb :: rest, st, st', hP, hi, h => by
    have hP' : ∀ x ∈ rest, (m.find x).isSome → P x := fun x hx => hP x (.tail _ hx)
    unfold visitNeighbors at h
    split at h
    · exact visitNeighbors_inv hP' hi h
    · have hv : SearchInv P { st with visited := nb :: st.visited } := ⟨hi.w, hi.candidates, hi.ne⟩
      dsimp only at h
      split at h
      · exact visitNeighbors_inv hP' hv h
      · rename_i node hn
        obtain ⟨d, -, h⟩ := bind_eq_ok h
        split at h
        · have hc : P nb := hP nb (.head _) (by simp [hn])
          refine visitNeighbors_inv hP' ⟨fun c hc' => ?_, fun c hc' => ?_,
            pushBounded_ne_nil fpu ef _ hi.ne⟩ h
          · rcases mem_pushBounded fpu ef hc' with rfl | hc'
            exacts [hc, hi.w c hc']
          · rcases Heap.mem_push.1 hc' with rfl | hc'
            exacts [hc, hi.candidates c hc']
        · exact visitNeighbors_inv hP' hv h

/-- The search loop keeps `SearchInv` when every present node a list at the layer names
satisfies `P`. -/
theorem searchLoop_inv {ef layer : Nat} (hP : ∀ k x, x ∈ m.conns k layer → (m.find x).isSome → P x) :
    ∀ {fuel : Nat} {st st' : SearchState}, SearchInv P st →
      searchLoop fpu m metric query ef layer fuel st = .ok st' → SearchInv P st'
  | 0, _, _, hi, h => by cases h; exact hi
  | fuel + 1, st, st', hi, h => by
    unfold searchLoop at h
    split at h
    · cases h; exact hi
    · rename_i current _
      have hi' : SearchInv P
          { st with candidates := Heap.pop (SearchCandidate.greater fpu) st.candidates } :=
        ⟨hi.w, fun c hc => hi.candidates c (Heap.pop_subset _ hc), hi.ne⟩
      dsimp only at h
      split at h
      · cases h; exact hi'
      · split at h
        · exact searchLoop_inv hP hi' h
        · rename_i node hn
          split at h
          · obtain ⟨st1, h1, h2⟩ := bind_eq_ok h
            refine searchLoop_inv hP (visitNeighbors_inv (fun nb hnb => hP current.objKey nb ?_) hi' h1) h2
            simpa [NodeMap.conns, hn] using hnb
          · exact searchLoop_inv hP hi' h

theorem drain_mem : ∀ {n : Nat} {w : List SearchCandidate} {p : Int × Double},
    p ∈ drain fpu n w → ∃ c ∈ w, (c.objKey, c.distance) = p
  | 0, _, _, h => by cases h
  | n + 1, w, p, h => by
    unfold drain at h
    split at h
    · cases h
    · rename_i t ht
      rcases List.mem_cons.1 h with rfl | h
      · exact ⟨t, List.mem_of_mem_head? ht, rfl⟩
      · obtain ⟨c, hc, hcp⟩ := drain_mem h
        exact ⟨c, Heap.pop_subset _ hc, hcp⟩

theorem drain_ne_nil {n : Nat} {w : List SearchCandidate} (hw : w ≠ []) : drain fpu (n + 1) w ≠ [] := by
  unfold drain
  split
  · rename_i ht
    cases w with
    | nil => exact absurd rfl hw
    | cons _ _ => cases ht
  · exact List.cons_ne_nil _ _

/-- What a search of `layer` from `ep` returns: present nodes, each `ep` or an element of a list at
the layer, and at least one when `ep` is present. -/
theorem searchLayerWithDistances_spec {ep : Int} {ef layer : Nat} {r : List (Int × Double)}
    (h : searchLayerWithDistances fpu m metric query (some ep) ef layer = .ok r) :
    (∀ p ∈ r, p.1 ∈ m.keys ∧ (p.1 = ep ∨ ∃ k, p.1 ∈ m.conns k layer)) ∧ (ep ∈ m.keys → r ≠ []) := by
  simp only [searchLayerWithDistances] at h
  split at h
  · cases h
    refine ⟨nofun, fun hep => ?_⟩
    rename_i hne
    simp [NodeMap.keys, List.isEmpty_iff.1 hne] at hep
  · split at h
    · cases h
      exact ⟨nofun, fun hep => absurd (NodeMap.find_eq_none.1 ‹_›) (not_not.2 hep)⟩
    · rename_i entry hn
      obtain ⟨d, -, h⟩ := bind_eq_ok h
      obtain ⟨st, hs, h⟩ := bind_eq_ok h
      cases h
      have hi := searchLoop_inv (P := fun x => x ∈ m.keys ∧ (x = ep ∨ ∃ k, x ∈ m.conns k layer))
        (fun k x hx hs => ⟨NodeMap.mem_keys.2 (Option.isSome_iff_exists.1 hs), .inr ⟨k, hx⟩⟩)
        ⟨by simp [NodeMap.mem_keys.2 ⟨entry, hn⟩], by simp [NodeMap.mem_keys.2 ⟨entry, hn⟩],
          List.cons_ne_nil _ _⟩ hs
      refine ⟨fun p hp => ?_, fun _ => ?_⟩
      · obtain ⟨c, hc, rfl⟩ := drain_mem (List.mem_reverse.1 hp)
        exact hi.w c hc
      · obtain ⟨k, hk⟩ := Nat.exists_eq_succ_of_ne_zero (List.length_pos.2 hi.ne).ne'
        rw [hk]
        exact List.reverse_ne_nil_iff.2 (drain_ne_nil hi.ne)

theorem searchLayer_spec {ep : Int} {ef layer : Nat} {r : List Int}
    (h : searchLayer fpu m metric query (some ep) ef layer = .ok r) :
    (∀ x ∈ r, x ∈ m.keys ∧ (x = ep ∨ ∃ k, x ∈ m.conns k layer)) ∧ (ep ∈ m.keys → r ≠ []) := by
  unfold searchLayer at h
  cases h0 : searchLayerWithDistances fpu m metric query (some ep) ef layer with
  | error e => rw [h0] at h; cases h
  | ok r0 =>
    rw [h0] at h
    cases h
    obtain ⟨h1, h2⟩ := searchLayerWithDistances_spec h0
    refine ⟨fun x hx => ?_, fun hep => by simpa using h2 hep⟩
    obtain ⟨p, hp, rfl⟩ := List.mem_map.1 hx
    exact h1 p hp

end Search

/-! ## The selections -/

section Select

variable {fpu : Fpu} {m : NodeMap} {metric : DistanceMetric} {query : List Double}

theorem selectNeighborsSimple_mem {candidates : List (Int × Double)} {M : Nat} {x : Int}
    (hx : x ∈ selectNeighborsSimple candidates M) : ∃ p ∈ candidates, p.1 = x := by
  obtain ⟨p, hp, rfl⟩ := List.mem_map.1 hx
  exact ⟨p, List.mem_of_mem_take hp, rfl⟩

/-- The diversity loop selects candidates of the working set, after those it started with. -/
theorem selectDiverse_mem {M : Nat} : ∀ {ws : List (Int × Double)} {result r : List Int},
    selectDiverse fpu m metric M ws result = .ok r → ∀ x ∈ r, x ∈ result ∨ ∃ p ∈ ws, p.1 = x
  | [], _, _, h => by cases h; exact fun x hx => .inl hx
  | c :: cs, result, r, h => by
    unfold selectDiverse at h
    split at h
    · cases h; exact fun x hx => .inl hx
    · obtain ⟨add, -, h⟩ := bind_eq_ok h
      intro x hx
      rcases selectDiverse_mem h x hx with hx | ⟨p, hp, rfl⟩
      · split at hx
        · rcases List.mem_append.1 hx with hx | hx
          · exact .inl hx
          · exact .inr ⟨c, .head _, (List.mem_singleton.1 hx).symm⟩
        · exact .inl hx
      · exact .inr ⟨p, .tail _ hp, rfl⟩

theorem extendFrom_mem : ∀ {nbs : List Int} {acc acc' : List (Int × Double) × List Int},
    extendFrom fpu m metric query nbs acc = .ok acc' → ∀ p ∈ acc'.1, p ∈ acc.1 ∨ p.1 ∈ m.keys
  | [], _, _, h => by cases h; exact fun p hp => .inl hp
  | nb :: rest, (ws, seen), acc', h => by
    unfold extendFrom at h
    split at h
    · exact extendFrom_mem h
    · split at h
      · exact extendFrom_mem h
      · rename_i node hn
        obtain ⟨d, -, h⟩ := bind_eq_ok h
        intro p hp
        rcases extendFrom_mem h p hp with hp | hp
        · rcases List.mem_append.1 hp with hp | hp
          · exact .inl hp
          · rw [List.mem_singleton.1 hp]
            exact .inr (NodeMap.mem_keys.2 ⟨node, hn⟩)
        · exact .inr hp

theorem extendCandidates_mem {layer : Nat} : ∀ {cs : List (Int × Double)}
    {acc acc' : List (Int × Double) × List Int},
    extendCandidates fpu m metric query layer cs acc = .ok acc' → ∀ p ∈ acc'.1, p ∈ acc.1 ∨ p.1 ∈ m.keys
  | [], _, _, h => by cases h; exact fun p hp => .inl hp
  | c :: cs, acc, acc', h => by
    unfold extendCandidates at h
    split at h
    · split at h
      · obtain ⟨acc1, h1, h2⟩ := bind_eq_ok h
        intro p hp
        exact (extendCandidates_mem h2 p hp).elim (extendFrom_mem h1 p) .inr
      · exact extendCandidates_mem h
    · exact extendCandidates_mem h

/-- The heuristic selects candidates, or present nodes that `extend_candidates` added. -/
theorem selectNeighborsHeuristic_mem {candidates : List (Int × Double)} {M layer : Nat}
    {extend : Bool} {r : List Int}
    (h : selectNeighborsHeuristic fpu m metric query candidates M layer extend = .ok r) :
    ∀ x ∈ r, (∃ p ∈ candidates, p.1 = x) ∨ x ∈ m.keys := by
  obtain ⟨ws, hws, h⟩ := bind_eq_ok h
  have hw : ∀ p ∈ ws, p ∈ candidates ∨ p.1 ∈ m.keys := by
    unfold workingSet at hws
    split at hws
    · cases hacc : extendCandidates fpu m metric query layer candidates
          (candidates, candidates.map (·.1)) with
      | error e => rw [hacc] at hws; cases hws
      | ok acc =>
        rw [hacc] at hws
        cases hws
        exact fun p hp => extendCandidates_mem hacc p ((sortByDistance_perm _ _).subset hp)
    · cases hws
      exact fun p hp => .inl hp
  intro x hx
  rcases selectDiverse_mem h x hx with hx | ⟨p, hp, rfl⟩
  · cases hx
  · exact (hw p hp).imp (fun hp' => ⟨p, hp', rfl⟩) id

end Select

end RealmHnsw
