import RealmHnsw.Connectivity
import RealmHnsw.Erase
/-!
# No list names a key twice

Every write keeps each adjacency list free of duplicates, whatever the floating-point unit does:
`connect_nodes` appends only what a list lacks, `disconnect_nodes`, `erase` and the reopen's
truncation only drop entries, and `prune_connections` replaces the pruned list by a selection from
that list itself, each of whose candidates the diversity loop takes at most once.

`lists_nodup_of_reachable`: on every reachable index, across inserts, sets, erases, clears and
reopens, no node lists a key twice at any layer. Unlike the insert-only invariants of
`RealmHnsw.Connectivity`, this one survives `erase`, which can leave a list naming an absent key
(`RealmHnsw.Erase`).
-/

namespace RealmHnsw

/-- No node lists a key twice, at any layer. -/
def NodeMap.NodupLists (m : NodeMap) : Prop := ∀ k l, (m.conns k l).Nodup

namespace NodeMap

theorem NodupLists.of_shrinks {m m' : NodeMap} (h : m.NodupLists) (hs : Shrinks m m') :
    m'.NodupLists :=
  fun k l => (h k l).sublist (hs k l)

theorem nodupLists_empty : NodeMap.empty.NodupLists := fun _ _ => by
  simp [conns, find, NodeMap.empty]

theorem NodupLists.insertOrAssign_newNode {m : NodeMap} (h : m.NodupLists) (key : Int)
    (vector : List Double) (L : Nat) : (m.insertOrAssign (newNode key vector L)).NodupLists := by
  intro k l
  rw [conns_insertOrAssign_newNode]
  split
  · exact List.nodup_nil
  · exact h k l

theorem NodupLists.connectAll {m : NodeMap} (h : m.NodupLists) (key : Int) (lc : Nat)
    (nbs : List Int) : (nbs.foldl (fun m nb => m.connectNodes key nb lc) m).NodupLists :=
  fun k l => nodup_connectAll_conns (h k l)

end NodeMap

/-! ## The selection of `prune_connections` -/

section Select

variable {fpu : Fpu} {m : NodeMap} {metric : DistanceMetric} {query : List Double}

/-- The diversity loop takes each candidate of a duplicate-free working set at most once. -/
theorem selectDiverse_nodup {M : Nat} :
    ∀ {ws : List (Int × Double)} {result r : List Int}, (ws.map (·.1)).Nodup → result.Nodup →
      (∀ x ∈ result, x ∉ ws.map (·.1)) → selectDiverse fpu m metric M ws result = .ok r → r.Nodup
  | [], _, _, _, hr, _, h => by cases h; exact hr
  | c :: cs, result, r, hws, hr, hdis, h => by
    unfold selectDiverse at h
    split at h
    · cases h; exact hr
    · obtain ⟨add, -, h⟩ := bind_eq_ok h
      rw [List.map_cons, List.nodup_cons] at hws
      have hnew : c.1 ∉ result := fun h => hdis _ h (List.mem_cons_self _ _)
      have hold : ∀ x ∈ result, x ∉ cs.map (·.1) := fun x hx h => hdis x hx (List.mem_cons_of_mem _ h)
      refine selectDiverse_nodup hws.2 ?_ ?_ h <;> split
      · exact hr.append (List.nodup_singleton _) (List.disjoint_singleton.2 hnew)
      · exact hr
      · intro x hx
        rcases List.mem_append.1 hx with hx | hx
        · exact hold x hx
        · exact List.mem_singleton.1 hx ▸ hws.1
      · exact hold

/-- The candidates of a prune are the present keys of the list, in its order. -/
theorem neighborDistances_sublist {v : List Double} :
    ∀ {conn : List Int} {r : List (Int × Double)}, neighborDistances fpu m metric v conn = .ok r →
      (r.map (·.1)).Sublist conn
  | [], _, h => by cases h; exact .slnil
  | nb :: rest, r, h => by
    unfold neighborDistances at h
    split at h
    · obtain ⟨d, -, h⟩ := bind_eq_ok h
      obtain ⟨r', h', h⟩ := bind_eq_ok h
      cases h
      exact (neighborDistances_sublist h').cons₂ nb
    · exact (neighborDistances_sublist h).cons nb

end Select

/-! ## Every write -/

section Writes

variable {fpu : Fpu} {cfg : Config} {m m' : NodeMap} {key : Int} {layer : Nat}

/-- The list a prune leaves at the pruned node: the list itself, or a selection from it. -/
theorem pruneConnections_nodup_self (h : (m.conns key layer).Nodup)
    (hp : pruneConnections fpu cfg m key layer = .ok m') : (m'.conns key layer).Nodup := by
  unfold pruneConnections at hp
  split at hp
  · cases hp; exact h
  · rename_i node hn
    have hconn : node.connections.getD layer [] = m.conns key layer := by
      simp only [NodeMap.conns, hn]
    split at hp
    · have long : m.LongAt key layer := fun n h' => by rw [hn] at h'; cases h'; assumption
      dsimp only at hp
      split at hp
      · cases hp; exact h
      · obtain ⟨cands, hc, hp⟩ := bind_eq_ok hp
        obtain ⟨nn, hnn, hp⟩ := bind_eq_ok hp
        cases hp
        rw [conns_cut_self long (by simp [hn])]
        obtain ⟨ws, hws, hsel⟩ := bind_eq_ok hnn
        obtain rfl : sortByDistance fpu cands = ws := Except.ok.inj hws
        have hkeys : ((sortByDistance fpu cands).map (·.1)).Nodup :=
          ((sortByDistance_perm _ cands).map _).nodup_iff.2
            (h.sublist (hconn ▸ neighborDistances_sublist hc))
        exact selectDiverse_nodup hkeys List.nodup_nil nofun hsel
    · cases hp; exact h

theorem NodeMap.NodupLists.prune (h : m.NodupLists)
    (hp : pruneConnections fpu cfg m key layer = .ok m') : m'.NodupLists := by
  intro x l
  by_cases hx : x = key ∧ l = layer
  · obtain ⟨rfl, rfl⟩ := hx
    exact pruneConnections_nodup_self (h x l) hp
  · exact (h x l).sublist (pruneConnections_sublist hp x l (by tauto))

theorem NodeMap.NodupLists.pruneAll {lc : Nat} :
    ∀ {nbs : List Int} {m m' : NodeMap}, m.NodupLists →
      nbs.foldlM (fun m nb => pruneConnections fpu cfg m nb lc) m = .ok m' → m'.NodupLists
  | [], _, _, h, hp => by cases hp; exact h
  | _ :: _, _, _, h, hp => by
    rw [List.foldlM_cons] at hp
    obtain ⟨m1, h1, h2⟩ := bind_eq_ok hp
    exact (h.prune h1).pruneAll h2

variable {env : Env} {vector : List Double}

theorem NodeMap.NodupLists.linkLayers :
    ∀ {n : Nat} {m m' : NodeMap} {curr c : Option Int}, m.NodupLists →
      linkLayers env cfg key vector n m curr = .ok (m', c) → m'.NodupLists
  | 0, _, _, _, _, h, hl => by cases hl; exact h
  | _ + 1, _, _, _, _, h, hl => by
    obtain ⟨⟨m1, c1⟩, h1, h2⟩ := bind_eq_ok hl
    obtain ⟨-, nbs, -, -, -, hp, -⟩ := linkLayer_cases h1
    exact ((h.connectAll key _ nbs).pruneAll hp).linkLayers h2

variable {idx idx' : HNSWIndex}

theorem NodeMap.NodupLists.insert (h : idx.vectors.NodupLists) {draw : Nat}
    (hi : insert env key vector draw idx = .ok idx') : idx'.vectors.NodupLists := by
  rcases insert_cases hi with ⟨-, rfl⟩ | ⟨dim, -, -, ⟨-, rfl⟩ | ⟨-, curr, m, c, -, hl, rfl⟩⟩
  · exact h
  · exact h.insertOrAssign_newNode _ _ _
  · exact (h.insertOrAssign_newNode _ _ _).linkLayers hl

theorem NodeMap.NodupLists.erase (h : idx.vectors.NodupLists) (key : Int) :
    (RealmHnsw.erase env key idx).vectors.NodupLists := by
  unfold RealmHnsw.erase
  split
  · exact h
  · intro x l
    rw [saveToStorage_vectors, NodeMap.erase_conns]
    split
    · exact List.nodup_nil
    · exact (h.of_shrinks (shrinks_eraseLinks key _ _)) x l

/-- Every write keeps every list duplicate-free; reopening needs the index to be one a run can
reach, whose root holds what it saves. -/
theorem NodeMap.NodupLists.apply (hinv : Inv env cfg idx) (h : idx.vectors.NodupLists) {w : Write}
    {raised : Option HnswError} (hw : w.apply env cfg idx = .ok (idx', raised)) :
    idx'.vectors.NodupLists := by
  cases w with
  | insert key vector draw => exact h.insert (Write.apply_insert hw).1
  | set key vector draw =>
    obtain rfl := Write.apply_set_fst hw
    unfold set
    split
    · exact (h.erase key).insert ‹_›
    · exact h.erase key
  | erase key => cases hw; exact h.erase key
  | clear => cases hw; exact NodeMap.nodupLists_empty
  | reopen =>
    obtain ⟨ho, -⟩ := Write.apply_reopen hw
    rw [hinv.open_eq] at ho
    cases ho
    exact h.of_shrinks idx.vectors.shrinks_persisted

end Writes

/-- On every reachable index, across any run of inserts, sets, erases, clears and reopens, no node
lists a key twice at any layer. -/
theorem lists_nodup_of_reachable {env : Env} {cfg : Config} {idx : HNSWIndex}
    (h : Reachable env cfg idx) (k : Int) (l : Nat) : (idx.vectors.conns k l).Nodup := by
  induction h generalizing k l with
  | create => exact NodeMap.nodupLists_empty k l
  | step _ hr _ hs ih => exact NodeMap.NodupLists.apply hr.inv ih hs k l

/-- Erasing key 1 from `fourInserts` leaves node 3 listing it, and no list with a duplicate. -/
theorem lists_nodup_of_reachable_erase : ((erase Env.integral 1 fourInserts).vectors.conns 3 0).Nodup :=
  lists_nodup_of_reachable (.step (.erase 1) reachable_fourInserts trivial rfl) 3 0

end RealmHnsw
