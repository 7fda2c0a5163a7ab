import RealmHnsw.Visits
/-!
# Linking and unlinking

`connect_nodes` and `disconnect_nodes` edit both ends of an edge, `prune_connections` cuts a list
back to its cap with the heuristic and unlinks what it drops. All three go through `NodeMap.modify`,
so none of them changes a key, a vector or a layer (`shape`).

`erase` and `prune_connections` call `disconnect_nodes` from inside a range-for over the very
vector it erases from; `disconnectEach` models that loop as the compiled code runs it.
-/

namespace RealmHnsw

/-- `while (connections.size() <= layer) connections.push_back({})`. -/
def growTo (cs : List (List Int)) (layer : Nat) : List (List Int) :=
  cs ++ List.replicate (layer + 1 - cs.length) []

/-- `if (std::find(conn.begin(), conn.end(), x) == conn.end()) conn.push_back(x)`. -/
def pushUnique (l : List Int) (x : Int) : List Int := if x ∈ l then l else l ++ [x]

/-- `conn.erase(std::remove(conn.begin(), conn.end(), x), conn.end())`. -/
def removeAll (l : List Int) (x : Int) : List Int := l.filter (· ≠ x)

theorem getD_growTo (cs : List (List Int)) (layer l : Nat) :
    (growTo cs layer).getD l [] = cs.getD l [] := by
  simp only [growTo, List.getD_eq_getElem?_getD]
  by_cases h : l < cs.length
  · rw [List.getElem?_append_left h]
  · rw [List.getElem?_append_right (by omega), List.getElem?_eq_none (l := cs) (by omega),
      List.getElem?_replicate]
    split <;> rfl

theorem lt_length_growTo (cs : List (List Int)) (layer : Nat) : layer < (growTo cs layer).length := by
  simp only [growTo, List.length_append, List.length_replicate]; omega

theorem length_le_growTo (cs : List (List Int)) (layer : Nat) : cs.length ≤ (growTo cs layer).length :=
  (List.sublist_append_left cs _).length_le

theorem getD_modify (f : List Int → List Int) (n l : Nat) (cs : List (List Int)) :
    (cs.modify f n).getD l [] = if n = l ∧ n < cs.length then f (cs.getD l []) else cs.getD l [] := by
  simp only [List.getD_eq_getElem?_getD, List.getElem?_modify]
  by_cases hl : l < cs.length
  · rw [List.getElem?_eq_getElem hl]; by_cases n = l <;> simp_all
  · rw [List.getElem?_eq_none (by omega)]; simp; omega

theorem mem_pushUnique {l : List Int} {x y : Int} : y ∈ pushUnique l x ↔ y ∈ l ∨ y = x := by
  unfold pushUnique; split <;> simp_all

theorem length_pushUnique_le (l : List Int) (x : Int) : (pushUnique l x).length ≤ l.length + 1 := by
  unfold pushUnique; split <;> simp

theorem removeAll_sublist (l : List Int) (x : Int) : (removeAll l x).Sublist l := List.filter_sublist _

theorem pushUnique_of_mem {l : List Int} {x : Int} (h : x ∈ l) : pushUnique l x = l := if_pos h

namespace NodeMap

/-- Keys, vectors and layers, in map order: what the graph operations leave alone. -/
def shape (m : NodeMap) : List (Int × List Double × Int) :=
  m.nodes.map fun n => (n.objKey, n.vector, n.layer)

@[simp] theorem modify_shape (m : NodeMap) (k : Int) (f) : (m.modify k f).shape = m.shape := by
  simp only [shape, modify, List.map_map]
  exact List.map_congr_left (fun x _ => by simp only [Function.comp]; split <;> rfl)

/-- Equal shapes give the same vector and layer under every key. -/
theorem find_of_shape {m m' : NodeMap} (h : m'.shape = m.shape) (k : Int) :
    (m'.find k).map (fun n => (n.vector, n.layer)) = (m.find k).map (fun n => (n.vector, n.layer)) := by
  have e : ∀ p : NodeMap, (p.find k).map (fun n => (n.objKey, n.vector, n.layer)) =
      p.shape.find? (·.1 == k) := fun p => by rw [shape, List.find?_map]; rfl
  have := congrArg (Option.map Prod.snd) ((e m').trans (h ▸ (e m).symm))
  simpa [Option.map_map] using this

theorem isSome_find_of_shape {m m' : NodeMap} (h : m'.shape = m.shape) (k : Int) :
    (m'.find k).isSome = (m.find k).isSome := by
  simpa using congrArg Option.isSome (find_of_shape h k)

theorem keys_of_shape {m m' : NodeMap} (h : m'.shape = m.shape) : m'.keys = m.keys := by
  have := congrArg (List.map Prod.fst) h
  simpa [shape, keys, List.map_map] using this

/-- `connect_nodes(node1, node2, layer)`. -/
def connectNodes (m : NodeMap) (node1 node2 : Int) (layer : Nat) : NodeMap :=
  if (m.find node1).isSome ∧ (m.find node2).isSome then
    let m := m.modify node1 (growTo · layer)
    let m := m.modify node2 (growTo · layer)
    let m := m.modify node1 (List.modify (pushUnique · node2) layer)
    m.modify node2 (List.modify (pushUnique · node1) layer)
  else m

/-- `disconnect_nodes(node1, node2, layer)`; `List.modify` leaves a list past the end alone, which
is the guard `layer < connections.size()`. -/
def disconnectNodes (m : NodeMap) (node1 node2 : Int) (layer : Nat) : NodeMap :=
  if (m.find node1).isSome ∧ (m.find node2).isSome then
    let m := m.modify node1 (List.modify (removeAll · node2) layer)
    m.modify node2 (List.modify (removeAll · node1) layer)
  else m

/-- The range-for `for (ObjKey x : node.connections[layer]) if (drop x) disconnect_nodes(key, x,
layer)` of `erase` and `prune_connections`, at slot `i` of the vector's storage `buf`, `n` slots
before the end the loop read at its start. `disconnect_nodes` erases from that vector: its storage
then holds the remaining elements followed by the old slots past the new end, and the loop walks
on over it (formally undefined; it is what libstdc++ and libc++ do, as `erase` never
reallocates). -/
def disconnectEach (key : Int) (layer : Nat) (drop : Int → Bool) :
    Nat → Nat → List Int → NodeMap → NodeMap
  | _, 0, _, m => m
  | i, n + 1, buf, m =>
    let x := buf.getD i 0
    let m' := if drop x then m.disconnectNodes key x layer else m
    let live := m'.conns key layer
    disconnectEach key layer drop (i + 1) n (live ++ buf.drop live.length) m'

@[simp] theorem connectNodes_shape (m : NodeMap) (a b : Int) (l : Nat) :
    (m.connectNodes a b l).shape = m.shape := by
  unfold connectNodes; split <;> simp

@[simp] theorem disconnectNodes_shape (m : NodeMap) (a b : Int) (l : Nat) :
    (m.disconnectNodes a b l).shape = m.shape := by
  unfold disconnectNodes; split <;> simp

@[simp] theorem disconnectEach_shape (key : Int) (layer : Nat) (drop : Int → Bool) :
    ∀ i n buf (m : NodeMap), (disconnectEach key layer drop i n buf m).shape = m.shape := by
  intro i n
  induction n generalizing i with
  | zero => intros; rfl
  | succ n ih => intro buf m; simp only [disconnectEach, ih]; split <;> simp

end NodeMap

end RealmHnsw

namespace RealmHnsw.NodeMap

/-- A write at one layer of one node's connections. -/
theorem modify_layer_conns (m : NodeMap) (k x : Int) (g : List Int → List Int) (hg : g [] = [])
    (layer l : Nat) :
    (m.modify k (List.modify g layer)).conns x l =
      if x = k ∧ l = layer then g (m.conns x l) else m.conns x l := by
  rw [modify_conns]
  by_cases hx : x = k
  · subst hx
    rw [conns_eq]
    cases m.find x with
    | none => simp [hg]
    | some n =>
      simp only [Option.map_some', Option.getD_some, getD_modify, true_and, if_true]
      by_cases hl : l = layer
      · subst hl
        by_cases hlen : l < n.connections.length
        · simp [hlen]
        · simp [hlen, List.getD_eq_getElem?_getD, List.getElem?_eq_none (Nat.le_of_not_lt hlen), hg]
      · simp [hl, Ne.symm hl]
  · simp [hx]

theorem grow_conns (m : NodeMap) (k x : Int) (layer l : Nat) :
    (m.modify k (growTo · layer)).conns x l = m.conns x l := by
  rw [modify_conns]; split
  · subst_vars; rw [conns_eq]; cases m.find x <;> simp only [Option.map_some', Option.map_none', getD_growTo]
  · rfl

end RealmHnsw.NodeMap

namespace RealmHnsw.NodeMap

/-- The node under `k`, if any, holds a list at `layer`. -/
def LongAt (m : NodeMap) (k : Int) (layer : Nat) : Prop :=
  ∀ n, m.find k = some n → layer < n.connections.length

theorem longAt_grow (m : NodeMap) (k : Int) (layer : Nat) :
    LongAt (m.modify k (growTo · layer)) k layer := by
  intro n h
  simp only [modify_find, if_true, Option.map_eq_some'] at h
  obtain ⟨n0, -, rfl⟩ := h
  exact lt_length_growTo _ _

theorem LongAt.modify {m : NodeMap} {j : Int} {layer : Nat} (h : LongAt m j layer) (k : Int)
    (f : List (List Int) → List (List Int)) (hf : ∀ cs, cs.length ≤ (f cs).length) :
    LongAt (m.modify k f) j layer := by
  intro n hn
  simp only [modify_find, Option.map_eq_some'] at hn
  obtain ⟨n0, h0, rfl⟩ := hn
  have := h n0 h0
  split
  · exact Nat.lt_of_lt_of_le this (hf _)
  · exact this

theorem modify_layer_conns_long (m : NodeMap) (k x : Int) (g : List Int → List Int) (layer l : Nat)
    (hk : LongAt m k layer) :
    (m.modify k (List.modify g layer)).conns x l =
      if x = k ∧ l = layer ∧ (m.find k).isSome then g (m.conns x l) else m.conns x l := by
  rw [modify_conns]
  by_cases hx : x = k
  · subst hx
    rw [conns_eq]
    cases hn : m.find x with
    | none => simp
    | some n =>
      simp only [Option.map_some', Option.getD_some, getD_modify, true_and, Option.isSome_some,
        and_true, if_true]
      by_cases hl : l = layer
      · subst hl; simp [hk n hn]
      · simp [hl, Ne.symm hl]
  · simp [hx]

theorem isSome_modify_find (m : NodeMap) (k j : Int) (f) :
    ((m.modify k f).find j).isSome = (m.find j).isSome := by
  simp

/-- What `connect_nodes` does to every list. -/
theorem connectNodes_conns (m : NodeMap) (a b x : Int) (layer l : Nat) :
    (m.connectNodes a b layer).conns x l =
      if (m.find a).isSome ∧ (m.find b).isSome ∧ l = layer then
        (if x = b then (pushUnique · a) else id)
          ((if x = a then (pushUnique · b) else id) (m.conns x l))
      else m.conns x l := by
  unfold connectNodes
  by_cases hab : (m.find a).isSome ∧ (m.find b).isSome
  · rw [if_pos hab]
    have len : ∀ cs, cs.length ≤ (List.modify (pushUnique · b) layer cs).length := by simp
    have la : LongAt ((m.modify a (growTo · layer)).modify b (growTo · layer)) a layer :=
      (longAt_grow m a layer).modify b _ (length_le_growTo · layer)
    have lb := longAt_grow (m.modify a (growTo · layer)) b layer
    rw [modify_layer_conns_long _ _ _ _ _ _ (lb.modify a _ len), modify_layer_conns_long _ _ _ _ _ _ la,
      grow_conns, grow_conns]
    simp only [isSome_modify_find, hab, and_true, true_and]
    by_cases hl : l = layer
    · simp only [hl, and_true, if_true]
      split_ifs <;> rfl
    · simp only [hl, and_false, if_false]
  · rw [if_neg hab, if_neg fun h => hab ⟨h.1, h.2.1⟩]

end RealmHnsw.NodeMap

namespace RealmHnsw.NodeMap

/-- What `disconnect_nodes` does to every list. -/
theorem disconnectNodes_conns (m : NodeMap) (a b x : Int) (layer l : Nat) :
    (m.disconnectNodes a b layer).conns x l =
      if (m.find a).isSome ∧ (m.find b).isSome ∧ l = layer then
        (if x = b then (removeAll · a) else id)
          ((if x = a then (removeAll · b) else id) (m.conns x l))
      else m.conns x l := by
  unfold disconnectNodes
  by_cases hab : (m.find a).isSome ∧ (m.find b).isSome
  · rw [if_pos hab, modify_layer_conns _ _ _ _ rfl, modify_layer_conns _ _ _ _ rfl]
    simp only [hab, true_and]
    by_cases hl : l = layer
    · simp only [hl, and_true, if_true]
      split_ifs <;> rfl
    · simp only [hl, and_false, if_false]
  · rw [if_neg hab, if_neg fun h => hab ⟨h.1, h.2.1⟩]

/-- Every list of `m'` is a sublist of the same list of `m`. -/
def Shrinks (m m' : NodeMap) : Prop := ∀ x l, (m'.conns x l).Sublist (m.conns x l)

theorem Shrinks.trans {m₁ m₂ m₃ : NodeMap} (h₁ : Shrinks m₁ m₂) (h₂ : Shrinks m₂ m₃) :
    Shrinks m₁ m₃ := fun x l => (h₂ x l).trans (h₁ x l)

theorem shrinks_disconnectNodes (m : NodeMap) (a b : Int) (layer : Nat) :
    Shrinks m (m.disconnectNodes a b layer) := by
  intro x l
  rw [disconnectNodes_conns]
  split_ifs
  all_goals first
    | exact .refl _
    | exact removeAll_sublist _ _
    | exact (removeAll_sublist _ _).trans (removeAll_sublist _ _)

theorem shrinks_disconnectEach (key : Int) (layer : Nat) (drop : Int → Bool) :
    ∀ i n buf (m : NodeMap), Shrinks m (disconnectEach key layer drop i n buf m) := by
  intro i n
  induction n generalizing i with
  | zero => intro _ _ _ _; exact .refl _
  | succ n ih =>
    intro buf m
    simp only [disconnectEach]
    refine Shrinks.trans ?_ (ih _ _ _)
    split
    · exact shrinks_disconnectNodes _ _ _ _
    · exact fun _ _ => .refl _

/-- `disconnect_nodes` only touches lists at its own layer. -/
theorem disconnectEach_conns_other (key : Int) (layer : Nat) (drop : Int → Bool) (x : Int) (l : Nat)
    (hl : l ≠ layer) : ∀ i n buf (m : NodeMap), (disconnectEach key layer drop i n buf m).conns x l = m.conns x l := by
  intro i n
  induction n generalizing i with
  | zero => intros; rfl
  | succ n ih =>
    intro buf m
    simp only [disconnectEach, ih]
    split
    · rw [disconnectNodes_conns, if_neg (by tauto)]
    · rfl

theorem LongAt.disconnectEach {m : NodeMap} {k : Int} {l : Nat} (h : LongAt m k l) (key : Int)
    (layer : Nat) (drop : Int → Bool) (i n : Nat) (buf : List Int) :
    LongAt (NodeMap.disconnectEach key layer drop i n buf m) k l := by
  induction n generalizing i buf m with
  | zero => exact h
  | succ n ih =>
    simp only [NodeMap.disconnectEach]
    apply ih
    split
    · unfold disconnectNodes; split
      · exact (h.modify _ _ (by simp)).modify _ _ (by simp)
      · exact h
    · exact h

/-- `disconnect_nodes(a, b, layer)` erases `b` from `a`'s own list when both are present. -/
theorem disconnectNodes_conns_self (m : NodeMap) (a b : Int) (layer : Nat) :
    (m.disconnectNodes a b layer).conns a layer =
      if (m.find a).isSome ∧ (m.find b).isSome then removeAll (m.conns a layer) b
      else m.conns a layer := by
  rw [disconnectNodes_conns]
  by_cases hab : (m.find a).isSome ∧ (m.find b).isSome
  · rw [if_pos ⟨hab.1, hab.2, rfl⟩, if_pos hab, if_pos rfl]
    by_cases hb : a = b
    · subst hb; simp [removeAll, List.filter_filter]
    · rw [if_neg hb]; rfl
  · rw [if_neg (fun h => hab ⟨h.1, h.2.1⟩), if_neg hab]

theorem removeAll_cons_of_ne {l : List Int} {x z : Int} (h : z ≠ x) :
    removeAll (z :: l) x = z :: removeAll l x := by
  simp [removeAll, h]

/-- The range-for reads slot `i` of the storage `buf` it started on, while `disconnect_nodes`
shifts `key`'s live list left under it. A key `z` at the head of the live list, with the cursor
past slot `0` and `z` in no later slot, is never read again: its own list is left as it was. -/
theorem disconnectEach_conns_behind (key z : Int) (layer : Nat) (drop : Int → Bool)
    (hzk : z ≠ key) : ∀ i n buf t (m : NodeMap), 1 ≤ i → i + n ≤ buf.length → z ∉ buf.drop 1 →
      m.conns key layer = z :: t → z ∉ t → t.length < buf.length →
      (disconnectEach key layer drop i n buf m).conns z layer = m.conns z layer := by
  intro i n
  induction n generalizing i with
  | zero => intros; rfl
  | succ n ih =>
    intro buf t m hi hn hbuf hlive hzt hlen
    set x := buf.getD i 0 with hxdef
    have hx : z ≠ x := by
      obtain ⟨j, rfl⟩ : ∃ j, i = 1 + j := ⟨i - 1, by omega⟩
      rw [hxdef, List.getD_eq_getElem _ _ (by omega)]
      exact fun h => hbuf (List.mem_drop_iff_getElem.2 ⟨j, by omega, h.symm⟩)
    -- one step keeps `z`'s list and leaves `z` at the head of a shorter live list
    obtain ⟨t', hlive', ht', hz'⟩ : ∃ t', (if drop x then m.disconnectNodes key x layer
        else m).conns key layer = z :: t' ∧ t'.Sublist t ∧
        (if drop x then m.disconnectNodes key x layer else m).conns z layer = m.conns z layer := by
      split
      · refine ⟨if (m.find key).isSome ∧ (m.find x).isSome then removeAll t x else t, ?_, ?_, ?_⟩
        · rw [disconnectNodes_conns_self, hlive]
          split
          · exact removeAll_cons_of_ne hx
          · rfl
        · split
          · exact removeAll_sublist _ _
          · exact .refl _
        · rw [disconnectNodes_conns, if_neg hx, if_neg hzk]
          split <;> rfl
      · exact ⟨t, hlive, .refl _, rfl⟩
    have hlen' : ((z :: t') ++ buf.drop (z :: t').length).length = buf.length := by
      have := ht'.length_le
      simp only [List.length_append, List.length_drop, List.length_cons]; omega
    simp only [disconnectEach]
    rw [ih (i + 1) _ t' _ (by omega) ?_ ?_ hlive' (fun h => hzt (ht'.subset h)) ?_, hz']
    · rw [hlive', hlen']; omega
    · rw [hlive', List.cons_append, List.drop_one, List.tail_cons, List.mem_append, not_or]
      refine ⟨fun h => hzt (ht'.subset h), fun h => hbuf ?_⟩
      rw [List.length_cons] at h
      exact (List.drop_sublist t'.length (buf.drop 1)).subset (by rwa [List.drop_drop, Nat.add_comm])
    · rw [hlive', hlen']; have := ht'.length_le; omega

end RealmHnsw.NodeMap

namespace RealmHnsw

section Prune

variable (fpu : Fpu)

/-- The candidates of `prune_connections`: each present neighbour with its distance to the node. -/
def neighborDistances (m : NodeMap) (metric : DistanceMetric) (v : List Double) :
    List Int → Except HnswError (List (Int × Double))
  | [] => .ok []
  | nb :: rest =>
    match m.find nb with
    | some n => do
      let d ← computeDistance fpu metric v n.vector
      let r ← neighborDistances m metric v rest
      .ok ((nb, d) :: r)
    | none => neighborDistances m metric v rest

/-- `prune_connections(node_key, layer)`. -/
def pruneConnections (cfg : Config) (m : NodeMap) (nodeKey : Int) (layer : Nat) :
    Except HnswError NodeMap :=
  match m.find nodeKey with
  | none => .ok m
  | some node =>
    if layer < node.connections.length then
      let conn := node.connections.getD layer []
      if conn.length ≤ cfg.maxConn layer then .ok m
      else do
        let candidates ← neighborDistances fpu m cfg.metric node.vector conn
        let newNeighbors ← selectNeighborsHeuristic fpu m cfg.metric node.vector
          (sortByDistance fpu candidates) (cfg.maxConn layer) layer false
        let m := NodeMap.disconnectEach nodeKey layer (fun x => decide (x ∉ newNeighbors)) 0
          conn.length conn m
        .ok (m.modify nodeKey (·.set layer newNeighbors))
    else .ok m

variable {fpu} {cfg : Config} {m m' : NodeMap} {key : Int} {layer : Nat}

theorem set_conns (m : NodeMap) (k x : Int) (v : List Int) (layer l : Nat) (hk : m.LongAt k layer) :
    (m.modify k (·.set layer v)).conns x l =
      if x = k ∧ l = layer ∧ (m.find k).isSome then v else m.conns x l := by
  rw [NodeMap.modify_conns]
  by_cases hx : x = k
  · subst hx
    rw [NodeMap.conns_eq]
    cases hn : m.find x with
    | none => simp
    | some n =>
      have := hk n hn
      by_cases hl : l = layer
      · subst hl; simp [List.getD_eq_getElem?_getD, List.getElem?_set, this]
      · simp [hl, Ne.symm hl, List.getD_eq_getElem?_getD, List.getElem?_set]
  · simp [hx]

/-- The list of `key` after the range-for and `node.connections[layer] = new_neighbors`. -/
theorem conns_cut_self (long : m.LongAt key layer) (hk : (m.find key).isSome) (nn : List Int)
    (drop : Int → Bool) (i n : Nat) (buf : List Int) :
    ((NodeMap.disconnectEach key layer drop i n buf m).modify key (·.set layer nn)).conns key layer =
      nn := by
  have hk' : ((NodeMap.disconnectEach key layer drop i n buf m).find key).isSome := by
    rw [← Option.isSome_map' (f := fun n : Node => (n.vector, n.layer)),
      NodeMap.find_of_shape (NodeMap.disconnectEach_shape _ _ _ _ _ _ _), Option.isSome_map']
    exact hk
  rw [set_conns _ _ _ _ _ _ (long.disconnectEach _ _ _ _ _ _), if_pos ⟨rfl, rfl, hk'⟩]

theorem neighborDistances_mem {metric : DistanceMetric} {v : List Double} :
    ∀ {conn : List Int} {r : List (Int × Double)}, neighborDistances fpu m metric v conn = .ok r →
      ∀ p ∈ r, p.1 ∈ m.keys
  | [], _, h => by cases h; nofun
  | nb :: rest, r, h => by
    unfold neighborDistances at h
    split at h
    · rename_i n hn
      obtain ⟨d, -, h⟩ := bind_eq_ok h
      obtain ⟨r', h', h⟩ := bind_eq_ok h
      cases h
      rintro p (_ | ⟨_, hp⟩)
      exacts [NodeMap.mem_keys.2 ⟨n, hn⟩, neighborDistances_mem h' p hp]
    · exact neighborDistances_mem h

/-- What a `prune_connections` that returned did: nothing, as the list was within its cap, or
the cut of a list held by a present node down to a new list of present nodes within the cap. -/
theorem pruneConnections_cases (h : pruneConnections fpu cfg m key layer = .ok m') :
    (m' = m ∧ (m.conns key layer).length ≤ cfg.maxConn layer) ∨
    ∃ nn : List Int, nn.length ≤ cfg.maxConn layer ∧ (∀ x ∈ nn, x ∈ m.keys) ∧ m.LongAt key layer ∧
      (m.find key).isSome ∧
      m' = (NodeMap.disconnectEach key layer (fun x => decide (x ∉ nn)) 0 (m.conns key layer).length
        (m.conns key layer) m).modify key (·.set layer nn) := by
  unfold pruneConnections at h
  split at h
  · rename_i hn; cases h; left; simp [NodeMap.conns, hn]
  · rename_i node hn
    split at h
    · have long : m.LongAt key layer := fun n h' => by rw [hn] at h'; cases h'; assumption
      dsimp only at h
      split at h
      · cases h; left; simp only [NodeMap.conns, hn]; exact ⟨trivial, ‹_›⟩
      · obtain ⟨cands, hc, h⟩ := bind_eq_ok h
        obtain ⟨nn, hnn, h⟩ := bind_eq_ok h
        cases h
        refine .inr ⟨nn, selectNeighborsHeuristic_length fpu m cfg.metric node.vector hnn,
          fun x hx => ?_, long, by simp [hn], by simp only [NodeMap.conns, hn]⟩
        rcases selectNeighborsHeuristic_mem hnn x hx with ⟨p, hp, rfl⟩ | hx
        · exact neighborDistances_mem hc p ((sortByDistance_perm _ _).subset hp)
        · exact hx
    · cases h; left
      refine ⟨rfl, ?_⟩
      simp only [NodeMap.conns, hn, List.getD_eq_getElem?_getD,
        List.getElem?_eq_none (Nat.le_of_not_lt ‹_›)]
      simp

theorem pruneConnections_shape (h : pruneConnections fpu cfg m key layer = .ok m') :
    m'.shape = m.shape := by
  rcases pruneConnections_cases h with ⟨rfl, -⟩ | ⟨nn, -, -, -, -, rfl⟩ <;> simp

/-- After a prune, the pruned list is within its cap. -/
theorem pruneConnections_length (h : pruneConnections fpu cfg m key layer = .ok m') :
    (m'.conns key layer).length ≤ cfg.maxConn layer := by
  rcases pruneConnections_cases h with ⟨rfl, hle⟩ | ⟨nn, hnn, -, long, hk, rfl⟩
  · exact hle
  · rw [conns_cut_self long hk]
    exact hnn

/-- Every other list only loses elements. -/
theorem pruneConnections_sublist (h : pruneConnections fpu cfg m key layer = .ok m') (x : Int)
    (l : Nat) (hxl : x ≠ key ∨ l ≠ layer) : (m'.conns x l).Sublist (m.conns x l) := by
  rcases pruneConnections_cases h with ⟨rfl, -⟩ | ⟨nn, -, -, long, -, rfl⟩
  · exact .refl _
  · rw [set_conns _ _ _ _ _ _ (long.disconnectEach _ _ _ _ _ _), if_neg (by tauto)]
    exact NodeMap.shrinks_disconnectEach _ _ _ _ _ _ _ x l

/-- A prune works at its own layer only. -/
theorem pruneConnections_conns_other (h : pruneConnections fpu cfg m key layer = .ok m') (x : Int)
    (l : Nat) (hl : l ≠ layer) : m'.conns x l = m.conns x l := by
  rcases pruneConnections_cases h with ⟨rfl, -⟩ | ⟨nn, -, -, long, -, rfl⟩
  · rfl
  · rw [set_conns _ _ _ _ _ _ (long.disconnectEach _ _ _ _ _ _), if_neg (by tauto)]
    exact NodeMap.disconnectEach_conns_other _ _ _ _ _ hl _ _ _ _

/-- A list within its cap is left alone. -/
theorem pruneConnections_of_le (h : (m.conns key layer).length ≤ cfg.maxConn layer) :
    pruneConnections fpu cfg m key layer = .ok m := by
  unfold pruneConnections
  split
  · rfl
  · rename_i node hn
    simp only [NodeMap.conns, hn] at h
    split
    · rw [if_pos h]
    · rfl

end Prune

end RealmHnsw
