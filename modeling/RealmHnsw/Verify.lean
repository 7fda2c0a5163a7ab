import RealmHnsw.Layered
/-!
# `HNSWIndex::verify`

`verify` walks every node and every layer `0..min(node.layer, connections.size() - 1)`, and asserts
two things: each present neighbour that has a list at the layer lists the node back (graph
symmetry), and each list has at most `max_conn + 2` entries, in `size_t` arithmetic.

On lists (`NodeMap.conns`) and on each node's layer and number of lists (`NodeMap.width`), the two
assertions are `NodeMap.Symmetric` and `NodeMap.WithinSlack` (`verify_iff`).

* `verify_iff_symmetric`: on every reachable index, as long as `max_conn + 2` does not wrap, the
  degree assertions never fire (every list is within its cap), so `verify` passes exactly when the
  graph is symmetric.
* `verify_apply`: `erase`, `clear` and reopening never make `verify` fail. The disconnects of
  `erase` leave stale links to the erased key only (`RealmHnsw.Erase`), which `verify` skips as the
  key is not present; reopening drops only lists above a node's layer, which `verify` does not
  walk, as every node holds a list for each of its layers (`RealmHnsw.Layered`).
* `verify_aborts_on_reachable`: `verify` does abort on an index four inserts build. The prune of
  `insert` skips a neighbour it drops (`RealmHnsw.Defects`), which keeps a link the pruned node no
  longer has.
-/

namespace RealmHnsw

/-- The layers `verify` walks for a node: `layer = 0, 1, …` while `layer <= node.layer` and
`layer < node.connections.size()`. -/
def Node.checkedLayers (n : Node) : List Nat :=
  List.range (min (n.layer + 1).toNat n.connections.length)

/-- The symmetry assertion for the neighbour `neighbor` of `n` at `layer`: a neighbour that is
present and has a list at the layer lists `n` back. -/
def backLinked (m : NodeMap) (n : Node) (layer : Nat) (neighbor : Int) : Bool :=
  match m.find neighbor with
  | some nb =>
    match nb.connections[layer]? with
    | some conn => decide (n.objKey ∈ conn)
    | none => true
  | none => true

/-- The first loop of `verify` over one node: all connections are bidirectional. -/
def Node.linksBack (m : NodeMap) (n : Node) : Bool :=
  n.checkedLayers.all fun l => (n.connections.getD l []).all (backLinked m n l)

/-- The second loop of `verify` over one node: each list within `max_conn + 2`, the slack of
`size_t` arithmetic included. -/
def Node.degreesOk (cfg : Config) (n : Node) : Bool :=
  n.checkedLayers.all fun l =>
    decide ((n.connections.getD l []).length ≤ (cfg.maxConn l + 2) % 2 ^ 64)

/-- `HNSWIndex::verify`: `true` when none of its `REALM_ASSERT_EX` fires. -/
def verify (idx : HNSWIndex) : Bool :=
  idx.vectors.nodes.all fun n => n.linksBack idx.vectors && n.degreesOk idx.config

theorem Node.mem_checkedLayers {n : Node} {l : Nat} :
    l ∈ n.checkedLayers ↔ (l : Int) ≤ n.layer ∧ l < n.connections.length := by
  simp only [Node.checkedLayers, List.mem_range, lt_min_iff]
  omega

/-! ## The assertions on lists -/

namespace NodeMap

/-- `verify` walks layer `l` of the node under `x`. -/
def Checked (m : NodeMap) (x : Int) (l : Nat) : Prop :=
  ∃ L w, m.width x = some (L, w) ∧ (l : Int) ≤ L ∧ l < w

/-- The node under `y` is present and holds a list at layer `l`. -/
def HasList (m : NodeMap) (y : Int) (l : Nat) : Prop :=
  ∃ L w, m.width y = some (L, w) ∧ l < w

/-- Graph symmetry as `verify` asserts it. -/
def Symmetric (m : NodeMap) : Prop :=
  ∀ x y l, m.Checked x l → y ∈ m.conns x l → m.HasList y l → x ∈ m.conns y l

/-- The degree bound as `verify` asserts it. -/
def WithinSlack (m : NodeMap) (cfg : Config) : Prop :=
  ∀ x l, m.Checked x l → (m.conns x l).length ≤ (cfg.maxConn l + 2) % 2 ^ 64

theorem conns_of_mem {m : NodeMap} {n : Node} (hn : n ∈ m.nodes) (l : Nat) :
    m.conns n.objKey l = n.connections.getD l [] := by
  simp [conns, find_eq_some.2 ⟨hn, rfl⟩]

theorem checked_of_mem {m : NodeMap} {n : Node} (hn : n ∈ m.nodes) {l : Nat} :
    m.Checked n.objKey l ↔ l ∈ n.checkedLayers := by
  rw [Node.mem_checkedLayers, Checked, width_of_mem hn]
  constructor
  · rintro ⟨_, _, h, hl⟩
    cases h
    exact hl
  · exact fun hl => ⟨_, _, rfl, hl⟩

theorem hasList_iff {m : NodeMap} {y : Int} {l : Nat} :
    m.HasList y l ↔ ∃ nb, m.find y = some nb ∧ l < nb.connections.length := by
  unfold HasList width
  constructor
  · rintro ⟨_, _, h, hl⟩
    obtain ⟨nb, hnb, h⟩ := Option.map_eq_some'.1 h
    cases h
    exact ⟨nb, hnb, hl⟩
  · rintro ⟨nb, hnb, hl⟩
    exact ⟨_, _, by rw [hnb]; rfl, hl⟩

/-- A checked layer belongs to a present node. -/
theorem Checked.exists_mem {m : NodeMap} {x : Int} {l : Nat} (h : m.Checked x l) :
    ∃ n ∈ m.nodes, n.objKey = x := by
  obtain ⟨L, w, hw, -⟩ := h
  obtain ⟨n, hn, -⟩ := Option.map_eq_some'.1 hw
  exact ⟨n, find_eq_some.1 hn⟩

end NodeMap

theorem backLinked_eq_true {m : NodeMap} {n : Node} {l : Nat} {y : Int} :
    backLinked m n l y = true ↔ (m.HasList y l → n.objKey ∈ m.conns y l) := by
  rw [NodeMap.hasList_iff]
  unfold backLinked NodeMap.conns
  cases m.find y with
  | none => simp
  | some nb =>
    by_cases hl : l < nb.connections.length
    · simp [hl, List.getElem?_eq_getElem hl, List.getD_eq_getElem _ _ hl]
    · simp [hl, List.getElem?_eq_none (Nat.le_of_not_lt hl)]

theorem linksBack_iff {m : NodeMap} {n : Node} (hn : n ∈ m.nodes) :
    n.linksBack m = true ↔ ∀ l, m.Checked n.objKey l → ∀ y ∈ m.conns n.objKey l,
      m.HasList y l → n.objKey ∈ m.conns y l := by
  simp only [Node.linksBack, List.all_eq_true, backLinked_eq_true, NodeMap.checked_of_mem hn,
    NodeMap.conns_of_mem hn]

theorem degreesOk_iff {m : NodeMap} {cfg : Config} {n : Node} (hn : n ∈ m.nodes) :
    n.degreesOk cfg = true ↔ ∀ l, m.Checked n.objKey l →
      (m.conns n.objKey l).length ≤ (cfg.maxConn l + 2) % 2 ^ 64 := by
  simp only [Node.degreesOk, List.all_eq_true, decide_eq_true_eq, NodeMap.checked_of_mem hn,
    NodeMap.conns_of_mem hn]

/-- `verify` passes exactly when the graph is symmetric and within the slack, layer by layer. -/
theorem verify_iff (idx : HNSWIndex) :
    verify idx = true ↔ idx.vectors.Symmetric ∧ idx.vectors.WithinSlack idx.config := by
  simp only [verify, List.all_eq_true, Bool.and_eq_true, imp_and, forall_and]
  refine and_congr ⟨fun h x y l hc => ?_, fun h n hn => (linksBack_iff hn).2 fun l hc y => h _ y l hc⟩
    ⟨fun h x l hc => ?_, fun h n hn => (degreesOk_iff hn).2 fun l => h _ l⟩
  · obtain ⟨n, hn, rfl⟩ := hc.exists_mem
    exact (linksBack_iff hn).1 (h n hn) l hc y
  · obtain ⟨n, hn, rfl⟩ := hc.exists_mem
    exact (degreesOk_iff hn).1 (h n hn) l hc

/-! ## Four inserts that leave a one-way link -/

/-- Keys 1, 2 and 3 at `0.0`, `20.0` and `25.0`, then key 4 at `9.0`, inserted with `M0 = 2`. The
insert of key 4 links it to 1 and 2; the prune of node 1 keeps `[4]` and drops 2 and 3, but
disconnects 2 only, so node 3 still lists 1. -/
def skewedInserts : HNSWIndex :=
  saveToStorage (-1) ⟨{ (Config.default .euclidean).normalize with M0 := 2, vectorDimension := 1 },
    .refs [], (((NodeMap.empty.insertOrAssign ⟨1, [Double.ofIntegral false 0], 0, [[4]]⟩).insertOrAssign
      ⟨2, [Double.ofIntegral false 20], 0, [[3, 4]]⟩).insertOrAssign
      ⟨3, [Double.ofIntegral false 25], 0, [[2, 1]]⟩).insertOrAssign
      ⟨4, [Double.ofIntegral false 9], 0, [[1, 2]]⟩, some 1, 0⟩

set_option maxRecDepth 100000 in
theorem reachable_skewedInserts :
    ReachableBy Env.integral { Config.default .euclidean with M0 := 2 } Write.IsInsert skewedInserts :=
  .step (.insert 4 [Double.ofIntegral false 9] 0) trivial
    (.step (.insert 3 [Double.ofIntegral false 25] 0) trivial
      (.step (.insert 2 [Double.ofIntegral false 20] 0) trivial
        (.step (.insert 1 [Double.ofIntegral false 0] 0) trivial (.create (by decide))
          ⟨by decide, by decide, by decide⟩ rfl)
        ⟨by decide, by decide, by decide⟩ rfl)
      ⟨by decide, by decide, by decide⟩ rfl)
    ⟨by decide, by decide, by decide⟩ rfl

/-! ## Every reachable index is within the slack -/

theorem NodeMap.Capped.withinSlack {m : NodeMap} {cfg : Config} (hc : m.Capped cfg)
    (hcfg : ∀ l, cfg.maxConn l + 2 < 2 ^ 64) : m.WithinSlack cfg := fun x l _ => by
  have := hc x l
  rw [Nat.mod_eq_of_lt (hcfg l)]
  omega

/-- On every reachable index whose `max_conn + 2` fits a `size_t`, the degree assertions of `verify`
never fire: it passes exactly when every present neighbour at a layer it walks lists the node
back. -/
theorem verify_iff_symmetric {env : Env} {cfg : Config} {idx : HNSWIndex}
    (hr : Reachable env cfg idx) (hcfg : ∀ l, idx.config.maxConn l + 2 < 2 ^ 64) :
    verify idx = true ↔ idx.vectors.Symmetric := by
  rw [verify_iff]
  exact and_iff_left (hr.inv.capped.withinSlack hcfg)

/-- On `skewedInserts`, within its caps, `verify` reduces to the symmetry of its graph. -/
theorem verify_iff_symmetric_skewed :
    verify skewedInserts = true ↔ skewedInserts.vectors.Symmetric :=
  verify_iff_symmetric reachable_skewedInserts.reachable fun l => by
    unfold Config.maxConn; split <;> decide

/-- `verify` aborts on an index that four inserts of fresh keys build: node 3 lists 1 at layer 0,
node 1 holds a list at layer 0, and that list lacks 3. -/
theorem verify_aborts_on_reachable :
    ∃ idx, ReachableBy Env.integral { Config.default .euclidean with M0 := 2 } Write.IsInsert idx ∧
      1 ∈ idx.vectors.conns 3 0 ∧ 3 ∉ idx.vectors.conns 1 0 ∧ verify idx = false :=
  ⟨_, reachable_skewedInserts, by decide, by decide, by decide⟩

/-! ## `erase` keeps `verify` passing -/

namespace NodeMap

/-- `m'` is `m` after disconnects from `key`, or its removal: no node gains a layer, a list or its
presence, every list only loses entries, and a list of a node other than `key` loses only `key`. -/
structure Unlinked (key : Int) (m m' : NodeMap) : Prop where
  width : ∀ x p, m'.width x = some p → m.width x = some p
  shrinks : Shrinks m m'
  keeps : ∀ x y l, x ≠ key → y ≠ key → x ∈ m.conns y l → x ∈ m'.conns y l

theorem Unlinked.refl (key : Int) (m : NodeMap) : Unlinked key m m :=
  ⟨fun _ _ => id, fun _ _ => .refl _, fun _ _ _ _ _ => id⟩

theorem Unlinked.trans {key : Int} {m₁ m₂ m₃ : NodeMap} (h₁ : Unlinked key m₁ m₂)
    (h₂ : Unlinked key m₂ m₃) : Unlinked key m₁ m₃ :=
  ⟨fun x p h => h₁.width x p (h₂.width x p h), h₁.shrinks.trans h₂.shrinks,
    fun x y l hx hy h => h₂.keeps x y l hx hy (h₁.keeps x y l hx hy h)⟩

theorem width_modify (m : NodeMap) (k : Int) {f : List (List Int) → List (List Int)}
    (hf : ∀ cs, (f cs).length = cs.length) (x : Int) : (m.modify k f).width x = m.width x := by
  by_cases hx : x = k <;> simp [width, hx, hf, Function.comp_def]

theorem unlinked_disconnectNodes (m : NodeMap) (key b : Int) (layer : Nat) :
    Unlinked key m (m.disconnectNodes key b layer) where
  width x p h := by
    unfold disconnectNodes at h
    split at h
    · rwa [width_modify _ _ (fun _ => List.length_modify _ _ _),
        width_modify _ _ (fun _ => List.length_modify _ _ _)] at h
    · exact h
  shrinks := shrinks_disconnectNodes m key b layer
  keeps x y l hx hy h := by
    rw [disconnectNodes_conns]
    split_ifs <;> simp_all [removeAll]

theorem unlinked_disconnectEach (key : Int) (layer : Nat) (drop : Int → Bool) :
    ∀ i n buf (m : NodeMap), Unlinked key m (disconnectEach key layer drop i n buf m) := by
  intro i n
  induction n generalizing i with
  | zero => intro _ m; exact .refl key m
  | succ n ih =>
    intro buf m
    simp only [disconnectEach]
    refine Unlinked.trans ?_ (ih _ _ _)
    split
    · exact unlinked_disconnectNodes _ _ _ _
    · exact .refl key m

theorem unlinked_erase (m : NodeMap) (key : Int) : Unlinked key m (m.erase key) where
  width x p h := by
    rw [width_erase] at h
    split at h
    · cases h
    · exact h
  shrinks x l := by
    rw [erase_conns]
    split
    · exact List.nil_sublist _
    · exact .refl _
  keeps x y l _ hy h := by rwa [erase_conns, if_neg hy]

/-- Symmetry survives disconnects from `key` that end with `key` gone. -/
theorem Symmetric.unlinked {key : Int} {m m' : NodeMap} (hs : m.Symmetric) (hu : Unlinked key m m')
    (hkey : m'.width key = none) : m'.Symmetric := by
  intro x y l ⟨L, w, hx, hl⟩ hy ⟨L', w', hy', hw'⟩
  have hxk : x ≠ key := by rintro rfl; rw [hkey] at hx; cases hx
  have hyk : y ≠ key := by rintro rfl; rw [hkey] at hy'; cases hy'
  exact hu.keeps x y l hxk hyk (hs x y l ⟨L, w, hu.width _ _ hx, hl⟩ ((hu.shrinks x l).subset hy)
    ⟨L', w', hu.width _ _ hy', hw'⟩)

theorem WithinSlack.unlinked {key : Int} {cfg : Config} {m m' : NodeMap} (hw : m.WithinSlack cfg)
    (hu : Unlinked key m m') : m'.WithinSlack cfg :=
  fun x l ⟨L, w, hx, hl⟩ => (hu.shrinks x l).length_le.trans (hw x l ⟨L, w, hu.width _ _ hx, hl⟩)

end NodeMap

theorem unlinked_eraseLinks (key : Int) :
    ∀ (ls : List Nat) (m : NodeMap), NodeMap.Unlinked key m (eraseLinks key ls m)
  | [], m => .refl key m
  | _ :: ls, m => (NodeMap.unlinked_disconnectEach key _ _ _ _ _ m).trans (unlinked_eraseLinks key ls _)

/-- `erase` never makes `verify` fail, on any index and for any key: the links it leaves behind
name the erased key, which `verify` skips as it is no longer present. -/
theorem verify_erase {env : Env} {idx : HNSWIndex} (h : verify idx = true) (key : Int) :
    verify (erase env key idx) = true := by
  rw [verify_iff] at h ⊢
  rw [erase_config]
  unfold erase
  split
  · exact h
  · rename_i node _
    simp only [saveToStorage_vectors]
    have hu := (unlinked_eraseLinks key (List.range (node.layer + 1).toNat) idx.vectors).trans
      (NodeMap.unlinked_erase _ key)
    exact ⟨h.1.unlinked hu (by rw [NodeMap.width_erase, if_pos rfl]), h.2.unlinked hu⟩

/-! ## Reopening keeps `verify` passing -/

namespace NodeMap

theorem width_persisted (m : NodeMap) (x : Int) :
    m.persisted.width x = (m.width x).map fun p => (p.1, (p.1 + 1).toNat) := by
  simp [width, persisted_find, Function.comp_def, Node.persisted]

/-- Reopening keeps each list at a layer of its node. -/
theorem persisted_conns_of_le {m : NodeMap} {x : Int} {L : Int} {w l : Nat}
    (hx : m.width x = some (L, w)) (hl : (l : Int) ≤ L) : m.persisted.conns x l = m.conns x l := by
  obtain ⟨n, hn, h⟩ := Option.map_eq_some'.1 hx
  simp only [Prod.mk.injEq] at h
  rw [conns_eq, conns_eq, persisted_find, hn]
  simp [Node.persisted, List.getD_eq_getElem?_getD, List.getElem?_range (show l < (n.layer + 1).toNat by omega)]

/-- After reopening, a node holds a list at a layer `l` exactly when `l` is one of its layers; before
it, it held one there too, when every node holds a list for each of its layers. -/
theorem Layered.of_persisted {m : NodeMap} (hm : m.Layered) {x : Int} {L : Int} {w l : Nat}
    (hx : m.persisted.width x = some (L, w)) (hl : l < w) :
    ∃ L w, m.width x = some (L, w) ∧ (l : Int) ≤ L ∧ l < w := by
  rw [width_persisted, Option.map_eq_some'] at hx
  obtain ⟨⟨L, w⟩, hx, he⟩ := hx
  simp only [Prod.mk.injEq] at he
  obtain ⟨rfl, rfl⟩ := he
  have := hm x L w hx
  exact ⟨L, w, hx, by omega, by omega⟩

theorem Symmetric.persisted {m : NodeMap} (hs : m.Symmetric) (hm : m.Layered) :
    m.persisted.Symmetric := by
  rintro x y l ⟨_, _, hx, -, hl⟩ hy ⟨_, _, hy', hl'⟩
  obtain ⟨L, w, hxw, hlx⟩ := hm.of_persisted hx hl
  obtain ⟨L', w', hyw, hly⟩ := hm.of_persisted hy' hl'
  rw [persisted_conns_of_le hxw hlx.1] at hy
  rw [persisted_conns_of_le hyw hly.1]
  exact hs x y l ⟨L, w, hxw, hlx⟩ hy ⟨L', w', hyw, hly.2⟩

theorem WithinSlack.persisted {m : NodeMap} {cfg : Config} (hw : m.WithinSlack cfg)
    (hm : m.Layered) : m.persisted.WithinSlack cfg := fun x l ⟨_, _, hx, _, hl⟩ =>
  (m.shrinks_persisted x l).length_le.trans (hw x l (hm.of_persisted hx hl))

end NodeMap

/-- The writes that only take away: `erase`, `clear`, and reopening, which drops the lists above
each node's layer. -/
def Write.Removes : Write → Prop
  | .erase _ | .clear | .reopen => True
  | _ => False

/-- On every reachable index, an `erase`, a `clear` or a reopening never makes `verify` fail: only
`insert`, alone or inside `set`, can. -/
theorem verify_apply {env : Env} {cfg : Config} {idx idx' : HNSWIndex} (hr : Reachable env cfg idx)
    (hv : verify idx = true) {w : Write} (hrem : w.Removes) {raised : Option HnswError}
    (hw : w.apply env cfg idx = .ok (idx', raised)) : verify idx' = true := by
  cases w with
  | insert => exact hrem.elim
  | set => exact hrem.elim
  | erase key => cases hw; exact verify_erase hv key
  | clear => cases hw; rfl
  | reopen =>
    obtain ⟨ho, -⟩ := Write.apply_reopen hw
    rw [hr.inv.open_eq] at ho
    cases ho
    rw [verify_iff] at hv ⊢
    exact ⟨hv.1.persisted (layered_of_reachable hr), hv.2.persisted (layered_of_reachable hr)⟩

/-- Erasing key 1 from `fourInserts` leaves node 3 listing 1, and `verify` passes. -/
theorem verify_apply_erase : verify (erase Env.integral 1 fourInserts) = true :=
  verify_apply reachable_fourInserts (by decide) (w := .erase 1) trivial rfl

end RealmHnsw
