import RealmHnsw.Erase
/-!
# A list for every layer

`insert` builds a node with `connections.resize(node_layer + 1)`. After that, `connect_nodes` only
grows a node's lists, `disconnect_nodes` and `prune_connections` change lists in place, `erase`
drops a node, and `load_from_storage` reads exactly `layer + 1` lists a node. So every node holds
a list for each of its layers (`NodeMap.Layered`) on every index a run reaches:
`layers_have_lists_of_reachable`.

`NodeMap.WidthGrows` says what each write except the insertion of the new node does to the nodes:
every node of the new map was a node of the old one, with the same layer and no fewer lists.

`save_to_storage` writes the lists of layers `0..layer` only. `reopen_eq_self_iff`: on every
reachable index, reopening gives the index back exactly when no node holds a list above its layer.
-/

namespace RealmHnsw

namespace NodeMap

/-- The layer and the number of lists of the node under `x`. -/
def width (m : NodeMap) (x : Int) : Option (Int × Nat) :=
  (m.find x).map fun n => (n.layer, n.connections.length)

/-- Every node holds a list for each layer `0..layer`. -/
def Layered (m : NodeMap) : Prop := ∀ x L w, m.width x = some (L, w) → (L + 1).toNat ≤ w

/-- Every node of `m'` is a node of `m`, with the same layer and no fewer lists. -/
def WidthGrows (m m' : NodeMap) : Prop :=
  ∀ x L w', m'.width x = some (L, w') → ∃ w ≤ w', m.width x = some (L, w)

theorem width_of_mem {m : NodeMap} {n : Node} (hn : n ∈ m.nodes) :
    m.width n.objKey = some (n.layer, n.connections.length) := by
  simp [width, find_eq_some.2 ⟨hn, rfl⟩]

theorem width_erase (m : NodeMap) (k x : Int) :
    (m.erase k).width x = if x = k then none else m.width x := by
  unfold width
  rw [erase_find]
  split <;> rfl

theorem WidthGrows.refl (m : NodeMap) : WidthGrows m m := fun _ _ w h => ⟨w, le_rfl, h⟩

theorem WidthGrows.trans {m₁ m₂ m₃ : NodeMap} (h₁ : WidthGrows m₁ m₂) (h₂ : WidthGrows m₂ m₃) :
    WidthGrows m₁ m₃ := fun x L w₃ h => by
  obtain ⟨w₂, h₂₃, h⟩ := h₂ x L w₃ h
  obtain ⟨w₁, h₁₂, h⟩ := h₁ x L w₂ h
  exact ⟨w₁, h₁₂.trans h₂₃, h⟩

theorem Layered.grows {m m' : NodeMap} (h : m.Layered) (hg : WidthGrows m m') : m'.Layered :=
  fun x L w' hx => by
    obtain ⟨w, hw, hx⟩ := hg x L w' hx
    exact (h x L w hx).trans hw

/-! ## Each graph operation -/

theorem widthGrows_modify (m : NodeMap) (k : Int) {f : List (List Int) → List (List Int)}
    (hf : ∀ cs, cs.length ≤ (f cs).length) : WidthGrows m (m.modify k f) := by
  intro x L w' h
  rw [width, modify_find, Option.map_map, Option.map_eq_some'] at h
  obtain ⟨n, hn, h⟩ := h
  by_cases hx : x = k <;> simp only [Function.comp, hx, if_true, if_false, Prod.mk.injEq] at h <;>
    obtain ⟨rfl, rfl⟩ := h
  · exact ⟨_, hf _, by rw [width, hn]; rfl⟩
  · exact ⟨_, le_rfl, by rw [width, hn]; rfl⟩

theorem widthGrows_listModify (m : NodeMap) (k : Int) (g : List Int → List Int) (layer : Nat) :
    WidthGrows m (m.modify k (List.modify g layer)) :=
  widthGrows_modify m k fun _ => (List.length_modify _ _ _).ge

theorem widthGrows_connectNodes (m : NodeMap) (a b : Int) (layer : Nat) :
    WidthGrows m (m.connectNodes a b layer) := by
  unfold connectNodes
  split
  · exact (((widthGrows_modify _ _ (length_le_growTo · layer)).trans
      (widthGrows_modify _ _ (length_le_growTo · layer))).trans (widthGrows_listModify _ _ _ _)).trans
      (widthGrows_listModify _ _ _ _)
  · exact .refl m

theorem widthGrows_disconnectNodes (m : NodeMap) (a b : Int) (layer : Nat) :
    WidthGrows m (m.disconnectNodes a b layer) := by
  unfold disconnectNodes
  split
  · exact (widthGrows_listModify _ _ _ _).trans (widthGrows_listModify _ _ _ _)
  · exact .refl m

theorem widthGrows_disconnectEach (key : Int) (layer : Nat) (drop : Int → Bool) :
    ∀ i n buf (m : NodeMap), WidthGrows m (disconnectEach key layer drop i n buf m) := by
  intro i n
  induction n generalizing i with
  | zero => intro _ m; exact .refl m
  | succ n ih =>
    intro buf m
    simp only [disconnectEach]
    refine WidthGrows.trans ?_ (ih _ _ _)
    split
    · exact widthGrows_disconnectNodes _ _ _ _
    · exact .refl m

theorem widthGrows_erase (m : NodeMap) (k : Int) : WidthGrows m (m.erase k) := fun x L w h => by
  rw [width_erase] at h
  split at h
  · cases h
  · exact ⟨w, le_rfl, h⟩

theorem widthGrows_connectAll (key : Int) (lc : Nat) :
    ∀ (nbs : List Int) (m : NodeMap), WidthGrows m (nbs.foldl (fun m nb => m.connectNodes key nb lc) m)
  | [], m => .refl m
  | _ :: nbs, m => (widthGrows_connectNodes m _ _ _).trans (widthGrows_connectAll key lc nbs _)

theorem Layered.insertOrAssign_newNode {m : NodeMap} (h : m.Layered) (key : Int)
    (vector : List Double) (L : Nat) : (m.insertOrAssign (newNode key vector L)).Layered := by
  intro x L' w hx
  rw [width, insertOrAssign_find] at hx
  split at hx
  · simp only [Option.map_some', newNode, List.length_replicate, Option.some.injEq,
      Prod.mk.injEq] at hx
    omega
  · exact h x L' w hx

theorem Layered.persisted (m : NodeMap) : m.persisted.Layered := fun x L w hx => by
  rw [width, persisted_find, Option.map_map, Option.map_eq_some'] at hx
  obtain ⟨n, -, hx⟩ := hx
  simp only [Function.comp, Node.persisted, List.length_map, List.length_range, Prod.mk.injEq] at hx
  omega

theorem layered_empty : NodeMap.empty.Layered := fun _ _ _ h => by cases h

end NodeMap

/-! ## Every write -/

section Writes

variable {fpu : Fpu} {cfg : Config} {m m' : NodeMap} {key : Int} {layer : Nat}

theorem widthGrows_pruneConnections (hp : pruneConnections fpu cfg m key layer = .ok m') :
    NodeMap.WidthGrows m m' := by
  rcases pruneConnections_cases hp with ⟨rfl, -⟩ | ⟨nn, -, -, -, -, rfl⟩
  · exact .refl _
  · exact (NodeMap.widthGrows_disconnectEach _ _ _ _ _ _ _).trans
      (NodeMap.widthGrows_modify _ _ fun _ => (List.length_set _ _ _).ge)

theorem widthGrows_pruneAll {lc : Nat} :
    ∀ {nbs : List Int} {m m' : NodeMap},
      nbs.foldlM (fun m nb => pruneConnections fpu cfg m nb lc) m = .ok m' → NodeMap.WidthGrows m m'
  | [], _, _, hp => by cases hp; exact .refl _
  | _ :: _, _, _, hp => by
    rw [List.foldlM_cons] at hp
    obtain ⟨m1, h1, h2⟩ := bind_eq_ok hp
    exact (widthGrows_pruneConnections h1).trans (widthGrows_pruneAll h2)

variable {env : Env} {vector : List Double}

theorem widthGrows_linkLayers :
    ∀ {n : Nat} {m m' : NodeMap} {curr c : Option Int},
      linkLayers env cfg key vector n m curr = .ok (m', c) → NodeMap.WidthGrows m m'
  | 0, _, _, _, _, hl => by cases hl; exact .refl _
  | _ + 1, _, _, _, _, hl => by
    obtain ⟨⟨m1, c1⟩, h1, h2⟩ := bind_eq_ok hl
    obtain ⟨-, nbs, -, -, -, hp, -⟩ := linkLayer_cases h1
    exact ((NodeMap.widthGrows_connectAll key _ nbs _).trans (widthGrows_pruneAll hp)).trans
      (widthGrows_linkLayers h2)

theorem widthGrows_eraseLinks (key : Int) :
    ∀ (ls : List Nat) (m : NodeMap), NodeMap.WidthGrows m (eraseLinks key ls m)
  | [], m => .refl m
  | _ :: ls, m =>
    (NodeMap.widthGrows_disconnectEach key _ _ _ _ _ m).trans (widthGrows_eraseLinks key ls _)

variable {idx idx' : HNSWIndex}

theorem widthGrows_erase_index (key : Int) :
    NodeMap.WidthGrows idx.vectors (RealmHnsw.erase env key idx).vectors := by
  unfold RealmHnsw.erase
  split
  · exact .refl _
  · exact (widthGrows_eraseLinks key _ _).trans (NodeMap.widthGrows_erase _ key)

theorem NodeMap.Layered.insert (h : idx.vectors.Layered) {draw : Nat}
    (hi : insert env key vector draw idx = .ok idx') : idx'.vectors.Layered := by
  rcases insert_cases hi with ⟨-, rfl⟩ | ⟨dim, -, -, ⟨-, rfl⟩ | ⟨-, curr, m, c, -, hl, rfl⟩⟩
  · exact h
  · exact h.insertOrAssign_newNode _ _ _
  · exact (h.insertOrAssign_newNode _ _ _).grows (widthGrows_linkLayers hl)

/-- Every write keeps a list for every layer; reopening needs the index to be one a run can reach,
whose root holds what it saves. -/
theorem NodeMap.Layered.apply (hinv : Inv env cfg idx) (h : idx.vectors.Layered) {w : Write}
    {raised : Option HnswError} (hw : w.apply env cfg idx = .ok (idx', raised)) :
    idx'.vectors.Layered := by
  cases w with
  | insert key vector draw => exact h.insert (Write.apply_insert hw).1
  | set key vector draw =>
    obtain rfl := Write.apply_set_fst hw
    unfold set
    split
    · exact (h.grows (widthGrows_erase_index key)).insert ‹_›
    · exact h.grows (widthGrows_erase_index key)
  | erase key => cases hw; exact h.grows (widthGrows_erase_index key)
  | clear => cases hw; exact NodeMap.layered_empty
  | reopen =>
    obtain ⟨ho, -⟩ := Write.apply_reopen hw
    rw [hinv.open_eq] at ho
    cases ho
    exact NodeMap.Layered.persisted _

end Writes

theorem layered_of_reachable {env : Env} {cfg : Config} {idx : HNSWIndex}
    (h : Reachable env cfg idx) : idx.vectors.Layered := by
  induction h with
  | create => exact NodeMap.layered_empty
  | step _ hr _ hs ih => exact ih.apply hr.inv hs

/-- On every reachable index, across any run of inserts, sets, erases, clears and reopens, every
node holds a list at each layer `0..layer`. -/
theorem layers_have_lists_of_reachable {env : Env} {cfg : Config} {idx : HNSWIndex}
    (h : Reachable env cfg idx) :
    ∀ n ∈ idx.vectors.nodes, ∀ l : Nat, (l : Int) ≤ n.layer → l < n.connections.length := by
  intro n hn l hl
  have := layered_of_reachable h _ _ _ (NodeMap.width_of_mem hn)
  omega

/-- After erasing key 1 from `fourInserts`, node 3, of layer 0, holds a list at layer 0. -/
theorem layers_have_lists_of_reachable_erase :
    (⟨3, [Double.ofIntegral false 20], 0, [[2, 1, 4]]⟩ : Node) ∈
        (erase Env.integral 1 fourInserts).vectors.nodes ∧
      0 < (⟨3, [Double.ofIntegral false 20], 0, [[2, 1, 4]]⟩ : Node).connections.length :=
  have hn : (⟨3, [Double.ofIntegral false 20], 0, [[2, 1, 4]]⟩ : Node) ∈
      (erase Env.integral 1 fourInserts).vectors.nodes := by decide
  ⟨hn, layers_have_lists_of_reachable (.step (.erase 1) reachable_fourInserts trivial rfl) _ hn 0
    le_rfl⟩

/-! ## When reopening gives the index back -/

/-- Reopening keeps a node exactly when it holds a list for each of its layers and no more. -/
theorem Node.persisted_eq_self_iff (n : Node) :
    n.persisted = n ↔ n.connections.length = (n.layer + 1).toNat := by
  constructor
  · intro he
    rw [← he]
    simp [Node.persisted]
  · intro hl
    obtain ⟨k, v, L, cs⟩ := n
    simp only [Node.persisted, Node.mk.injEq, true_and]
    apply List.ext_getElem
    · simp [hl]
    · intro i _ h
      simp [List.getElem?_eq_getElem h]

theorem NodeMap.persisted_eq_self_iff (m : NodeMap) :
    m.persisted = m ↔ ∀ n ∈ m.nodes, n.connections.length = (n.layer + 1).toNat := by
  have hmap : ∀ l : List Node, l.map Node.persisted = l ↔ ∀ n ∈ l, n.persisted = n := by
    intro l
    induction l with
    | nil => simp
    | cons n l ih => simp [ih]
  simp only [← Node.persisted_eq_self_iff, ← hmap]
  exact ⟨fun h => congrArg NodeMap.nodes h, fun h => NodeMap.ext h⟩

/-- On every reachable index, opening the root it saved gives the index back exactly when every
node holds one list per layer `0..layer` and none above. -/
theorem reopen_eq_self_iff {env : Env} {cfg : Config} {idx : HNSWIndex} (hr : Reachable env cfg idx) :
    HNSWIndex.open env.nullKey idx.array cfg = .ok idx ↔
      ∀ n ∈ idx.vectors.nodes, n.connections.length = (n.layer + 1).toNat := by
  rw [hr.inv.open_eq, Except.ok.injEq, ← NodeMap.persisted_eq_self_iff]
  obtain ⟨c, a, v, e, el⟩ := idx
  simp

/-- Reopening `fourInserts`, whose nodes all have layer 0 and one list, gives it back. -/
theorem reopen_eq_self_iff_fourInserts :
    HNSWIndex.open (-1) fourInserts.array (Config.default .euclidean) = .ok fourInserts :=
  (reopen_eq_self_iff reachable_fourInserts).2 (by decide)

theorem NodeMap.persisted_persisted (m : NodeMap) : m.persisted.persisted = m.persisted :=
  (NodeMap.persisted_eq_self_iff _).2 fun n hn => by
    obtain ⟨n, -, rfl⟩ := List.mem_map.1 hn
    simp [Node.persisted]

/-- An index reopened once reopens unchanged: the reopened index holds one list per layer of
each node and none above. -/
theorem reopen_reopen {env : Env} {cfg : Config} {idx : HNSWIndex} (hr : Reachable env cfg idx) :
    ∃ idx', HNSWIndex.open env.nullKey idx.array cfg = .ok idx' ∧
      HNSWIndex.open env.nullKey idx'.array cfg = .ok idx' := by
  have ho := hr.inv.open_eq
  have hr' : Reachable env cfg { idx with vectors := idx.vectors.persisted } :=
    .step .reopen hr trivial (by rw [Write.apply, ho]; rfl)
  refine ⟨_, ho, ?_⟩
  rw [hr'.inv.open_eq]
  simp only [NodeMap.persisted_persisted]

end RealmHnsw
