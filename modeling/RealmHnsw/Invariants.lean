import RealmHnsw.Runs
/-!
# What every run keeps

`Inv` gathers what holds of every reachable index: the configuration is the one the index was
created with, up to the dimension the first vector fixes; the layers lie in `0..32`; no node is
stored under the null key; the root is what `save_to_storage` writes for the index; the entry
point is a node of greatest layer (`EntryOk`); every list is within its cap (`NodeMap.Capped`);
and every vector has the index dimension (`DimOk`). Each write keeps it (`Inv.apply`), so every
reachable index satisfies it (`Reachable.inv`).

Reopening an index on its root gives it back with each node's lists above its own layer dropped
(`Inv.open_eq`): `save_to_storage` writes the lists of layers `0..layer` only.
-/

namespace RealmHnsw

/-- The entry point is the null key, at layer `-1`, when the map is empty; otherwise it is a
present node, `m_entry_point_layer` is that node's layer, and no node has a larger one. -/
def HNSWIndex.EntryOk (idx : HNSWIndex) : Prop :=
  match idx.entryPoint with
  | none => idx.vectors.nodes = [] ∧ idx.entryPointLayer = -1
  | some e => (idx.vectors.find e).map (·.layer) = some idx.entryPointLayer ∧
      ∀ n ∈ idx.vectors.nodes, n.layer ≤ idx.entryPointLayer

theorem HNSWIndex.entryOk_none {idx : HNSWIndex} (h : idx.entryPoint = none) :
    idx.EntryOk ↔ idx.vectors.nodes = [] ∧ idx.entryPointLayer = -1 := by
  unfold HNSWIndex.EntryOk; rw [h]

theorem HNSWIndex.entryOk_some {idx : HNSWIndex} {e : Int} (h : idx.entryPoint = some e) :
    idx.EntryOk ↔ (idx.vectors.find e).map (·.layer) = some idx.entryPointLayer ∧
      ∀ n ∈ idx.vectors.nodes, n.layer ≤ idx.entryPointLayer := by
  unfold HNSWIndex.EntryOk; rw [h]

/-- An index with `EntryOk` and a node has a present entry point. -/
theorem HNSWIndex.EntryOk.exists_mem {idx : HNSWIndex} (h : idx.EntryOk)
    (hne : idx.vectors.nodes ≠ []) : ∃ e, idx.entryPoint = some e ∧ e ∈ idx.vectors.keys := by
  cases hep : idx.entryPoint with
  | none => exact absurd ((HNSWIndex.entryOk_none hep).1 h).1 hne
  | some e =>
    obtain ⟨n, hn, -⟩ := Option.map_eq_some'.1 ((HNSWIndex.entryOk_some hep).1 h).1
    exact ⟨e, rfl, NodeMap.mem_keys.2 ⟨n, hn⟩⟩

/-- Every vector has the index dimension, which is positive once a node is stored. -/
def HNSWIndex.DimOk (idx : HNSWIndex) : Prop :=
  (∀ n ∈ idx.vectors.nodes, n.vector.length = idx.config.vectorDimension) ∧
    (idx.vectors.nodes ≠ [] → 0 < idx.config.vectorDimension)

/-- What holds of every index reachable from a fresh index with configuration `cfg`. -/
structure Inv (env : Env) (cfg : Config) (idx : HNSWIndex) : Prop where
  config : idx.config = { cfg.normalize with vectorDimension := idx.config.vectorDimension }
  fits : idx.config.Fits
  layers : ∀ n ∈ idx.vectors.nodes, 0 ≤ n.layer ∧ n.layer ≤ 32
  keys : ∀ n ∈ idx.vectors.nodes, n.objKey ≠ env.nullKey
  saved : idx = HNSWIndex.create cfg ∨ idx = saveToStorage env.nullKey idx
  entry : idx.EntryOk
  capped : idx.vectors.Capped idx.config
  dim : idx.DimOk

/-! ## Facts about maps with the same nodes -/

namespace NodeMap

theorem forall_nodes_iff (m : NodeMap) {P : Int → List Double → Int → Prop} :
    (∀ n ∈ m.nodes, P n.objKey n.vector n.layer) ↔ ∀ p ∈ m.shape, P p.1 p.2.1 p.2.2 := by
  simp [shape]

theorem nodes_eq_nil_iff (m : NodeMap) : m.nodes = [] ↔ m.shape = [] := by
  simp [shape]

theorem find_layer_of_shape {m m' : NodeMap} (h : m'.shape = m.shape) (k : Int) :
    (m'.find k).map (·.layer) = (m.find k).map (·.layer) := by
  simpa [Option.map_map] using congrArg (Option.map Prod.snd) (find_of_shape h k)

/-- What holds of every node of `m` holds of every node of a map whose nodes are among them. -/
theorem forall_of_shape_sub {m m' : NodeMap} (h : ∀ p ∈ m'.shape, p ∈ m.shape)
    {P : Int → List Double → Int → Prop} (hm : ∀ n ∈ m.nodes, P n.objKey n.vector n.layer) :
    ∀ n ∈ m'.nodes, P n.objKey n.vector n.layer :=
  m'.forall_nodes_iff.2 fun p hp => m.forall_nodes_iff.1 hm p (h p hp)

/-- What holds of every node of `m` and of `q` holds of every node of a map holding those. -/
theorem forall_of_shape_append {m m' : NodeMap} {q : Int × List Double × Int}
    (h : m'.shape = m.shape ++ [q]) {P : Int → List Double → Int → Prop}
    (hm : ∀ n ∈ m.nodes, P n.objKey n.vector n.layer) (hq : P q.1 q.2.1 q.2.2) :
    ∀ n ∈ m'.nodes, P n.objKey n.vector n.layer :=
  m'.forall_nodes_iff.2 (h ▸ fun p hp => (List.mem_append.1 hp).elim (m.forall_nodes_iff.1 hm p)
    (fun hp => (List.mem_singleton.1 hp) ▸ hq))

theorem capped_of_shrinks {m m' : NodeMap} {cfg : Config} (hm : m.Capped cfg) (h : Shrinks m m') :
    m'.Capped cfg :=
  fun x l => (h x l).length_le.trans (hm x l)

theorem persisted_find (m : NodeMap) (k : Int) : m.persisted.find k = (m.find k).map Node.persisted :=
  find_map (m := m) Node.persisted (fun _ => rfl) k

theorem persisted_shape (m : NodeMap) : m.persisted.shape = m.shape := by
  simp only [shape, persisted, List.map_map]
  rfl

/-- A persisted list is the list itself or, above the node's layer, empty. -/
theorem shrinks_persisted (m : NodeMap) : Shrinks m m.persisted := by
  intro x l
  rw [conns_eq, conns_eq, persisted_find]
  cases m.find x with
  | none => exact .refl _
  | some n =>
    simp only [Option.map_some', Option.getD_some, Node.persisted, List.getD_eq_getElem?_getD,
      List.getElem?_map]
    by_cases hl : l < (n.layer + 1).toNat
    · simp [List.getElem?_range hl, List.getD_eq_getElem?_getD]
    · rw [List.getElem?_eq_none (by rw [List.length_range]; omega)]
      exact List.nil_sublist _

end NodeMap

theorem Config.Fits.withDimension {c : Config} (h : c.Fits) {d : Nat} (hd : d < 2 ^ 64) :
    ({ c with vectorDimension := d } : Config).Fits :=
  ⟨h.1, h.2.1, h.2.2.1, h.2.2.2.1, hd⟩

/-- Reopening normalises the configuration it loaded: the supplied one, with the dimension, `M`,
`ef_construction` and `ef_search` of the metadata. When the supplied one has the metric and `M0`
of the one the index was created with, this gives back the index's. -/
theorem Config.normalize_reload (cfg c : Config) (hm : c.metric = cfg.metric) (hM0 : c.M0 = cfg.M0)
    (d : Nat) :
    Config.normalize { c with
      vectorDimension := d, M := cfg.M, efConstruction := cfg.efConstruction,
      efSearch := cfg.normalize.efSearch } = { cfg.normalize with vectorDimension := d } := by
  cases cfg
  cases c
  simp only [Config.normalize, Config.mk.injEq] at *
  subst hm hM0
  split_ifs <;> simp

section

variable {env : Env} {cfg : Config} {idx idx' : HNSWIndex}

/-! ## `insert` -/

/-- The index an `insert` leaves keeps `Inv`, once its entry point is right: the map holds the old
nodes and the new one, within their caps, and the dimension is the one validation gave. -/
theorem Inv.of_insert (hi : Inv env cfg idx) {key : Int} {vector : List Double} {draw dim : Nat}
    (hn : key ≠ env.nullKey) (hv : vector.length < 2 ^ 64) (hne : vector ≠ [])
    (hval : validateVectorDimension idx.config.vectorDimension vector = .ok dim) {m : NodeMap}
    (hm : m.shape = idx.vectors.shape ++ [(key, vector, (selectLayer draw : Int))])
    (hc : m.Capped { idx.config with vectorDimension := dim }) {e : Option Int} {el : Int}
    (he : HNSWIndex.EntryOk ⟨{ idx.config with vectorDimension := dim }, idx.array, m, e, el⟩) :
    Inv env cfg (saveToStorage env.nullKey
      ⟨{ idx.config with vectorDimension := dim }, idx.array, m, e, el⟩) := by
  obtain ⟨rfl, hdim⟩ := validateVectorDimension_eq_ok.1 hval
  have hall := @NodeMap.forall_of_shape_append _ _ _ hm
  refine ⟨congrArg (fun c : Config => { c with vectorDimension := vector.length }) hi.config,
    hi.fits.withDimension hv, hall (P := fun _ _ l => 0 ≤ l ∧ l ≤ 32) hi.layers
      ⟨by dsimp only; omega, by simp only [selectLayer]; omega⟩, hall (P := fun k _ _ => k ≠ env.nullKey) hi.keys hn,
    .inr rfl, he, hc, hall (P := fun _ v _ => v.length = vector.length) ?_ rfl,
    fun _ => List.length_pos.2 hne⟩
  rcases hdim with h0 | h0
  · have : idx.vectors.nodes = [] := by
      by_contra hne'
      exact absurd (hi.dim.2 hne') (by omega)
    simp [this]
  · exact fun n hn' => (hi.dim.1 n hn').trans h0.symm

theorem insertOrAssign_capped {m : NodeMap} {cfg : Config} (hm : m.Capped cfg) (key : Int)
    (vector : List Double) (L : Nat) : (m.insertOrAssign (newNode key vector L)).Capped cfg := by
  intro x l
  rw [NodeMap.insertOrAssign_conns]
  split
  · simp [newNode, List.getD_eq_getElem?_getD, List.getElem?_replicate]
    split <;> simp
  · exact hm x l

theorem insertOrAssign_conns_new (m : NodeMap) (key : Int) (vector : List Double) (L l : Nat) :
    (m.insertOrAssign (newNode key vector L)).conns key l = [] := by
  simp only [NodeMap.insertOrAssign_conns, newNode, if_true, List.getD_eq_getElem?_getD,
    List.getElem?_replicate]
  split <;> rfl

/-- `insert` of a key the index does not hold keeps `Inv`. -/
theorem Inv.insert (hi : Inv env cfg idx) {key : Int} {vector : List Double} {draw : Nat}
    (hk : key ∉ idx.vectors.keys) (hn : key ≠ env.nullKey) (hv : vector.length < 2 ^ 64)
    (h : insert env key vector draw idx = .ok idx') : Inv env cfg idx' := by
  have hshape := NodeMap.insertOrAssign_shape idx.vectors (newNode key vector (selectLayer draw)) hk
  rcases insert_cases h with ⟨-, rfl⟩ | ⟨dim, hne, hval, ⟨hnil, rfl⟩ | ⟨hnil, curr, m, c, -, hl, rfl⟩⟩
  · exact hi
  · refine hi.of_insert hn hv hne hval hshape (insertOrAssign_capped hi.capped _ _ _)
      ((HNSWIndex.entryOk_some rfl).2 ⟨by simp [newNode], fun n hn' => ?_⟩)
    rw [NodeMap.insertOrAssign_nodes_of_fresh _ _ hk, hnil] at hn'
    simp [List.mem_singleton.1 hn', newNode]
  · have hm := (linkLayers_shape hl).trans hshape
    refine hi.of_insert hn hv hne hval hm (linkLayers_capped hl (insertOrAssign_capped hi.capped _ _ _)
      fun l _ => insertOrAssign_conns_new _ _ _ _ _) ?_
    obtain ⟨e, he, hem⟩ := hi.entry.exists_mem hnil
    obtain ⟨hel, hle⟩ := (HNSWIndex.entryOk_some he).1 hi.entry
    have hek : e ≠ key := fun h => hk (h ▸ hem)
    have hfind : ∀ k, (m.find k).map (·.layer) =
        if k = key then some (selectLayer draw : Int) else (idx.vectors.find k).map (·.layer) := by
      intro k
      rw [NodeMap.find_layer_of_shape (linkLayers_shape hl), NodeMap.insertOrAssign_find]
      split <;> simp_all [newNode]
    by_cases htop : (selectLayer draw : Int) > idx.entryPointLayer
    · rw [if_pos htop, if_pos htop]
      refine (HNSWIndex.entryOk_some rfl).2 ⟨by simp [hfind], ?_⟩
      exact NodeMap.forall_of_shape_append (P := fun _ _ l => l ≤ selectLayer draw) hm
        (fun n hn' => by have := hle n hn'; dsimp only; omega) le_rfl
    · rw [if_neg htop, if_neg htop, he]
      refine (HNSWIndex.entryOk_some rfl).2 ⟨by simp [hfind, hek, hel], ?_⟩
      exact NodeMap.forall_of_shape_append (P := fun _ _ l => l ≤ idx.entryPointLayer) hm hle
        (by simp only [newNode]; omega)

/-- An `insert` of a non-empty vector that returns holds its key. -/
theorem insert_mem_keys {key : Int} {vector : List Double} {draw : Nat} (hne : vector ≠ [])
    (h : insert env key vector draw idx = .ok idx') : key ∈ idx'.vectors.keys := by
  have hk : key ∈ (idx.vectors.insertOrAssign (newNode key vector (selectLayer draw))).keys :=
    NodeMap.mem_keys.2 ⟨newNode key vector (selectLayer draw), by simp [newNode]⟩
  rcases insert_cases h with ⟨rfl, -⟩ | ⟨dim, -, -, ⟨-, rfl⟩ | ⟨-, curr, m, c, -, hl, rfl⟩⟩
  · exact absurd rfl hne
  · exact hk
  · rwa [saveToStorage_vectors, NodeMap.keys_of_shape (linkLayers_shape hl)]

/-! ## `erase`, `clear` and `set` -/

theorem erase_not_mem (env : Env) (key : Int) (idx : HNSWIndex) :
    key ∉ (erase env key idx).vectors.keys := by
  unfold erase
  split
  · exact NodeMap.find_eq_none.1 ‹_›
  · exact NodeMap.find_eq_none.1 (by simp)

@[simp] theorem erase_config (env : Env) (key : Int) (idx : HNSWIndex) :
    (erase env key idx).config = idx.config := by
  unfold erase
  split <;> rfl

/-- `erase` keeps `Inv`: the map loses the node and lists only lose elements, and the rescan
finds a node of greatest layer. -/
theorem Inv.erase (hi : Inv env cfg idx) (key : Int) : Inv env cfg (erase env key idx) := by
  unfold RealmHnsw.erase
  split
  · exact hi
  · rename_i node _
    dsimp only
    generalize hm : (eraseLinks key (List.range (node.layer + 1).toNat) idx.vectors).erase key = m
    have hsub : ∀ p ∈ m.shape, p ∈ idx.vectors.shape := by
      intro p hp
      rw [← hm, NodeMap.erase_shape, eraseLinks_shape] at hp
      exact (List.mem_filter.1 hp).1
    have hsh : NodeMap.Shrinks idx.vectors m := fun x l => by
      rw [← hm, NodeMap.erase_conns]
      split
      · exact List.nil_sublist _
      · exact shrinks_eraseLinks _ _ _ x l
    have hnil : idx.vectors.nodes = [] → m.nodes = [] := fun h => by
      rw [NodeMap.nodes_eq_nil_iff] at h ⊢
      exact List.eq_nil_iff_forall_not_mem.2 fun p hp => by simpa [h] using hsub p hp
    refine ⟨hi.config, hi.fits,
      NodeMap.forall_of_shape_sub (P := fun _ _ l => 0 ≤ l ∧ l ≤ 32) hsub hi.layers,
      NodeMap.forall_of_shape_sub (P := fun k _ _ => k ≠ env.nullKey) hsub hi.keys, .inr rfl, ?_, NodeMap.capped_of_shrinks hi.capped hsh,
      NodeMap.forall_of_shape_sub (P := fun _ v _ => v.length = idx.config.vectorDimension) hsub hi.dim.1,
      fun h => hi.dim.2 fun h' => h (hnil h')⟩
    by_cases hep : idx.entryPoint = some key
    · rw [if_pos hep]
      rcases @rescan_spec m.nodes fun n hn => (NodeMap.forall_of_shape_sub
          (P := fun _ _ l => 0 ≤ l ∧ l ≤ 32) hsub hi.layers n hn).1 with ⟨h0, he⟩ | ⟨n, hn, he, hle⟩
      · rw [he]
        exact (HNSWIndex.entryOk_none rfl).2 ⟨h0, rfl⟩
      · rw [he]
        exact (HNSWIndex.entryOk_some rfl).2 ⟨by simp [NodeMap.find_eq_some.2 ⟨hn, rfl⟩], hle⟩
    · rw [if_neg hep]
      cases he : idx.entryPoint with
      | none =>
        obtain ⟨h0, hl⟩ := (HNSWIndex.entryOk_none he).1 hi.entry
        exact (HNSWIndex.entryOk_none rfl).2 ⟨hnil h0, hl⟩
      | some e =>
        obtain ⟨hel, hle⟩ := (HNSWIndex.entryOk_some he).1 hi.entry
        have hek : e ≠ key := fun h => hep (h ▸ he)
        refine (HNSWIndex.entryOk_some rfl).2 ⟨?_, NodeMap.forall_of_shape_sub
          (P := fun _ _ l => l ≤ idx.entryPointLayer) hsub hle⟩
        show (m.find e).map (·.layer) = some idx.entryPointLayer
        rw [← hm, NodeMap.erase_find, if_neg hek, NodeMap.find_layer_of_shape (eraseLinks_shape _ _ _)]
        exact hel

/-- `clear` keeps `Inv`. -/
theorem Inv.clear (hi : Inv env cfg idx) : Inv env cfg (clear env idx) :=
  ⟨hi.config, hi.fits, nofun, nofun, .inr rfl, (HNSWIndex.entryOk_none rfl).2 ⟨rfl, rfl⟩,
    fun _ _ => Nat.zero_le _, nofun, fun h => absurd rfl h⟩

/-- `set` keeps `Inv`, whether its `insert` throws or not. -/
theorem Inv.set (hi : Inv env cfg idx) {key : Int} {vector : List Double} {draw : Nat}
    (hn : key ≠ env.nullKey) (hv : vector.length < 2 ^ 64) :
    Inv env cfg (set env key vector draw idx).1 := by
  have he := hi.erase key
  unfold RealmHnsw.set
  split
  · exact he.insert (erase_not_mem env key idx) hn hv ‹_›
  · exact he

/-! ## Reopening -/

theorem saveToStorage_persisted (nullKey : Int) (idx : HNSWIndex) :
    saveToStorage nullKey { idx with vectors := idx.vectors.persisted } =
      { saveToStorage nullKey idx with vectors := idx.vectors.persisted } := by
  simp only [saveToStorage, NodeMap.persisted, metadataArray, List.map_map, HNSWIndex.mk.injEq,
    and_true, true_and, Arr.refs.injEq, List.cons.injEq]
  exact List.map_congr_left fun n _ => by simp [nodeArray_persisted]

/-- Opening an index on a root a reachable index saved, with a configuration of the metric and
`M0` it was created with, gives the index back, except that each node keeps only its lists at
layers `0..layer`: the metadata restores the dimension, `M`, `ef_construction` and `ef_search`. -/
theorem Inv.open_saved (hi : Inv env cfg idx) (h : idx = saveToStorage env.nullKey idx) (c : Config)
    (hm : c.metric = cfg.metric) (hM0 : c.M0 = cfg.M0) :
    HNSWIndex.open env.nullKey idx.array c = .ok { idx with vectors := idx.vectors.persisted } := by
  have hl : ∀ n ∈ idx.vectors.nodes, -1 ≤ n.layer ∧ n.layer < 2 ^ 31 := fun n hn => by
    have := hi.layers n hn; omega
  have hent := hi.entry
  have hep : idx.entryPoint ≠ some env.nullKey ∧ -2 ^ 31 ≤ idx.entryPointLayer ∧
      idx.entryPointLayer < 2 ^ 31 := by
    cases he : idx.entryPoint with
    | none =>
      have := ((HNSWIndex.entryOk_none he).1 hent).2
      exact ⟨by simp, by omega, by omega⟩
    | some e =>
      obtain ⟨hel, -⟩ := (HNSWIndex.entryOk_some he).1 hent
      obtain ⟨n, hn, hnl⟩ := Option.map_eq_some'.1 hel
      have hmem := (NodeMap.find_eq_some.1 hn)
      have := hi.layers n hmem.1
      refine ⟨fun h' => hi.keys n hmem.1 ?_, by omega, by omega⟩
      rw [hmem.2]; exact Option.some.inj h'
  have harr : idx.array = (saveToStorage env.nullKey idx).array := congrArg HNSWIndex.array h
  rw [HNSWIndex.open, harr, loadFromStorage_saved env.nullKey idx c hl hep.1 hep.2.1 hep.2.2 hi.fits]
  refine congrArg Except.ok ?_
  simp only [HNSWIndex.mk.injEq, and_true, true_and]
  rw [hi.config]
  exact Config.normalize_reload cfg c hm hM0 _

/-- Opening an index on the root of a reachable index, with the configuration it was created with,
gives the index back, except that each node keeps only its lists at layers `0..layer`. -/
theorem Inv.open_eq (hi : Inv env cfg idx) :
    HNSWIndex.open env.nullKey idx.array cfg = .ok { idx with vectors := idx.vectors.persisted } := by
  rcases hi.saved with h | h
  · subst h; rfl
  · exact hi.open_saved h cfg rfl rfl

/-- Reopening keeps `Inv`. -/
theorem Inv.reopen (hi : Inv env cfg idx) : Inv env cfg { idx with vectors := idx.vectors.persisted } := by
  have hsub : ∀ p ∈ idx.vectors.persisted.shape, p ∈ idx.vectors.shape := fun p hp =>
    idx.vectors.persisted_shape ▸ hp
  have hsub' : ∀ p ∈ idx.vectors.shape, p ∈ idx.vectors.persisted.shape := fun p hp =>
    idx.vectors.persisted_shape ▸ hp
  have hnil : idx.vectors.persisted.nodes = [] ↔ idx.vectors.nodes = [] := by
    rw [NodeMap.nodes_eq_nil_iff, NodeMap.nodes_eq_nil_iff, NodeMap.persisted_shape]
  refine ⟨hi.config, hi.fits,
    NodeMap.forall_of_shape_sub (P := fun _ _ l => 0 ≤ l ∧ l ≤ 32) hsub hi.layers,
    NodeMap.forall_of_shape_sub (P := fun k _ _ => k ≠ env.nullKey) hsub hi.keys, ?_, ?_,
    NodeMap.capped_of_shrinks hi.capped idx.vectors.shrinks_persisted,
    NodeMap.forall_of_shape_sub (P := fun _ v _ => v.length = idx.config.vectorDimension) hsub hi.dim.1,
    fun h => hi.dim.2 fun h' => h (hnil.2 h')⟩
  · rcases hi.saved with h | h
    · subst h; exact .inl rfl
    · refine .inr ?_
      rw [saveToStorage_persisted, ← h]
  · have hent := hi.entry
    cases he : idx.entryPoint with
    | none =>
      obtain ⟨h0, hl⟩ := (HNSWIndex.entryOk_none he).1 hent
      exact (HNSWIndex.entryOk_none rfl).2 ⟨hnil.2 h0, hl⟩
    | some e =>
      obtain ⟨hel, hle⟩ := (HNSWIndex.entryOk_some he).1 hent
      refine (HNSWIndex.entryOk_some rfl).2 ⟨?_, NodeMap.forall_of_shape_sub
        (P := fun _ _ l => l ≤ idx.entryPointLayer) hsub hle⟩
      rw [NodeMap.find_layer_of_shape idx.vectors.persisted_shape]
      exact hel

/-! ## Every run -/

/-- A fresh index satisfies `Inv`. -/
theorem Inv.create (hc : cfg.Fits) : Inv env cfg (HNSWIndex.create cfg) := by
  refine ⟨rfl, ?_, nofun, nofun, .inl rfl, (HNSWIndex.entryOk_none rfl).2 ⟨rfl, rfl⟩,
    fun _ _ => Nat.zero_le _, nofun, fun h => absurd rfl h⟩
  obtain ⟨h1, h2, h3, h4, h5⟩ := hc
  refine ⟨h1, ?_, h3, ?_, h5⟩ <;> simp only [HNSWIndex.create, Config.normalize] <;> split <;> omega

/-- Every write keeps `Inv`. -/
theorem Inv.apply (hi : Inv env cfg idx) {w : Write} (ha : w.Allowed env idx)
    {raised : Option HnswError} (h : w.apply env cfg idx = .ok (idx', raised)) : Inv env cfg idx' := by
  cases w with
  | insert key vector draw => exact hi.insert ha.1 ha.2.1 ha.2.2 (Write.apply_insert h).1
  | set key vector draw =>
    obtain rfl := Write.apply_set_fst h
    exact hi.set ha.1 ha.2
  | erase key => cases h; exact hi.erase key
  | clear => cases h; exact hi.clear
  | reopen =>
    obtain ⟨ho, -⟩ := Write.apply_reopen h
    rw [hi.open_eq] at ho
    cases ho
    exact hi.reopen

/-- Every reachable index satisfies `Inv`. -/
theorem Reachable.inv (h : Reachable env cfg idx) : Inv env cfg idx := by
  induction h with
  | create hc => exact Inv.create hc
  | step _ _ ha hs ih => exact ih.apply ha hs

end

end RealmHnsw
