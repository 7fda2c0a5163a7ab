import RealmHnsw.Defects
/-!
# What the range-for of erase disconnects

`erase(key)` walks each of its layers with `for (ObjKey x : node.connections[layer])
disconnect_nodes(key, x, layer)`, and `disconnect_nodes` erases `x` from the very vector the loop
walks. Each erase shifts the rest of the list one slot left under the cursor, so the loop skips
the neighbour after each one it disconnects; once the cursor passes the live end it reads the stale
slot behind it, which repeats the last neighbour.

`erase_conns_visits`: for a list of distinct present neighbours, the neighbours `erase`
disconnects are exactly `visits` of the list, the first, third, fifth, ... and the last. Every other
neighbour keeps its link to the erased key, which is no longer in the index.
-/

namespace RealmHnsw

/-- The neighbours the range-for of `erase` passes to `disconnect_nodes`, for a list of distinct
present keys: the first, then every second one, and the last. -/
def visits : List Int → List Int
  | x :: _ :: z :: r => x :: visits (z :: r)
  | l => l

theorem visits_sublist : ∀ l : List Int, (visits l).Sublist l
  | _ :: y :: z :: r => ((visits_sublist (z :: r)).cons y).cons₂ _
  | [] | [_] | [_, _] => .refl _

@[simp] theorem visits_nil : visits [] = [] := rfl
@[simp] theorem visits_singleton (x : Int) : visits [x] = [x] := rfl
@[simp] theorem visits_pair (x y : Int) : visits [x, y] = [x, y] := rfl
@[simp] theorem visits_cons_cons_cons (x y z : Int) (r : List Int) :
    visits (x :: y :: z :: r) = x :: visits (z :: r) := rfl

/-- `visits` by position: the elements at even positions, and the last. -/
theorem mem_visits_iff {z : Int} : ∀ {l : List Int},
    z ∈ visits l ↔ ∃ j, ∃ h : j < l.length, l[j] = z ∧ (j % 2 = 0 ∨ j + 1 = l.length)
  | [] => by simp
  | [x] => by simp [eq_comm]
  | [x, y] => by
    constructor
    · simp only [visits_pair, List.mem_cons, List.mem_singleton, List.not_mem_nil, or_false]
      rintro (rfl | rfl)
      exacts [⟨0, by simp, rfl, .inl rfl⟩, ⟨1, by simp, rfl, .inr rfl⟩]
    · rintro ⟨j, hj, rfl, -⟩
      exact List.getElem_mem hj
  | x :: y :: w :: r => by
    rw [visits_cons_cons_cons, List.mem_cons, mem_visits_iff]
    simp only [List.length_cons]
    constructor
    · rintro (rfl | ⟨j, hj, rfl, hjp⟩)
      · exact ⟨0, by omega, rfl, .inl rfl⟩
      · exact ⟨j + 2, by omega, rfl, by omega⟩
    · rintro ⟨j, hj, rfl, hjp⟩
      match j, hj, hjp with
      | 0, _, _ => exact .inl rfl
      | 1, _, hjp => omega
      | j + 2, hj, hjp => exact .inr ⟨j, by omega, rfl, by omega⟩

example : visits [2, 3, 4, 5, 6] = [2, 4, 6] := rfl
example : visits [2, 3, 4, 5] = [2, 4, 5] := rfl

theorem removeAll_of_not_mem {l : List Int} {x : Int} (h : x ∉ l) : removeAll l x = l :=
  List.filter_eq_self.2 fun a ha => by simpa using fun e : a = x => h (e ▸ ha)

/-- `removeAll` drops the one occurrence of a key from a duplicate-free list. -/
theorem removeAll_middle {a b : List Int} {x : Int} (ha : x ∉ a) (hb : x ∉ b) :
    removeAll (a ++ x :: b) x = a ++ b := by
  show (a ++ x :: b).filter _ = _
  rw [List.filter_append, List.filter_cons_of_neg (by simp)]
  exact congrArg₂ (· ++ ·) (removeAll_of_not_mem ha) (removeAll_of_not_mem hb)

/-- The storage slots from `i` up hold the last key of the list the loop read. -/
theorem drop_length_cons (x : Int) :
    ∀ rest stale : List Int, (x :: rest ++ stale).drop rest.length = (x :: rest).getLastD 0 :: stale
  | [], _ => rfl
  | y :: rest, stale => by
    rw [List.length_cons, List.cons_append, List.drop_succ_cons, drop_length_cons y rest stale,
      List.getLastD_cons, List.getLastD_cons, List.getLastD_cons]

namespace NodeMap

/-- `disconnect_nodes(key, v)` changes nothing when neither lists the other. -/
theorem disconnectNodes_unlinked (m : NodeMap) {key v : Int} {layer : Nat} (hvk : v ≠ key)
    (hv : v ∉ m.conns key layer) (hk : key ∉ m.conns v layer) (x : Int) (l : Nat) :
    (m.disconnectNodes key v layer).conns x l = m.conns x l := by
  rw [disconnectNodes_conns]
  split_ifs with h hxv hxk hxk
  · exact absurd (hxv.symm.trans hxk) hvk
  · obtain ⟨-, -, rfl⟩ := h; subst hxv; exact removeAll_of_not_mem hk
  · obtain ⟨-, -, rfl⟩ := h; subst hxk; exact removeAll_of_not_mem hv
  · rfl
  · rfl

/-- Disconnecting a present neighbour `x` from a present `key` at `layer`, seen from another key
`z` at that layer. -/
theorem disconnectNodes_conns_of_ne (m : NodeMap) {key x z : Int} {layer : Nat}
    (hk : (m.find key).isSome) (hx : (m.find x).isSome) (hz : z ≠ key) :
    (m.disconnectNodes key x layer).conns z layer =
      if z = x then removeAll (m.conns z layer) key else m.conns z layer := by
  rw [disconnectNodes_conns, if_pos ⟨hk, hx, rfl⟩, if_neg hz]
  split_ifs <;> rfl

/-- One round of the range-for of `erase`, which disconnects whatever it reads. -/
theorem disconnectEach_true_succ (key : Int) (layer : Nat) {i n : Nat} {buf live : List Int}
    {m : NodeMap} {x : Int} (hx : buf.getD i 0 = x)
    (hlive : (m.disconnectNodes key x layer).conns key layer = live) :
    disconnectEach key layer (fun _ => true) i (n + 1) buf m =
      disconnectEach key layer (fun _ => true) (i + 1) n (live ++ buf.drop live.length)
        (m.disconnectNodes key x layer) := by
  rw [disconnectEach, hx]
  simp only [if_true, hlive]

/-- Reads of a key that `key` no longer lists and that no longer lists `key` change nothing, and
leave the storage as it was while the live list is a prefix of it. -/
theorem disconnectEach_unlinked (key v : Int) (layer : Nat) (drop : Int → Bool) (hvk : v ≠ key) :
    ∀ n i buf (m : NodeMap), (∀ j, i ≤ j → j < i + n → buf.getD j 0 = v) →
      m.conns key layer <+: buf → v ∉ m.conns key layer → key ∉ m.conns v layer →
      ∀ x l, (disconnectEach key layer drop i n buf m).conns x l = m.conns x l := by
  intro n
  induction n with
  | zero => intros; rfl
  | succ n ih =>
    intro i buf m hread hpre hv hk
    -- the round reads `v` and, whether it drops it or not, the lists stay as they were
    have hm : ∀ x l, (if drop v then m.disconnectNodes key v layer else m).conns x l =
        m.conns x l := by
      split
      · exact disconnectNodes_unlinked m hvk hv hk
      · exact fun _ _ => rfl
    have hbuf := List.prefix_iff_eq_append.1 hpre
    intro x l
    rw [disconnectEach, hread i le_rfl (by omega)]
    simp only [hm key layer, hbuf]
    rw [ih (i + 1) buf _ (fun j h₁ h₂ => hread j (by omega) (by omega)) (by rwa [hm])
      (by rwa [hm]) (by rwa [hm]), hm]

end NodeMap

/-- Slots of a stale tail that repeats `v` read back as `v`. -/
theorem getD_stale {pre stale : List Int} {v : Int} (h : ∀ w ∈ stale, w = v) {j : Nat}
    (h₁ : pre.length ≤ j) (h₂ : j < pre.length + stale.length) : (pre ++ stale).getD j 0 = v := by
  rw [List.getD_append_right _ _ _ _ h₁, List.getD_eq_getElem _ _ (by omega)]
  exact h _ (List.getElem_mem _)

theorem not_mem_removeAll (l : List Int) (x : Int) : x ∉ removeAll l x := by
  simp [removeAll]

theorem not_mem_of_nodup_middle {kept rest : List Int} {x : Int} (h : (kept ++ x :: rest).Nodup) :
    x ∉ kept ∧ x ∉ rest := by
  simpa only [List.mem_append, not_or] using (List.nodup_cons.1 (List.nodup_middle.1 h)).1

section Walk

variable {key : Int} {layer : Nat}

/-- The round that reads the live slot under the cursor: `x`, at the head of what is left of the
list, is disconnected, and the slot past the new live end repeats the list's last key. -/
theorem disconnectEach_live_step {kept rest stale : List Int} {x : Int} {m : NodeMap}
    (hlive : (m.disconnectNodes key x layer).conns key layer = kept ++ rest) :
    NodeMap.disconnectEach key layer (fun _ => true) kept.length
        ((x :: rest).length + stale.length) (kept ++ (x :: rest ++ stale)) m =
      NodeMap.disconnectEach key layer (fun _ => true) (kept.length + 1)
        (rest.length + stale.length) (kept ++ (rest ++ ((x :: rest).getLastD 0 :: stale)))
        (m.disconnectNodes key x layer) := by
  have hx : (kept ++ (x :: rest ++ stale)).getD kept.length 0 = x := by
    rw [List.getD_append_right _ _ _ _ le_rfl, Nat.sub_self]; rfl
  rw [show (x :: rest).length + stale.length = rest.length + stale.length + 1 by
      simp only [List.length_cons]; omega,
    NodeMap.disconnectEach_true_succ key layer hx hlive, List.length_append, List.drop_append,
    drop_length_cons, List.append_assoc]

/-- The live list after disconnecting its present member `x` from the present `key`. -/
theorem disconnectNodes_live {kept rest : List Int} {x : Int} {m : NodeMap}
    (hL : m.conns key layer = kept ++ x :: rest) (hnd : (kept ++ x :: rest).Nodup)
    (hk : (m.find key).isSome) (hx : (m.find x).isSome) :
    (m.disconnectNodes key x layer).conns key layer = kept ++ rest := by
  rw [NodeMap.disconnectNodes_conns_self, if_pos ⟨hk, hx⟩, hL,
    removeAll_middle (not_mem_of_nodup_middle hnd).1 (not_mem_of_nodup_middle hnd).2]

/-- After `disconnect_nodes(key, x)`, `x` no longer lists `key`. -/
theorem unlinked_disconnectNodes {m : NodeMap} {x : Int} (hk : (m.find key).isSome)
    (hx : (m.find x).isSome) (hxk : x ≠ key) : key ∉ (m.disconnectNodes key x layer).conns x layer := by
  rw [NodeMap.disconnectNodes_conns_of_ne m hk hx hxk, if_pos rfl]
  exact not_mem_removeAll _ _

/-- Once the cursor is past the live list and the stale slots repeat a key `v` that is already
unlinked, the rest of the loop changes nothing. -/
theorem disconnectEach_stale_tail (pre : List Int) {buf stale : List Int} {v : Int} {i : Nat} {m : NodeMap}
    (hvk : v ≠ key) (hstale : ∀ w ∈ stale, w = v) (hbuf : buf = pre ++ stale) (hi : i = pre.length)
    (hpre : m.conns key layer <+: pre) (hv : v ∉ m.conns key layer)
    (hk : key ∉ m.conns v layer) (z : Int) :
    (NodeMap.disconnectEach key layer (fun _ => true) i stale.length buf m).conns z
      layer = m.conns z layer :=
  hbuf ▸ NodeMap.disconnectEach_unlinked key v layer _ hvk _ _ _ m
    (fun _ h₁ h₂ => getD_stale hstale (hi ▸ h₁) (hi ▸ h₂)) (hpre.trans (List.prefix_append _ _))
    hv hk z layer

/-- The erased key's live list at the loop's `layer` is `kept ++ rem`, of distinct present keys
other than `key`, with the cursor at the start of `rem`; the storage holds that list and then
`stale` slots, each a copy of the last key of `rem`. The rest of the loop disconnects exactly
`visits rem`. -/
theorem disconnectEach_visits :
    ∀ (rem kept stale : List Int) (m : NodeMap), m.conns key layer = kept ++ rem →
      (kept ++ rem).Nodup → (∀ x ∈ rem, (m.find x).isSome ∧ x ≠ key) → (m.find key).isSome →
      (∀ w ∈ stale, w = rem.getLastD 0) → (rem = [] → stale = []) → ∀ z, z ≠ key →
      (NodeMap.disconnectEach key layer (fun _ => true) kept.length (rem.length + stale.length)
        (kept ++ (rem ++ stale)) m).conns z layer =
        if z ∈ visits rem then removeAll (m.conns z layer) key else m.conns z layer
  | [], kept, stale, m, _, _, _, _, _, hnil, z, _ => by
    rw [hnil rfl]; simp [NodeMap.disconnectEach]
  | [x], kept, stale, m, hL, hnd, hpres, hk, hstale, _, z, hz => by
    obtain ⟨hx, hxk⟩ := hpres x (List.mem_singleton_self x)
    have hlive := disconnectNodes_live hL hnd hk hx
    rw [disconnectEach_live_step hlive, List.length_nil, Nat.zero_add,
      disconnectEach_stale_tail (kept ++ [x]) hxk hstale (by simp) (by simp)
      (by simp [hlive]) (by simpa [hlive] using (not_mem_of_nodup_middle hnd).1)
      (unlinked_disconnectNodes hk hx hxk),
      NodeMap.disconnectNodes_conns_of_ne m hk hx hz]
    simp
  | [x, y], kept, stale, m, hL, hnd, hpres, hk, hstale, _, z, hz => by
    obtain ⟨hx, hxk⟩ := hpres x (by simp)
    obtain ⟨hy, hyk⟩ := hpres y (by simp)
    have hxy : x ≠ y := by simpa using (not_mem_of_nodup_middle hnd).2
    have hlive := disconnectNodes_live hL hnd hk hx
    have hsame := NodeMap.isSome_find_of_shape (NodeMap.disconnectNodes_shape m key x layer)
    have hk₁ := (hsame key).trans hk
    have hy₁ := (hsame y).trans hy
    have hnd₁ : (kept ++ [y]).Nodup :=
      hnd.sublist ((List.Sublist.refl kept).append (List.sublist_cons_self x [y]))
    have hlive₂ := disconnectNodes_live hlive hnd₁ hk₁ hy₁
    have hykept : y ∉ kept := (not_mem_of_nodup_middle hnd₁).1
    -- the cursor is now past the live list `kept ++ [y]`, on the stale copy of `y`
    rw [disconnectEach_live_step hlive, show [y].length + stale.length = stale.length + 1 from
      Nat.add_comm _ _, NodeMap.disconnectEach_true_succ key layer (x := y)
      (by rw [List.getD_append_right _ _ _ _ (by omega), Nat.add_sub_cancel_left]; rfl) hlive₂,
      disconnectEach_stale_tail (kept ++ [y, y]) hyk hstale (by simp) (by simp)
        (by simp [hlive₂]) (by simpa [hlive₂] using hykept) (unlinked_disconnectNodes hk₁ hy₁ hyk),
      NodeMap.disconnectNodes_conns_of_ne _ hk₁ hy₁ hz, NodeMap.disconnectNodes_conns_of_ne m hk hx hz]
    rcases eq_or_ne z x with rfl | hzx
    · simp [hxy]
    · simp [hzx]
  | x :: y :: w :: r, kept, stale, m, hL, hnd, hpres, hk, hstale, _, z, hz => by
    obtain ⟨hx, hxk⟩ := hpres x (by simp)
    have hlive := disconnectNodes_live hL hnd hk hx
    have hsame := NodeMap.isSome_find_of_shape (NodeMap.disconnectNodes_shape m key x layer)
    -- the cursor now stands on `w`: `y` slid into the slot just read
    have ih := disconnectEach_visits (w :: r) (kept ++ [y]) ((w :: r).getLastD 0 :: stale)
      (m.disconnectNodes key x layer) (by simp [hlive])
      (by simpa using hnd.sublist ((List.Sublist.refl kept).append (List.sublist_cons_self x _)))
      (fun v hv => ⟨(hsame v).trans (hpres v (by simp [hv])).1, (hpres v (by simp [hv])).2⟩)
      ((hsame key).trans hk) (by simpa using hstale) (by simp) z hz
    rw [disconnectEach_live_step hlive, show kept.length + 1 = (kept ++ [y]).length by simp,
      show (y :: w :: r).length + stale.length =
        (w :: r).length + ((w :: r).getLastD 0 :: stale).length by simp; omega,
      show kept ++ (y :: w :: r ++ ((x :: y :: w :: r).getLastD 0 :: stale)) =
        kept ++ [y] ++ (w :: r ++ ((w :: r).getLastD 0 :: stale)) by simp [List.getLastD_cons],
      ih, visits_cons_cons_cons, NodeMap.disconnectNodes_conns_of_ne m hk hx hz]
    rcases eq_or_ne z x with rfl | hzx
    · have hzw : z ∉ visits (w :: r) := fun h =>
        (not_mem_of_nodup_middle hnd).2 (List.mem_cons_of_mem y ((visits_sublist _).subset h))
      simp [hzw]
    · simp [hzx]

end Walk

/-- The layer loop of `erase`, seen from one of its layers `l`: the round at `l` disconnects
`visits` of the erased key's list there, and the rounds at the other layers leave `l` alone. -/
theorem eraseLinks_conns_visits {key : Int} {l : Nat} :
    ∀ {ls : List Nat} (m : NodeMap), l ∈ ls → ls.Nodup → (m.conns key l).Nodup →
      (∀ x ∈ m.conns key l, (m.find x).isSome ∧ x ≠ key) → (m.find key).isSome → ∀ z, z ≠ key →
      (eraseLinks key ls m).conns z l =
        if z ∈ visits (m.conns key l) then removeAll (m.conns z l) key else m.conns z l
  | l' :: ls, m, hl, hnd, hL, hpres, hk, z, hz => by
    rw [eraseLinks]
    rcases eq_or_ne l' l with rfl | hl'
    · rw [eraseLinks_conns_of_not_mem _ _ (List.nodup_cons.1 hnd).1]
      simpa only [List.length_nil, List.nil_append, List.append_nil, Nat.add_zero] using
        disconnectEach_visits (m.conns key l') [] [] m rfl hL hpres hk (by simp) (by simp) z hz
    · have hother (x : Int) := NodeMap.disconnectEach_conns_other key l' (fun _ => true) x l
        (Ne.symm hl') 0 (m.conns key l').length (m.conns key l') m
      have hsame := NodeMap.isSome_find_of_shape
        (NodeMap.disconnectEach_shape key l' (fun _ => true) 0 (m.conns key l').length
          (m.conns key l') m)
      rw [eraseLinks_conns_visits _ ((List.mem_cons.1 hl).resolve_left (Ne.symm hl'))
        (List.nodup_cons.1 hnd).2 (by rwa [hother]) (fun x hx => by
          rw [hother] at hx; exact ⟨(hsame x).trans (hpres x hx).1, (hpres x hx).2⟩)
        ((hsame key).trans hk) z hz, hother, hother]

/-- What `erase(key)` leaves in the other nodes' lists at a layer of the erased node: when its
list `L` there holds distinct present keys other than itself, exactly the nodes of `visits L` lose
their link to `key`, and every other node keeps its list. -/
theorem erase_conns_visits {env : Env} {key : Int} {idx : HNSWIndex} {n : Node}
    (hn : idx.vectors.find key = some n) {l : Nat} (hl : (l : Int) ≤ n.layer)
    (hnd : (idx.vectors.conns key l).Nodup)
    (hpres : ∀ x ∈ idx.vectors.conns key l, (idx.vectors.find x).isSome ∧ x ≠ key)
    {z : Int} (hz : z ≠ key) :
    (erase env key idx).vectors.conns z l =
      if z ∈ visits (idx.vectors.conns key l) then removeAll (idx.vectors.conns z l) key
      else idx.vectors.conns z l := by
  unfold erase
  rw [hn]
  simp only [saveToStorage_vectors, NodeMap.erase_conns, if_neg hz]
  exact eraseLinks_conns_visits _ (List.mem_range.2 (by omega)) (List.nodup_range _) hnd hpres
    (by simp [hn]) z hz

/-- In `fourInserts` node 1 lists `[2, 3, 4]` and node 3 lists 1. Erasing key 1 disconnects 2 and 4
only, so node 3 still lists the erased key. -/
theorem erase_conns_visits_skips :
    ∃ idx, Reachable Env.integral (Config.default .euclidean) idx ∧
      idx.vectors.conns 1 0 = [2, 3, 4] ∧ 1 ∈ idx.vectors.conns 3 0 ∧
      (erase Env.integral 1 idx).vectors.conns 3 0 = idx.vectors.conns 3 0 ∧
      1 ∉ (erase Env.integral 1 idx).vectors.keys := by
  refine ⟨_, reachable_fourInserts, by decide, by decide,
    (erase_conns_visits (n := ⟨1, [Double.ofIntegral false 0], 0, [[2, 3, 4]]⟩) ?_ ?_ ?_ ?_ ?_).trans
      (if_neg ?_), by decide⟩
  all_goals first | rfl | decide

end RealmHnsw
