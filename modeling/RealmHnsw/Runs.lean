import RealmHnsw.Linking
import RealmHnsw.Ieee
/-!
# Runs of the index

A run starts from an index constructed with a configuration `cfg` and applies writes one after
another: the `SearchIndex` calls `insert`, `set`, `erase` and `clear`, and closing the index and
opening it again on its persisted root with `cfg`. Each call is one critical section under
`m_mutex`, except `set`, whose two sections are taken together here (`RealmHnsw.Interleaving`
splits them).

The table calls `insert` for a row the index does not hold yet and `set` for a row whose vector
changes; a row key is a real `ObjKey`, never the null one. The layer draws are arbitrary. A write
that throws leaves the caller the index as the call left it: unchanged after `insert`, erased of
the key after `set`. The last section builds two small indexes by such runs, for the concrete
runs of later modules.
-/

namespace RealmHnsw

/-- A write to the index. -/
inductive Write
  | insert (key : Int) (vector : List Double) (draw : Nat)
  | set (key : Int) (vector : List Double) (draw : Nat)
  | erase (key : Int)
  | clear
  | reopen

/-- What the caller of each write guarantees: `insert` is for a key the index does not hold, a
key is not the null `ObjKey()`, and a vector has a `size_t` length. -/
def Write.Allowed (env : Env) (idx : HNSWIndex) : Write → Prop
  | .insert key vector _ => key ∉ idx.vectors.keys ∧ key ≠ env.nullKey ∧ vector.length < 2 ^ 64
  | .set key vector _ => key ≠ env.nullKey ∧ vector.length < 2 ^ 64
  | .erase _ => True
  | .clear => True
  | .reopen => True

/-- An `insert`: the writes of an insert-only run. -/
def Write.IsInsert : Write → Prop
  | .insert .. => True
  | _ => False

/-- What a write leaves: `.ok (idx', raised)` when the caller holds `idx'` after the call, which
raised `raised`, if anything; `.error e` when the call threw `e` and left no new index. An
`insert` throws before it changes anything. `set` throws what its `insert` throws, after its
`erase`, whose work it keeps. Reopening throws when the constructor's load does. -/
def Write.apply (env : Env) (cfg : Config) (idx : HNSWIndex) :
    Write → Except HnswError (HNSWIndex × Option HnswError)
  | .insert key vector draw => (·, none) <$> RealmHnsw.insert env key vector draw idx
  | .set key vector draw => .ok (RealmHnsw.set env key vector draw idx)
  | .erase key => .ok (RealmHnsw.erase env key idx, none)
  | .clear => .ok (RealmHnsw.clear env idx, none)
  | .reopen => (·, none) <$> HNSWIndex.open env.nullKey idx.array cfg

/-- The indexes reachable from a fresh index with configuration `cfg`, whose `size_t` fields are
`size_t` values. -/
inductive Reachable (env : Env) (cfg : Config) : HNSWIndex → Prop
  | create : cfg.Fits → Reachable env cfg (HNSWIndex.create cfg)
  | step {idx idx' : HNSWIndex} {raised : Option HnswError} (w : Write) : Reachable env cfg idx →
      w.Allowed env idx → w.apply env cfg idx = .ok (idx', raised) → Reachable env cfg idx'

/-- The indexes a run of writes of kind `P` reaches from a fresh index. -/
inductive ReachableBy (env : Env) (cfg : Config) (P : Write → Prop) : HNSWIndex → Prop
  | create : cfg.Fits → ReachableBy env cfg P (HNSWIndex.create cfg)
  | step {idx idx' : HNSWIndex} {raised : Option HnswError} (w : Write) : P w →
      ReachableBy env cfg P idx → w.Allowed env idx → w.apply env cfg idx = .ok (idx', raised) →
      ReachableBy env cfg P idx'

section Apply

variable {env : Env} {cfg : Config} {idx idx' : HNSWIndex} {raised : Option HnswError}

theorem map_eq_ok {ε α β : Type} {x : Except ε α} {f : α → β} {r : β} (h : f <$> x = .ok r) :
    ∃ a, x = .ok a ∧ f a = r := by
  cases x with
  | error e => cases h
  | ok a => exact ⟨a, rfl, Except.ok.inj h⟩

theorem Write.apply_insert {key : Int} {vector : List Double} {draw : Nat}
    (h : (Write.insert key vector draw).apply env cfg idx = .ok (idx', raised)) :
    RealmHnsw.insert env key vector draw idx = .ok idx' ∧ raised = none := by
  obtain ⟨a, ha, he⟩ := map_eq_ok h
  cases he
  exact ⟨ha, rfl⟩

/-- A step of an insert-only run is an `insert` that returned. -/
theorem Write.IsInsert.apply {w : Write} (hw : w.IsInsert)
    (h : w.apply env cfg idx = .ok (idx', raised)) :
    ∃ key vector draw, w = .insert key vector draw ∧
      RealmHnsw.insert env key vector draw idx = .ok idx' := by
  cases w with
  | insert key vector draw => exact ⟨key, vector, draw, rfl, (Write.apply_insert h).1⟩
  | _ => exact (hw : False).elim

theorem Write.apply_insert_of {key : Int} {vector : List Double} {draw : Nat}
    (h : RealmHnsw.insert env key vector draw idx = .ok idx') :
    (Write.insert key vector draw).apply env cfg idx = .ok (idx', none) := by
  rw [Write.apply, h]
  rfl

theorem Write.apply_set {key : Int} {vector : List Double} {draw : Nat}
    (h : (Write.set key vector draw).apply env cfg idx = .ok (idx', raised)) :
    RealmHnsw.set env key vector draw idx = (idx', raised) :=
  Except.ok.inj h

theorem Write.apply_set_fst {key : Int} {vector : List Double} {draw : Nat}
    (h : (Write.set key vector draw).apply env cfg idx = .ok (idx', raised)) :
    idx' = (RealmHnsw.set env key vector draw idx).1 :=
  congrArg Prod.fst (Write.apply_set h).symm

theorem Write.apply_reopen (h : Write.reopen.apply env cfg idx = .ok (idx', raised)) :
    HNSWIndex.open env.nullKey idx.array cfg = .ok idx' ∧ raised = none := by
  obtain ⟨a, ha, he⟩ := map_eq_ok h
  cases he
  exact ⟨ha, rfl⟩

end Apply

/-- An environment to run the model on: a floating-point unit that orders nothing, and `-1` for
the null key. -/
def Env.sample : Env :=
  ⟨⟨fun a _ => a, fun a _ => a, fun a _ => a, fun a _ => a, id, id, fun _ _ => false,
    fun _ _ => false⟩, -1⟩

theorem ReachableBy.reachable {env : Env} {cfg : Config} {P : Write → Prop} {idx : HNSWIndex}
    (h : ReachableBy env cfg P idx) : Reachable env cfg idx := by
  induction h with
  | create hc => exact .create hc
  | step w _ _ ha hs ih => exact .step w ih ha hs

/-! ## Small indexes to run the model on -/

/-- The index one insert of key `1` with vector `[1.0]` at layer 0 gives. -/
def oneNode (metric : DistanceMetric) : HNSWIndex :=
  saveToStorage (-1) ⟨{ Config.default metric with vectorDimension := 1 }, .refs [],
    NodeMap.empty.insertOrAssign (newNode 1 [Double.one] 0), some 1, 0⟩

theorem reachable_oneNode (metric : DistanceMetric) :
    Reachable Env.integral (Config.default metric) (oneNode metric) := by
  cases metric <;>
    exact .step (.insert 1 [Double.one] 0) (.create (by decide)) ⟨by decide, by decide, by decide⟩ rfl

/-- Keys 1 to 4 at `0.0`, `10.0`, `20.0` and `30.0`, all drawn to layer 0, inserted in that order
into an index of the default configuration: the index the fourth `insert` leaves. -/
def fourInserts : HNSWIndex :=
  saveToStorage (-1) ⟨{ (Config.default .euclidean).normalize with vectorDimension := 1 }, .refs [],
    (((NodeMap.empty.insertOrAssign ⟨1, [Double.ofIntegral false 0], 0, [[2, 3, 4]]⟩).insertOrAssign
      ⟨2, [Double.ofIntegral false 10], 0, [[1, 3, 4]]⟩).insertOrAssign
      ⟨3, [Double.ofIntegral false 20], 0, [[2, 1, 4]]⟩).insertOrAssign
      ⟨4, [Double.ofIntegral false 30], 0, [[3, 2, 1]]⟩, some 1, 0⟩

set_option maxRecDepth 100000 in
theorem reachable_fourInserts : Reachable Env.integral (Config.default .euclidean) fourInserts :=
  .step (.insert 4 [Double.ofIntegral false 30] 0)
    (.step (.insert 3 [Double.ofIntegral false 20] 0)
      (.step (.insert 2 [Double.ofIntegral false 10] 0)
        (.step (.insert 1 [Double.ofIntegral false 0] 0) (.create (by decide))
          ⟨by decide, by decide, by decide⟩ rfl)
        ⟨by decide, by decide, by decide⟩ rfl)
      ⟨by decide, by decide, by decide⟩ rfl)
    ⟨by decide, by decide, by decide⟩ rfl

end RealmHnsw
