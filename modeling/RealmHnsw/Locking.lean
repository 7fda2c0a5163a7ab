import RealmHnsw.Index
/-!
# The locking of `m_mutex`

`m_mutex` is a `std::shared_mutex`, which is not recursive: a thread that holds it, in either mode,
and locks it again has undefined behaviour, in practice a deadlock. Every public call takes it once
around its body (`locked`). A call is modelled by the lock events it performs, run from the calling
thread's view of the mutex (`LockEvent.next`); `LockSafe` says that the call never locks what it
holds and ends holding nothing.

`insert_bulk`, `insert_bulk_list` and `rebuild` hold the writer lock and call `insert`, which takes
it again; `search_radius` holds the reader lock and calls `search_knn`, which takes it again. Each
of them is `LockSafe` exactly when it makes no such call.
-/

namespace RealmHnsw

/-- The two modes of `std::shared_mutex`: `std::shared_lock` and `std::unique_lock`. -/
inductive LockMode
  | shared
  | exclusive
deriving DecidableEq, Repr

/-- A call locks `m_mutex`, or unlocks it when its lock guard goes out of scope. -/
inductive LockEvent
  | acquire (mode : LockMode)
  | release (mode : LockMode)
deriving DecidableEq, Repr

/-- The calling thread's hold on `m_mutex` after one more event; `none` for undefined behaviour: a
lock of a mutex it holds, in either mode, or an unlock of what it does not hold. -/
def LockEvent.next : Option LockMode → LockEvent → Option (Option LockMode)
  | none, .acquire mode => some (some mode)
  | some _, .acquire _ => none
  | some held, .release mode => if held = mode then some none else none
  | none, .release _ => none

/-- The thread's hold after a sequence of events, or `none` if one of them is undefined. -/
def runLocks (held : Option LockMode) : List LockEvent → Option (Option LockMode)
  | [] => some held
  | e :: es => (e.next held).bind fun held => runLocks held es

/-- A call's events lock only what the thread does not hold, and leave it holding nothing. -/
def LockSafe (es : List LockEvent) : Prop := runLocks none es = some none

instance (es : List LockEvent) : Decidable (LockSafe es) := inferInstanceAs (Decidable (_ = _))

/-- The events of a body guarded by `std::shared_lock lock(m_mutex)` or
`std::unique_lock lock(m_mutex)`. -/
def locked (mode : LockMode) (body : List LockEvent) : List LockEvent :=
  .acquire mode :: (body ++ [.release mode])

/-! ## The calls -/

/-- `insert`, `erase` and `clear` hold the writer lock around bodies that lock nothing else. -/
def insertLocks : List LockEvent := locked .exclusive []

def eraseLocks : List LockEvent := locked .exclusive []

def clearLocks : List LockEvent := locked .exclusive []

/-- `search_knn`, `count` and `is_empty` hold the reader lock around bodies that lock nothing else. -/
def searchKnnLocks : List LockEvent := locked .shared []

def countLocks : List LockEvent := locked .shared []

def isEmptyLocks : List LockEvent := locked .shared []

/-- `set` takes no lock of its own: it calls `erase`, then `insert`. -/
def setLocks : List LockEvent := eraseLocks ++ insertLocks

/-- The lock events of the loop of `insert_bulk`, `insert_bulk_list` and `rebuild`: `insert` of
each key in order, with the vector `get_vector_for_key` reads from the table (`row`) and the `i`-th
layer draw, until a call throws. -/
def insertEachLocks (env : Env) (row : Int → List Double) :
    (Nat → Nat) → List Int → HNSWIndex → List LockEvent
  | _, [], _ => []
  | draw, key :: keys, idx =>
    insertLocks ++
      match insert env key (row key) (draw 0) idx with
      | .ok idx => insertEachLocks env row (fun i => draw (i + 1)) keys idx
      | .error _ => []

/-- `ObjKey(keys->get(i) + key_offset)`: a `uint64_t` sum, as an `int64_t`. -/
def bulkKey (key keyOffset : Nat) : Int := int64OfSize (key + keyOffset)

/-- The lock events of `insert_bulk(keys, key_offset, num_values, values)`, with `keys` the first
`num_values` entries of the key array; `insert` reads each row's vector from the table, not from
`values`. Only the events are modelled: with a key, the first `insert` locks `m_mutex` again, and
the call never gets past it. -/
def insertBulkLocks (env : Env) (row : Int → List Double) (draw : Nat → Nat) (keys : List Nat)
    (keyOffset : Nat) (idx : HNSWIndex) : List LockEvent :=
  locked .exclusive (insertEachLocks env row draw (keys.map (bulkKey · keyOffset)) idx)

/-- The lock events of `insert_bulk_list(keys, key_offset, num_values, ref_array)`: the loop of
`insert_bulk`; each call passes `Mixed()`, which `insert` does not read. -/
def insertBulkListLocks (env : Env) (row : Int → List Double) (draw : Nat → Nat) (keys : List Nat)
    (keyOffset : Nat) (idx : HNSWIndex) : List LockEvent :=
  insertBulkLocks env row draw keys keyOffset idx

/-- The lock events of `rebuild()`: the keys of the nodes in map order, an empty map and entry
point, then `insert(n.obj_key, Mixed())` for each key. On a non-empty index the first `insert`
locks `m_mutex` again after `m_vectors` was cleared, and the call never gets past it. -/
def rebuildLocks (env : Env) (row : Int → List Double) (draw : Nat → Nat) (idx : HNSWIndex) :
    List LockEvent :=
  locked .exclusive <| insertEachLocks env row draw idx.vectors.keys
    { idx with vectors := .empty, entryPoint := none, entryPointLayer := -1 }

/-- The lock events of `search_radius(query_vector, max_distance)`: its reader lock, and within it
the reader lock of `search_knn` once the early returns and `validate_vector_dimension` are passed. -/
def searchRadiusLocks (env : Env) (idx : HNSWIndex) (query : List Double) (maxDistance : Double) :
    List LockEvent :=
  locked .shared <|
    if idx.vectors.nodes.isEmpty || idx.entryPoint.isNone then []
    else if env.fpu.lt maxDistance Double.zero then []
    else match validateVectorDimension idx.config.vectorDimension query with
      | .ok _ => searchKnnLocks
      | .error _ => []

/-! ## Calls that lock once, and calls that lock again -/

theorem lockSafe_locked_nil (mode : LockMode) : LockSafe (locked mode []) := by
  cases mode <;> rfl

/-- A call that locks `m_mutex` again inside its own guard is not `LockSafe`. -/
theorem not_lockSafe_locked_acquire (mode mode' : LockMode) (es : List LockEvent) :
    ¬ LockSafe (locked mode (.acquire mode' :: es)) :=
  nofun

/-- Every call that locks once is `LockSafe`, and so is `set`, whose two locks come one after
the other: each `insert` takes the writer lock exactly once. -/
theorem lockSafe_single_calls :
    LockSafe insertLocks ∧ LockSafe eraseLocks ∧ LockSafe clearLocks ∧ LockSafe setLocks ∧
      LockSafe searchKnnLocks ∧ LockSafe countLocks ∧ LockSafe isEmptyLocks := by
  decide

/-- A loop of `insert` calls under the writer lock is `LockSafe` exactly when it has no key: the
first call locks again. -/
theorem lockSafe_insertEachLocks_iff (env : Env) (row : Int → List Double) (draw : Nat → Nat)
    (keys : List Int) (idx : HNSWIndex) :
    LockSafe (locked .exclusive (insertEachLocks env row draw keys idx)) ↔ keys = [] := by
  cases keys with
  | nil => exact iff_of_true (lockSafe_locked_nil _) rfl
  | cons key keys => exact iff_of_false (not_lockSafe_locked_acquire _ _ _) (List.cons_ne_nil _ _)

/-- `search_radius` is `LockSafe` exactly when it returns before its `search_knn`: on an empty
index or one with no entry point, for a negative `max_distance`, or when validation throws. -/
theorem lockSafe_searchRadiusLocks_iff (env : Env) (idx : HNSWIndex) (query : List Double)
    (maxDistance : Double) :
    LockSafe (searchRadiusLocks env idx query maxDistance) ↔
      idx.vectors.nodes = [] ∨ idx.entryPoint = none ∨ env.fpu.lt maxDistance Double.zero ∨
        ∃ e, validateVectorDimension idx.config.vectorDimension query = .error e := by
  unfold searchRadiusLocks
  by_cases h₁ : idx.vectors.nodes = [] ∨ idx.entryPoint = none
  · rw [if_pos (by rcases h₁ with h | h <;> simp [h])]
    exact iff_of_true (lockSafe_locked_nil _) (h₁.elim .inl (.inr ∘ .inl))
  · rw [if_neg (by simpa [Option.isNone_iff_eq_none] using h₁)]
    by_cases h₂ : env.fpu.lt maxDistance Double.zero
    · rw [if_pos h₂]
      exact iff_of_true (lockSafe_locked_nil _) (.inr (.inr (.inl h₂)))
    · rw [if_neg h₂]
      cases validateVectorDimension idx.config.vectorDimension query with
      | ok d =>
        refine iff_of_false (not_lockSafe_locked_acquire _ _ _) ?_
        rintro (h | h | h | ⟨e, ⟨⟩⟩)
        exacts [h₁ (.inl h), h₁ (.inr h), h₂ h]
      | error e => exact iff_of_true (lockSafe_locked_nil _) (.inr (.inr (.inr ⟨e, rfl⟩)))

/-- `insert_bulk` and `insert_bulk_list` are `LockSafe` only with no key, `rebuild` only on an
empty index, and `search_radius` only when it returns before its `search_knn`: on an empty index
or one with no entry point, for a negative `max_distance`, or when validation throws. -/
theorem nested_lock_of_inner_call (env : Env) (row : Int → List Double) (draw : Nat → Nat)
    (idx : HNSWIndex) :
    (∀ keys keyOffset, LockSafe (insertBulkLocks env row draw keys keyOffset idx) ↔ keys = []) ∧
      (∀ keys keyOffset, LockSafe (insertBulkListLocks env row draw keys keyOffset idx) ↔ keys = []) ∧
      (LockSafe (rebuildLocks env row draw idx) ↔ idx.vectors.nodes = []) ∧
      (∀ query maxDistance, LockSafe (searchRadiusLocks env idx query maxDistance) ↔
        idx.vectors.nodes = [] ∨ idx.entryPoint = none ∨ env.fpu.lt maxDistance Double.zero ∨
          ∃ e, validateVectorDimension idx.config.vectorDimension query = .error e) := by
  have bulk : ∀ keys keyOffset, LockSafe (insertBulkLocks env row draw keys keyOffset idx) ↔ keys = [] :=
    fun keys keyOffset => (lockSafe_insertEachLocks_iff _ _ _ _ _).trans List.map_eq_nil_iff
  exact ⟨bulk, bulk, (lockSafe_insertEachLocks_iff _ _ _ _ _).trans List.map_eq_nil_iff,
    lockSafe_searchRadiusLocks_iff env idx⟩

end RealmHnsw
