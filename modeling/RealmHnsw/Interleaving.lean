import RealmHnsw.Guarantees
/-!
# Readers during a `set`

Threads share the index, and each critical section under `m_mutex` runs as one atomic step
(`Threads.step`): a writer's section changes the index, a reader's reads all of it. A call of
`search_knn`, `search_radius`, `count` or `is_empty` is one reader section, and what it returns is
a function of the index it read.

`set` is not one section but two: `erase`'s, then `insert`'s (`setSections`). Run alone they do
what `set` does (`run_setSections`). A reader scheduled between them reads the index with the key
erased, and under any schedule a read sees one of three indexes: the one before the `set`, the one
after its `erase`, and the one after the `set`.
-/

namespace RealmHnsw

/-- A critical section under `m_mutex`: a writer's changes the index, a reader's reads it. -/
inductive Section
  | write (f : HNSWIndex → HNSWIndex)
  | read

/-- The section of `insert(key, value)`: a throwing `insert` leaves the index as it found it. -/
def insertSection (env : Env) (key : Int) (vector : List Double) (draw : Nat) (idx : HNSWIndex) :
    HNSWIndex :=
  match insert env key vector draw idx with
  | .ok idx' => idx'
  | .error _ => idx

/-- The sections of `set(key, value)`: `erase(key)` and `insert(key, value)` each take their own
lock. -/
def setSections (env : Env) (key : Int) (vector : List Double) (draw : Nat) : List Section :=
  [.write (erase env key), .write (insertSection env key vector draw)]

/-- The index, the sections each thread has still to run, and every read so far: the thread that
made it and the index it read. -/
structure Threads where
  index : HNSWIndex
  pending : List (List Section)
  reads : List (Nat × HNSWIndex)

/-- Thread `t` runs its next section while `m_mutex` keeps every other section out. -/
def Threads.step (s : Threads) (t : Nat) : Option Threads :=
  match s.pending.getD t [] with
  | [] => none
  | .write f :: rest => some { s with index := f s.index, pending := s.pending.set t rest }
  | .read :: rest =>
    some { s with pending := s.pending.set t rest, reads := s.reads ++ [(t, s.index)] }

/-- The threads run the sections the schedule names, one after another; `none` when the schedule
names a thread with nothing left to run. -/
def Threads.run (s : Threads) : List Nat → Option Threads
  | [] => some s
  | t :: ts => (s.step t).bind fun s => s.run ts

theorem Threads.step_cases {s s' : Threads} {t : Nat} (hs : s.step t = some s') :
    (∃ f rest, s.pending.getD t [] = .write f :: rest ∧
      s' = { s with index := f s.index, pending := s.pending.set t rest }) ∨
    (∃ rest, s.pending.getD t [] = .read :: rest ∧
      s' = { s with pending := s.pending.set t rest, reads := s.reads ++ [(t, s.index)] }) := by
  unfold Threads.step at hs
  split at hs
  · cases hs
  · cases hs
    exact .inl ⟨_, _, ‹_›, rfl⟩
  · cases hs
    exact .inr ⟨_, ‹_›, rfl⟩

theorem insertSection_erase (env : Env) (key : Int) (vector : List Double) (draw : Nat)
    (idx : HNSWIndex) :
    insertSection env key vector draw (erase env key idx) = (set env key vector draw idx).1 := by
  cases h : insert env key vector draw (erase env key idx) <;> simp [insertSection, set, h]

/-- The two sections of `set`, run alone, do what `set` does. -/
theorem run_setSections (env : Env) (key : Int) (vector : List Double) (draw : Nat)
    (idx : HNSWIndex) :
    (Threads.mk idx [setSections env key vector draw] []).run [0, 0] =
      some ⟨(set env key vector draw idx).1, [[]], []⟩ := by
  simp [Threads.run, Threads.step, setSections, insertSection_erase]

/-! ## A read between the two sections -/

/-- A reader scheduled between the sections of `set(key, value)` reads the index with `key`
erased, although `key` is indexed before the call and after it: on every reachable index holding
`key`, for every vector of the index dimension. -/
theorem set_exposes_erased_index {env : Env} {cfg : Config} {idx : HNSWIndex}
    (h : Reachable env cfg idx) {key : Int} (hk : key ∈ idx.vectors.keys) {vector : List Double}
    (hv : vector.length = idx.config.vectorDimension) (draw : Nat) :
    (Threads.mk idx [setSections env key vector draw, [.read]] []).run [0, 1, 0] =
        some ⟨(set env key vector draw idx).1, [[], []], [(1, erase env key idx)]⟩ ∧
      key ∉ (erase env key idx).vectors.keys ∧ key ∈ (set env key vector draw idx).1.vectors.keys := by
  have hi := h.inv
  have hne : vector ≠ [] := by
    rintro rfl
    exact absurd (hi.dim.2 (by rintro h0; simp [NodeMap.keys, h0] at hk)) (by simp [← hv])
  obtain ⟨idx', hins⟩ : ∃ idx', insert env key vector draw (erase env key idx) = .ok idx' :=
    insert_ok (hi.erase key).dim (validateVectorDimension_eq_ok.2 ⟨rfl, .inr (by simpa using hv)⟩) draw
  have hset : (set env key vector draw idx).1 = idx' := by
    unfold set
    rw [hins]
  refine ⟨?_, erase_not_mem env key idx, hset ▸ insert_mem_keys hne hins⟩
  simp [Threads.run, Threads.step, setSections, insertSection_erase]

theorem set_exposes_erased_index_one :
    ∃ idx, Reachable Env.sample (Config.default .euclidean) idx ∧
      (Threads.mk idx [setSections Env.sample 1 [Double.one] 0, [.read]] []).run [0, 1, 0] =
        some ⟨(set Env.sample 1 [Double.one] 0 idx).1, [[], []], [(1, erase Env.sample 1 idx)]⟩ ∧
      (1 : Int) ∉ (erase Env.sample 1 idx).vectors.keys ∧
      (1 : Int) ∈ (set Env.sample 1 [Double.one] 0 idx).1.vectors.keys := by
  have hr : Reachable Env.sample (Config.default .euclidean)
      (saveToStorage (-1) ⟨{ Config.default .euclidean with vectorDimension := 1 }, .refs [],
        NodeMap.empty.insertOrAssign (newNode 1 [Double.one] 0), some 1, 0⟩) :=
    .step (.insert 1 [Double.one] 0) (.create (by decide)) ⟨by decide, by decide, by decide⟩ rfl
  exact ⟨_, hr, @set_exposes_erased_index _ _ _ hr 1 (by decide) [Double.one] rfl 0⟩

/-! ## Every schedule -/

section

variable {env : Env} {key : Int} {vector : List Double} {draw : Nat} {idx : HNSWIndex}

/-- A state of a schedule of `set(key, value)` on `idx`, as thread 0, beside threads that only
read: the writer's next sections and the index they leave, and every read saw the index before
the call, after its `erase` or after the call. -/
structure SetRun (env : Env) (key : Int) (vector : List Double) (draw : Nat) (idx : HNSWIndex)
    (s : Threads) : Prop where
  readers : ∀ p ∈ s.pending.tail, ∀ sec ∈ p, sec = .read
  writer : (s.pending.head? = some (setSections env key vector draw) ∧ s.index = idx) ∨
    (s.pending.head? = some [.write (insertSection env key vector draw)] ∧
      s.index = erase env key idx) ∨
    (s.pending.head? = some [] ∧ s.index = (set env key vector draw idx).1)
  reads : ∀ r ∈ s.reads, r.2 = idx ∨ r.2 = erase env key idx ∨ r.2 = (set env key vector draw idx).1

theorem mem_of_getD_eq_cons {ps : List (List Section)} {i : Nat} {sec : Section}
    {rest : List Section} (h : ps.getD i [] = sec :: rest) : sec :: rest ∈ ps := by
  rw [List.getD_eq_getElem?_getD] at h
  cases hp : ps[i]? with
  | none => simp [hp] at h
  | some p =>
    rw [hp, Option.getD_some] at h
    exact h ▸ List.getElem?_mem hp

/-- One section of any thread keeps `SetRun`. -/
theorem SetRun.step {s s' : Threads} {t : Nat} (h : SetRun env key vector draw idx s)
    (hs : s.step t = some s') : SetRun env key vector draw idx s' := by
  obtain ⟨index, pending, reads⟩ := s
  obtain ⟨hr, hw, hreads⟩ := h
  have hcur : index = idx ∨ index = erase env key idx ∨ index = (set env key vector draw idx).1 := by
    rcases hw with ⟨-, h⟩ | ⟨-, h⟩ | ⟨-, h⟩
    exacts [.inl h, .inr (.inl h), .inr (.inr h)]
  obtain ⟨w, rs, rfl⟩ : ∃ w rs, pending = w :: rs := by
    rcases hw with ⟨h, -⟩ | ⟨h, -⟩ | ⟨h, -⟩ <;> exact ⟨_, List.head?_eq_some_iff.1 h⟩
  simp only [List.head?_cons, Option.some.injEq, List.tail_cons] at hw hr
  rcases Threads.step_cases hs with ⟨f, rest, hg, rfl⟩ | ⟨rest, hg, rfl⟩
  · cases t with
    | zero =>
      rw [List.getD_cons_zero] at hg
      refine ⟨hr, ?_, hreads⟩
      rcases hw with ⟨rfl, rfl⟩ | ⟨rfl, rfl⟩ | ⟨rfl, -⟩
      · simp only [setSections, List.cons.injEq, Section.write.injEq] at hg
        obtain ⟨rfl, rfl⟩ := hg
        exact .inr (.inl ⟨rfl, rfl⟩)
      · simp only [List.cons.injEq, Section.write.injEq] at hg
        obtain ⟨rfl, rfl⟩ := hg
        exact .inr (.inr ⟨rfl, insertSection_erase env key vector draw idx⟩)
      · cases hg
    | succ i =>
      rw [List.getD_cons_succ] at hg
      cases hr _ (mem_of_getD_eq_cons hg) _ (List.mem_cons_self _ _)
  · cases t with
    | zero =>
      rw [List.getD_cons_zero] at hg
      rcases hw with ⟨rfl, -⟩ | ⟨rfl, -⟩ | ⟨rfl, -⟩ <;> cases hg
    | succ i =>
      rw [List.getD_cons_succ] at hg
      refine ⟨fun p hp sec hsec => ?_, by simpa using hw, fun r hr' => ?_⟩
      · rcases List.mem_or_eq_of_mem_set (by simpa using hp) with hp | rfl
        · exact hr p hp sec hsec
        · exact hr _ (mem_of_getD_eq_cons hg) sec (List.mem_cons_of_mem _ hsec)
      · rcases List.mem_append.1 hr' with hr' | hr'
        · exact hreads r hr'
        · rw [List.mem_singleton.1 hr']
          exact hcur

theorem SetRun.run {s s' : Threads} (h : SetRun env key vector draw idx s) :
    ∀ {ts : List Nat}, s.run ts = some s' → SetRun env key vector draw idx s'
  | [], hs => by cases hs; exact h
  | t :: ts, hs => by
    obtain ⟨s₁, h₁, h₂⟩ := Option.bind_eq_some.1 hs
    exact (h.step h₁).run h₂

/-- Under any schedule of one `set(key, value)`, as thread 0, beside threads that only read, every
read sees the index before the call, the index after its `erase`, or the index after the call. -/
theorem reads_during_set (key : Int) (vector : List Double) (draw : Nat) (idx : HNSWIndex)
    {readers : List (List Section)} (hr : ∀ p ∈ readers, ∀ sec ∈ p, sec = .read) {ts : List Nat}
    {s : Threads} (hs : (Threads.mk idx (setSections env key vector draw :: readers) []).run ts = some s) :
    ∀ r ∈ s.reads, r.2 = idx ∨ r.2 = erase env key idx ∨ r.2 = (set env key vector draw idx).1 :=
  (SetRun.run (s := ⟨idx, setSections env key vector draw :: readers, []⟩)
    ⟨hr, .inl ⟨rfl, rfl⟩, nofun⟩ hs).reads

/-- On the one-node index, a reader scheduled between the two sections of `set(1, [1.0])` reads
the index with key 1 erased. -/
theorem reads_during_set_one :
    ∃ s, (Threads.mk (oneNode .euclidean) [setSections Env.integral 1 [Double.one] 0, [.read]] []).run
        [0, 1, 0] = some s ∧ s.reads = [(1, erase Env.integral 1 (oneNode .euclidean))] ∧
      ∀ r ∈ s.reads, r.2 = oneNode .euclidean ∨ r.2 = erase Env.integral 1 (oneNode .euclidean) ∨
        r.2 = (set Env.integral 1 [Double.one] 0 (oneNode .euclidean)).1 :=
  ⟨_, rfl, rfl, @reads_during_set Env.integral 1 [Double.one] 0 _ [[.read]] (by simp) [0, 1, 0] _ rfl⟩

end

end RealmHnsw
