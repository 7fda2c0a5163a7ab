import RealmHnsw.Interleaving
import RealmHnsw.Connectivity
/-!
# Writers and readers under any schedule

Threads share the index and run their critical sections under `m_mutex` one at a time
(`Threads.step`). Here any number of writer threads each run a program of `set`, `erase` and
`clear` calls, beside threads that only read. A `set` is two sections, and a reader scheduled
between them sees the key erased (`set_exposes_erased_index`); other writers may run between them
too.

`reachable_under_schedules`: when no two writers write the same key, under every schedule the
index at every read, and after every step, is one that a sequential run of writes reaches from the
start (`Reachable`), with each `set` split into an `erase` and an `insert` of a key nobody else
can have put back in between. Every invariant proved of reachable indexes therefore holds at every
read of every schedule.
-/

namespace RealmHnsw

/-- A call a writer thread makes. -/
inductive Call
  | set (key : Int) (vector : List Double) (draw : Nat)
  | erase (key : Int)
  | clear

namespace Call

/-- The critical sections of a call. -/
def sections (env : Env) : Call → List Section
  | .set key vector draw => setSections env key vector draw
  | .erase key => [.write (RealmHnsw.erase env key)]
  | .clear => [.write (RealmHnsw.clear env)]

/-- The key a call writes. -/
def key? : Call → Option Int
  | .set key .. => some key
  | .erase key => some key
  | .clear => none

/-- What the caller guarantees of a call, as `Write.Allowed` does for `set`. -/
def Allowed (env : Env) : Call → Prop
  | .set key vector _ => key ≠ env.nullKey ∧ vector.length < 2 ^ 64
  | _ => True

instance (env : Env) : DecidablePred (Allowed env)
  | .set key vector _ => inferInstanceAs (Decidable (key ≠ env.nullKey ∧ vector.length < 2 ^ 64))
  | .erase _ => isTrue trivial
  | .clear => isTrue trivial

end Call

/-- The sections a writer thread runs for its calls, in order. -/
def program (env : Env) : List Call → List Section
  | [] => []
  | c :: cs => c.sections env ++ program env cs

theorem write_of_mem_program {env : Env} :
    ∀ {cs : List Call} {sec : Section}, sec ∈ program env cs → ∃ f, sec = .write f
  | c :: cs, sec, h => by
    rcases List.mem_append.1 h with h | h
    · cases c <;> simp only [Call.sections, setSections, List.mem_cons, List.mem_singleton,
        List.not_mem_nil, or_false] at h <;> rcases h with rfl | rfl <;> exact ⟨_, rfl⟩
    · exact write_of_mem_program h

/-! ## What a write does to the keys -/

section Keys

variable {env : Env} {idx : HNSWIndex} {x : Int}

theorem mem_keys_erase (key : Int) (h : x ∈ (erase env key idx).vectors.keys) :
    x ∈ idx.vectors.keys := by
  unfold erase at h
  split at h
  · exact h
  · simp only [saveToStorage_vectors, NodeMap.keys, NodeMap.erase, List.mem_map,
      List.mem_filter] at h
    obtain ⟨n, ⟨hn, -⟩, rfl⟩ := h
    rw [← NodeMap.keys_of_shape (eraseLinks_shape key _ idx.vectors)]
    exact List.mem_map_of_mem _ hn

theorem mem_keys_insertSection {key : Int} {vector : List Double} {draw : Nat}
    (h : x ∈ (insertSection env key vector draw idx).vectors.keys) :
    x ∈ idx.vectors.keys ∨ x = key := by
  unfold insertSection at h
  split at h
  · rename_i idx' hi
    have hnew : x ∈ (idx.vectors.insertOrAssign (newNode key vector (selectLayer draw))).keys →
        x ∈ idx.vectors.keys ∨ x = key := by
      by_cases hk : key ∈ idx.vectors.keys
      · rw [NodeMap.keys_insertOrAssign_of_mem hk]; exact .inl
      · rw [NodeMap.keys_insertOrAssign_of_fresh _ _ hk, List.mem_append, List.mem_singleton]
        exact id
    rcases insert_cases hi with ⟨-, rfl⟩ | ⟨dim, -, -, ⟨-, rfl⟩ | ⟨-, curr, m, c, -, hl, rfl⟩⟩
    · exact .inl h
    · exact hnew h
    · exact hnew (by rwa [saveToStorage_vectors, NodeMap.keys_of_shape (linkLayers_shape hl)] at h)
  · exact .inl h

theorem not_mem_keys_clear : x ∉ (clear env idx).vectors.keys := by
  simp [clear, NodeMap.keys, NodeMap.empty]

end Keys

/-! ## One writer thread -/

/-- Where a writer thread stands when the index is `idx`, for the keys `own` its calls write:
between calls, with the calls `cs` still to run; or between the two sections of a `set(key, …)`
whose `erase` left `key` out of the index. -/
def WriterAt (env : Env) (own : Int → Prop) (idx : HNSWIndex) (p : List Section) : Prop :=
  ∃ cs : List Call, (∀ c ∈ cs, c.Allowed env ∧ ∀ k, c.key? = some k → own k) ∧
    (p = program env cs ∨ ∃ key vector draw, own key ∧ key ∉ idx.vectors.keys ∧
      key ≠ env.nullKey ∧ vector.length < 2 ^ 64 ∧
      p = .write (insertSection env key vector draw) :: program env cs)

section Writer

variable {env : Env} {own : Int → Prop} {idx idx' : HNSWIndex} {p : List Section}

/-- Another thread's write that puts back none of the keys this writer owns keeps its place. -/
theorem WriterAt.frame (h : WriterAt env own idx p)
    (hk : ∀ x, own x → x ∉ idx.vectors.keys → x ∉ idx'.vectors.keys) : WriterAt env own idx' p := by
  obtain ⟨cs, hcs, hp | ⟨key, vector, draw, hown, habs, hrest⟩⟩ := h
  exacts [⟨cs, hcs, .inl hp⟩, ⟨cs, hcs, .inr ⟨key, vector, draw, hown, hk key hown habs, hrest⟩⟩]

/-- A writer's next section is a write. -/
theorem WriterAt.not_read (h : WriterAt env own idx p) {rest : List Section} :
    p ≠ .read :: rest := by
  rintro rfl
  obtain ⟨cs, -, hp | ⟨_, _, _, -, -, -, -, hp⟩⟩ := h
  · obtain ⟨f, hf⟩ := write_of_mem_program (hp ▸ List.mem_cons_self _ _ : Section.read ∈ program env cs)
    cases hf
  · cases hp

end Writer

/-! ## Every schedule -/

theorem getD_set_pending (l : List (List Section)) {t : Nat} (ht : t < l.length) (x : List Section)
    (t' : Nat) : (l.set t x).getD t' [] = if t' = t then x else l.getD t' [] := by
  simp only [List.getD_eq_getElem?_getD, List.getElem?_set]
  split_ifs <;> first | rfl | omega

theorem mem_of_mem_getD {l : List (List Section)} {i : Nat} {sec : Section}
    (h : sec ∈ l.getD i []) : ∃ p ∈ l, sec ∈ p := by
  rw [List.getD_eq_getElem?_getD] at h
  cases hp : l[i]? with
  | none => rw [hp] at h; cases h
  | some p => rw [hp] at h; exact ⟨p, List.getElem?_mem hp, h⟩

theorem lt_length_of_getD_eq_cons {l : List (List Section)} {t : Nat} {sec : Section}
    {rest : List Section} (h : l.getD t [] = sec :: rest) : t < l.length := by
  by_contra hl
  rw [List.getD_eq_default _ _ (by omega)] at h
  cases h

/-- A state of a schedule, with the threads below `n` writing, thread `t` the keys `own t`, and
the others reading: the index and every read so far are reachable, each writer is between calls
or between the sections of a `set`, and readers have only reads left. -/
structure SafeRun (env : Env) (cfg : Config) (own : Nat → Int → Prop) (n : Nat) (s : Threads) :
    Prop where
  index : Reachable env cfg s.index
  reads : ∀ r ∈ s.reads, Reachable env cfg r.2
  writers : ∀ t < n, WriterAt env (own t) s.index (s.pending.getD t [])
  readers : ∀ t, n ≤ t → ∀ sec ∈ s.pending.getD t [], sec = .read

section Run

variable {env : Env} {cfg : Config} {own : Nat → Int → Prop} {n : Nat}
  (hdisj : ∀ t < n, ∀ t' < n, t ≠ t' → ∀ x, own t x → ¬ own t' x)
include hdisj

/-- A write section of writer `t` taking the index to `idx'`, where `t` ends up at `rest` and the
other writers keep their places: the new state is a `SafeRun`. -/
theorem SafeRun.write {s : Threads} {t : Nat} (h : SafeRun env cfg own n s) (ht : t < n)
    {f : HNSWIndex → HNSWIndex} {rest : List Section} (hg : s.pending.getD t [] = .write f :: rest)
    (hidx : Reachable env cfg (f s.index)) (hself : WriterAt env (own t) (f s.index) rest)
    (hkeys : ∀ x, x ∈ (f s.index).vectors.keys → x ∈ s.index.vectors.keys ∨ own t x) :
    SafeRun env cfg own n { s with index := f s.index, pending := s.pending.set t rest } := by
  have hset := getD_set_pending s.pending (lt_length_of_getD_eq_cons hg) rest
  refine ⟨hidx, h.reads, fun t' ht' => ?_, fun t' ht' => ?_⟩
  · dsimp only
    rw [hset]
    split
    · subst_vars; exact hself
    · refine (h.writers t' ht').frame fun x hx habs hx' => ?_
      rcases hkeys x hx' with hx' | hx'
      exacts [habs hx', hdisj t ht t' ht' (Ne.symm ‹_›) x hx' hx]
  · dsimp only
    rw [hset, if_neg (by omega)]
    exact h.readers t' ht'

/-- One section of any thread keeps `SafeRun`. -/
theorem SafeRun.step {s s' : Threads} {t : Nat} (h : SafeRun env cfg own n s)
    (hs : s.step t = some s') : SafeRun env cfg own n s' := by
  rcases Threads.step_cases hs with ⟨f, rest, hg, rfl⟩ | ⟨rest, hg, rfl⟩
  · -- a write: only a writer has one
    have ht : t < n := by
      by_contra ht
      cases h.readers t (by omega) _ (hg ▸ List.mem_cons_self _ _)
    obtain ⟨cs, hcs, hp | ⟨key, vector, draw, hown, habs, hnull, hlen, hp⟩⟩ := h.writers t ht
    · -- the first section of the next call
      obtain ⟨c, cs, rfl⟩ : ∃ c cs', cs = c :: cs' := by
        cases cs with
        | nil => rw [hp] at hg; cases hg
        | cons c cs => exact ⟨c, cs, rfl⟩
      obtain ⟨hallow, hown⟩ := hcs c (List.mem_cons_self _ _)
      have hcs' := fun c' hc' => hcs c' (List.mem_cons_of_mem _ hc')
      rw [hg, program] at hp
      cases c with
      | set key vector draw =>
        simp only [Call.sections, setSections, List.cons_append, List.singleton_append,
          List.cons.injEq, Section.write.injEq] at hp
        obtain ⟨rfl, rfl⟩ := hp
        exact h.write hdisj ht hg (.step (.erase key) h.index trivial rfl)
          ⟨cs, hcs', .inr ⟨key, vector, draw, hown key rfl, erase_not_mem env key s.index,
            hallow.1, hallow.2, rfl⟩⟩ fun x hx => .inl (mem_keys_erase key hx)
      | erase key =>
        simp only [Call.sections, List.singleton_append, List.cons.injEq, Section.write.injEq] at hp
        obtain ⟨rfl, rfl⟩ := hp
        exact h.write hdisj ht hg (.step (.erase key) h.index trivial rfl) ⟨cs, hcs', .inl rfl⟩
          fun x hx => .inl (mem_keys_erase key hx)
      | clear =>
        simp only [Call.sections, List.singleton_append, List.cons.injEq, Section.write.injEq] at hp
        obtain ⟨rfl, rfl⟩ := hp
        exact h.write hdisj ht hg (.step .clear h.index trivial rfl) ⟨cs, hcs', .inl rfl⟩
          fun x hx => absurd hx not_mem_keys_clear
    · -- the `insert` section of a `set` whose `erase` has run
      rw [hg, List.cons.injEq, Section.write.injEq] at hp
      obtain ⟨rfl, rfl⟩ := hp
      have hidx : Reachable env cfg (insertSection env key vector draw s.index) := by
        unfold insertSection
        split
        · exact .step (.insert key vector draw) h.index ⟨habs, hnull, hlen⟩ (Write.apply_insert_of ‹_›)
        · exact h.index
      exact h.write hdisj ht hg hidx ⟨cs, hcs, .inl rfl⟩ fun x hx =>
        (mem_keys_insertSection hx).imp_right fun e : x = key => e ▸ hown
  · -- a read: only a reader has one, and it reads a reachable index
    have ht : n ≤ t := by
      by_contra ht
      exact (h.writers t (by omega)).not_read hg
    have hset := getD_set_pending s.pending (lt_length_of_getD_eq_cons hg) rest
    refine ⟨h.index, fun r hr => ?_, fun t' ht' => ?_, fun t' ht' sec hsec => ?_⟩
    · rcases List.mem_append.1 hr with hr | hr
      · exact h.reads r hr
      · rw [List.mem_singleton.1 hr]; exact h.index
    · dsimp only
      rw [hset, if_neg (by omega)]
      exact h.writers t' ht'
    · dsimp only at hsec
      rw [hset] at hsec
      split at hsec
      · exact h.readers t ht sec (hg ▸ List.mem_cons_of_mem _ hsec)
      · exact h.readers t' ht' sec hsec

theorem SafeRun.run {s s' : Threads} (h : SafeRun env cfg own n s) :
    ∀ {ts : List Nat}, s.run ts = some s' → SafeRun env cfg own n s'
  | [], hs => by cases hs; exact h
  | t :: ts, hs => by
    obtain ⟨s₁, h₁, h₂⟩ := Option.bind_eq_some.1 hs
    exact (h.step hdisj h₁).run h₂

end Run

/-- Writers run programs of `set`, `erase` and `clear` that the caller allows, no two of them
writing the same key, beside readers, from a reachable index. Under every schedule of their
sections the index, and every index a reader read, is reachable by a sequential run of writes. -/
theorem reachable_under_schedules {env : Env} {cfg : Config} {idx : HNSWIndex}
    (hr : Reachable env cfg idx) {writers : List (List Call)}
    (hallowed : ∀ cs ∈ writers, ∀ c ∈ cs, c.Allowed env)
    (hdisj : writers.Pairwise fun cs cs' => ∀ c ∈ cs, ∀ c' ∈ cs', ∀ k, c.key? = some k → c'.key? ≠ some k)
    {readers : List (List Section)} (hread : ∀ p ∈ readers, ∀ sec ∈ p, sec = .read)
    {ts : List Nat} {s : Threads}
    (hs : (Threads.mk idx (writers.map (program env) ++ readers) []).run ts = some s) :
    Reachable env cfg s.index ∧ ∀ r ∈ s.reads, Reachable env cfg r.2 := by
  -- thread `t < writers.length` runs `program env writers[t]` and writes the keys of its calls
  let own : Nat → Int → Prop := fun t x => ∃ c ∈ writers.getD t [], c.key? = some x
  have hlen := List.length_map writers (program env)
  have hown : ∀ t < writers.length, ∀ t' < writers.length, t ≠ t' → ∀ x, own t x → ¬ own t' x := by
    rintro t ht t' ht' hne x ⟨c, hc, hcx⟩ ⟨c', hc', hcx'⟩
    rw [List.getD_eq_getElem _ _ ht] at hc
    rw [List.getD_eq_getElem _ _ ht'] at hc'
    rcases Nat.lt_or_gt_of_ne hne with hlt | hlt
    · exact List.pairwise_iff_getElem.1 hdisj t t' ht ht' hlt c hc c' hc' x hcx hcx'
    · exact List.pairwise_iff_getElem.1 hdisj t' t ht' ht hlt c' hc' c hc x hcx' hcx
  have hstart : SafeRun env cfg own writers.length ⟨idx, writers.map (program env) ++ readers, []⟩ := by
    refine ⟨hr, nofun, fun t ht => ?_, fun t ht sec hsec => ?_⟩
    · have hmem : writers.getD t [] ∈ writers := by
        rw [List.getD_eq_getElem _ _ ht]; exact List.getElem_mem _
      refine ⟨_, fun c hc => ⟨hallowed _ hmem c hc, fun k hk => ⟨c, hc, hk⟩⟩, .inl ?_⟩
      rw [List.getD_append _ _ _ _ (by omega), List.getD_eq_getElem _ _ (by omega),
        List.getElem_map, List.getD_eq_getElem _ _ ht]
    · rw [List.getD_append_right _ _ _ _ (by omega)] at hsec
      obtain ⟨p, hp, hsec⟩ := mem_of_mem_getD hsec
      exact hread p hp sec hsec
  have hend := hstart.run hown hs
  exact ⟨hend.index, hend.reads⟩

/-- Two writers, one running `set(1)` then `erase(1)` and one `set(2)`, beside a thread that reads
twice: a schedule that reads between the sections of both `set`s. -/
theorem reachable_under_schedules_two_writers :
    ∃ s, (Threads.mk (HNSWIndex.create (Config.default .euclidean))
        ([[Call.set 1 [Double.one] 0, .erase 1], [Call.set 2 [Double.one] 0]].map
          (program Env.sample) ++ [[.read, .read]]) []).run [0, 2, 1, 1, 0, 2, 0] = some s ∧
      Reachable Env.sample (Config.default .euclidean) s.index ∧
      ∀ r ∈ s.reads, Reachable Env.sample (Config.default .euclidean) r.2 := by
  have hs : (Threads.mk (HNSWIndex.create (Config.default .euclidean))
      ([[Call.set 1 [Double.one] 0, .erase 1], [Call.set 2 [Double.one] 0]].map
        (program Env.sample) ++ [[.read, .read]]) []).run [0, 2, 1, 1, 0, 2, 0] = some _ := rfl
  refine ⟨_, hs, reachable_under_schedules (.create (by decide)) (by decide)
    (List.pairwise_pair.2 fun c hc c' hc' k hk hk' => ?_) (by simp) hs⟩
  simp only [List.mem_cons, List.mem_singleton, List.not_mem_nil, or_false] at hc hc'
  rcases hc with rfl | rfl <;> subst hc' <;> cases hk <;> cases hk'

end RealmHnsw
