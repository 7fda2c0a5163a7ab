import RealmHnsw.Basic
/-!
# `std::priority_queue` as libstdc++ runs it

A `std::priority_queue<T, std::vector<T>, Compare>` keeps its elements in a vector `c` laid out as
a binary heap: the parent of position `i > 0` is `(i - 1) / 2`. `push(x)` is `c.push_back(x)` and
`std::push_heap`, `pop()` is `std::pop_heap` and `c.pop_back()`, and `top()` is `c.front()`. The
two heap algorithms are libstdc++'s `__push_heap` and `__adjust_heap` (`bits/stl_heap.h`), which
move a hole rather than swap elements; `Heap.siftUp` and `Heap.adjust` make the same moves.

`comp a b` says that `a` goes below `b`: `a < b` for the max-heap of `std::less`. When `comp` is a
strict weak order on the elements (`Heap.StrictWeak`), `push` and `pop` keep the vector a heap
(`Heap.IsHeap.push`, `Heap.IsHeap.pop`) and `top()` is an element nothing goes above
(`Heap.IsHeap.top_max`). `<` on doubles is not one once a NaN is among them: NaN goes neither below nor
above anything, and a sift that moves a parent past a NaN can leave it above an element it goes
below.
-/

namespace RealmHnsw

namespace Heap

variable {α : Type} (comp : α → α → Bool)

/-- The position of the parent of position `i > 0`. -/
def parent (i : Nat) : Nat := (i - 1) / 2

/-- `std::__push_heap(first, hole, 0, value, comp)`: while the hole is not the front and its
parent goes below `value`, move the parent down into the hole; then put `value` in the hole.
The hole rises at each move, so `hole` units of `fuel` are enough. -/
def siftUp (value : α) : Nat → Nat → List α → List α
  | 0, hole, q => q.set hole value
  | fuel + 1, hole, q =>
    if 0 < hole ∧ comp (q.getD (parent hole) value) value then
      siftUp value fuel (parent hole) (q.set hole (q.getD (parent hole) value))
    else q.set hole value

/-- The end of `std::__adjust_heap`: when `len` is even and the hole is the last parent, its only
child moves up into it; then `value` is sifted up from the hole. -/
def adjustLast (len : Nat) (value : α) (hole : Nat) (q : List α) : List α :=
  if len % 2 = 0 ∧ hole = (len - 2) / 2 then
    siftUp comp value (2 * hole + 1) (2 * hole + 1) (q.set hole (q.getD (2 * hole + 1) value))
  else siftUp comp value hole hole q

/-- `std::__adjust_heap(first, hole, len, value, comp)`: while the hole has two children, move into
it the right child, or the left one when the right goes below it; then `adjustLast`. The hole goes
down at each move, so `len` units of `fuel` are enough. -/
def adjust (len : Nat) (value : α) : Nat → Nat → List α → List α
  | 0, hole, q => adjustLast comp len value hole q
  | fuel + 1, hole, q =>
    if hole < (len - 1) / 2 then
      let second := 2 * (hole + 1)
      let child :=
        if comp (q.getD second value) (q.getD (second - 1) value) then second - 1 else second
      adjust len value fuel child (q.set hole (q.getD child value))
    else adjustLast comp len value hole q

/-- `pq.push(x)`: `c.push_back(x)`, then `std::push_heap` sifts `x` up from the back. -/
def push (q : List α) (x : α) : List α := siftUp comp x q.length q.length (q ++ [x])

/-- `pq.pop()`: for two elements or more, `std::pop_heap` moves the front to the back and
`__adjust_heap` fills the front's hole with what was at the back; `c.pop_back()` then drops the old
front. -/
def pop (q : List α) : List α :=
  match q.getLast? with
  | some v => if 1 < q.length then adjust comp (q.length - 1) v (q.length - 1) 0 q.dropLast else []
  | none => []

/-! ## What the sifts keep of the elements -/

variable {comp}

@[simp] theorem length_siftUp (value : α) :
    ∀ fuel hole (q : List α), (siftUp comp value fuel hole q).length = q.length
  | 0, _, _ => List.length_set _ _ _
  | fuel + 1, hole, q => by
    unfold siftUp
    split
    · rw [length_siftUp, List.length_set]
    · exact List.length_set _ _ _

@[simp] theorem length_adjustLast (len : Nat) (value : α) (hole : Nat) (q : List α) :
    (adjustLast comp len value hole q).length = q.length := by
  unfold adjustLast
  split <;> simp

@[simp] theorem length_adjust (len : Nat) (value : α) :
    ∀ fuel hole (q : List α), (adjust comp len value fuel hole q).length = q.length
  | 0, _, _ => length_adjustLast _ _ _ _
  | fuel + 1, hole, q => by
    unfold adjust
    split
    · rw [length_adjust, List.length_set]
    · exact length_adjustLast _ _ _ _

theorem length_push (q : List α) (x : α) : (push comp q x).length = q.length + 1 := by
  simp [push]

theorem length_pop (q : List α) : (pop comp q).length = q.length - 1 := by
  unfold pop
  split
  · split
    · simp
    · simp only [List.length_nil]; omega
  · rename_i h
    simp [List.getLast?_eq_none_iff.1 h]

@[simp] theorem pop_singleton (x : α) : pop comp [x] = [] := rfl

section Perm

variable [DecidableEq α]

/-- Moving the element at `j` into `i` and then putting `v` at `j` gives the elements of `q` with
`v` at `i`. -/
theorem set_getD_set_perm {q : List α} {i j : Nat} (hi : i < q.length) (hj : j < q.length)
    (d v : α) : ((q.set i (q.getD j d)).set j v).Perm (q.set i v) := by
  by_cases hij : i = j
  · subst hij
    rw [List.set_set]
  · rw [List.getD_eq_getElem _ _ hj, List.perm_iff_count]
    intro x
    rw [List.count_set _ _ _ _ (by simpa using hj), List.count_set _ _ _ _ hi,
      List.count_set _ _ _ _ hi, List.getElem_set_ne hij]
    omega

theorem siftUp_perm (value : α) :
    ∀ fuel hole (q : List α), hole < q.length → (siftUp comp value fuel hole q).Perm (q.set hole value)
  | 0, _, _, _ => .refl _
  | fuel + 1, hole, q, h => by
    unfold siftUp
    split
    · rename_i hm
      have hp : parent hole < q.length := by unfold parent; omega
      exact (siftUp_perm value fuel _ _ (by simpa using hp)).trans (set_getD_set_perm h hp _ _)
    · exact .refl _

theorem adjustLast_perm (len : Nat) (value : α) (hole : Nat) (q : List α) (hlen : q.length = len)
    (h : hole < len) : (adjustLast comp len value hole q).Perm (q.set hole value) := by
  unfold adjustLast
  split
  · have hc : 2 * hole + 1 < q.length := by omega
    exact (siftUp_perm value _ _ _ (by simpa using hc)).trans (set_getD_set_perm (by omega) hc _ _)
  · exact siftUp_perm value _ _ _ (by omega)

theorem adjust_perm (len : Nat) (value : α) :
    ∀ fuel hole (q : List α), q.length = len → hole < len →
      (adjust comp len value fuel hole q).Perm (q.set hole value)
  | 0, hole, q, hlen, h => adjustLast_perm len value hole q hlen h
  | fuel + 1, hole, q, hlen, h => by
    unfold adjust
    split
    · rename_i hm
      dsimp only
      have hc : (if comp (q.getD (2 * (hole + 1)) value) (q.getD (2 * (hole + 1) - 1) value) then
          2 * (hole + 1) - 1 else 2 * (hole + 1)) < q.length := by split <;> omega
      exact (adjust_perm len value fuel _ _ (by simpa using hlen) (by omega)).trans
        (set_getD_set_perm (by omega) hc _ _)
    · exact adjustLast_perm len value hole q hlen h

/-- `push` adds its element to the others. -/
theorem push_perm (q : List α) (x : α) : (push comp q x).Perm (x :: q) := by
  refine (siftUp_perm x _ _ _ (by simp)).trans ?_
  rw [List.set_append_right _ _ (le_refl _), Nat.sub_self, List.set_cons_zero]
  exact List.perm_append_singleton x q

/-- `pop` removes the front. -/
theorem pop_perm : ∀ q : List α, (pop comp q).Perm q.tail
  | [] => .refl _
  | [_] => .refl _
  | a :: b :: rest => by
    obtain ⟨v, hv⟩ : ∃ v, (b :: rest).getLast? = some v := ⟨_, List.getLast?_eq_getLast _ (by simp)⟩
    have hd := List.dropLast_append_getLast? v hv
    simp only [pop, List.getLast?_cons_cons, hv, List.length_cons]
    rw [if_pos (by omega)]
    refine (adjust_perm _ _ _ _ _ (by simp) (by omega)).trans ?_
    rw [List.dropLast_cons_of_ne_nil (List.cons_ne_nil b rest), List.set_cons_zero]
    exact (List.perm_append_singleton v _).symm.trans (by rw [hd]; exact .refl _)

theorem mem_push {q : List α} {x y : α} : y ∈ push comp q x ↔ y = x ∨ y ∈ q :=
  (push_perm q x).mem_iff.trans List.mem_cons

theorem pop_subset (q : List α) : pop comp q ⊆ q := fun _ h =>
  List.mem_of_mem_tail ((pop_perm q).subset h)

/-- `pop` keeps every element but `top()`. -/
theorem mem_pop_of_ne {q : List α} {t x : α} (ht : q.head? = some t) (hx : x ∈ q) (hne : x ≠ t) :
    x ∈ pop comp q := by
  obtain ⟨rest, rfl⟩ : ∃ rest, q = t :: rest := List.head?_eq_some_iff.1 ht
  exact (pop_perm _).mem_iff.2 ((List.mem_cons.1 hx).resolve_left hne)

end Perm

/-! ## The heap order -/

variable (comp)

/-- `comp` orders the elements `S` admits strictly and weakly: no element goes below one that goes
below it, and when `a` goes below `c`, every `b` goes above `a` or below `c`. -/
structure StrictWeak (S : α → Prop) : Prop where
  asymm : ∀ {a b}, S a → S b → comp a b = true → comp b a = false
  split : ∀ {a b c}, S a → S b → S c → comp a c = true → comp a b = true ∨ comp b c = true

/-- The vector is a heap: no parent goes below its child. -/
def IsHeap (q : List α) : Prop :=
  ∀ i a b, 0 < i → q[parent i]? = some a → q[i]? = some b → comp a b = false

/-- A heap but for a hole at `hole`: every parent and child the hole is not one of are in order,
and no child of the hole goes above the hole's parent. -/
structure Holey (q : List α) (hole : Nat) : Prop where
  except : ∀ i a b, 0 < i → i ≠ hole → parent i ≠ hole →
    q[parent i]? = some a → q[i]? = some b → comp a b = false
  grand : ∀ i a b, 0 < i → parent i = hole → 0 < hole →
    q[parent hole]? = some a → q[i]? = some b → comp a b = false

/-- No child of the hole goes above `value`. -/
def Below (q : List α) (hole : Nat) (value : α) : Prop :=
  ∀ i b, 0 < i → parent i = hole → q[i]? = some b → comp value b = false

variable {comp} {S : α → Prop}

theorem parent_lt {i : Nat} (h : 0 < i) : parent i < i := by unfold parent; omega

/-- The children of `hole` are `2 * hole + 1` and `2 * hole + 2`. -/
theorem child_of_parent {i hole : Nat} (h : 0 < i) (hp : parent i = hole) :
    i = 2 * hole + 1 ∨ i = 2 * hole + 2 := by unfold parent at hp; omega

theorem StrictWeak.irrefl (hw : StrictWeak comp S) {a : α} (ha : S a) : comp a a = false := by
  cases h : comp a a
  · rfl
  · simpa [h] using hw.asymm ha ha h

theorem StrictWeak.trans (hw : StrictWeak comp S) {a b c : α} (ha : S a) (hb : S b) (hc : S c)
    (hab : comp a b = true) (hbc : comp b c = true) : comp a c = true :=
  (hw.split ha hc hb hab).resolve_right fun h => by simp [hw.asymm hb hc hbc] at h

theorem StrictWeak.not_trans (hw : StrictWeak comp S) {a b c : α} (ha : S a) (hb : S b) (hc : S c)
    (hab : comp a b = false) (hbc : comp b c = false) : comp a c = false := by
  cases h : comp a c
  · rfl
  · rcases hw.split ha hb hc h with h' | h' <;> simp_all

/-- A leaf has no child to order. -/
theorem below_of_leaf {q : List α} {hole : Nat} (value : α) (h : q.length ≤ 2 * hole + 1) :
    Below comp q hole value := fun i b hi hp hb => by
  have := child_of_parent hi hp
  rw [List.getElem?_eq_none (by omega)] at hb
  cases hb

theorem getElem?_set_of_lt {q : List α} {hole : Nat} (x : α) (h : hole < q.length) (i : Nat) :
    (q.set hole x)[i]? = if i = hole then some x else q[i]? := by
  rw [List.getElem?_set]
  by_cases hi : i = hole
  · simp [hi, h]
  · simp [hi, Ne.symm hi]

/-- The exit of `__push_heap`: `value` in the hole makes a heap, once the hole's parent, if any,
does not go below it. -/
theorem Holey.finish {q : List α} {hole : Nat} {v : α} (hh : Holey comp q hole)
    (hb : Below comp q hole v) (hlt : hole < q.length)
    (hstop : 0 < hole → comp (q.getD (parent hole) v) v = false) : IsHeap comp (q.set hole v) := by
  intro i a b hi ha hb'
  have hset := getElem?_set_of_lt v hlt
  rw [hset] at ha hb'
  split at hb'
  · cases hb'
    rename_i hih
    subst hih
    rw [if_neg (by have := parent_lt hi; omega)] at ha
    rw [← hstop hi, List.getD_eq_getElem?_getD, ha]
    rfl
  · split at ha
    · cases ha; exact hb i b hi ‹_› hb'
    · exact hh.except i a b hi ‹_› ‹_› ha hb'

/-- One move of `__adjust_heap`: the child `ch` of the hole, which no other child goes above,
goes up into the hole, which goes down to `ch`. -/
theorem Holey.down {q : List α} {hole ch : Nat} (d : α) (hh : Holey comp q hole) (h0 : 0 < ch)
    (hch : parent ch = hole) (hlt : ch < q.length)
    (hsib : ∀ i a b, 0 < i → parent i = hole → i ≠ ch → q[ch]? = some a → q[i]? = some b →
      comp a b = false) :
    Holey comp (q.set hole (q.getD ch d)) ch := by
  have hhc : hole < ch := hch ▸ parent_lt h0
  have he : q[ch]? = some (q.getD ch d) := by
    rw [List.getD_eq_getElem _ _ hlt, List.getElem?_eq_getElem]
  have hset := getElem?_set_of_lt (q.getD ch d) (by omega : hole < q.length)
  refine ⟨fun i a b hi hic hpc ha hb => ?_, fun i a b hi hpi _ ha hb => ?_⟩
  · rw [hset] at ha hb
    split at hb
    · rename_i hih
      subst hih
      cases hb
      rw [if_neg (by have := parent_lt hi; omega)] at ha
      exact hh.grand ch a _ h0 hch hi ha he
    · split at ha
      · cases ha; exact hsib i _ b hi ‹_› hic he hb
      · exact hh.except i a b hi ‹_› ‹_› ha hb
  · have hci := hpi ▸ parent_lt hi
    rw [hset, hch, if_pos rfl] at ha
    rw [hset, if_neg (by omega)] at hb
    cases ha
    exact hh.except i _ b hi (by omega) (by omega) (hpi ▸ he) hb

/-- Moving an element within the vector keeps every element in `P`. -/
theorem forall_mem_set_getD {P : α → Prop} {q : List α} {j : Nat} (hP : ∀ x ∈ q, P x)
    (hj : j < q.length) (i : Nat) (d : α) : ∀ x ∈ q.set i (q.getD j d), P x := fun x hx =>
  (List.mem_or_eq_of_mem_set hx).elim (hP x) fun h =>
    h ▸ hP _ (List.getD_eq_getElem q d hj ▸ List.getElem_mem hj)

/-- The value of a position the vector holds. -/
theorem getD_of_getElem? {q : List α} {i : Nat} {a : α} (h : q[i]? = some a) (d : α) :
    q.getD i d = a := by
  rw [List.getD_eq_getElem?_getD, h]; rfl

theorem isHeap_nil : IsHeap comp ([] : List α) := fun _ _ _ _ ha _ => by simp at ha

theorem isHeap_singleton (x : α) : IsHeap comp [x] := fun i _ _ hi _ hb => by
  rw [List.getElem?_eq_none (by simp; omega)] at hb
  cases hb

section Order

variable (hw : StrictWeak comp S)
include hw

/-- One move of `__push_heap`: the parent goes down into the hole, which rises to the parent, and
no child of the new hole goes above `value`. -/
theorem Holey.up {q : List α} {hole : Nat} {v : α} (hS : ∀ x ∈ q, S x) (hv : S v)
    (hh : Holey comp q hole) (h0 : 0 < hole) (hlt : hole < q.length)
    (hm : comp (q.getD (parent hole) v) v = true) :
    Holey comp (q.set hole (q.getD (parent hole) v)) (parent hole) ∧
      Below comp (q.set hole (q.getD (parent hole) v)) (parent hole) v := by
  have hp := parent_lt h0
  have he : q[parent hole]? = some (q.getD (parent hole) v) := by
    rw [List.getD_eq_getElem _ _ (by omega), List.getElem?_eq_getElem]
  have hSe := hS _ (List.getElem?_mem he)
  have hset := getElem?_set_of_lt (q.getD (parent hole) v) hlt
  refine ⟨⟨fun i a b hi hip hpp ha hb' => ?_, fun i a b hi hpi hp0 ha hb' => ?_⟩,
    fun i b hi hpi hb' => ?_⟩
  · have hih : i ≠ hole := fun h => hpp (h ▸ rfl)
    rw [hset, if_neg hih] at hb'
    rw [hset] at ha
    split at ha
    · rename_i hpi
      cases ha
      exact hh.grand i _ b hi hpi h0 he hb'
    · exact hh.except i a b hi hih ‹_› ha hb'
  · have hpp := parent_lt hp0
    rw [hset, if_neg (by omega)] at ha
    have hap : comp a (q.getD (parent hole) v) = false :=
      hh.except _ a _ hp0 (by omega) (by omega) ha he
    rw [hset] at hb'
    split at hb'
    · cases hb'; exact hap
    · rename_i hih
      exact hw.not_trans (hS _ (List.getElem?_mem ha)) hSe (hS _ (List.getElem?_mem hb')) hap
        (hh.except i _ b hi hih (by omega) (hpi ▸ he) hb')
  · rw [hset] at hb'
    split at hb'
    · cases hb'; exact hw.asymm hSe hv hm
    · rename_i hih
      have hSb := hS _ (List.getElem?_mem hb')
      have hpb := hh.except i _ b hi hih (by omega) (hpi ▸ he) hb'
      rcases hw.split hSe hSb hv hm with h | h
      · rw [← hpi, hpb] at h; cases h
      · exact hw.asymm hSb hv h

theorem siftUp_isHeap (v : α) (hv : S v) :
    ∀ fuel hole (q : List α), hole ≤ fuel → hole < q.length → (∀ x ∈ q, S x) →
      Holey comp q hole → Below comp q hole v → IsHeap comp (siftUp comp v fuel hole q)
  | 0, hole, q, hf, hlt, _, hh, hb => hh.finish hb hlt (by omega)
  | fuel + 1, hole, q, hf, hlt, hS, hh, hb => by
    unfold siftUp
    split
    · rename_i hm
      have hp := parent_lt hm.1
      obtain ⟨hh', hb'⟩ := hh.up hw hS hv hm.1 hlt hm.2
      exact siftUp_isHeap v hv fuel _ _ (by omega) (by simpa using (by omega : parent hole < q.length))
        (forall_mem_set_getD hS (by omega) _ _) hh' hb'
    · rename_i hm
      exact hh.finish hb hlt fun h0 => by simpa [h0] using hm

theorem adjustLast_isHeap {len : Nat} (v : α) (hv : S v) {hole : Nat} {q : List α}
    (hlen : q.length = len) (hlt : hole < len) (hend : ¬ hole < (len - 1) / 2) (hS : ∀ x ∈ q, S x)
    (hh : Holey comp q hole) : IsHeap comp (adjustLast comp len v hole q) := by
  unfold adjustLast
  split
  · have hc : 2 * hole + 1 < q.length := by omega
    refine siftUp_isHeap hw v hv _ _ _ le_rfl (by simpa using hc) (forall_mem_set_getD hS hc _ _)
      (hh.down v (by omega) (by unfold parent; omega) hc fun i a b hi hpi hne _ hb => ?_)
      (below_of_leaf v (by simp; omega))
    rw [List.getElem?_eq_none (by have := child_of_parent hi hpi; omega)] at hb
    cases hb
  · exact siftUp_isHeap hw v hv _ _ _ le_rfl (by omega) hS hh (below_of_leaf v (by omega))

theorem adjust_isHeap {len : Nat} (v : α) (hv : S v) :
    ∀ fuel hole (q : List α), q.length = len → hole < len → (len - 1) / 2 ≤ hole + fuel →
      (∀ x ∈ q, S x) → Holey comp q hole → IsHeap comp (adjust comp len v fuel hole q)
  | 0, _, _, hlen, hlt, hf, hS, hh => adjustLast_isHeap hw v hv hlen hlt (by omega) hS hh
  | fuel + 1, hole, q, hlen, hlt, hf, hS, hh => by
    unfold adjust
    split
    · rename_i hm
      dsimp only
      by_cases hc : comp (q.getD (2 * (hole + 1)) v) (q.getD (2 * (hole + 1) - 1) v) = true
      · rw [if_pos hc]
        refine adjust_isHeap v hv fuel _ _ (by simpa using hlen) (by omega) (by omega)
          (forall_mem_set_getD hS (by omega) _ _)
          (hh.down v (by omega) (by unfold parent; omega) (by omega) fun i a b hi hpi hne ha hb => ?_)
        obtain rfl : i = 2 * (hole + 1) := by have := child_of_parent hi hpi; omega
        rw [getD_of_getElem? hb, getD_of_getElem? ha] at hc
        exact hw.asymm (hS _ (List.getElem?_mem hb)) (hS _ (List.getElem?_mem ha)) hc
      · rw [if_neg hc]
        refine adjust_isHeap v hv fuel _ _ (by simpa using hlen) (by omega) (by omega)
          (forall_mem_set_getD hS (by omega) _ _)
          (hh.down v (by omega) (by unfold parent; omega) (by omega) fun i a b hi hpi hne ha hb => ?_)
        obtain rfl : i = 2 * (hole + 1) - 1 := by have := child_of_parent hi hpi; omega
        rw [getD_of_getElem? hb, getD_of_getElem? ha] at hc
        simpa using hc
    · exact adjustLast_isHeap hw v hv hlen hlt ‹_› hS hh

/-- `push` keeps a heap a heap. -/
theorem IsHeap.push {q : List α} (h : IsHeap comp q) (hS : ∀ y ∈ q, S y) {x : α} (hx : S x) :
    IsHeap comp (Heap.push comp q x) := by
  have hS' : ∀ y ∈ q ++ [x], S y := fun y hy =>
    (List.mem_append.1 hy).elim (hS y) fun h => (List.mem_singleton.1 h) ▸ hx
  have hlow : ∀ i, i < q.length → (q ++ [x])[i]? = q[i]? := fun i hi => List.getElem?_append_left hi
  refine siftUp_isHeap hw x hx _ _ _ le_rfl (by simp) hS' ⟨fun i a b hi hin _ ha hb => ?_,
    fun i a b hi hpi _ _ hb => ?_⟩ (below_of_leaf x (by simp; omega))
  · have hlt : i < q.length := by
      have := (List.getElem?_eq_some_iff.1 hb).1
      simp at this; omega
    rw [hlow _ (by have := parent_lt hi; omega)] at ha
    rw [hlow _ hlt] at hb
    exact h i a b hi ha hb
  · rw [List.getElem?_eq_none (by have := child_of_parent hi hpi; simp; omega)] at hb
    cases hb

/-- `pop` keeps a heap a heap. -/
theorem IsHeap.pop {q : List α} (h : IsHeap comp q) (hS : ∀ y ∈ q, S y) :
    IsHeap comp (Heap.pop comp q) := by
  unfold Heap.pop
  split
  · rename_i v hv
    split
    · rename_i hlen
      refine adjust_isHeap hw v (hS v (List.mem_of_getLast?_eq_some hv)) _ _ _ (by simp) (by omega)
        (by omega) (fun y hy => hS y (List.dropLast_subset _ hy)) ⟨fun i a b hi _ _ ha hb => ?_,
        fun _ _ _ _ _ h0 => absurd h0 (lt_irrefl 0)⟩
      rw [List.getElem?_dropLast] at ha hb
      split at hb
      · split at ha
        · exact h i a b hi ha hb
        · cases ha
      · cases hb
    · exact isHeap_nil
  · exact isHeap_nil

/-- `top()` of a heap is an element nothing in it goes above. -/
theorem IsHeap.top_max {q : List α} (h : IsHeap comp q) (hS : ∀ y ∈ q, S y) {t : α}
    (ht : q.head? = some t) : ∀ x ∈ q, comp t x = false := by
  have hall : ∀ (i : Nat) (x : α), q[i]? = some x → comp t x = false := by
    intro i
    induction i using Nat.strong_induction_on with
    | _ i ih =>
      intro x hx
      rcases Nat.eq_zero_or_pos i with rfl | hi
      · rw [← List.head?_eq_getElem?, ht] at hx
        cases hx
        exact hw.irrefl (hS t (List.mem_of_mem_head? ht))
      · have hlt := (List.getElem?_eq_some_iff.1 hx).1
        have hp := parent_lt hi
        obtain ⟨y, hy⟩ : ∃ y, q[parent i]? = some y := ⟨_, List.getElem?_eq_getElem (by omega)⟩
        exact hw.not_trans (hS t (List.mem_of_mem_head? ht)) (hS y (List.getElem?_mem hy))
          (hS x (List.getElem?_mem hx)) (ih _ hp y hy) (h i y x hi hy hx)
  intro x hx
  obtain ⟨i, hi⟩ := List.mem_iff_getElem?.1 hx
  exact hall i x hi

end Order

end Heap

end RealmHnsw
