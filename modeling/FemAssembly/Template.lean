import FemAssembly.Sequence.Distinct
import FemAssembly.Word

/-!
# Templates

All elements of a discretization share one local sparsity: row slot `r` of an element has `width`
candidates, and each candidate is a column slot or absent.

* `Template`: the table of candidates. Every column is a slot of the element, and no row lists a
  column twice.
* `Template.ofMapping`: the template of a table, or what is wrong with it.
* `Template.candidate`, `Template.rowColumns`, `Template.findSlot`: the table read by candidate, by
  row, and backwards.
-/

namespace FemAssembly

/-- The columns that `candidates` names, each with the position `k` of its candidate. -/
def presentColumns (candidates : List (Option Nat)) : List (Nat × Nat) :=
  candidates.zipIdx.filterMap fun (column, k) => column.map (k, ·)

/-- The local sparsity of an element: which columns each of its rows may touch. -/
structure Template where
  /-- the number of rows, and of columns -/
  slots : Nat
  /-- the number of candidates of each row -/
  width : Nat
  /-- candidate `k` of row `r` is entry `width * r + k` -/
  mapping : Array (Option Nat)
  size_eq : mapping.size = slots * width
  column_lt : ∀ c, some c ∈ mapping → c < slots
  nodup : ∀ r, r < slots →
    ((mapping.extract (width * r) (width * r + width)).toList.filterMap id).Nodup
  deriving DecidableEq

namespace Template

/-- The candidates of `row` in a table with `width` of them for each row. -/
def rowOf (width : Nat) (mapping : Array (Option Nat)) (row : Nat) : List (Option Nat) :=
  (mapping.extract (width * row) (width * row + width)).toList

/-- The first of the rows below `slots` that lists a column twice. -/
def firstRepeat (slots width : Nat) (mapping : Array (Option Nat)) : Option Nat :=
  if width = 0 then none
  else (List.range slots).find? fun r => repeatsValue ((rowOf width mapping r).filterMap id)

theorem nodup_of_firstRepeat {slots width : Nat} {mapping : Array (Option Nat)}
    (h : firstRepeat slots width mapping = none) (r : Nat) (hr : r < slots) :
    ((rowOf width mapping r).filterMap id).Nodup := by
  unfold firstRepeat at h
  split at h
  · simp [rowOf, *]
  · have := List.find?_eq_none.mp h r (List.mem_range.mpr hr)
    exact repeatsValue_eq_false_iff.mp (by simpa using this)

/-- The template of the table `mapping`, which has `slots` rows of `width` candidates. A column past
`slots` is reported before a repeated one, and the first row that repeats a column is named. -/
def ofMapping (slots width : Nat) (mapping : Array (Option Nat)) : Except Error Template := do
  let _ ← Word.mul slots width
  if hsize : mapping.size = slots * width then
    match hcol : mapping.find? (fun c => decide (∃ n ∈ c, slots ≤ n)) with
    | some column =>
      .error (.inconsistent (.templateColumn (column.getD slots) slots))
    | none =>
      match hrep : firstRepeat slots width mapping with
      | some row => .error (.inconsistent (.templateRepeats row))
      | none =>
        .ok {
          slots, width, mapping
          size_eq := hsize
          column_lt := by
            intro c hc
            have := Array.find?_eq_none.mp hcol _ hc
            simpa using this
          nodup := nodup_of_firstRepeat hrep }
  else .error (.inconsistent (.templateSize mapping.size slots width))

/-- The template of `slots` rows that couples every row to every column: candidate `k` is column
`k`. At least one row has to fit into an array. -/
def dense (slots : Nat) : Except Error Template := do
  Word.reserve slots 16
  ofMapping slots slots ((List.range slots).flatMap fun _ => (List.range slots).map some).toArray

variable (t : Template)

/-- Candidate `k` of `row`. Only the position in the table is checked, so a `k` past the row reads
on in the next one. -/
def candidate (row k : Nat) : Except Error (Option Nat) :=
  Word.orFault t.mapping[t.width * row + k]?

/-- All candidates of `row`, present or not. -/
def row (row : Nat) : Except Error (List (Option Nat)) :=
  if t.width * row + t.width ≤ t.mapping.size then .ok (rowOf t.width t.mapping row)
  else .error (.fault .outOfRange)

/-- The present candidates of `row`, as pairs of the position `k` of the candidate and its column.
-/
def rowColumns (row : Nat) : Except Error (List (Nat × Nat)) :=
  (t.row row).map presentColumns

/-- The position of the first candidate of `row` that names `column`. -/
def findSlot (row column : Nat) : Except Error (Option Nat) :=
  (t.row row).map fun candidates => candidates.findIdx? (· == some column)

/-- The number of present candidates of `t`, in all rows. -/
def numPresent : Nat := t.mapping.countP Option.isSome

theorem row_eq_ok {row : Nat} (h : row < t.slots) :
    t.row row = .ok (rowOf t.width t.mapping row) := by
  unfold Template.row
  rw [if_pos]
  rw [t.size_eq, Nat.mul_comm t.slots, ← Nat.mul_succ]
  exact Nat.mul_le_mul_left _ h

end Template

end FemAssembly
