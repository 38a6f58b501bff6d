import FemAssembly.Binary64
import FemAssembly.Error
import FemAssembly.Grid
import FemAssembly.Sequence.Chunks
import FemAssembly.Word

/-!
# Values in messages

A message is a list of units, and a plain type has a fixed number of units to a value. Ranks send
bytes, with the lowest byte of a number first. The kind of unit is a parameter, because nothing but
the reading of a value depends on it: a value that no fixed number of bytes can hold, such as a
rational number, may travel as a unit of its own.

* `Plain`: a type whose values are written with a fixed number of units.
* `ReadsBack`: a value whose units give the value again. All values of a `LawfulPlain` type do, and
  by `LawfulIndices` all indices that are machine words.
* `encode`, `decode`: lists of values.
* `decode_encode`: reading what was written, for values that read back one by one.
-/

namespace FemAssembly

/-- A type `α` whose values are written with a fixed number `width` of units `β`. -/
class Plain (β α : Type) where
  width : Nat
  write : α → List β
  read : List β → α

/-- The value `a` takes the width of its type and reads back. -/
def ReadsBack (β : Type) {α : Type} [Plain β α] (a : α) : Prop :=
  (Plain.write (β := β) a).length = Plain.width β α ∧ Plain.read (Plain.write (β := β) a) = a

/-- A plain type `α`, all of whose values read back. -/
class LawfulPlain (β α : Type) [Plain β α] : Prop where
  width_pos : 0 < Plain.width β α
  readsBack : ∀ a : α, ReadsBack β a

/-- Indices that are machine words read back. -/
class LawfulIndices (β : Type) [Plain β Nat] : Prop where
  width_pos : 0 < Plain.width β Nat
  readsBack : ∀ n < Word.bound, ReadsBack β n

/-! ## Bytes -/

/-- The lowest `width` bytes of `n`, lowest first: its digits to base 256. -/
def littleEndian (width n : Nat) : List UInt8 := (Grid.coords width 256 n).map UInt8.ofNat

/-- The number with the given `bytes`, lowest first. -/
def ofLittleEndian (bytes : List UInt8) : Nat := Grid.index 256 (bytes.map UInt8.toNat)

instance : Plain UInt8 UInt8 :=
  ⟨1, fun n => littleEndian 1 n.toNat, fun b => .ofNat (ofLittleEndian b)⟩

instance : Plain UInt8 UInt16 :=
  ⟨2, fun n => littleEndian 2 n.toNat, fun b => .ofNat (ofLittleEndian b)⟩

instance : Plain UInt8 UInt32 :=
  ⟨4, fun n => littleEndian 4 n.toNat, fun b => .ofNat (ofLittleEndian b)⟩

instance : Plain UInt8 UInt64 :=
  ⟨8, fun n => littleEndian 8 n.toNat, fun b => .ofNat (ofLittleEndian b)⟩

instance : Plain UInt8 Int8 :=
  ⟨1, fun n => littleEndian 1 n.toUInt8.toNat, fun b => (UInt8.ofNat (ofLittleEndian b)).toInt8⟩

instance : Plain UInt8 Int16 :=
  ⟨2, fun n => littleEndian 2 n.toUInt16.toNat, fun b => (UInt16.ofNat (ofLittleEndian b)).toInt16⟩

instance : Plain UInt8 Int32 :=
  ⟨4, fun n => littleEndian 4 n.toUInt32.toNat, fun b => (UInt32.ofNat (ofLittleEndian b)).toInt32⟩

instance : Plain UInt8 Int64 :=
  ⟨8, fun n => littleEndian 8 n.toUInt64.toNat, fun b => (UInt64.ofNat (ofLittleEndian b)).toInt64⟩

/-- An integer of `width` bytes travels as its bits. -/
instance (width : Nat) : Plain UInt8 (BitVec (8 * width)) :=
  ⟨width, fun n => littleEndian width n.toNat, fun b => .ofNat _ (ofLittleEndian b)⟩

/-- An index travels as a 64-bit word. -/
instance : Plain UInt8 Nat := ⟨8, littleEndian 8, ofLittleEndian⟩

/-- A floating-point number travels as its bits. -/
instance : Plain UInt8 Binary64 :=
  ⟨8, fun x => littleEndian 8 x.bits.toNat, fun b => ⟨.ofNat (ofLittleEndian b)⟩⟩

/-- The type of one value takes no bytes. -/
instance : Plain UInt8 Unit := ⟨0, fun _ => [], fun _ => ()⟩

/-! ## Lists of values -/

variable {β α : Type} [Plain β α]

/-- The units of the list `values`, one value after the other. -/
def encode (values : List α) : List β := values.flatMap Plain.write

/-- The values that `message` holds. A message that is not a whole number of values is refused, and
so is every message of values without units. -/
def decode (message : List β) : Except Error (List α) :=
  let width := Plain.width β α
  if width = 0 ∨ message.length % width ≠ 0 then
    .error (.communication (.partialValues message.length width))
  else .ok ((chunks width message).map Plain.read)

/-! ## Reading back -/

theorem length_littleEndian (width n : Nat) : (littleEndian width n).length = width := by
  simp [littleEndian]

theorem ofLittleEndian_littleEndian {width n : Nat} (h : n < Grid.volume 256 width) :
    ofLittleEndian (littleEndian width n) = n := by
  have : (littleEndian width n).map UInt8.toNat = Grid.coords width 256 n := by
    rw [littleEndian, List.map_map]
    conv => rhs; rw [← List.map_id (Grid.coords width 256 n)]
    refine List.map_congr_left fun c hc => ?_
    have := Grid.lt_of_mem_coords (by decide) hc
    simpa using this
  rw [ofLittleEndian, this, Grid.index_coords h]

instance : LawfulPlain UInt8 UInt64 where
  width_pos := by decide
  readsBack a := by
    refine ⟨length_littleEndian _ _, ?_⟩
    change UInt64.ofNat (ofLittleEndian (littleEndian 8 a.toNat)) = a
    rw [ofLittleEndian_littleEndian a.toNat_lt]
    simp

/-- Every bit of a NaN is kept. -/
instance : LawfulPlain UInt8 Binary64 where
  width_pos := by decide
  readsBack a := by
    refine ⟨length_littleEndian _ _, ?_⟩
    change Binary64.mk (UInt64.ofNat (ofLittleEndian (littleEndian 8 a.bits.toNat))) = a
    rw [ofLittleEndian_littleEndian a.bits.toNat_lt]
    simp

instance : LawfulPlain UInt8 UInt8 where
  width_pos := by decide
  readsBack a := by
    refine ⟨length_littleEndian _ _, ?_⟩
    change UInt8.ofNat (ofLittleEndian (littleEndian 1 a.toNat)) = a
    rw [ofLittleEndian_littleEndian a.toNat_lt]
    simp

instance : LawfulIndices UInt8 where
  width_pos := by decide
  readsBack _ h := ⟨length_littleEndian _ _, ofLittleEndian_littleEndian h⟩

theorem chunks_append {γ : Type} {width : Nat} {piece : List γ} (hw : 0 < width)
    (h : piece.length = width) (rest : List γ) :
    chunks width (piece ++ rest) = piece :: chunks width rest := by
  have : piece ++ rest ≠ [] := by
    intro hnil
    have := congrArg List.length hnil
    simp only [List.length_append, List.length_nil] at this
    omega
  rw [chunks_eq_cons hw this, ← h, List.take_left, List.drop_left]

theorem length_encode {values : List α} (h : ∀ a ∈ values, ReadsBack β a) :
    (encode values : List β).length = Plain.width β α * values.length := by
  induction values with
  | nil => rfl
  | cons a values ih =>
    obtain ⟨ha, hrest⟩ := List.forall_mem_cons.mp h
    have := ih hrest
    rw [encode] at this
    rw [encode, List.flatMap_cons, List.length_append, ha.1, this, List.length_cons, Nat.mul_succ,
      Nat.add_comm]

/-- Reading what was written gives the `values` again, if every one of them reads back. -/
theorem decode_encode_of_readsBack (hw : 0 < Plain.width β α) {values : List α}
    (h : ∀ a ∈ values, ReadsBack β a) : decode (encode values : List β) = .ok values := by
  have hread : (chunks (Plain.width β α) (encode values : List β)).map Plain.read = values := by
    induction values with
    | nil => simp [encode]
    | cons a values ih =>
      obtain ⟨ha, hrest⟩ := List.forall_mem_cons.mp h
      rw [encode, List.flatMap_cons, ← encode, chunks_append hw ha.1, List.map_cons, ha.2, ih hrest]
  rw [decode, if_neg, hread]
  rw [length_encode h, Nat.mul_mod_right]
  omega

/-- Reading what was written gives the `values` again. -/
theorem decode_encode [LawfulPlain β α] (values : List α) :
    decode (encode values : List β) = .ok values :=
  decode_encode_of_readsBack (LawfulPlain.width_pos (β := β)) fun a _ => LawfulPlain.readsBack a

end FemAssembly
