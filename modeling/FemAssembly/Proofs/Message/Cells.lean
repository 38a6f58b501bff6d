import FemAssembly.Message.Encoding

/-!
# Exact messages

Ranks that compute exactly have values that no fixed number of bytes can hold.

* `Cell`: a unit of messages that holds a flag, an index or a value as it is.
-/

namespace FemAssembly

/-- A unit of messages between ranks that compute exactly: it holds a value as it is. -/
inductive Cell (α : Type) where
  | flag (flag : UInt8)
  | index (index : Nat)
  | value (value : α)

namespace Cell

variable {α : Type}

instance : Plain (Cell α) UInt8 where
  width := 1
  write b := [.flag b]
  read
    | [.flag b] => b
    | _ => 0

instance : Plain (Cell α) Nat where
  width := 1
  write n := [.index n]
  read
    | [.index n] => n
    | _ => 0

instance [Zero α] : Plain (Cell α) α where
  width := 1
  write a := [.value a]
  read
    | [.value a] => a
    | _ => 0

instance : LawfulPlain (Cell α) UInt8 := ⟨Nat.one_pos, fun _ => ⟨rfl, rfl⟩⟩

instance : LawfulIndices (Cell α) := ⟨Nat.one_pos, fun _ _ => ⟨rfl, rfl⟩⟩

instance [Zero α] : LawfulPlain (Cell α) α := ⟨Nat.one_pos, fun _ => ⟨rfl, rfl⟩⟩

end Cell

end FemAssembly
