import FemAssembly.Binary64
import FemAssembly.Word

/-!
# Stored data

Small records are stored as trees of named and numbered data. A tree says nothing about types: what
it is read as decides what it has to look like.

* `Tree`: the stored data.
* `Stored`: a type with a stored form, which is written and read.
* `Stored.read`: a tree that has another shape is rejected.
* `Tree.fields`: a record may also be a list of its fields in their order.
-/

namespace FemAssembly

inductive Tree where
  | null
  | bool (value : Bool)
  | int (value : Int)
  | real (value : Binary64)
  | text (value : String)
  | list (items : List Tree)
  | record (entries : List (String × Tree))
  deriving Inhabited

namespace Tree

/-- The fields with the given `names`, in this order. A record may hold other fields as well; a list
holds the first of the fields, and no more than there are names. -/
def fields (names : List String) : Tree → Except Error (List (Option Tree))
  | record entries => .ok (names.map fun name => entries.lookup name)
  | list items =>
    if items.length ≤ names.length then .ok ((List.range names.length).map (items[·]?))
    else .error .rejected
  | _ => .error .rejected

/-- The name of a value among named ones: a text, or a record with the name and nothing to it. -/
def variantName : Tree → Except Error String
  | text name => .ok name
  | record [(name, null)] => .ok name
  | _ => .error .rejected

end Tree

/-- A type with a stored form. -/
class Stored (α : Type) where
  write : α → Tree
  read : Tree → Except Error α

namespace Stored

variable {α : Type}

/-- A field that has to be there: `none` is rejected. -/
def required [Stored α] : Option Tree → Except Error α
  | some tree => read tree
  | none => .error .rejected

/-- A field that may be missing: `none` is read as `default`. -/
def withDefault [Stored α] (default : α) : Option Tree → Except Error α
  | some tree => read tree
  | none => .ok default

/-- The value with the name that `tree` holds, out of `all` values. -/
def readName (all : List α) (name : α → String) (tree : Tree) : Except Error α := do
  let wanted ← tree.variantName
  match all.find? fun a => name a == wanted with
  | some a => .ok a
  | none => .error .rejected

/-- Read `tree` as an `α` and write it again, which leaves out all that the type does not hold. -/
def restore (α : Type) [Stored α] (tree : Tree) : Except Error Tree := do
  let a : α ← read tree
  pure (write a)

/-! ## Simple values -/

/-- An index is a machine word. -/
instance : Stored Nat where
  write n := .int n
  read
    | .int n => if 0 ≤ n ∧ n.toNat < Word.bound then .ok n.toNat else .error .rejected
    | _ => .error .rejected

instance : Stored Bool where
  write b := .bool b
  read
    | .bool b => .ok b
    | _ => .error .rejected

/-- Any number is read as a floating-point number. -/
instance : Stored Binary64 where
  write x := .real x
  read
    | .real x => .ok x
    | .int n => .ok (.ofFloat (Float.ofInt n))
    | _ => .error .rejected

instance [Stored α] : Stored (Option α) where
  write
    | none => .null
    | some a => write a
  read
    | .null => .ok none
    | tree => some <$> read tree

instance [Stored α] : Stored (List α) where
  write list := .list (list.map write)
  read
    | .list items => items.mapM read
    | _ => .error .rejected

instance [Stored α] : Stored (Array α) where
  write array := write array.toList
  read tree := List.toArray <$> read tree

end Stored

end FemAssembly
