import FemAssembly.Form
import FemAssembly.Options
import FemAssembly.SignedIndex
import FemAssembly.Stored.Tree

/-!
# Stored forms

The stored forms of kinds, forms and options, and of the numbers behind templates, restrictions,
element values and vertex coordinates. Reading does not check that numbers fit together, so what is
read are records of numbers (`TemplateRecord` and so on), and not the checked types.
-/

namespace FemAssembly

open Stored

/-! ## Names -/

instance : Stored Discretization where
  write kind := .text kind.name
  read := readName Discretization.all Discretization.name

instance : Stored Integrator where
  write integrator := .text integrator.name
  read := readName Integrator.all Integrator.name

instance : Stored Execution where
  write execution := .text execution.name
  read := readName Execution.all Execution.name

instance : Stored ColumnElimination where
  write strategy := .text strategy.name
  read := readName ColumnElimination.all ColumnElimination.name

/-- A signed index is stored as its raw value. -/
instance : Stored SignedIndex where
  write s := .int s.raw.toInt
  read
    | .int n =>
      if Int64.minValue.toInt ≤ n ∧ n ≤ Int64.maxValue.toInt then .ok ⟨Int64.ofInt n⟩
      else .error .rejected
    | _ => .error .rejected

/-! ## Forms and options -/

instance : Stored Form where
  write form := .record [
    ("kind", write form.kind),
    ("tensor_basis", write form.tensorBasis),
    ("integrators", write form.integrators)]
  read tree := do
    match ← tree.fields ["kind", "tensor_basis", "integrators"] with
    | [kind, tensorBasis, integrators] =>
      pure ⟨← required kind, ← required tensorBasis, ← required integrators⟩
    | _ => .error .rejected

/-- Every option has a default. -/
instance : Stored Options where
  write options := .record [
    ("max_incidence_degree", write options.maxDegree),
    ("execution", write options.execution),
    ("min_parallel_len", write options.minShare),
    ("column_elimination", write options.columnElimination)]
  read tree := do
    let default : Options := {}
    match ← tree.fields
      ["max_incidence_degree", "execution", "min_parallel_len", "column_elimination"] with
    | [maxDegree, execution, minShare, columnElimination] =>
      pure {
        maxDegree := ← withDefault default.maxDegree maxDegree
        execution := ← withDefault default.execution execution
        minShare := ← withDefault default.minShare minShare
        columnElimination := ← withDefault default.columnElimination columnElimination }
    | _ => .error .rejected

/-! ## Records of numbers -/

/-- The numbers of a template. -/
structure TemplateRecord where
  slots : Nat
  width : Nat
  mapping : List (Option Nat)

instance : Stored TemplateRecord where
  write t := .record [
    ("dofs_per_element", write t.slots),
    ("nnz_per_row", write t.width),
    ("mapping", write t.mapping)]
  read tree := do
    match ← tree.fields ["dofs_per_element", "nnz_per_row", "mapping"] with
    | [slots, width, mapping] => pure ⟨← required slots, ← required width, ← required mapping⟩
    | _ => .error .rejected

/-- The numbers of a restriction. -/
structure RestrictionRecord where
  numDofs : Nat
  slots : Nat
  numElements : Nat
  gather : List SignedIndex
  offsets : List Nat
  indices : List SignedIndex

instance : Stored RestrictionRecord where
  write r := .record [
    ("num_dofs", write r.numDofs),
    ("dofs_per_element", write r.slots),
    ("num_elements", write r.numElements),
    ("gather_map", write r.gather),
    ("offsets", write r.offsets),
    ("indices", write r.indices)]
  read tree := do
    match ← tree.fields
      ["num_dofs", "dofs_per_element", "num_elements", "gather_map", "offsets", "indices"] with
    | [numDofs, slots, numElements, gather, offsets, indices] =>
      pure ⟨← required numDofs, ← required slots, ← required numElements, ← required gather,
        ← required offsets, ← required indices⟩
    | _ => .error .rejected

/-- The numbers of element values. -/
structure ElementValuesRecord where
  width : Nat
  slots : Nat
  numElements : Nat
  data : List Binary64

instance : Stored ElementValuesRecord where
  write v := .record [
    ("nnz_per_row", write v.width),
    ("dofs_per_element", write v.slots),
    ("num_elements", write v.numElements),
    ("data", write v.data)]
  read tree := do
    match ← tree.fields ["nnz_per_row", "dofs_per_element", "num_elements", "data"] with
    | [width, slots, numElements, data] =>
      pure ⟨← required width, ← required slots, ← required numElements, ← required data⟩
    | _ => .error .rejected

/-- The numbers of vertex coordinates. -/
structure VertexRecord where
  dim : Nat
  perElement : Nat
  numElements : Nat
  data : List Binary64

instance : Stored VertexRecord where
  write c := .record [
    ("dim", write c.dim),
    ("vertices_per_element", write c.perElement),
    ("num_elements", write c.numElements),
    ("data", write c.data)]
  read tree := do
    match ← tree.fields ["dim", "vertices_per_element", "num_elements", "data"] with
    | [dim, perElement, numElements, data] =>
      pure ⟨← required dim, ← required perElement, ← required numElements, ← required data⟩
    | _ => .error .rejected

end FemAssembly
