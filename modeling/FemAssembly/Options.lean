/-!
# Options of an assembly

* `Execution`: how the two passes go over the elements. It never changes a matrix.
* `ColumnElimination`: how distributed elimination finds the eliminated columns.
* `Options`: these two, with the bound on the degree of a DOF and the least share of one worker.
-/

namespace FemAssembly

/-- How the count pass and the fill pass go over the row slots of the elements. -/
inductive Execution where
  /-- one after the other -/
  | serial
  /-- shared out over workers -/
  | parallel
  deriving DecidableEq, Repr

/-- How distributed elimination finds the eliminated columns of the off-diagonal block. -/
inductive ColumnElimination where
  /-- go over all rows for every eliminated column -/
  | scan
  /-- look up the column of every entry among the eliminated ones -/
  | binarySearch
  deriving DecidableEq, Repr

def Execution.name : Execution → String
  | serial => "Serial"
  | parallel => "Parallel"

def Execution.all : List Execution := [serial, parallel]

def ColumnElimination.name : ColumnElimination → String
  | scan => "Scan"
  | binarySearch => "BinarySearch"

def ColumnElimination.all : List ColumnElimination := [scan, binarySearch]

structure Options where
  /-- the largest number of element slots that may reference one DOF -/
  maxDegree : Nat := 16
  execution : Execution := .parallel
  /-- the least number of row slots that one worker is given -/
  minShare : Nat := 64
  columnElimination : ColumnElimination := .scan
  deriving DecidableEq, Repr

namespace Options

def setMaxDegree (options : Options) (maxDegree : Nat) : Options := { options with maxDegree }

def setExecution (options : Options) (execution : Execution) : Options :=
  { options with execution }

/-- The options with another `minShare`, where `0` counts as `1`: a worker is given at least one row
slot. -/
def setMinShare (options : Options) (minShare : Nat) : Options :=
  { options with minShare := max minShare 1 }

def setColumnElimination (options : Options) (columnElimination : ColumnElimination) : Options :=
  { options with columnElimination }

/-- The default options with one worker. -/
def serial : Options := setExecution {} .serial

end Options

end FemAssembly
