/-!
# Small dense matrices

Matrices of the size of an element, stored by rows.

* `sumFin`, `prodFin`: sums from zero and products from one, in increasing order.
* `Dense.det`: the determinant, expanded along the first row.
* `Dense.inverse?`: the inverse by cofactors, of a matrix whose determinant is not zero.
-/

namespace FemAssembly

section Folds

variable {α : Type}

/-- The sum of `f 0, …, f (n - 1)`, from zero. -/
def sumFin [Zero α] [Add α] (n : Nat) (f : Fin n → α) : α :=
  Fin.foldl n (fun sum i => sum + f i) 0

/-- The product of `f 0, …, f (n - 1)`, from one. -/
def prodFin [One α] [Mul α] (n : Nat) (f : Fin n → α) : α :=
  Fin.foldl n (fun product i => product * f i) 1

/-- The sum of `f 0, f 2, …` less the sum of `f 1, f 3, …`, from zero and in increasing order. -/
def alternatingSum [Zero α] [Add α] [Sub α] (n : Nat) (f : Fin n → α) : α :=
  Fin.foldl n (fun sum i => if i.val % 2 = 0 then sum + f i else sum - f i) 0

end Folds

/-- A matrix with `m` rows and `n` columns. -/
abbrev Dense (m n : Nat) (α : Type) := Vector (Vector α n) m

namespace Dense

variable {m n : Nat} {α : Type}

def ofFn (f : Fin m → Fin n → α) : Dense m n α := Vector.ofFn fun i => Vector.ofFn (f i)

@[simp] theorem getElem_ofFn (f : Fin m → Fin n → α) (i : Fin m) (j : Fin n) :
    (ofFn f)[i][j] = f i j := by
  simp [ofFn]

/-- The numbers below `n + 1` without `i`, in increasing order. -/
def skip (i : Nat) (a : Fin n) : Fin (n + 1) := if a.val < i then a.castSucc else a.succ

/-- The matrix `A` without row `i` and column `j`. -/
def minor (A : Dense (n + 1) (n + 1) α) (i j : Fin (n + 1)) : Dense n n α :=
  ofFn fun a b => A[skip i a][skip j b]

variable [Zero α] [One α] [Add α] [Sub α] [Mul α]

/-- The determinant of a matrix, by expansion along its first row. -/
def det : {n : Nat} → Dense n n α → α
  | 0, _ => 1
  | n + 1, A => alternatingSum (n + 1) fun j => A[(0 : Fin (n + 1))][j] * det (minor A 0 j)

/-- The entry of the inverse of a matrix at row `i` and column `j`, times its determinant: the
signed minor at row `j` and column `i`. -/
def cofactor [Neg α] : {n : Nat} → Dense n n α → Fin n → Fin n → α
  | 0, _, _, _ => 1
  | _ + 1, A, i, j =>
    let value := det (minor A j i)
    if (i.val + j.val) % 2 = 0 then value else -value

/-- The inverse of `A`, if its determinant is not zero. -/
def inverse? [Neg α] [Div α] [BEq α] (A : Dense n n α) : Option (Dense n n α) :=
  let d := det A
  if d == 0 then none else some (ofFn fun i j => cofactor A i j / d)

end Dense

end FemAssembly
