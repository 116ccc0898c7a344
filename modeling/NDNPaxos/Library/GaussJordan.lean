import Mathlib.LinearAlgebra.Matrix.NonsingularInverse
import Mathlib.Tactic

/-!
# Gauss-Jordan elimination in place

One matrix holds two.  The columns that have served as pivots are unit columns
of the reduced matrix, so their place is taken by the columns of the inverse
that have been found; these stand in the order in which the rows were swapped,
and the swaps are undone on the columns at the end.
-/

namespace GaussJordan

variable {ι K : Type*} [Fintype ι] [DecidableEq ι] [Field K]

/-- The pivot row is swapped into its place and divided by the pivot, and its
multiples are subtracted from the other rows.  The pivot column becomes the
column of the inverse. -/
def pivot (mat : Matrix ι ι K) (row col : ι) : Matrix ι ι K :=
  let swapped := mat.submatrix (Equiv.swap row col) id
  let pivotRow := fun j => (swapped col col)⁻¹ * if j = col then 1 else swapped col j
  fun i j =>
    if i = col then pivotRow j
    else (if j = col then 0 else swapped i j) - swapped i col * pivotRow j

structure State (ι K : Type*) where
  mat : Matrix ι ι K
  /-- The columns that have been pivots. -/
  done : Finset ι
  /-- The latest swap first. -/
  swaps : List (ι × ι)

/-- The columns are swapped as the rows were, the latest swap first. -/
def unscramble (mat : Matrix ι ι K) : List (ι × ι) → Matrix ι ι K
  | [] => mat
  | (row, col) :: rest => unscramble (mat.submatrix id (Equiv.swap row col)) rest

def perm : List (ι × ι) → Equiv.Perm ι
  | [] => 1
  | (row, col) :: rest => perm rest * Equiv.swap row col

omit [Fintype ι] [Field K] in
theorem unscramble_eq (mat : Matrix ι ι K) (swaps : List (ι × ι)) :
    unscramble mat swaps = mat.submatrix id ⇑(perm swaps)⁻¹ := by
  induction swaps generalizing mat with
  | nil => rfl
  | cons swap rest ih =>
      rw [unscramble, ih, perm, mul_inv_rev, Equiv.swap_inv, Matrix.submatrix_submatrix]
      rfl

namespace State

def start (mat : Matrix ι ι K) : State ι K := ⟨mat, ∅, []⟩

def step (state : State ι K) (row col : ι) : State ι K where
  mat := pivot state.mat row col
  done := insert col state.done
  swaps := (row, col) :: state.swaps

def result (state : State ι K) : Matrix ι ι K := unscramble state.mat state.swaps

/-- The matrix that is being reduced. -/
def reduced (state : State ι K) : Matrix ι ι K := fun i j =>
  if j ∈ state.done then (1 : Matrix ι ι K) i j else state.mat i j

/-- The row operations so far. -/
def operations (state : State ι K) : Matrix ι ι K := fun i j =>
  if j ∈ state.done then state.mat i j else (1 : Matrix ι ι K) i j

end State

/-! ## One step -/

/-- Dividing one row and subtracting its multiples from the others is the
product with this matrix. -/
def clearing (mat : Matrix ι ι K) (col : ι) : Matrix ι ι K :=
  (1 : Matrix ι ι K).updateCol col fun i =>
    if i = col then (mat col col)⁻¹ else -mat i col * (mat col col)⁻¹

theorem clearing_mul (mat other : Matrix ι ι K) (col i j : ι) :
    (clearing mat col * other) i j =
      if i = col then (mat col col)⁻¹ * other col j
      else other i j - mat i col * ((mat col col)⁻¹ * other col j) := by
  have hentry : ∀ l, clearing mat col i l * other l j =
      (if l = col then (if i = col then (mat col col)⁻¹ else -mat i col * (mat col col)⁻¹) *
          other col j else 0) +
        if i = l then (if i = col then 0 else other i j) else 0 := by
    intro l
    rw [clearing, Matrix.updateCol_apply, Matrix.one_apply]
    by_cases hl : l = col
    · subst hl
      by_cases hi : i = l <;> simp [hi]
    · by_cases hi : i = l
      · subst hi
        simp [hl]
      · simp [hl, hi]
  rw [Matrix.mul_apply, Finset.sum_congr rfl fun l _ => hentry l, Finset.sum_add_distrib,
    Finset.sum_ite_eq', Finset.sum_ite_eq]
  simp only [Finset.mem_univ, if_true]
  split_ifs
  · ring
  · ring

theorem det_clearing (mat : Matrix ι ι K) (col : ι) :
    (clearing mat col).det = (mat col col)⁻¹ := by
  rw [clearing, ← Matrix.cramer_apply, Matrix.cramer_one]
  simp

section Step

variable {state : State ι K} {row col : ι}

theorem pivot_eq (mat : Matrix ι ι K) (row col i j : ι) (hne : j ≠ col) :
    pivot mat row col i j = (clearing (mat.submatrix (Equiv.swap row col) id) col *
      mat.submatrix (Equiv.swap row col) id) i j := by
  rw [clearing_mul, pivot]
  simp [hne]

omit [Fintype ι] in
theorem pivot_col (mat : Matrix ι ι K) (row col i : ι) :
    pivot mat row col i col = clearing (mat.submatrix (Equiv.swap row col) id) col i col := by
  simp [pivot, clearing]

omit [Fintype ι] [Field K] in
theorem swap_of_mem (hrow : row ∉ state.done) (hcol : col ∉ state.done) {j : ι}
    (hmem : j ∈ state.done) : Equiv.swap row col j = j :=
  Equiv.swap_apply_of_ne_of_ne (fun heq => hrow (heq ▸ hmem)) fun heq => hcol (heq ▸ hmem)

omit [Fintype ι] [Field K] in
theorem swap_mem_iff (hrow : row ∉ state.done) (hcol : col ∉ state.done) (j : ι) :
    Equiv.swap row col j ∈ state.done ↔ j ∈ state.done := by
  constructor
  · intro hmem
    rwa [← Equiv.swap_apply_self row col j, swap_of_mem hrow hcol hmem]
  · intro hmem
    rwa [swap_of_mem hrow hcol hmem]

theorem reduced_step (hrow : row ∉ state.done) (hcol : col ∉ state.done)
    (hpivot : state.mat row col ≠ 0) :
    (state.step row col).reduced = clearing (state.mat.submatrix (Equiv.swap row col) id) col *
      state.reduced.submatrix (Equiv.swap row col) id := by
  have hentry : state.mat.submatrix (Equiv.swap row col) id col col ≠ 0 := by simpa using hpivot
  ext i j
  by_cases hj : j = col
  · -- The pivot column is cleared.
    subst hj
    have hunit : (state.step row j).reduced i j = (1 : Matrix ι ι K) i j := by
      simp [State.reduced, State.step]
    rw [hunit, clearing_mul, Matrix.one_apply]
    simp only [Matrix.submatrix_apply, Equiv.swap_apply_right, id] at hentry ⊢
    simp [State.reduced, hcol, inv_mul_cancel₀ hentry]
  · by_cases hmem : j ∈ state.done
    · -- An earlier pivot column is a unit column, away from both rows.
      have hfix := swap_of_mem hrow hcol hmem
      have hback : ∀ l, Equiv.swap row col l = j ↔ l = j := fun l => by
        rw [Equiv.swap_apply_eq_iff, hfix]
      rw [clearing_mul]
      simp only [State.reduced, State.step, Finset.mem_insert, hmem, or_true, if_true,
        Matrix.submatrix_apply, Matrix.one_apply, id, hback, if_neg (Ne.symm hj)]
      by_cases hi : i = col
      · subst hi
        simp [Ne.symm hj]
      · simp [hi]
    · rw [State.reduced, State.step]
      simp only [Finset.mem_insert, hj, hmem, or_self, if_false]
      rw [pivot_eq _ _ _ _ _ hj, clearing_mul, clearing_mul]
      simp [State.reduced, hmem]

theorem operations_step (hrow : row ∉ state.done) (hcol : col ∉ state.done) :
    (state.step row col).operations =
      clearing (state.mat.submatrix (Equiv.swap row col) id) col *
        state.operations.submatrix (Equiv.swap row col) (Equiv.swap row col) := by
  ext i j
  by_cases hj : j = col
  · -- The column of the swapped operations is still a unit column.
    subst hj
    rw [State.operations, State.step]
    simp only [Finset.mem_insert, true_or, if_true]
    have hback : Equiv.swap row j i = row ↔ i = j := by
      rw [Equiv.swap_apply_eq_iff, Equiv.swap_apply_left]
    rw [pivot_col, clearing_mul]
    simp only [State.operations, clearing, hrow, Matrix.submatrix_apply, Matrix.one_apply,
      Equiv.swap_apply_right, if_false, hback, if_true]
    by_cases hi : i = j <;> simp [hi]
  · by_cases hmem : j ∈ state.done
    · rw [State.operations, State.step]
      simp only [Finset.mem_insert, hj, hmem, or_true, if_true]
      rw [pivot_eq _ _ _ _ _ hj, clearing_mul, clearing_mul]
      simp [State.operations, hmem, swap_of_mem hrow hcol hmem]
    · rw [clearing_mul]
      simp only [State.operations, State.step, Finset.mem_insert, hj, hmem, or_self, if_false,
        Matrix.submatrix_apply, swap_mem_iff hrow hcol, Matrix.one_apply,
        EmbeddingLike.apply_eq_iff_eq]
      by_cases hi : i = col
      · subst hi
        simp [Ne.symm hj]
      · simp [hi, Ne.symm hj]

end Step

/-! ## A whole run -/

/-- The operations so far have turned the rows of `original`, swapped, into the
reduced matrix. -/
structure Inverts (original : Matrix ι ι K) (state : State ι K) : Prop where
  reduced : state.reduced = state.operations * original.submatrix (perm state.swaps) id
  det : state.reduced.det ≠ 0

variable {original : Matrix ι ι K} {state : State ι K} {row col : ι}

theorem Inverts.start (hdet : original.det ≠ 0) : Inverts original (State.start original) where
  reduced := by
    have hone : (State.start original).operations = 1 := by
      ext i j
      simp [State.operations, State.start]
    rw [hone, one_mul]
    ext i j
    simp [State.reduced, State.start, perm]
  det := by
    have hsame : (State.start original).reduced = original := by
      ext i j
      simp [State.reduced, State.start]
    rwa [hsame]

theorem Inverts.step (hinverts : Inverts original state) (hrow : row ∉ state.done)
    (hcol : col ∉ state.done) (hpivot : state.mat row col ≠ 0) :
    Inverts original (state.step row col) where
  reduced := by
    rw [reduced_step hrow hcol hpivot, operations_step hrow hcol, mul_assoc, hinverts.reduced]
    congr 1
    ext i j
    simp only [Matrix.submatrix_apply, Matrix.mul_apply, id, State.step, perm, Equiv.Perm.mul_apply]
    exact (Equiv.sum_comp (Equiv.swap row col) fun l =>
      state.operations (Equiv.swap row col i) l * original (perm state.swaps l) j).symm
  det := by
    rw [reduced_step hrow hcol hpivot, Matrix.det_mul, det_clearing]
    apply mul_ne_zero
    · apply inv_ne_zero
      simpa using hpivot
    · rw [Matrix.det_permute]
      apply mul_ne_zero _ hinverts.det
      rcases Int.units_eq_one_or (Equiv.Perm.sign (Equiv.swap row col)) with hsign | hsign <;>
        simp [hsign]

/-- As long as a column is left, some entry can be the next pivot. -/
theorem Inverts.exists_pivot (hinverts : Inverts original state) {left : ι}
    (hleft : left ∉ state.done) :
    ∃ col, col ∉ state.done ∧ state.mat left col ≠ 0 := by
  by_contra hnone
  push Not at hnone
  apply hinverts.det
  apply Matrix.det_eq_zero_of_row_eq_zero left
  intro j
  rw [State.reduced]
  split_ifs with hmem
  · exact Matrix.one_apply_ne fun heq => hleft (heq ▸ hmem)
  · exact hnone j hmem

theorem Inverts.result_mul (hinverts : Inverts original state)
    (hall : ∀ col, col ∈ state.done) : state.result * original = 1 := by
  have hone : state.reduced = 1 := by
    ext i j
    rw [State.reduced, if_pos (hall j)]
  have hmat : state.operations = state.mat := by
    ext i j
    rw [State.operations, if_pos (hall j)]
  have hproduct := hinverts.reduced
  rw [hone, hmat] at hproduct
  rw [hproduct, State.result, unscramble_eq]
  ext i j
  rw [Matrix.mul_apply, Matrix.mul_apply, ← Equiv.sum_comp (perm state.swaps)]
  simp

end GaussJordan
