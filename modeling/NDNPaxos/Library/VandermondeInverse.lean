import Mathlib.Algebra.Polynomial.Div
import Mathlib.LinearAlgebra.Vandermonde
import Mathlib.LinearAlgebra.Matrix.NonsingularInverse
import Mathlib.Tactic

/-!
# Inverting a Vandermonde matrix

A polynomial is divided by the linear factor of each point.  The coefficients
of the quotients, scaled, are the columns of the inverse exactly when the
polynomial has the same value at all points, as the product of all linear
factors has.  Any rows of powers at different points, multiplied with the
inverse of the first ones, are invertible again.
-/

open Polynomial

namespace Vandermonde

variable {K : Type*} [Field K] {points : ℕ → K} {k : ℕ}

/-- The powers of the first `k` points. -/
def power (points : ℕ → K) (k : ℕ) : Matrix (Fin k) (Fin k) K :=
  Matrix.vandermonde fun row => points row

theorem isUnit_det_power (hdistinct : Set.InjOn points (Finset.range k)) :
    IsUnit (power points k).det := by
  rw [isUnit_iff_ne_zero, power, Matrix.det_vandermonde_ne_zero_iff]
  intro row row' heq
  apply Fin.ext
  exact hdistinct (by simp) (by simp) heq

/-! ## Quotients -/

noncomputable def quotient (poly : K[X]) (point : K) : K[X] := poly /ₘ (X - C point)

noncomputable def quotients (poly : K[X]) (points : ℕ → K) (k : ℕ) :
    Matrix (Fin k) (Fin k) K := fun col row =>
  ((quotient poly (points row)).eval (points row))⁻¹ * (quotient poly (points row)).coeff col

section Quotient

variable {poly : K[X]} (hmonic : poly.Monic) (hdegree : poly.natDegree = k)

/-- Synthetic division. -/
theorem coeff_quotient (poly : K[X]) (point : K) (i : ℕ) :
    (quotient poly point).coeff i =
      poly.coeff (i + 1) + point * (quotient poly point).coeff (i + 1) :=
  coeff_divByMonic_X_sub_C_rec poly point i

theorem eval_quotient (poly : K[X]) (point other : K) :
    (other - point) * (quotient poly point).eval other = poly.eval other - poly.eval point := by
  have hdivision := congrArg (eval other) (modByMonic_add_div poly (X - C point))
  rw [modByMonic_X_sub_C_eq_C_eval, eval_add, eval_mul, eval_C, eval_sub, eval_X, eval_C]
    at hdivision
  exact eq_sub_of_add_eq' hdivision

include hdegree

theorem natDegree_quotient (point : K) : (quotient poly point).natDegree = k - 1 := by
  rw [quotient, natDegree_divByMonic poly (monic_X_sub_C point), natDegree_X_sub_C, hdegree]

theorem eval_quotient_eq_sum (hk : 0 < k) (point other : K) :
    (quotient poly point).eval other =
      ∑ i ∈ Finset.range k, (quotient poly point).coeff i * other ^ i := by
  apply eval_eq_sum_range'
  rw [natDegree_quotient hdegree]
  omega

theorem power_mul_quotients_apply (row col : Fin k) :
    (power points k * quotients poly points k) row col =
      ((quotient poly (points col)).eval (points col))⁻¹ *
        (quotient poly (points col)).eval (points row) := by
  rw [Matrix.mul_apply, eval_quotient_eq_sum hdegree (Fin.pos row) _ (points row), Finset.mul_sum,
    Finset.sum_range]
  apply Finset.sum_congr rfl
  intro i _
  rw [power, Matrix.vandermonde_apply, quotients]
  ring

include hmonic

theorem coeff_quotient_top (hk : 0 < k) (point : K) : (quotient poly point).coeff (k - 1) = 1 := by
  have hzero : (quotient poly point).coeff (k - 1 + 1) = 0 := by
    apply coeff_eq_zero_of_natDegree_lt
    rw [natDegree_quotient hdegree]
    omega
  have htop := hmonic.coeff_natDegree
  rw [hdegree] at htop
  rw [coeff_quotient, hzero, mul_zero, add_zero, Nat.sub_add_cancel hk, htop]

/-- A quotient that vanishes at the other points does not vanish at its own. -/
theorem eval_quotient_self (hdistinct : Set.InjOn points (Finset.range k)) {row : ℕ}
    (hrow : row < k)
    (hothers : ∀ other < k, other ≠ row → (quotient poly (points row)).eval (points other) = 0) :
    (quotient poly (points row)).eval (points row) ≠ 0 := by
  classical
  intro hself
  have hk := Nat.zero_lt_of_lt hrow
  have hzero : quotient poly (points row) = 0 := by
    apply eq_zero_of_natDegree_lt_card_of_eval_eq_zero' _ ((Finset.range k).image points)
    · intro point hmem
      rcases Finset.mem_image.mp hmem with ⟨other, hother, rfl⟩
      by_cases heq : other = row
      · rw [heq, hself]
      · exact hothers other (Finset.mem_range.mp hother) heq
    · rw [Finset.card_image_of_injOn hdistinct, Finset.card_range, natDegree_quotient hdegree]
      omega
  have htop := coeff_quotient_top hmonic hdegree hk (points row)
  rw [hzero, coeff_zero] at htop
  exact zero_ne_one htop

/-- The quotients invert the matrix exactly when the remainders are all the same. -/
theorem power_mul_quotients_eq_one_iff (hdistinct : Set.InjOn points (Finset.range k)) :
    power points k * quotients poly points k = 1 ↔
      ∀ i < k, ∀ j < k, poly.eval (points i) = poly.eval (points j) := by
  constructor
  · intro hone i hi j hj
    by_cases heq : i = j
    · rw [heq]
    · have hdiagonal := congrFun (congrFun hone ⟨j, hj⟩) ⟨j, hj⟩
      have hother := congrFun (congrFun hone ⟨i, hi⟩) ⟨j, hj⟩
      rw [power_mul_quotients_apply hdegree, Matrix.one_apply_eq] at hdiagonal
      rw [power_mul_quotients_apply hdegree, Matrix.one_apply_ne fun hval =>
        heq (congrArg Fin.val hval)] at hother
      have hvalue := (mul_eq_zero.mp hother).resolve_left (left_ne_zero_of_mul_eq_one hdiagonal)
      rw [← sub_eq_zero, ← eval_quotient, hvalue, mul_zero]
  · intro hsame
    have hothers : ∀ row < k, ∀ other < k, other ≠ row →
        (quotient poly (points row)).eval (points other) = 0 := by
      intro row hrow other hother hne
      have hproduct := eval_quotient poly (points row) (points other)
      rw [hsame other hother row hrow, sub_self] at hproduct
      apply (mul_eq_zero.mp hproduct).resolve_left
      rw [sub_eq_zero]
      exact fun heq => hne (hdistinct (by simpa using hother) (by simpa using hrow) heq)
    ext row col
    rw [power_mul_quotients_apply hdegree, Matrix.one_apply]
    split_ifs with heq
    · rw [heq]
      exact inv_mul_cancel₀ (eval_quotient_self hmonic hdegree hdistinct col.isLt
        (hothers col col.isLt))
    · rw [hothers col col.isLt row row.isLt fun hval => heq (Fin.ext hval), mul_zero]

end Quotient

/-! ## The systematic code -/

/-- The powers of any point, in terms of the powers of the first `k` points. -/
noncomputable def generator (points : ℕ → K) (k row : ℕ) : Fin k → K := fun col =>
  ∑ i : Fin k, points row ^ (i : ℕ) * (power points k)⁻¹ i col

theorem generator_primary (hdistinct : Set.InjOn points (Finset.range k)) (row : Fin k) :
    generator points k row = (1 : Matrix (Fin k) (Fin k) K) row := by
  rw [← Matrix.mul_nonsing_inv _ (isUnit_det_power hdistinct)]
  rfl

/-- Any `k` rows at different points determine the others. -/
theorem det_generator_ne_zero {n : ℕ} (hle : k ≤ n)
    (hdistinct : Set.InjOn points (Finset.range n)) {index : Fin k → ℕ}
    (hindex : Function.Injective index) (hlt : ∀ slot, index slot < n) :
    (Matrix.of fun slot => generator points k (index slot)).det ≠ 0 := by
  have hsub : Set.InjOn points (Finset.range k) :=
    hdistinct.mono (by simpa using hle)
  have hproduct : (Matrix.of fun slot => generator points k (index slot)) =
      Matrix.vandermonde (fun slot => points (index slot)) * (power points k)⁻¹ := by
    ext slot col
    rfl
  rw [hproduct, Matrix.det_mul]
  apply mul_ne_zero
  · rw [Matrix.det_vandermonde_ne_zero_iff]
    intro slot slot' heq
    exact hindex (hdistinct (by simpa using hlt slot) (by simpa using hlt slot') heq)
  · rw [← isUnit_iff_ne_zero, Matrix.isUnit_nonsing_inv_det_iff]
    exact isUnit_det_power hsub

end Vandermonde
