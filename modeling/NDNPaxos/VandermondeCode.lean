import NDNPaxos.MatrixInversion
import NDNPaxos.Library.VandermondeInverse
import Mathlib.LinearAlgebra.Lagrange
import Mathlib.Tactic

/-!
# The matrix of a code

`_invert_vdm` multiplies the linear factors of the points and divides one of
them out again for each column of the inverse.  Its loops lose the constant
term of the first two factors.  This is right for the points of `fec_new`,
where the first one is 0, but not for every Vandermonde matrix.  The matrix
that `fec_new` makes has unit rows first, and any `k` of its rows can be
inverted as long as the points are different.
-/

namespace NDNPaxos

open Polynomial Vandermonde

namespace InvertVdm

variable {p : GfRow} {k : ℕ}

/-! ## The product of the linear factors -/

/-- What the loops multiply instead of the linear factors of all points. -/
noncomputable def product (p : GfRow) (k : ℕ) : Gf[X] :=
  X * ((X - C (p 0 + p 1)) * Lagrange.nodal (Finset.Ico 2 k) p)

theorem product_succ (p : GfRow) (hk : 2 ≤ k) :
    product p (k + 1) = (X - C (p k)) * product p k := by
  rw [product, product, Nat.Ico_succ_right_eq_insert_Ico hk,
    Lagrange.nodal_insert_eq_nodal (by simp)]
  ring

theorem coeff_product_zero (p : GfRow) (k : ℕ) : (product p k).coeff 0 = 0 := by
  rw [product, coeff_X_mul_zero]

theorem coeff_product_succ (p : GfRow) (hk : 2 ≤ k) (i : ℕ) :
    (product p (k + 1)).coeff (i + 1) =
      (product p k).coeff i + p k * (product p k).coeff (i + 1) := by
  rw [product_succ p hk, sub_mul, coeff_sub, coeff_X_mul, coeff_C_mul, Gf.sub_eq]

theorem monic_product (p : GfRow) (k : ℕ) : (product p k).Monic :=
  monic_X.mul ((monic_X_sub_C _).mul Lagrange.nodal_monic)

theorem natDegree_product (p : GfRow) (hk : 2 ≤ k) : (product p k).natDegree = k := by
  rw [product, monic_X.natDegree_mul ((monic_X_sub_C _).mul Lagrange.nodal_monic),
    (monic_X_sub_C _).natDegree_mul Lagrange.nodal_monic, natDegree_X, natDegree_X_sub_C,
    Lagrange.natDegree_nodal, Nat.card_Ico]
  omega

theorem coeff_product_self (p : GfRow) (hk : 2 ≤ k) : (product p k).coeff k = 1 := by
  have hcoeff := (monic_product p k).coeff_natDegree
  rwa [natDegree_product p hk] at hcoeff

theorem eval_product (p : GfRow) (k : ℕ) (x : Gf) :
    (product p k).eval x = x * ((x + (p 0 + p 1)) * ∏ i ∈ Finset.Ico 2 k, (x + p i)) := by
  simp only [product, eval_mul, eval_X, eval_sub, eval_C, Lagrange.eval_nodal, Gf.sub_eq]

/-- All points have the value 0 except the first two. -/
theorem eval_product_same_iff (hdistinct : Set.InjOn p (Finset.range k)) (hk : 2 ≤ k) :
    (∀ i < k, ∀ j < k, (product p k).eval (p i) = (product p k).eval (p j)) ↔
      k = 2 ∨ p 0 * p 1 = 0 := by
  have hzero : (product p k).eval (p 0) =
      p 0 * p 1 * ∏ i ∈ Finset.Ico 2 k, (p 0 + p i) := by
    rw [eval_product, ← add_assoc, Gf.add_self, zero_add, mul_assoc]
  have hone : (product p k).eval (p 1) =
      p 0 * p 1 * ∏ i ∈ Finset.Ico 2 k, (p 1 + p i) := by
    rw [eval_product, add_comm (p 0), ← add_assoc, Gf.add_self, zero_add]
    ring
  have hlater : ∀ i, 2 ≤ i → i < k → (product p k).eval (p i) = 0 := by
    intro i hle hlt
    rw [eval_product, Finset.prod_eq_zero (Finset.mem_Ico.mpr ⟨hle, hlt⟩) (Gf.add_self _),
      mul_zero, mul_zero]
  constructor
  · intro hsame
    by_cases htwo : k = 2
    · exact .inl htwo
    · right
      have hvalue := hsame 0 (by omega) 2 (by omega)
      rw [hzero, hlater 2 le_rfl (by omega)] at hvalue
      apply (mul_eq_zero.mp hvalue).resolve_right
      apply Finset.prod_ne_zero_iff.mpr
      intro i hmem hsum
      rcases Finset.mem_Ico.mp hmem with ⟨hle, hlt⟩
      rw [← Gf.sub_eq, sub_eq_zero] at hsum
      have hi := hdistinct (by simp; omega) (by simpa using hlt) hsum
      omega
  · intro hcases
    have hvalue : ∃ value, ∀ i < k, (product p k).eval (p i) = value := by
      rcases hcases with rfl | hproduct
      · refine ⟨p 0 * p 1, ?_⟩
        intro i hi
        interval_cases i
        · rw [hzero, Finset.Ico_self, Finset.prod_empty, mul_one]
        · rw [hone, Finset.Ico_self, Finset.prod_empty, mul_one]
      · refine ⟨0, ?_⟩
        intro i hi
        rcases Nat.lt_or_ge i 2 with hlt | hge
        · interval_cases i
          · rw [hzero, hproduct, zero_mul]
          · rw [hone, hproduct, zero_mul]
        · exact hlater i hge hi
    rcases hvalue with ⟨value, hvalue⟩
    intro i hi j hj
    rw [hvalue i hi, hvalue j hj]

theorem foldl_addNext (c : GfRow) (x : Gf) (start m j : ℕ) :
    (List.range' start m).foldl (fun c j => Function.update c j (c j + x * c (j + 1))) c j =
      if start ≤ j ∧ j < start + m then c j + x * c (j + 1) else c j := by
  induction m generalizing j with
  | zero => rw [if_neg (by omega)]; rfl
  | succ m ih =>
      rw [List.range'_concat, List.foldl_append, List.foldl_cons, List.foldl_nil, Nat.one_mul]
      by_cases hlast : j = start + m
      · rw [hlast, Function.update_self, ih, ih, if_neg (by omega), if_neg (by omega),
          if_pos (by omega)]
      · rw [Function.update_of_ne hlast, ih]
        split_ifs <;> first | rfl | omega

theorem nextCoefficients_apply (p c : GfRow) {i : ℕ} (hi : 0 < i) (hlt : i < k) (j : ℕ) :
    nextCoefficients p k c i j =
      if j = k - 1 then c j + p i
      else if k - i ≤ j ∧ j < k - 1 then c j + p i * c (j + 1) else c j := by
  have hstart : k - 1 - (i - 1) = k - i := by omega
  have hend : k - i + (i - 1) = k - 1 := by omega
  rw [nextCoefficients]
  by_cases hlast : j = k - 1
  · rw [hlast, Function.update_self, foldl_addNext, hstart, hend, if_neg (by omega), if_pos rfl]
  · rw [Function.update_of_ne hlast, foldl_addNext, hstart, hend, if_neg hlast]

/-- The coefficients of the product of the first factors stand at the end. -/
def Holds (p : GfRow) (k i : ℕ) (c : GfRow) : Prop :=
  ∀ j < k, c j = if k - 1 - i ≤ j then (product p (i + 1)).coeff (j - (k - 1 - i)) else 0

theorem holds_first (p : GfRow) (hk : 2 ≤ k) :
    Holds p k 1 (nextCoefficients p k (Function.update 0 (k - 1) (p 0)) 1) := by
  intro j hj
  have hcoeff : (product p 2).coeff 1 = p 0 + p 1 := by
    simp [product, Gf.neg_eq, add_comm]
  rw [nextCoefficients_apply p _ Nat.one_pos hk, if_neg (show ¬ (k - 1 ≤ j ∧ j < k - 1) by omega)]
  split_ifs with hlast hplace hplace
  · have hindex : j - (k - 1 - 1) = 1 := by omega
    rw [hindex, hcoeff, hlast, Function.update_self]
  · omega
  · have hindex : j - (k - 1 - 1) = 0 := by omega
    rw [hindex, coeff_product_zero, Function.update_of_ne hlast]
    rfl
  · rw [Function.update_of_ne hlast]
    rfl

theorem Holds.next {c : GfRow} {i : ℕ} (hholds : Holds p k i c) (hi : 1 ≤ i) (hlt : i + 1 < k) :
    Holds p k (i + 1) (nextCoefficients p k c (i + 1)) := by
  intro j hj
  have hcoeff := coeff_product_succ p (show 2 ≤ i + 1 by omega)
  rw [nextCoefficients_apply p c (Nat.succ_pos i) hlt]
  split_ifs with hlast hmiddle hplace hplace
  · -- The factor that was monic so far gets its second coefficient.
    have hindex : j - (k - 1 - (i + 1)) = (j - (k - 1 - i)) + 1 := by omega
    have hdegree : j - (k - 1 - i) + 1 = i + 1 := by omega
    rw [hholds j hj, if_pos (by omega), hindex, hcoeff, hdegree,
      coeff_product_self p (by omega), mul_one]
  · omega
  · have hindex : j - (k - 1 - (i + 1)) = (j - (k - 1 - i)) + 1 := by omega
    have hshift : j + 1 - (k - 1 - i) = (j - (k - 1 - i)) + 1 := by omega
    rw [hholds j hj, if_pos (by omega), hholds (j + 1) (by omega), if_pos (by omega), hindex,
      hcoeff, hshift]
  · omega
  · -- The constant term, which the loop does not reach.
    have hindex : j - (k - 1 - (i + 1)) = 0 := by omega
    rw [hholds j hj, if_neg (by omega), hindex, coeff_product_zero]
  · rw [hholds j hj, if_neg (by omega)]

theorem coefficients_eq (p : GfRow) (hk : 2 ≤ k) {j : ℕ} (hj : j < k) :
    coefficients p k j = (product p k).coeff j := by
  have hrun : ∀ m, m + 1 < k → Holds p k (m + 1) ((List.range' 1 (m + 1)).foldl
      (nextCoefficients p k) (Function.update 0 (k - 1) (p 0))) := by
    intro m hm
    induction m with
    | zero => exact holds_first p hk
    | succ m ih =>
        rw [List.range'_concat, List.foldl_append, Nat.one_mul, Nat.add_comm 1 (m + 1)]
        exact (ih (by omega)).next (Nat.succ_pos m) hm
  have hholds := hrun (k - 2) (by omega) j hj
  have hcount : k - 2 + 1 = k - 1 := by omega
  rw [hcount] at hholds
  rw [coefficients, hholds, Nat.sub_self, if_pos (Nat.zero_le j), Nat.sub_zero,
    Nat.sub_add_cancel (Nat.zero_lt_of_lt hj)]

/-! ## Division by one factor -/

/-- The quotient and its value, from the coefficients that have been found. -/
structure Divides (p : GfRow) (k row turns : ℕ) (state : GfRow × Gf) : Prop where
  found : ∀ i, k - 1 - turns ≤ i → i < k →
    state.1 i = (quotient (product p k) (p row)).coeff i
  value : state.2 = ∑ i ∈ Finset.range (turns + 1),
    (quotient (product p k) (p row)).coeff (k - 1 - turns + i) * p row ^ i

theorem Divides.step {c : GfRow} (hc : ∀ j < k, c j = (product p k).coeff j) {row turns : ℕ}
    {state : GfRow × Gf} (hdivides : Divides p k row turns state) (hlt : turns + 1 < k) :
    Divides p k row (turns + 1) (divideStep c (p row) k state turns) := by
  have hi : k - 1 - turns - 1 = k - 1 - (turns + 1) := by omega
  have hsucc : k - 1 - turns = k - 1 - (turns + 1) + 1 := by omega
  have hnext : c (k - 1 - turns) + p row * state.1 (k - 1 - turns) =
      (quotient (product p k) (p row)).coeff (k - 1 - (turns + 1)) := by
    rw [coeff_quotient, hc _ (by omega), hdivides.found _ (Nat.le_refl _) (by omega), hsucc]
  have hfound : (divideStep c (p row) k state turns).1 = Function.update state.1
      (k - 1 - (turns + 1))
      ((quotient (product p k) (p row)).coeff (k - 1 - (turns + 1))) := by
    rw [divideStep, hnext, hi]
  have hvalue : (divideStep c (p row) k state turns).2 = p row * state.2 +
      (quotient (product p k) (p row)).coeff (k - 1 - (turns + 1)) := by
    rw [← hnext]
    exact congrArg (p row * state.2 + ·) (Function.update_self ..)
  constructor
  · intro i hge hlt
    rw [hfound]
    by_cases hlast : i = k - 1 - (turns + 1)
    · rw [hlast, Function.update_self]
    · rw [Function.update_of_ne hlast]
      exact hdivides.found i (by omega) hlt
  · rw [hvalue, hdivides.value, Finset.sum_range_succ' _ (turns + 1), pow_zero, mul_one,
      Nat.add_zero, Finset.mul_sum]
    congr 1
    apply Finset.sum_congr rfl
    intro i _
    rw [hsucc, pow_succ, Nat.add_assoc, Nat.add_comm 1 i]
    ring

theorem divide_eq {c : GfRow} (hk : 2 ≤ k) (hc : ∀ j < k, c j = (product p k).coeff j)
    (row : ℕ) (b : GfRow) :
    (∀ i < k, (divide c (p row) k b).1 i = (quotient (product p k) (p row)).coeff i) ∧
      (divide c (p row) k b).2 = (quotient (product p k) (p row)).eval (p row) := by
  have hdegree := natDegree_product p hk
  have hrun : ∀ turns < k, Divides p k row turns ((List.range turns).foldl
      (divideStep c (p row) k) (Function.update b (k - 1) 1, 1)) := by
    intro turns hlt
    induction turns with
    | zero =>
        have htop := coeff_quotient_top (monic_product p k) hdegree (by omega) (p row)
        constructor
        · intro i hge hlt
          have hi : i = k - 1 := by omega
          rw [hi, htop]
          exact Function.update_self ..
        · simp [htop]
    | succ turns ih =>
        rw [List.range_succ, List.foldl_append]
        exact (ih (by omega)).step hc hlt
  rcases hrun (k - 1) (by omega) with ⟨hfound, hvalue⟩
  constructor
  · intro i hi
    exact hfound i (by omega) hi
  · rw [divide, hvalue, eval_quotient_eq_sum hdegree (by omega), Nat.sub_self,
      Nat.sub_add_cancel (by omega : 1 ≤ k)]
    simp only [Nat.zero_add]

/-! ## The inverse -/

theorem foldl_column {c : GfRow} (hk : 2 ≤ k) (hc : ∀ j < k, c j = (product p k).coeff j)
    (src : GfMatrix) {m : ℕ} (hle : m ≤ k) (i j : ℕ) :
    ((List.range m).foldl (column p c k) (src, 0)).1 i j =
      if i < k ∧ j < m then ((quotient (product p k) (p j)).eval (p j))⁻¹ *
        (quotient (product p k) (p j)).coeff i
      else src i j := by
  induction m with
  | zero => rw [if_neg (by omega)]; rfl
  | succ m ih =>
      rw [List.range_succ, List.foldl_append, List.foldl_cons, List.foldl_nil, column]
      generalize (List.range m).foldl (column p c k) (src, 0) = state at ih ⊢
      rcases divide_eq hk hc m state.2 with ⟨hfound, hvalue⟩
      dsimp only
      by_cases hlast : i < k ∧ j = m
      · rw [if_pos hlast, if_pos (by omega), hfound i hlast.1, hvalue, hlast.2]
      · rw [if_neg hlast, ih (by omega)]
        split_ifs <;> first | rfl | omega

end InvertVdm

/-- The rows are the powers of different points. -/
structure DifferentPowers (src : GfMatrix) (k : ℕ) : Prop where
  rows : ∀ i < k, ∀ j < k, src i j = src i 1 ^ j
  distinct : Set.InjOn (fun i => src i 1) (Finset.range k)

theorem DifferentPowers.block_eq {src : GfMatrix} {k : ℕ} (hpowers : DifferentPowers src k) :
    src.block k = power (fun i => src i 1) k := by
  funext i j
  exact hpowers.rows i i.isLt j j.isLt

theorem block_invertVdm (src : GfMatrix) {k : ℕ} (hk : 2 ≤ k) : (invertVdm src k).block k =
    quotients (InvertVdm.product (fun i => src i 1) k) (fun i => src i 1) k := by
  funext i j
  have hc := fun j hj => InvertVdm.coefficients_eq (fun i => src i 1) hk (j := j) hj
  rw [invertVdm, if_neg (by omega)]
  exact (InvertVdm.foldl_column hk hc src (Nat.le_refl k) i j).trans (if_pos ⟨i.isLt, j.isLt⟩)

namespace DifferentPowers

variable {src : GfMatrix} {k : ℕ}

theorem mul_invertVdm_of_lt (hpowers : DifferentPowers src k) (hlt : k < 2) :
    src.block k * (invertVdm src k).block k = 1 := by
  rw [hpowers.block_eq]
  interval_cases k
  · exact Subsingleton.elim _ _
  · -- The matrix is 1, and so is its inverse.
    rw [invertVdm, if_pos rfl, hpowers.block_eq]
    ext i j
    rw [Subsingleton.elim i 0, Subsingleton.elim j 0, Matrix.mul_apply, Fin.sum_univ_one]
    simp [power, Matrix.vandermonde_apply]

theorem mul_invertVdm_iff_of_le (hpowers : DifferentPowers src k) (hle : 2 ≤ k) :
    src.block k * (invertVdm src k).block k = 1 ↔ k = 2 ∨ src 0 1 * src 1 1 = 0 := by
  have hdegree := InvertVdm.natDegree_product (fun i => src i 1) hle
  rw [hpowers.block_eq, block_invertVdm src hle,
    power_mul_quotients_eq_one_iff (InvertVdm.monic_product _ k) hdegree hpowers.distinct,
    InvertVdm.eval_product_same_iff hpowers.distinct hle]

/-- `_invert_vdm` inverts a Vandermonde matrix only when nothing is lost of the product. -/
theorem mul_invertVdm_iff (hpowers : DifferentPowers src k) :
    src.block k * (invertVdm src k).block k = 1 ↔ k ≤ 2 ∨ src 0 1 * src 1 1 = 0 := by
  rcases Nat.lt_or_ge k 2 with hlt | hge
  · exact iff_of_true (hpowers.mul_invertVdm_of_lt hlt) (.inl hlt.le)
  · rw [hpowers.mul_invertVdm_iff_of_le hge]
    apply or_congr_left
    omega

end DifferentPowers

/-- `_invert_vdm` leaves the rows after the first `k` alone. -/
theorem invertVdm_below (src : GfMatrix) {k row : ℕ} (hrow : k ≤ row) (col : ℕ) :
    invertVdm src k row col = src row col := by
  have hkept : ∀ (p c : GfRow) (m : ℕ),
      ((List.range m).foldl (InvertVdm.column p c k) (src, 0)).1 row col = src row col := by
    intro p c m
    induction m with
    | zero => rfl
    | succ m ih =>
        rw [List.range_succ, List.foldl_append, List.foldl_cons, List.foldl_nil, InvertVdm.column]
        exact (if_neg (by omega)).trans ih
  rw [invertVdm]
  split_ifs
  · rfl
  · exact hkept _ _ k

/-- The powers of 1, 2 and 3. -/
def powersFromOne : GfMatrix := fun row col => ⟨UInt8.ofNat (row + 1)⟩ ^ col

theorem differentPowers_powersFromOne : DifferentPowers powersFromOne 3 where
  rows i _ j _ := congrArg (· ^ j) (pow_one _).symm
  distinct := by
    intro i hi j hj heq
    have hi' : i < 3 := by simpa using hi
    have hj' : j < 3 := by simpa using hj
    simp only [powersFromOne, pow_one] at heq
    interval_cases i <;> interval_cases j <;> first | rfl | exact absurd heq (by decide)

theorem mul_invertVdm_powersFromOne :
    powersFromOne.block 3 * (invertVdm powersFromOne 3).block 3 ≠ 1 := by
  intro hone
  rcases differentPowers_powersFromOne.mul_invertVdm_iff.mp hone with hle | hzero
  · omega
  · simp only [powersFromOne, pow_one, mul_eq_zero] at hzero
    exact absurd hzero (by decide)

/-! ## The rows of a code -/

namespace FecT

/-- The field elements that a code starts from: 0 and the powers of the generator. -/
def point : GfRow := fun row => powers row 1

theorem point_succ (row : ℕ) : point (row + 1) = Gf.power row := by
  have hlt : row % 255 < 510 := (Nat.mod_lt row (by decide)).trans (by decide)
  rw [point, powers, if_neg (Nat.succ_ne_zero row), Nat.add_sub_cancel, Nat.mul_one, modnn_eq,
    filled_gfTables.exp _ hlt]
  exact Gf.fullPeriod.iterate_mod row

theorem powers_eq (row col : ℕ) : powers row col = point row ^ col := by
  cases row with
  | zero =>
      cases col with
      | zero => rfl
      | succ col => exact (zero_pow (Nat.succ_ne_zero col)).symm
  | succ row =>
      have hlt : row * col % 255 < 510 := (Nat.mod_lt _ (by decide)).trans (by decide)
      rw [point_succ, ← Gf.power_mul, powers, if_neg (Nat.succ_ne_zero row), Nat.add_sub_cancel,
        modnn_eq, filled_gfTables.exp _ hlt]
      exact Gf.fullPeriod.iterate_mod _

/-- There are as many different points as bytes. -/
theorem point_injOn : Set.InjOn point (Finset.range 256) := by
  have hzero : ∀ row, point 0 ≠ point (row + 1) := by
    intro row heq
    rw [point_succ] at heq
    exact Gf.fullPeriod.iterate_ne_zero row heq.symm
  intro row hrow row' hrow' heq
  have hlt : row < 256 := by simpa using hrow
  have hlt' : row' < 256 := by simpa using hrow'
  cases row with
  | zero =>
      cases row' with
      | zero => rfl
      | succ row' => exact absurd heq (hzero row')
  | succ row =>
      cases row' with
      | zero => exact absurd heq.symm (hzero row)
      | succ row' =>
          rw [point_succ, point_succ, Gf.power_inj (by omega) (by omega)] at heq
          rw [heq]

theorem differentPowers {k : ℕ} (hle : k ≤ 256) : DifferentPowers powers k where
  rows i _ j _ := powers_eq i j
  distinct := point_injOn.mono (by simpa using hle)

/-- The first point is 0, so the inverse is right. -/
theorem block_invertVdm_powers {k : ℕ} (hle : k ≤ 256) :
    (invertVdm powers k).block k = (power point k)⁻¹ := by
  have hpowers := differentPowers hle
  have hproduct : powers.block k * (invertVdm powers k).block k = 1 := by
    rcases Nat.lt_or_ge k 2 with hlt | hge
    · exact hpowers.mul_invertVdm_of_lt hlt
    · exact (hpowers.mul_invertVdm_iff_of_le hge).mpr (.inr (zero_mul (powers 1 1)))
  rw [hpowers.block_eq] at hproduct
  exact (Matrix.inv_eq_right_inv hproduct).symm

/-- Each row of the matrix, in terms of the powers of its point. -/
theorem encMatrix_new {k : ℕ} (hle : k ≤ 256) (n row : ℕ) (col : Fin k) :
    (FecT.new k n).encMatrix row col = generator point k row col := by
  have hpowers := differentPowers hle
  have hprimary : ∀ i j : Fin k, generator point k i j = (1 : Matrix (Fin k) (Fin k) Gf) i j :=
    fun i j => congrFun (generator_primary hpowers.distinct i) j
  rw [FecT.new]
  dsimp only
  split_ifs with hrow heq
  · subst heq
    exact (Matrix.one_apply_eq col).symm.trans (hprimary col col).symm
  · exact ((hprimary ⟨row, hrow⟩ col).trans (Matrix.one_apply_ne fun hsame =>
      heq (congrArg Fin.val hsame))).symm
  · have hge := Nat.le_of_not_lt hrow
    rw [matmul_apply, generator]
    apply Finset.sum_congr rfl
    intro i _
    have hentry := congrFun (congrFun (block_invertVdm_powers hle) i) col
    rw [Nat.add_sub_cancel' hge, invertVdm_below _ hge, powers_eq]
    exact congrArg (point row ^ (i : ℕ) * ·) hentry

theorem generator_point {k : ℕ} (hle : k ≤ 256) (slot : Fin k) :
    generator point k slot = (1 : Matrix (Fin k) (Fin k) Gf) slot :=
  generator_primary (differentPowers hle).distinct slot

/-- With one source block all rows are the same, else the points must be different. -/
theorem det_generator_point {k n : ℕ} (hle : k ≤ 256) (hk : k ≤ n) (hpoints : k ≤ 1 ∨ n ≤ 256)
    {index : Fin k → ℕ} (hindex : Function.Injective index) (hlt : ∀ slot, index slot < n) :
    (Matrix.of fun slot => generator point k (index slot)).det ≠ 0 := by
  rcases hpoints with hsmall | hn
  · have hone : (Matrix.of fun slot => generator point k (index slot)) = 1 := by
      ext slot col
      rw [← generator_point hle, Matrix.of_apply, generator, generator]
      apply Finset.sum_congr rfl
      intro i _
      have hi : (i : ℕ) = 0 := by omega
      rw [hi, pow_zero, pow_zero]
    rw [hone, Matrix.det_one]
    exact one_ne_zero
  · exact det_generator_ne_zero hk (point_injOn.mono (by simpa using hn)) hindex hlt

/-- The points repeat after all 256 of them. -/
theorem generator_repeats (k : ℕ) : generator point k 256 = generator point k 1 := by
  have hpoint : point 256 = point 1 := by
    rw [point_succ, point_succ]
    exact Gf.fullPeriod.returns
  funext col
  rw [generator, generator, hpoint]

/-- Any `k` different rows of the matrix of a code can be inverted exactly when
there are enough field elements for all blocks. -/
theorem encMatrix_rows_iff (k n : ℕ) (hk : k ≤ n) (hle : k ≤ 256) :
    (∀ index : Fin k → ℕ, Function.Injective index → (∀ slot, index slot < n) →
      (Matrix.of fun slot col : Fin k => (FecT.new k n).encMatrix (index slot) col).det ≠ 0) ↔
        k ≤ 1 ∨ n ≤ 256 := by
  have hrows : ∀ index : Fin k → ℕ,
      (Matrix.of fun slot col : Fin k => (FecT.new k n).encMatrix (index slot) col) =
        Matrix.of fun slot => generator point k (index slot) := by
    intro index
    ext slot col
    exact encMatrix_new hle n (index slot) col
  constructor
  · intro hall
    by_contra hfew
    have hindex : Function.Injective fun slot : Fin k =>
        if (slot : ℕ) = 0 then 256 else (slot : ℕ) := by
      intro slot slot' heq
      apply Fin.ext
      dsimp only at heq
      split_ifs at heq <;> omega
    apply hall _ hindex
    · intro slot
      split_ifs <;> omega
    · rw [hrows]
      apply Matrix.det_zero_of_row_eq (i := ⟨0, by omega⟩) (j := ⟨1, by omega⟩)
      · simp
      · exact generator_repeats k
  · intro hpoints index hindex hlt
    rw [hrows]
    exact det_generator_point hle hk hpoints hindex hlt

theorem encMatrix_rows_three_of_five :
    (Matrix.of fun slot col : Fin 3 => (FecT.new 3 5).encMatrix (![4, 1, 3] slot) col).det ≠ 0 :=
  (encMatrix_rows_iff 3 5 (by decide) (by decide)).mpr (.inr (by decide)) ![4, 1, 3] (by decide)
    (by decide)

end FecT

end NDNPaxos
