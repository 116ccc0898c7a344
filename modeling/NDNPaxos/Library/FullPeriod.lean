import Mathlib.Dynamics.PeriodicPts.Lemmas
import Mathlib.Tactic

/-!
# Fields from a map of full period

An additive map that reaches every nonzero element from one of them before it
comes back to it is the multiplication with a generator of a field.  Products
are found by adding logarithms, so a table of logarithms is enough to multiply.
-/

/-- The map runs through as many elements as there are nonzero ones. -/
structure FullPeriod {G : Type*} [AddCommGroup G] (next : G → G) (one : G) (period : ℕ) :
    Prop where
  map_add : ∀ x y, next (x + y) = next x + next y
  one_ne_zero : one ≠ 0
  period_pos : 0 < period
  minimalPeriod : Function.minimalPeriod next one = period
  card : Nat.card G = period + 1

namespace FullPeriod

variable {G : Type*} [AddCommGroup G] {next : G → G} {one : G} {period : ℕ}

theorem returns (hfull : FullPeriod next one period) : next^[period] one = one := by
  have hreturns := Function.iterate_minimalPeriod (f := next) (x := one)
  rwa [hfull.minimalPeriod] at hreturns

theorem iterate_add (hfull : FullPeriod next one period) (i : ℕ) (x y : G) :
    next^[i] (x + y) = next^[i] x + next^[i] y := by
  induction i generalizing x y with
  | zero => rfl
  | succ i ih => rw [Function.iterate_succ_apply, hfull.map_add, ih, ← Function.iterate_succ_apply,
      ← Function.iterate_succ_apply]

theorem iterate_zero (hfull : FullPeriod next one period) (i : ℕ) : next^[i] 0 = 0 := by
  have hdouble := hfull.iterate_add i 0 0
  rwa [add_zero, left_eq_add] at hdouble

theorem iterate_ne_zero (hfull : FullPeriod next one period) (i : ℕ) : next^[i] one ≠ 0 := by
  intro hzero
  have hcycle : next^[period * i] one = one := by
    rw [Function.iterate_mul]
    exact Function.iterate_fixed hfull.returns i
  have hsplit : period * i = (period * i - i) + i :=
    (Nat.sub_add_cancel (Nat.le_mul_of_pos_left i hfull.period_pos)).symm
  rw [hsplit, Function.iterate_add_apply, hzero, hfull.iterate_zero] at hcycle
  exact hfull.one_ne_zero hcycle.symm

theorem iterate_inj (hfull : FullPeriod next one period) {i j : ℕ} (hi : i < period)
    (hj : j < period) : next^[i] one = next^[j] one ↔ i = j := by
  rw [← hfull.minimalPeriod] at hi hj
  exact Function.iterate_eq_iterate_iff_of_lt_minimalPeriod hi hj

theorem exists_iterate (hfull : FullPeriod next one period) {x : G} (hx : x ≠ 0) :
    ∃ i < period, next^[i] one = x := by
  classical
  have hfinite : Finite G := Nat.finite_of_card_ne_zero (by rw [hfull.card]; omega)
  have hfintype := Fintype.ofFinite G
  have hall : (Finset.range period).image (fun i => next^[i] one) = Finset.univ.erase 0 := by
    apply Finset.eq_of_subset_of_card_le
    · intro y hmem
      rcases Finset.mem_image.mp hmem with ⟨i, _, rfl⟩
      exact Finset.mem_erase.mpr ⟨hfull.iterate_ne_zero i, Finset.mem_univ _⟩
    · have hcard := hfull.card
      rw [Nat.card_eq_fintype_card] at hcard
      rw [Finset.card_erase_of_mem (Finset.mem_univ _), Finset.card_univ, hcard,
        Finset.card_image_of_injOn, Finset.card_range, Nat.add_sub_cancel]
      intro i hi j hj heq
      exact (hfull.iterate_inj (by simpa using hi) (by simpa using hj)).mp heq
  have hmem : x ∈ (Finset.range period).image fun i => next^[i] one := by
    rw [hall]
    exact Finset.mem_erase.mpr ⟨hx, Finset.mem_univ x⟩
  rcases Finset.mem_image.mp hmem with ⟨i, hi, hpower⟩
  exact ⟨i, Finset.mem_range.mp hi, hpower⟩

theorem iterate_mod (hfull : FullPeriod next one period) (i : ℕ) :
    next^[i % period] one = next^[i] one := by
  rw [← hfull.minimalPeriod]
  exact Function.iterate_mod_minimalPeriod_eq

end FullPeriod

/-- `log` counts the steps from `one`. -/
structure Logarithm {G : Type*} [AddCommGroup G] (next : G → G) (one : G) (period : ℕ)
    (log : G → ℕ) : Prop extends FullPeriod next one period where
  log_iterate : ∀ i < period, log (next^[i] one) = i

namespace Logarithm

variable {G : Type*} [AddCommGroup G] {next : G → G} {one : G} {period : ℕ} {log : G → ℕ}

theorem log_spec (hlog : Logarithm next one period log) {x : G} (hx : x ≠ 0) :
    log x < period ∧ next^[log x] one = x := by
  rcases hlog.exists_iterate hx with ⟨i, hi, rfl⟩
  rw [hlog.log_iterate i hi]
  exact ⟨hi, rfl⟩

/-- Steps may be counted modulo the period, by way of the logarithm. -/
theorem iterate_log (hlog : Logarithm next one period log) (i : ℕ) (x : G) :
    next^[log (next^[i] one)] x = next^[i] x := by
  by_cases hx : x = 0
  · rw [hx, hlog.iterate_zero, hlog.iterate_zero]
  · rw [← (hlog.log_spec hx).2, ← Function.iterate_add_apply, ← Function.iterate_add_apply,
      Nat.add_comm _ (log x), Nat.add_comm i, Function.iterate_add_apply,
      Function.iterate_add_apply, (hlog.log_spec (hlog.iterate_ne_zero i)).2]

/-! ## The product -/

/-- As many steps as the logarithm of the other factor says. -/
def mul [DecidableEq G] (next : G → G) (log : G → ℕ) (x y : G) : G :=
  if x = 0 then 0 else next^[log x] y

variable [DecidableEq G]

theorem zero_mul (x : G) : mul next log 0 x = 0 := if_pos rfl

theorem mul_zero (hlog : Logarithm next one period log) (x : G) : mul next log x 0 = 0 := by
  rw [mul, hlog.iterate_zero, ite_self]

theorem iterate_mul (hlog : Logarithm next one period log) (i : ℕ) (x : G) :
    mul next log (next^[i] one) x = next^[i] x := by
  rw [mul, if_neg (hlog.iterate_ne_zero i), hlog.iterate_log]

theorem mul_eq (hlog : Logarithm next one period log) {x y : G} (hx : x ≠ 0) (hy : y ≠ 0) :
    mul next log x y = next^[log x + log y] one := by
  rw [mul, if_neg hx, Function.iterate_add_apply, (hlog.log_spec hy).2]

theorem one_mul (hlog : Logarithm next one period log) (x : G) : mul next log one x = x :=
  hlog.iterate_mul 0 x

theorem mul_comm (hlog : Logarithm next one period log) (x y : G) :
    mul next log x y = mul next log y x := by
  by_cases hx : x = 0
  · rw [hx, hlog.mul_zero, zero_mul]
  · by_cases hy : y = 0
    · rw [hy, hlog.mul_zero, zero_mul]
    · rw [hlog.mul_eq hx hy, hlog.mul_eq hy hx, Nat.add_comm]

theorem mul_assoc (hlog : Logarithm next one period log) (x y z : G) :
    mul next log (mul next log x y) z = mul next log x (mul next log y z) := by
  by_cases hx : x = 0
  · rw [hx, zero_mul, zero_mul, zero_mul]
  · by_cases hy : y = 0
    · rw [hy, hlog.mul_zero, zero_mul, hlog.mul_zero]
    · rw [hlog.mul_eq hx hy, hlog.iterate_mul, Function.iterate_add_apply, mul, if_neg hx, mul,
        if_neg hy]

theorem mul_add (hlog : Logarithm next one period log) (x y z : G) :
    mul next log x (y + z) = mul next log x y + mul next log x z := by
  unfold mul
  split_ifs
  · rw [add_zero]
  · exact hlog.iterate_add _ y z

theorem mul_inverse (hlog : Logarithm next one period log) {x : G} (hx : x ≠ 0) :
    mul next log x (next^[period - log x] one) = one := by
  rw [mul, if_neg hx, ← Function.iterate_add_apply,
    Nat.add_sub_cancel' (hlog.log_spec hx).1.le, hlog.returns]

end Logarithm
