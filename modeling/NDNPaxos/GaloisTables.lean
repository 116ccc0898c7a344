import NDNPaxos.Message
import NDNPaxos.Library.FullPeriod
import Mathlib.Algebra.Field.MinimalAxioms
import Mathlib.Tactic

/-!
# Tables of the Galois field

`generate_gf` fills the tables of powers, logarithms and inverses from the
primitive polynomial, and `_init_mul_table` the table of products.  Bytes with
`^=` for the sum and this table for the product are a field with 256 elements.
-/

namespace NDNPaxos

/-- `gf`, an `unsigned char`. -/
structure Gf where
  byte : UInt8
deriving DecidableEq, Repr

namespace Gf

instance : Zero Gf := ⟨⟨0⟩⟩

instance : One Gf := ⟨⟨1⟩⟩

/-- `^=` -/
instance : Add Gf := ⟨fun x y => ⟨x.byte ^^^ y.byte⟩⟩

def shiftLeft (x : Gf) (i : ℕ) : Gf := ⟨UInt8.ofNat (x.byte.toNat <<< i)⟩

end Gf

/-- `Pp` -/
def primitive : List Char := ['1', '0', '1', '1', '1', '0', '0', '0', '1']

/-- The static arrays of the library, zero before they are initialised. -/
structure GfTables where
  gfExp : ℕ → Gf := fun _ => 0
  gfLog : Gf → ℕ := fun _ => 0
  inverse : Gf → Gf := fun _ => 0

namespace GfTables

def setExp (tables : GfTables) (i : ℕ) (value : Gf) : GfTables :=
  { tables with gfExp := Function.update tables.gfExp i value }

def setLog (tables : GfTables) (x : Gf) (i : ℕ) : GfTables :=
  { tables with gfLog := Function.update tables.gfLog x i }

def setInverse (tables : GfTables) (x value : Gf) : GfTables :=
  { tables with inverse := Function.update tables.inverse x value }

/-- The first 8 powers are single bits; `gf_exp[8]` is put together meanwhile. -/
def firstPower (tables : GfTables) (i : ℕ) : GfTables :=
  let mask := (1 : Gf).shiftLeft i
  let tables := tables.setExp i mask
  let tables := tables.setLog (tables.gfExp i) i
  if primitive[i]? = some '1' then tables.setExp 8 (tables.gfExp 8 + mask) else tables

/-- The next power from the last one, given `gf_exp[8]`. -/
def nextPower (eighth last : Gf) : Gf :=
  let mask := (1 : Gf).shiftLeft 7
  if mask.byte ≤ last.byte then eighth + (last + mask).shiftLeft 1 else last.shiftLeft 1

def otherPower (tables : GfTables) (i : ℕ) : GfTables :=
  let tables := tables.setExp i (nextPower (tables.gfExp 8) (tables.gfExp (i - 1)))
  tables.setLog (tables.gfExp i) i

def repeatPower (tables : GfTables) (i : ℕ) : GfTables :=
  tables.setExp (i + 255) (tables.gfExp i)

def invert (tables : GfTables) (i : ℕ) : GfTables :=
  let x : Gf := ⟨UInt8.ofNat i⟩
  tables.setInverse x (tables.gfExp (255 - tables.gfLog x))

end GfTables

/-- `generate_gf` -/
def generateGf : GfTables :=
  let tables : GfTables := {}
  let tables := (List.range 8).foldl GfTables.firstPower (tables.setExp 8 0)
  let tables := tables.setLog (tables.gfExp 8) 8
  let tables := (List.range' 9 246).foldl GfTables.otherPower tables
  let tables := tables.setLog 0 255
  let tables := (List.range 255).foldl GfTables.repeatPower tables
  let tables := (tables.setInverse 0 0).setInverse 1 1
  (List.range' 2 254).foldl GfTables.invert tables

/-- `x % 255` without a division. -/
def modnn (x : ℕ) : ℕ :=
  if 255 ≤ x then modnn (((x - 255) >>> 8) + ((x - 255) &&& 255)) else x
termination_by x
decreasing_by
  have hmod : (x - 255) &&& 255 = (x - 255) % 2 ^ 8 := Nat.and_two_pow_sub_one_eq_mod _ 8
  rw [hmod, Nat.shiftRight_eq_div_pow]
  omega

/-- The table that `_init_mul_table` fills. -/
def gfMulTable (tables : GfTables) (x y : Gf) : Gf :=
  if x = 0 ∨ y = 0 then 0 else tables.gfExp (modnn (tables.gfLog x + tables.gfLog y))

theorem modnn_eq (x : ℕ) : modnn x = x % 255 := by
  induction x using modnn.induct with
  | case1 x hge ih =>
      have hmod : (x - 255) &&& 255 = (x - 255) % 2 ^ 8 := Nat.and_two_pow_sub_one_eq_mod _ 8
      rw [modnn, if_pos hge, ih, hmod, Nat.shiftRight_eq_div_pow]
      omega
  | case2 x hlt =>
      rw [modnn, if_neg hlt]
      omega

/-! ## The powers of the generator -/

namespace Gf

theorem eq_of_toNat {x y : Gf} (heq : x.byte.toNat = y.byte.toNat) : x = y :=
  congrArg mk (UInt8.toNat_inj.mp heq)

/-- Multiplication with the generator: a shift, reduced by the polynomial. -/
def timesAlpha (x : Gf) : Gf := GfTables.nextPower ⟨29⟩ x

def power (i : ℕ) : Gf := timesAlpha^[i] 1

/-- Every element is its own negative. -/
instance : Neg Gf := ⟨id⟩

instance : AddCommGroup Gf where
  add_assoc x y z := congrArg mk (UInt8.xor_assoc x.byte y.byte z.byte)
  zero_add x := congrArg mk UInt8.zero_xor
  add_zero x := congrArg mk UInt8.xor_zero
  add_comm x y := congrArg mk (UInt8.xor_comm x.byte y.byte)
  neg_add_cancel x := congrArg mk UInt8.xor_self
  nsmul := nsmulRec
  zsmul := zsmulRec

def topBit (x : Gf) : Bool := x.byte.toBitVec.msb

theorem timesAlpha_eq (x : Gf) :
    x.timesAlpha = ⟨⟨x.byte.toBitVec <<< 1⟩⟩ + if x.topBit then ⟨29⟩ else 0 := by
  have hbytes : ∀ n < 256, timesAlpha ⟨UInt8.ofNat n⟩ =
      ⟨⟨(UInt8.ofNat n).toBitVec <<< 1⟩⟩ + if topBit ⟨UInt8.ofNat n⟩ then ⟨29⟩ else 0 := by
    decide +kernel
  have hx := hbytes x.byte.toNat x.byte.toNat_lt
  rwa [UInt8.ofNat_toNat] at hx

theorem topBit_add (x y : Gf) : (x + y).topBit = (x.topBit ^^ y.topBit) := BitVec.msb_xor

theorem timesAlpha_add (x y : Gf) : (x + y).timesAlpha = x.timesAlpha + y.timesAlpha := by
  have hshift : (⟨⟨(x + y).byte.toBitVec <<< 1⟩⟩ : Gf) =
      ⟨⟨x.byte.toBitVec <<< 1⟩⟩ + ⟨⟨y.byte.toBitVec <<< 1⟩⟩ :=
    congrArg (fun bits => (⟨⟨bits⟩⟩ : Gf)) (BitVec.shiftLeft_xor_distrib _ _ 1)
  have hcarry : (if (x + y).topBit then ⟨29⟩ else 0 : Gf) =
      (if x.topBit then ⟨29⟩ else 0) + if y.topBit then ⟨29⟩ else 0 := by
    rw [topBit_add]
    cases x.topBit <;> cases y.topBit <;> rfl
  rw [timesAlpha_eq, timesAlpha_eq, timesAlpha_eq, hshift, hcarry]
  exact add_add_add_comm _ _ _ _

theorem power_succ (i : ℕ) : power (i + 1) = (power i).timesAlpha :=
  Function.iterate_succ_apply' timesAlpha i 1

/-- The generator has order 255: the order divides 255, but none of 85, 51 and 15. -/
theorem minimalPeriod_timesAlpha : Function.minimalPeriod timesAlpha 1 = 255 := by
  have hperiod : ∀ {i}, power i = 1 ↔ Function.minimalPeriod timesAlpha 1 ∣ i :=
    Function.isPeriodicPt_iff_minimalPeriod_dvd
  have hdvd : Function.minimalPeriod timesAlpha 1 ∣ 255 := hperiod.mp (by decide +kernel)
  have hdivisors : ∀ d ≤ 255, d ∣ 255 → d = 255 ∨ d ∣ 85 ∨ d ∣ 51 ∨ d ∣ 15 := by
    decide +kernel
  rcases hdivisors _ (Nat.le_of_dvd (by decide) hdvd) hdvd with hfull | hpart | hpart | hpart
  · exact hfull
  · exact absurd (hperiod.mpr hpart) (by decide +kernel)
  · exact absurd (hperiod.mpr hpart) (by decide +kernel)
  · exact absurd (hperiod.mpr hpart) (by decide +kernel)

theorem card_eq : Nat.card Gf = 256 := by
  have hequiv : Gf ≃ Fin 256 :=
    { toFun := fun x => x.byte.toFin
      invFun := fun i => ⟨UInt8.ofFin i⟩
      left_inv := fun x => rfl
      right_inv := fun i => rfl }
  rw [Nat.card_congr hequiv, Nat.card_fin]

theorem fullPeriod : FullPeriod timesAlpha 1 255 where
  map_add := timesAlpha_add
  one_ne_zero := by decide
  period_pos := by decide
  minimalPeriod := minimalPeriod_timesAlpha
  card := card_eq

theorem power_inj {i j : ℕ} (hi : i < 255) (hj : j < 255) : power i = power j ↔ i = j :=
  fullPeriod.iterate_inj hi hj

end Gf

/-! ## What the loops fill in -/

namespace GfTables

open Gf

/-- The first powers are in the table, each with its logarithm. -/
structure Powers (tables : GfTables) (count : ℕ) : Prop where
  exp : ∀ i < count, tables.gfExp i = power i
  log : ∀ i < count, tables.gfLog (power i) = i

def afterFirst : GfTables :=
  let tables := (List.range 8).foldl firstPower (setExp {} 8 0)
  tables.setLog (tables.gfExp 8) 8

theorem powers_first : Powers afterFirst 9 where
  exp := by decide +kernel
  log := by decide +kernel

theorem Powers.otherPower {tables : GfTables} {count : ℕ} (hpowers : Powers tables count)
    (hge : 9 ≤ count) (hlt : count < 255) : Powers (tables.otherPower count) (count + 1) := by
  have hnext : nextPower (tables.gfExp 8) (tables.gfExp (count - 1)) = power count := by
    rw [hpowers.exp 8 (by omega), hpowers.exp (count - 1) (by omega)]
    conv_rhs => rw [← Nat.sub_add_cancel (show 1 ≤ count by omega), power_succ]
    rfl
  have hentry : (tables.otherPower count).gfLog =
      Function.update tables.gfLog (power count) count := by
    simp [GfTables.otherPower, setLog, setExp, hnext]
  constructor
  · intro i hi
    simp only [GfTables.otherPower, setLog, setExp, hnext]
    rcases Nat.lt_succ_iff_lt_or_eq.mp hi with hold | rfl
    · rw [Function.update_of_ne (Nat.ne_of_lt hold), hpowers.exp i hold]
    · rw [Function.update_self]
  · intro i hi
    rw [hentry]
    rcases Nat.lt_succ_iff_lt_or_eq.mp hi with hold | rfl
    · have hne : power i ≠ power count := fun heq =>
        Nat.ne_of_lt hold ((power_inj (hold.trans hlt) hlt).mp heq)
      rw [Function.update_of_ne hne, hpowers.log i hold]
    · rw [Function.update_self]

theorem Powers.otherPowers {tables : GfTables} (hpowers : Powers tables 9) {m : ℕ}
    (hle : m ≤ 246) : Powers ((List.range' 9 m).foldl GfTables.otherPower tables) (9 + m) := by
  induction m with
  | zero => exact hpowers
  | succ m ih =>
      rw [List.range'_concat, List.foldl_append, Nat.one_mul]
      exact (ih (by omega)).otherPower (by omega) (by omega)

theorem Powers.setLog_zero {tables : GfTables} {count : ℕ} (hpowers : Powers tables count) :
    Powers (tables.setLog 0 255) count where
  exp := hpowers.exp
  log i hi := by
    have hne : power i ≠ 0 := fullPeriod.iterate_ne_zero i
    exact (Function.update_of_ne hne _ _).trans (hpowers.log i hi)

theorem gfLog_repeatPowers (tables : GfTables) (m : ℕ) :
    ((List.range m).foldl repeatPower tables).gfLog = tables.gfLog := by
  induction m with
  | zero => rfl
  | succ m ih =>
      rw [List.range_succ, List.foldl_append]
      exact ih

theorem power_add_period (i : ℕ) : power (i + 255) = power i :=
  (fullPeriod.iterate_mod (i + 255)).symm.trans
    ((Nat.add_mod_right i 255).symm ▸ fullPeriod.iterate_mod i)

/-- The second half of the table of powers repeats the first. -/
theorem Powers.repeatPowers {tables : GfTables} (hpowers : Powers tables 255) {m : ℕ}
    (hle : m ≤ 255) {i : ℕ} (hi : i < 255 + m) :
    ((List.range m).foldl repeatPower tables).gfExp i = power i := by
  induction m generalizing i with
  | zero => exact hpowers.exp i hi
  | succ m ih =>
      rw [List.range_succ, List.foldl_append]
      change Function.update (_ : ℕ → Gf) (m + 255) _ i = power i
      by_cases hlast : i = m + 255
      · rw [hlast, Function.update_self, ih (by omega) (by omega), power_add_period]
      · rw [Function.update_of_ne hlast, ih (by omega) (by omega)]

theorem inverses_frame (tables : GfTables) (m : ℕ) :
    ((List.range' 2 m).foldl invert tables).gfExp = tables.gfExp ∧
      ((List.range' 2 m).foldl invert tables).gfLog = tables.gfLog := by
  induction m with
  | zero => exact ⟨rfl, rfl⟩
  | succ m ih =>
      rw [List.range'_concat, List.foldl_append]
      exact ih

/-- The loop fills in one entry after the other, from 2 on. -/
theorem inverse_inverses (tables : GfTables) {m : ℕ} (hle : m ≤ 254) (x : Gf) :
    ((List.range' 2 m).foldl invert tables).inverse x =
      if 2 ≤ x.byte.toNat ∧ x.byte.toNat < 2 + m then tables.gfExp (255 - tables.gfLog x)
      else tables.inverse x := by
  induction m with
  | zero =>
      rw [if_neg (by omega)]
      rfl
  | succ m ih =>
      rcases inverses_frame tables m with ⟨hexp, hlog⟩
      rw [List.range'_concat, List.foldl_append]
      change Function.update _ (⟨UInt8.ofNat (2 + 1 * m)⟩ : Gf) _ x = _
      rw [hexp, hlog]
      by_cases hlast : x.byte.toNat = 2 + m
      · have hx : (⟨UInt8.ofNat (2 + 1 * m)⟩ : Gf) = x := by
          rw [Nat.one_mul, ← hlast, UInt8.ofNat_toNat]
        rw [hx, Function.update_self, if_pos (by omega)]
      · have hx : x ≠ ⟨UInt8.ofNat (2 + 1 * m)⟩ := by
          rintro rfl
          apply hlast
          rw [UInt8.toNat_ofNat']
          omega
        rw [Function.update_of_ne hx, ih (by omega)]
        split_ifs <;> first | rfl | omega

/-- What the initialised tables hold. -/
structure Filled (tables : GfTables) : Prop where
  exp : ∀ i < 510, tables.gfExp i = power i
  log : ∀ i < 255, tables.gfLog (power i) = i
  inverse_zero : tables.inverse 0 = 0
  inverse : ∀ x, x ≠ 0 → tables.inverse x = power (255 - tables.gfLog x)

/-- The tables of powers and logarithms are complete. -/
structure Repeated (tables : GfTables) : Prop where
  exp : ∀ i < 510, tables.gfExp i = power i
  log : ∀ i < 255, tables.gfLog (power i) = i

theorem Powers.repeated {tables : GfTables} (hpowers : Powers tables 255) :
    Repeated ((List.range 255).foldl repeatPower tables) where
  exp i hi := hpowers.repeatPowers (Nat.le_refl 255) hi
  log i hi := by rw [gfLog_repeatPowers, hpowers.log i hi]

theorem Repeated.filled {tables : GfTables} (hrepeated : Repeated tables)
    (hzero : tables.inverse 0 = 0) (hone : tables.inverse 1 = 1) :
    Filled ((List.range' 2 254).foldl invert tables) := by
  rcases inverses_frame tables 254 with ⟨hexp, hlog⟩
  have hinverse := inverse_inverses tables (Nat.le_refl 254)
  constructor
  · rw [hexp]
    exact hrepeated.exp
  · rw [hlog]
    exact hrepeated.log
  · rw [hinverse, if_neg (by decide), hzero]
  · intro x hx
    rw [hinverse, hlog]
    split_ifs with hlarge
    · exact hrepeated.exp _ (by omega)
    · have hpower : x = power 0 := by
        have hlt := x.byte.toNat_lt
        have hne : x.byte.toNat ≠ 0 := fun hnone => hx (eq_of_toNat hnone)
        exact eq_of_toNat (show x.byte.toNat = 1 by omega)
      rw [hpower, hrepeated.log 0 (by decide), Nat.sub_zero, ← Nat.zero_add 255, power_add_period]
      exact hone

theorem Repeated.withFirst {tables : GfTables} (hrepeated : Repeated tables) :
    Filled ((List.range' 2 254).foldl invert ((tables.setInverse 0 0).setInverse 1 1)) := by
  have hfirst : Repeated ((tables.setInverse 0 0).setInverse 1 1) :=
    ⟨hrepeated.exp, hrepeated.log⟩
  exact hfirst.filled rfl rfl

end GfTables

theorem filled_generateGf : generateGf.Filled := by
  have hpowers : GfTables.Powers (((List.range' 9 246).foldl GfTables.otherPower
      GfTables.afterFirst).setLog 0 255) 255 :=
    (GfTables.powers_first.otherPowers (Nat.le_refl 246)).setLog_zero
  exact hpowers.repeated.withFirst

/-- The tables of the library. -/
def gfTables : GfTables := generateGf

theorem filled_gfTables : gfTables.Filled := filled_generateGf

-- Everything else follows from what the tables hold, not from how they are filled.
attribute [irreducible] gfTables

/-! ## The field -/

theorem Gf.logarithm : Logarithm Gf.timesAlpha 1 255 gfTables.gfLog where
  toFullPeriod := Gf.fullPeriod
  log_iterate := filled_gfTables.log

/-- `gf_mul` -/
def gfMul (x y : Gf) : Gf := gfMulTable gfTables x y

theorem gfMul_eq (x y : Gf) : gfMul x y = Logarithm.mul Gf.timesAlpha gfTables.gfLog x y := by
  rw [gfMul, gfMulTable]
  by_cases hx : x = 0
  · rw [if_pos (.inl hx), hx, Logarithm.zero_mul]
  · by_cases hy : y = 0
    · rw [if_pos (.inr hy), hy, Gf.logarithm.mul_zero]
    · rw [if_neg (not_or.mpr ⟨hx, hy⟩), Gf.logarithm.mul_eq hx hy, modnn_eq,
        filled_gfTables.exp _ (by omega)]
      exact Gf.fullPeriod.iterate_mod _

namespace Gf

instance : Mul Gf := ⟨gfMul⟩

instance : Inv Gf := ⟨gfTables.inverse⟩

theorem mul_def (x y : Gf) : x * y = Logarithm.mul timesAlpha gfTables.gfLog x y := gfMul_eq x y

instance : Field Gf :=
  Field.ofMinimalAxioms Gf add_assoc zero_add neg_add_cancel
    (fun x y z => by simp only [mul_def, logarithm.mul_assoc])
    (fun x y => by rw [mul_def, mul_def, logarithm.mul_comm])
    (fun x => by rw [mul_def, logarithm.one_mul])
    (fun x hx => by
      change x * gfTables.inverse x = 1
      rw [mul_def, filled_gfTables.inverse x hx]
      exact logarithm.mul_inverse hx)
    filled_gfTables.inverse_zero
    (fun x y z => by simp only [mul_def, logarithm.mul_add])
    ⟨0, 1, by decide⟩

theorem power_add (i j : ℕ) : power (i + j) = power i * power j := by
  have hproduct : power i * power j = timesAlpha^[i] (power j) :=
    (mul_def _ _).trans (logarithm.iterate_mul i (power j))
  rw [hproduct, power, power, Function.iterate_add_apply]

theorem power_mul (i j : ℕ) : power (i * j) = power i ^ j := by
  induction j with
  | zero => rfl
  | succ j ih => rw [Nat.mul_succ, power_add, ih, pow_succ]

theorem neg_eq (x : Gf) : -x = x := rfl

theorem sub_eq (x y : Gf) : x - y = x + y := by rw [sub_eq_add_neg, neg_eq]

theorem add_self (x : Gf) : x + x = 0 := by rw [← sub_eq, sub_self]

end Gf

/-! ## Polynomials over two elements -/

open Polynomial

namespace Gf

def bit (x : Gf) (i : ℕ) : Bool := x.byte.toBitVec.getLsbD i

/-- The polynomial form of an element. -/
noncomputable def polynomial (x : Gf) : (ZMod 2)[X] :=
  ∑ i ∈ Finset.range 8, if x.bit i then X ^ i else 0

/-- The polynomial of `Pp`. -/
noncomputable def modulus : (ZMod 2)[X] :=
  ∑ i ∈ Finset.range 9, if primitive[i]? = some '1' then X ^ i else 0

theorem polynomial_add (x y : Gf) : (x + y).polynomial = x.polynomial + y.polynomial := by
  rw [polynomial, polynomial, polynomial, ← Finset.sum_add_distrib]
  apply Finset.sum_congr rfl
  intro i _
  have hbit : (x + y).bit i = (x.bit i ^^ y.bit i) := BitVec.getLsbD_xor
  rw [hbit]
  cases x.bit i <;> cases y.bit i <;> simp [CharTwo.add_self_eq_zero]

theorem polynomial_zero : polynomial 0 = 0 := by
  have hbit : ∀ i, bit 0 i = false := fun i => BitVec.getLsbD_zero
  simp [polynomial, hbit]

theorem polynomial_one : polynomial 1 = 1 := by
  have hbit : ∀ i < 8, bit 1 i = decide (i = 0) := by decide
  rw [polynomial, Finset.sum_eq_single 0]
  · rfl
  · intro i hmem hne
    rw [hbit i (Finset.mem_range.mp hmem), decide_eq_false hne]
    rfl
  · intro hnot
    simp at hnot

theorem modulus_eq : modulus = X ^ 8 + polynomial ⟨29⟩ := by
  simp only [modulus, polynomial, Finset.sum_range_succ, Finset.sum_range_zero]
  simp [primitive, bit]
  ring

theorem polynomial_shift (x : Gf) :
    polynomial ⟨⟨x.byte.toBitVec <<< 1⟩⟩ + (if x.topBit then X ^ 8 else 0) =
      X * x.polynomial := by
  have hzero : bit ⟨⟨x.byte.toBitVec <<< 1⟩⟩ 0 = false := by
    simp [bit]
  have hsucc : ∀ i < 7, bit ⟨⟨x.byte.toBitVec <<< 1⟩⟩ (i + 1) = x.bit i := by
    intro i hi
    simp [bit]
    omega
  have htop : x.topBit = x.bit 7 := BitVec.msb_eq_getLsbD_last _
  rw [polynomial, polynomial, Finset.sum_range_succ', hzero, Finset.sum_range_succ _ 7, htop,
    mul_add, Finset.mul_sum]
  congr 1
  · rw [if_neg (by decide), add_zero]
    apply Finset.sum_congr rfl
    intro i hmem
    rw [hsucc i (Finset.mem_range.mp hmem)]
    split_ifs
    · rw [pow_succ']
    · rw [mul_zero]
  · split_ifs
    · ring
    · rw [mul_zero]

/-- A step to the next power is a multiplication with `X` modulo the polynomial. -/
theorem dvd_polynomial_timesAlpha (x : Gf) :
    modulus ∣ X * x.polynomial - x.timesAlpha.polynomial := by
  rw [timesAlpha_eq, polynomial_add, ← polynomial_shift, modulus_eq]
  split_ifs
  · rw [add_sub_add_left_eq_sub, CharTwo.sub_eq_add]
  · rw [polynomial_zero, sub_self]
    exact dvd_zero _

theorem dvd_polynomial_iterate (i : ℕ) (x : Gf) :
    modulus ∣ X ^ i * x.polynomial - (timesAlpha^[i] x).polynomial := by
  induction i with
  | zero => simp
  | succ i ih =>
      have hsplit : X ^ (i + 1) * x.polynomial - (timesAlpha^[i + 1] x).polynomial =
          X * (X ^ i * x.polynomial - (timesAlpha^[i] x).polynomial) +
            (X * (timesAlpha^[i] x).polynomial - (timesAlpha^[i + 1] x).polynomial) := by
        ring
      rw [hsplit, Function.iterate_succ_apply']
      exact dvd_add (dvd_mul_of_dvd_right ih X) (dvd_polynomial_timesAlpha _)

theorem degree_polynomial_lt (x : Gf) : x.polynomial.degree < 8 := by
  apply (mem_degreeLT (n := 8)).mp
  apply Submodule.sum_mem
  intro i hmem
  split_ifs
  · rw [mem_degreeLT, degree_X_pow]
    exact_mod_cast Finset.mem_range.mp hmem
  · exact Submodule.zero_mem _

theorem monic_modulus : modulus.Monic := by
  rw [modulus_eq]
  exact monic_X_pow_add (degree_polynomial_lt ⟨29⟩)

theorem degree_modulus : modulus.degree = 8 := by
  rw [modulus_eq, degree_add_eq_left_of_degree_lt, degree_X_pow]
  · rfl
  · rw [degree_X_pow]
    exact degree_polynomial_lt ⟨29⟩

/-- The table of products multiplies polynomials modulo the one of `Pp`. -/
theorem polynomial_gfMul (x y : Gf) :
    (gfMul x y).polynomial = (x.polynomial * y.polynomial) %ₘ modulus := by
  have hreduced : (gfMul x y).polynomial %ₘ modulus = (gfMul x y).polynomial := by
    rw [modByMonic_eq_self_iff monic_modulus, degree_modulus]
    exact degree_polynomial_lt _
  rw [← hreduced]
  apply (modByMonic_eq_of_dvd_sub monic_modulus _).symm
  by_cases hx : x = 0
  · have hproduct : gfMul x y = 0 := by rw [gfMul_eq, hx, Logarithm.zero_mul]
    rw [hproduct, hx, polynomial_zero, zero_mul, sub_zero]
    exact dvd_zero _
  · rcases logarithm.exists_iterate hx with ⟨i, _, rfl⟩
    have hproduct : gfMul (timesAlpha^[i] 1) y = timesAlpha^[i] y := by
      rw [gfMul_eq, logarithm.iterate_mul]
    have hfirst := dvd_polynomial_iterate i 1
    rw [polynomial_one, mul_one] at hfirst
    have hsplit : (timesAlpha^[i] 1).polynomial * y.polynomial - (timesAlpha^[i] y).polynomial =
        (X ^ i * y.polynomial - (timesAlpha^[i] y).polynomial) -
          (X ^ i - (timesAlpha^[i] 1).polynomial) * y.polynomial := by
      ring
    rw [hproduct, hsplit]
    exact dvd_sub (dvd_polynomial_iterate i y) (dvd_mul_of_dvd_left hfirst _)

end Gf

/-- The tables hold the arithmetic of polynomials modulo the primitive one. -/
theorem gfTables_arithmetic (x y : Gf) :
    (gfMul x y).polynomial = (x.polynomial * y.polynomial) %ₘ Gf.modulus ∧
      (x = 0 ∨ gfMul x (gfTables.inverse x) = 1) := by
  refine ⟨Gf.polynomial_gfMul x y, ?_⟩
  by_cases hx : x = 0
  · exact .inl hx
  · exact .inr (mul_inv_cancel₀ hx)

end NDNPaxos
