import NDNPaxos.Zfec
import NDNPaxos.Library.GaussJordan
import Mathlib.Tactic

/-!
# Inverting a matrix of zfec

`_invert_mat` marks the columns that have been pivots, searches the rows and
columns that are left and keeps the inverse in the columns that are done.  As
long as the matrix can be inverted, some entry is left for every turn, so no
assertion fails and the result is the inverse.
-/

namespace NDNPaxos

/-! ## Rows -/

theorem unrolled_eq (sz : ℕ) : unrolled sz = List.range sz := by
  have hblocks : ∀ m, ((List.range m).flatMap fun block => (List.range 16).map (16 * block + ·)) =
      List.range (16 * m) := by
    intro m
    induction m with
    | zero => rfl
    | succ m ih =>
        have hsucc : List.range (m + 1) = List.range m ++ [m] := List.range_succ
        rw [hsucc, List.flatMap_append, ih, Nat.mul_succ, List.range_add]
        simp
  have happend := List.range'_append_1 (s := 0) (m := 16 * (sz / 16)) (n := sz % 16)
  rw [Nat.zero_add, Nat.div_add_mod] at happend
  rw [unrolled, hblocks, List.range_eq_range', List.range_eq_range', happend]

theorem addmul1_apply (dst src : GfRow) (c : Gf) (sz i : ℕ) :
    addmul1 dst src c sz i = if i < sz then dst i + c * src i else dst i := by
  rw [addmul1, unrolled_eq]
  induction sz with
  | zero => rfl
  | succ sz ih =>
      rw [List.range_succ, List.foldl_append, List.foldl_cons, List.foldl_nil]
      by_cases hlast : i = sz
      · subst hlast
        rw [Function.update_self, if_pos (Nat.lt_succ_self i), ih, if_neg (Nat.lt_irrefl i)]
      · rw [Function.update_of_ne hlast, ih]
        split_ifs <;> first | rfl | omega

@[simp] theorem addmul_apply (dst src : GfRow) (c : Gf) (sz i : ℕ) :
    addmul dst src c sz i = if i < sz then dst i + c * src i else dst i := by
  rw [addmul]
  split_ifs with hc hlt hlt
  · rw [addmul1_apply, if_pos hlt]
  · rw [addmul1_apply, if_neg hlt]
  · rw [not_not.mp hc, zero_mul, add_zero]
  · rfl

theorem matmul_apply (a b : GfMatrix) (k row col : ℕ) :
    matmul a b k row col = ∑ i : Fin k, a row i * b i col := by
  rw [matmul, ← Finset.sum_range fun i => a row i * b i col]
  induction k with
  | zero => rfl
  | succ k ih => rw [List.range_succ, List.foldl_append, ih, Finset.sum_range_succ]; rfl

/-- The matrix in the first rows and columns. -/
def GfMatrix.block (src : GfMatrix) (k : ℕ) : Matrix (Fin k) (Fin k) Gf := fun row col =>
  src row col

namespace InvertMat

open GaussJordan

variable {k : ℕ}

/-! ## The search for a pivot -/

/-- A row and a column that are left, with an entry that is not 0. -/
structure Eligible (state : InvertMat) (k : ℕ) (found : ℕ × ℕ) : Prop where
  row_lt : found.1 < k
  col_lt : found.2 < k
  row : state.ipiv found.1 ≠ 1
  col : state.ipiv found.2 ≠ 1
  entry : state.src found.1 found.2 ≠ 0

theorem mem_entries {found : ℕ × ℕ} : found ∈ entries k ↔ found.1 < k ∧ found.2 < k := by
  rcases found with ⟨row, col⟩
  simp [entries]

theorem search_eq_some {state : InvertMat} (hipiv : ∀ i, state.ipiv i ≤ 1)
    {list : List (ℕ × ℕ)} (hlist : ∀ found ∈ list, found ∈ entries k)
    (hexists : ∃ found ∈ list, state.Eligible k found) :
    ∃ found, state.search list = some (some found) ∧ state.Eligible k found := by
  induction list with
  | nil => simp at hexists
  | cons first rest ih =>
      rcases first with ⟨row, ix⟩
      have hrest := fun hother => ih (fun found hmem => hlist found (List.mem_cons_of_mem _ hmem))
        hother
      by_cases hfirst : state.Eligible k (row, ix)
      · have hzero : state.ipiv ix = 0 := by
          have hle := hipiv ix
          have hne := hfirst.col
          dsimp only at hne
          omega
        refine ⟨(row, ix), ?_, hfirst⟩
        rw [search, if_neg hfirst.row, if_pos hzero, if_pos hfirst.entry]
      · rcases hexists with ⟨found, hmem, heligible⟩
        have hother : ∃ found ∈ rest, state.Eligible k found := by
          rcases List.mem_cons.mp hmem with rfl | hmem
          · exact absurd heligible hfirst
          · exact ⟨found, hmem, heligible⟩
        rcases hrest hother with ⟨found, hsearch, hfound⟩
        refine ⟨found, ?_, hfound⟩
        rw [search, hsearch]
        split_ifs with hrow hcol hentry hle
        · rfl
        · have hplace := mem_entries.mp (hlist _ (List.mem_cons_self ..))
          exact absurd ⟨hplace.1, hplace.2, hrow, by dsimp only; omega, hentry⟩ hfirst
        · rfl
        · rfl
        · exact absurd (hipiv ix) hle

theorem findPivot_eq_some {state : InvertMat} (hipiv : ∀ i, state.ipiv i ≤ 1) {col : ℕ}
    (hcol : col < k) (hexists : ∃ found, state.Eligible k found) :
    ∃ found, state.findPivot k col = some (some found) ∧ state.Eligible k found := by
  rw [findPivot]
  split_ifs with hdiagonal
  · exact ⟨_, rfl, hcol, hcol, hdiagonal.1, hdiagonal.1, hdiagonal.2⟩
  · rcases hexists with ⟨found, heligible⟩
    apply search_eq_some hipiv fun _ hmem => hmem
    exact ⟨found, mem_entries.mpr ⟨heligible.row_lt, heligible.col_lt⟩, heligible⟩

/-! ## One turn -/

theorem val_swap (a b i : Fin k) : Equiv.swap (a : ℕ) b i = (Equiv.swap a b i : Fin k) := by
  simp only [Equiv.swap_apply_def, Fin.ext_iff]
  split_ifs <;> rfl

theorem block_swapRows (src : GfMatrix) (irow icol : Fin k) :
    (swapRows src irow icol).block k = (src.block k).submatrix (Equiv.swap irow icol) id := by
  funext i j
  simp only [GfMatrix.block, swapRows, Matrix.submatrix_apply, val_swap, id]

theorem swapRows_self (src : GfMatrix) (icol : ℕ) : swapRows src icol icol = src := by
  funext row
  rw [swapRows, Equiv.swap_self, Equiv.refl_apply]

/-- The pivot row after it has been divided. -/
def pivotRow (src : GfMatrix) (icol : ℕ) : GfRow := fun ix =>
  (src icol icol)⁻¹ * if ix = icol then 1 else src icol ix

def scaled (src : GfMatrix) (icol k : ℕ) : GfMatrix :=
  if src icol icol ≠ 1 then scaleRow src icol (src icol icol)⁻¹ k else src

theorem scaled_pivot (src : GfMatrix) {icol ix : ℕ} (hix : ix < k) :
    scaled src icol k icol ix = pivotRow src icol ix := by
  rw [scaled, pivotRow]
  split_ifs with hone heq heq
  · rw [scaleRow, Function.update_self, if_pos hix, heq, Function.update_self]
  · rw [scaleRow, Function.update_self, if_pos hix, Function.update_of_ne heq]
  · rw [heq, not_not.mp hone, inv_one, one_mul]
  · rw [not_not.mp hone, inv_one, one_mul]

theorem scaled_other (src : GfMatrix) {icol row : ℕ} (hrow : row ≠ icol) :
    scaled src icol k row = src row := by
  rw [scaled]
  split_ifs
  · rw [scaleRow, Function.update_of_ne hrow]
  · rfl

def cleared (src : GfMatrix) (icol k : ℕ) : GfMatrix :=
  if ∀ ix < k, scaled src icol k icol ix = idRow icol ix then scaled src icol k
  else clearColumn (scaled src icol k) icol k

/-- Leaving the other rows alone when the pivot row is a unit row changes nothing. -/
theorem cleared_apply (src : GfMatrix) {icol row ix : ℕ} (hrow : row < k) (hix : ix < k) :
    cleared src icol k row ix =
      if row = icol then pivotRow src icol ix
      else (if ix = icol then 0 else src row ix) + src row icol * pivotRow src icol ix := by
  rw [cleared]
  by_cases hpivot : row = icol
  · subst hpivot
    rw [if_pos rfl, ← scaled_pivot src hix]
    split_ifs with hunit
    · rfl
    · rw [clearColumn, if_neg (by simp)]
  · rw [if_neg hpivot]
    split_ifs with hunit heq heq
    · rw [scaled_other src hpivot, ← scaled_pivot src hix, hunit ix hix, idRow, heq,
        Function.update_self, mul_one, zero_add]
    · rw [scaled_other src hpivot, ← scaled_pivot src hix, hunit ix hix, idRow,
        Function.update_of_ne heq, Pi.zero_apply, mul_zero, add_zero]
    · rw [clearColumn, if_pos ⟨hrow, hpivot⟩, addmul_apply, if_pos hix, scaled_pivot src hix,
        scaled_other src hpivot, heq, Function.update_self]
    · rw [clearColumn, if_pos ⟨hrow, hpivot⟩, addmul_apply, if_pos hix, scaled_pivot src hix,
        scaled_other src hpivot, Function.update_of_ne heq]

theorem block_cleared (src : GfMatrix) (irow icol : Fin k) :
    (cleared (swapRows src irow icol) icol k).block k = pivot (src.block k) irow icol := by
  have hentry : ∀ i j : Fin k, swapRows src irow icol i j =
      (src.block k).submatrix (Equiv.swap irow icol) id i j := by
    intro i j
    rw [← block_swapRows]
    rfl
  funext i j
  rw [GfMatrix.block, cleared_apply _ i.isLt j.isLt, pivot]
  simp only [pivotRow, hentry, Gf.sub_eq, Fin.ext_iff]

/-- The loop is at a state of the elimination. -/
structure Simulates (state : InvertMat) (elimination : State (Fin k) Gf) : Prop where
  src : state.src.block k = elimination.mat
  ipiv_le : ∀ i, state.ipiv i ≤ 1
  ipiv : ∀ i : Fin k, state.ipiv i = 1 ↔ i ∈ elimination.done
  indx : state.indx = elimination.swaps.map fun swap => ((swap.1 : ℕ), (swap.2 : ℕ))

theorem Simulates.step {state : InvertMat} {elimination : State (Fin k) Gf}
    (hsimulates : Simulates state elimination) {col : ℕ} {irow icol : Fin k}
    (hfound : state.findPivot k col = some (some (↑irow, ↑icol)))
    (heligible : state.Eligible k (↑irow, ↑icol)) :
    ∃ next, state.step k col = some next ∧ Simulates next (elimination.step irow icol) := by
  have hswapped : (if (irow : ℕ) ≠ icol then swapRows state.src irow icol else state.src) =
      swapRows state.src irow icol := by
    split_ifs with hne
    · rfl
    · rw [not_not.mp hne, swapRows_self]
  have hpivot : swapRows state.src irow icol icol icol ≠ 0 := by
    rw [swapRows, Equiv.swap_apply_right]
    exact heligible.entry
  have hzero : state.ipiv icol = 0 := by
    have hle := hsimulates.ipiv_le icol
    have hne := heligible.col
    dsimp only at hne
    omega
  refine ⟨{ src := cleared (swapRows state.src irow icol) icol k
            ipiv := Function.update state.ipiv icol (state.ipiv icol + 1)
            irow, icol, indx := (↑irow, ↑icol) :: state.indx }, ?_, ?_⟩
  · simp only [InvertMat.step, hfound, Option.bind_eq_bind, Option.bind_some, Option.getD_some,
      hswapped, guard, hpivot, if_true, ne_eq, not_false_eq_true, Option.pure_def]
    rfl
  · constructor
    · dsimp only
      rw [block_cleared, hsimulates.src]
      rfl
    · intro i
      dsimp only
      by_cases heq : i = icol
      · rw [heq, Function.update_self, hzero]
      · rw [Function.update_of_ne heq]
        exact hsimulates.ipiv_le i
    · intro i
      dsimp only [State.step]
      rw [Finset.mem_insert, ← hsimulates.ipiv i]
      by_cases heq : (i : ℕ) = icol
      · rw [heq, Function.update_self, hzero]
        simp [Fin.ext heq]
      · rw [Function.update_of_ne heq]
        simp [Fin.ext_iff, heq]
    · dsimp only [State.step]
      rw [hsimulates.indx]
      rfl

/-! ## The whole loop -/

theorem Simulates.exists_eligible {original : Matrix (Fin k) (Fin k) Gf} {state : InvertMat}
    {elimination : State (Fin k) Gf} (hsimulates : Simulates state elimination)
    (hinverts : Inverts original elimination) (hcard : elimination.done.card < k) :
    ∃ found, state.Eligible k found := by
  have hleft : ∃ left : Fin k, left ∉ elimination.done := by
    by_contra hnone
    push Not at hnone
    rw [Finset.eq_univ_of_forall hnone, Finset.card_univ, Fintype.card_fin] at hcard
    exact Nat.lt_irrefl k hcard
  rcases hleft with ⟨left, hleft⟩
  rcases hinverts.exists_pivot hleft with ⟨col, hcol, hentry⟩
  refine ⟨(↑left, ↑col), left.isLt, col.isLt, ?_, ?_, ?_⟩
  · exact fun hdone => hleft ((hsimulates.ipiv left).mp hdone)
  · exact fun hdone => hcol ((hsimulates.ipiv col).mp hdone)
  · rwa [← hsimulates.src] at hentry

theorem run_columns {src : GfMatrix} (hdet : (src.block k).det ≠ 0) {m : ℕ} (hle : m ≤ k) :
    ∃ state elimination, (List.range m).foldlM (InvertMat.step k) { src } = some state ∧
      Simulates state elimination ∧ Inverts (src.block k) elimination ∧
        elimination.done.card = m := by
  induction m with
  | zero =>
      refine ⟨{ src }, State.start (src.block k), rfl, ?_, Inverts.start hdet, rfl⟩
      exact ⟨rfl, fun _ => Nat.zero_le 1, by simp [State.start], rfl⟩
  | succ m ih =>
      rcases ih (by omega) with ⟨state, elimination, hrun, hsimulates, hinverts, hcard⟩
      have hexists := hsimulates.exists_eligible hinverts (by omega)
      rcases findPivot_eq_some hsimulates.ipiv_le hle hexists with ⟨⟨row, ix⟩, hfound, heligible⟩
      obtain ⟨irow, rfl⟩ : ∃ irow : Fin k, ↑irow = row := ⟨⟨row, heligible.row_lt⟩, rfl⟩
      obtain ⟨icol, rfl⟩ : ∃ icol : Fin k, ↑icol = ix := ⟨⟨ix, heligible.col_lt⟩, rfl⟩
      have hrow : irow ∉ elimination.done := fun hmem =>
        heligible.row ((hsimulates.ipiv irow).mpr hmem)
      have hcol : icol ∉ elimination.done := fun hmem =>
        heligible.col ((hsimulates.ipiv icol).mpr hmem)
      have hentry : elimination.mat irow icol ≠ 0 := by
        rw [← hsimulates.src]
        exact heligible.entry
      rcases hsimulates.step hfound heligible with ⟨next, hstep, hnext⟩
      refine ⟨next, elimination.step irow icol, ?_, hnext, hinverts.step hrow hcol hentry, ?_⟩
      · rw [List.range_succ, List.foldlM_append, hrun]
        simp [hstep]
      · rw [State.step, Finset.card_insert_of_notMem hcol, hcard]

theorem block_swapColumns (src : GfMatrix) (swap : Fin k × Fin k) :
    (swapColumns src (↑swap.1, ↑swap.2)).block k =
      (src.block k).submatrix id (Equiv.swap swap.1 swap.2) := by
  rcases swap with ⟨row, col⟩
  funext i j
  rw [swapColumns]
  split_ifs with hne
  · simp only [GfMatrix.block, Matrix.submatrix_apply, val_swap, id]
  · rw [Fin.ext (not_not.mp hne), Equiv.swap_self]
    rfl

theorem block_foldl_swapColumns (src : GfMatrix) (swaps : List (Fin k × Fin k)) :
    ((swaps.map fun swap => ((swap.1 : ℕ), (swap.2 : ℕ))).foldl swapColumns src).block k =
      unscramble (src.block k) swaps := by
  induction swaps generalizing src with
  | nil => rfl
  | cons swap rest ih => rw [List.map_cons, List.foldl_cons, ih, block_swapColumns, unscramble]

theorem invertMat_eq_inv {src : GfMatrix} (hdet : (src.block k).det ≠ 0) :
    ∃ result, invertMat src k = some result ∧ result.block k = (src.block k)⁻¹ := by
  rcases run_columns hdet (Nat.le_refl k) with
    ⟨state, elimination, hrun, hsimulates, hinverts, hcard⟩
  refine ⟨state.indx.foldl swapColumns state.src, ?_, ?_⟩
  · rw [invertMat, hrun]
    rfl
  · rw [hsimulates.indx, block_foldl_swapColumns, hsimulates.src]
    symm
    apply Matrix.inv_eq_left_inv
    apply hinverts.result_mul
    have huniv : elimination.done = Finset.univ := by
      rw [← Finset.card_eq_iff_eq_univ, hcard, Fintype.card_fin]
    intro col
    rw [huniv]
    exact Finset.mem_univ col

end InvertMat

/-- No assertion fails on a matrix that has an inverse, and the result is the inverse. -/
theorem invertMat_mul {src : GfMatrix} {k : ℕ} (hdet : (src.block k).det ≠ 0) :
    ∃ result, invertMat src k = some result ∧ result.block k * src.block k = 1 := by
  rcases InvertMat.invertMat_eq_inv hdet with ⟨result, hinvert, hinverse⟩
  refine ⟨result, hinvert, ?_⟩
  rw [hinverse]
  exact Matrix.nonsing_inv_mul _ (isUnit_iff_ne_zero.mpr hdet)

/-- A matrix that has nothing on its diagonal. -/
def exchange : GfMatrix := fun row col => if row = col then 0 else 1

theorem invertMat_exchange :
    ∃ result, invertMat exchange 2 = some result ∧ result.block 2 * exchange.block 2 = 1 :=
  invertMat_mul (by simp [Matrix.det_fin_two, GfMatrix.block, exchange])

end NDNPaxos
