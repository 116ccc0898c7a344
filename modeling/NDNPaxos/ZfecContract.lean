import NDNPaxos.Shards
import NDNPaxos.VandermondeCode
import Mathlib.Tactic

/-!
# zfec keeps its contract

Encoding in strides gives the combination of the source blocks that a row of
the matrix says, and decoding multiplies the blocks at hand with the inverse of
their rows.  So the library does what its header documents, as long as there
are enough different field elements for the blocks.
-/

namespace NDNPaxos

open Vandermonde

/-- The combination of the source blocks for one row. -/
def FecT.mixed (code : FecT) (src : List GfRow) (fecnum : ℕ) : GfRow := fun i =>
  ∑ j ∈ Finset.range code.k, code.encMatrix fecnum j * ((src[j]?).getD 0) i

/-- A block that has been filled up to an offset. -/
def filledTo (limit : ℕ) (row fec : GfRow) : GfRow := fun i => if i < limit then row i else fec i

section Encoding

variable {code : FecT} {src : List GfRow}

theorem getElem?_of_lt {list : List GfRow} {i : ℕ} (hlt : i < list.length) :
    list[i]? = some ((list[i]?).getD 0) := by
  rw [List.getElem?_eq_getElem hlt, Option.getD_some]

theorem addSource_eq {row : GfRow} {j : ℕ} (hrow : src[j]? = some row) (fecnum offset size : ℕ)
    (fec : GfRow) :
    addSource code src fecnum offset size fec j = some fun i =>
      if offset ≤ i ∧ i < offset + size then fec i + code.encMatrix fecnum j * row i
      else fec i := by
  simp only [addSource, hrow, Option.bind_eq_bind, Option.bind_some, Option.pure_def,
    Option.some.injEq]
  funext i
  rw [addmul_apply]
  by_cases hle : offset ≤ i
  · rw [if_pos hle, Nat.add_sub_cancel' hle]
    split_ifs <;> first | rfl | omega
  · rw [if_neg hle, if_neg fun hin => hle hin.1]

theorem foldlM_addSource (hsrc : src.length = code.k) (fecnum offset size : ℕ) (fec : GfRow)
    {m : ℕ} (hm : m ≤ code.k) :
    (List.range m).foldlM (addSource code src fecnum offset size) fec = some fun i =>
      if offset ≤ i ∧ i < offset + size then
        fec i + ∑ j ∈ Finset.range m, code.encMatrix fecnum j * ((src[j]?).getD 0) i
      else fec i := by
  induction m with
  | zero => simp
  | succ m ih =>
      have hrow := getElem?_of_lt (show m < src.length by omega)
      rw [List.range_succ, List.foldlM_append, ih (by omega), Option.bind_eq_bind,
        Option.bind_some, List.foldlM_cons, addSource_eq hrow, Option.bind_eq_bind,
        Option.bind_some, List.foldlM_nil, Option.pure_def, Option.some.injEq]
      funext i
      split_ifs
      · rw [Finset.sum_range_succ, add_assoc]
      · rfl

theorem charRange_eq {bound : ℕ} (hlt : bound < 256) :
    charRange bound = some (List.range bound) := if_pos hlt

theorem encodeStride_eq (hsrc : src.length = code.k) (hk : code.k < 256) (sz offset : ℕ)
    (fec : GfRow) {fecnum : ℕ} (hle : code.k ≤ fecnum) (hlt : fecnum < code.n) :
    encodeStride code src sz offset fec fecnum = some fun i =>
      if offset ≤ i ∧ i < offset + min (sz - offset) stride then code.mixed src fecnum i
      else fec i := by
  simp only [encodeStride, guard, hle, hlt, if_true, charRange_eq hk, Option.pure_def,
    Option.bind_eq_bind, Option.bind_some]
  rw [foldlM_addSource hsrc _ _ _ _ (Nat.le_refl _), Option.some.injEq]
  funext i
  split_ifs
  · rw [zero_add, FecT.mixed]
  · rfl

theorem filledTo_zero (row fec : GfRow) : filledTo 0 row fec = fec := by
  funext i
  exact if_neg (Nat.not_lt_zero i)

theorem encodeStride_filledTo (hsrc : src.length = code.k) (hk : code.k < 256) {sz m : ℕ}
    (hm : m * stride < sz) (fec : GfRow) {fecnum : ℕ} (hle : code.k ≤ fecnum)
    (hlt : fecnum < code.n) :
    encodeStride code src sz (m * stride)
        (filledTo (min sz (m * stride)) (code.mixed src fecnum) fec) fecnum =
      some (filledTo (min sz ((m + 1) * stride)) (code.mixed src fecnum) fec) := by
  rw [encodeStride_eq hsrc hk _ _ _ hle hlt, Option.some.injEq, Nat.succ_mul]
  funext i
  unfold filledTo
  split_ifs <;> first | rfl | omega

theorem map_range_getD (list : List GfRow) :
    ((List.range list.length).map fun i => (list[i]?).getD 0) = list := by
  apply List.ext_getElem
  · rw [List.length_map, List.length_range]
  · intro i hi hi'
    simp [hi']

/-- The check blocks when all strides up to an offset are done. -/
def fillAll (code : FecT) (src : List GfRow) (limit : ℕ) (fecs : List GfRow)
    (blockNums : List ℕ) : List GfRow :=
  List.zipWith (fun fec fecnum => filledTo limit (code.mixed src fecnum) fec) fecs blockNums

variable {fecs : List GfRow} {blockNums : List ℕ}

theorem length_fillAll (limit : ℕ) (hlength : fecs.length = blockNums.length) :
    (fillAll code src limit fecs blockNums).length = blockNums.length := by
  rw [fillAll, List.length_zipWith, hlength, Nat.min_self]

theorem getElem?_fillAll (limit : ℕ) {i fecnum : ℕ} {fec : GfRow} (hfec : fecs[i]? = some fec)
    (hnum : blockNums[i]? = some fecnum) : (fillAll code src limit fecs blockNums)[i]? =
      some (filledTo limit (code.mixed src fecnum) fec) := by
  rw [fillAll, List.getElem?_zipWith, hfec, hnum]

theorem encodeStrides_fillAll (hsrc : src.length = code.k) (hk : code.k < 256)
    (hlength : fecs.length = blockNums.length) (hcount : blockNums.length < 256)
    (hnums : ∀ fecnum ∈ blockNums, code.k ≤ fecnum ∧ fecnum < code.n) {sz m : ℕ}
    (hm : m * stride < sz) :
    encodeStrides code src blockNums sz (fillAll code src (min sz (m * stride)) fecs blockNums) m =
      some (fillAll code src (min sz ((m + 1) * stride)) fecs blockNums) := by
  have hall := map_range_getD (fillAll code src (min sz ((m + 1) * stride)) fecs blockNums)
  rw [length_fillAll _ hlength] at hall
  rw [encodeStrides, charRange_eq hcount, Option.bind_eq_bind, Option.bind_some, ← hall]
  apply mapM_eq_some
  intro i hmem
  have hlt := List.mem_range.mp hmem
  have hfec := getElem?_of_lt (show i < fecs.length from hlength ▸ hlt)
  have hnum := List.getElem?_eq_getElem hlt
  have hin := hnums _ (List.getElem_mem hlt)
  rw [getElem?_fillAll _ hfec hnum, getElem?_fillAll _ hfec hnum, hnum]
  exact encodeStride_filledTo hsrc hk hm _ hin.1 hin.2

/-- All strides together fill the check blocks, whatever was in them. -/
theorem fecEncode_eq (hsrc : src.length = code.k) (hk : code.k < 256)
    (hlength : fecs.length = blockNums.length) (hcount : blockNums.length < 256)
    (hnums : ∀ fecnum ∈ blockNums, code.k ≤ fecnum ∧ fecnum < code.n) (sz : ℕ) :
    fecEncode code src fecs blockNums sz = some (fillAll code src sz fecs blockNums) := by
  have hrun : ∀ m ≤ (sz + stride - 1) / stride,
      (List.range m).foldlM (encodeStrides code src blockNums sz) fecs =
        some (fillAll code src (min sz (m * stride)) fecs blockNums) := by
    intro m hm
    induction m with
    | zero =>
        have hzip : List.zipWith (fun fec (_ : ℕ) => fec) fecs blockNums = fecs := by
          rw [← List.map_uncurry_zip_eq_zipWith]
          exact List.map_fst_zip hlength.le
        simp only [fillAll, Nat.zero_mul, Nat.min_zero, filledTo_zero, hzip]
        rfl
    | succ m ih =>
        have hbelow : m * stride < sz := by
          have hmul := (Nat.le_div_iff_mul_le (by decide)).mp hm
          have hpos : 0 < stride := by decide
          rw [Nat.succ_mul] at hmul
          omega
        rw [List.range_succ, List.foldlM_append, ih (by omega), Option.bind_eq_bind,
          Option.bind_some, List.foldlM_cons,
          encodeStrides_fillAll hsrc hk hlength hcount hnums hbelow]
        rfl
  have hcover : min sz ((sz + stride - 1) / stride * stride) = sz := by
    have hpos : 0 < stride := by decide
    have hmod := Nat.div_add_mod (sz + stride - 1) stride
    have hlt := Nat.mod_lt (sz + stride - 1) hpos
    rw [Nat.mul_comm] at hmod
    omega
  have hall := hrun _ (Nat.le_refl _)
  rw [hcover] at hall
  exact hall

end Encoding

/-! ## Blocks as rows -/

section Rows

variable {beyond : Bytes → ℕ → UInt8} {k n sz : ℕ} {src : List Bytes}

theorem toBytes_congr {row row' : GfRow} (hsame : ∀ i < sz, row i = row' i) :
    row.toBytes sz = row'.toBytes sz := by
  apply List.map_congr_left
  intro i hmem
  rw [hsame i (List.mem_range.mp hmem)]

theorem toBytes_ofBytes {block : Bytes} (hlength : block.length = sz) :
    (GfRow.ofBytes block).toBytes sz = block := by
  apply List.ext_getElem
  · rw [GfRow.toBytes, List.length_map, List.length_range, hlength]
  · intro i hi hi'
    simp [GfRow.toBytes, GfRow.ofBytes, hi']

theorem ofBytes_toBytes (row : GfRow) {i : ℕ} (hlt : i < sz) :
    GfRow.ofBytes (row.toBytes sz) i = row i := by
  simp [GfRow.toBytes, GfRow.ofBytes, List.getElem?_range hlt]

theorem getD_map_ofBytes (list : List Bytes) (i : ℕ) :
    ((list.map GfRow.ofBytes)[i]?).getD 0 = GfRow.ofBytes ((list[i]?).getD []) := by
  rw [List.getElem?_map]
  cases list[i]? <;> rfl

/-- A block of the code, primary or not. -/
noncomputable def codeword (k : ℕ) (src : List Bytes) (fecnum : ℕ) : GfRow := fun i =>
  ∑ j : Fin k, generator FecT.point k fecnum j * GfRow.ofBytes ((src[(j : ℕ)]?).getD []) i

theorem mixed_new (hle : k ≤ 256) (n fecnum : ℕ) (src : List Bytes) :
    (FecT.new k n).mixed (src.map GfRow.ofBytes) fecnum = codeword k src fecnum := by
  funext i
  have hterm : ∀ j : Fin k, (FecT.new k n).encMatrix fecnum j *
      ((src.map GfRow.ofBytes)[(j : ℕ)]?).getD 0 i =
      generator FecT.point k fecnum j * GfRow.ofBytes ((src[(j : ℕ)]?).getD []) i := by
    intro j
    rw [FecT.encMatrix_new hle, getD_map_ofBytes]
  exact (Finset.sum_range _).trans (Finset.sum_congr rfl fun j _ => hterm j)

theorem codeword_primary (hle : k ≤ 256) (src : List Bytes) {fecnum : ℕ} (hlt : fecnum < k) :
    codeword k src fecnum = GfRow.ofBytes ((src[fecnum]?).getD []) := by
  have hrow := FecT.generator_point hle ⟨fecnum, hlt⟩
  funext i
  rw [codeword, Finset.sum_eq_single ⟨fecnum, hlt⟩]
  · have hone := congrFun hrow ⟨fecnum, hlt⟩
    rw [Matrix.one_apply_eq] at hone
    exact (congrArg (· * _) hone).trans (one_mul _)
  · intro j _ hne
    have hzero := congrFun hrow j
    rw [Matrix.one_apply_ne hne.symm] at hzero
    exact (congrArg (· * _) hzero).trans (zero_mul _)
  · exact fun hnot => absurd (Finset.mem_univ _) hnot

theorem zfec_encode (hle : k < 256) (hsrc : src.length = k) {fecnum : ℕ} (hge : k ≤ fecnum)
    (hlt : fecnum < n) :
    (zfec beyond).encode k n src fecnum sz = (codeword k src fecnum).toBytes sz := by
  have hlength : (src.map GfRow.ofBytes).length = (FecT.new k n).k := by
    rw [List.length_map, hsrc]
    rfl
  have hnums : ∀ num ∈ [fecnum], (FecT.new k n).k ≤ num ∧ num < (FecT.new k n).n := by
    simpa using ⟨hge, hlt⟩
  have hencode := fecEncode_eq hlength hle (show [(0 : GfRow)].length = _ from rfl) (by simp)
    hnums sz
  simp only [fillAll, List.zipWith_cons_cons, List.zipWith_nil_left, mixed_new hle.le] at hencode
  simp only [zfec, hencode]
  apply toBytes_congr
  exact fun i hi => if_pos hi

/-- The blocks of the code, whether zfec computes them or not. -/
theorem zfec_block (hle : k < 256) (hblocks : Blocks k sz src) {i : ℕ} (hlt : i < n) :
    (zfec beyond).block k n sz src i = (codeword k src i).toBytes sz := by
  rcases Nat.lt_or_ge i k with hprimary | hcheck
  · rw [Fec.block_primary (zfec beyond) n sz src hprimary, codeword_primary hle.le src hprimary,
      toBytes_ofBytes (hblocks.getD_length hprimary)]
  · rw [Fec.block_check (zfec beyond) n sz src hcheck, zfec_encode hle hblocks.length hcheck hlt]

end Rows

/-! ## Decoding -/

/-- The number of the block in a slot. -/
def numberAt (index : List ℕ) (slot : ℕ) : ℕ := (index[slot]?).getD 0

section Decoding

variable {beyond : Bytes → ℕ → UInt8} {k n sz : ℕ} {src : List Bytes} {index : List ℕ}

theorem Placed.getElem?_eq (hplaced : Placed k n index) {slot : ℕ} (hlt : slot < k) :
    index[slot]? = some (numberAt index slot) := by
  have hslot := hplaced.slot_lt ⟨slot, hlt⟩
  rw [numberAt, List.getElem?_eq_getElem hslot, Option.getD_some]

theorem Placed.numberAt_mem (hplaced : Placed k n index) {slot : ℕ} (hlt : slot < k) :
    numberAt index slot ∈ index :=
  List.mem_of_getElem? (hplaced.getElem?_eq hlt)

theorem Placed.numberAt_injective (hplaced : Placed k n index) :
    Function.Injective fun slot : Fin k => numberAt index slot := by
  intro slot slot' heq
  have hget : ∀ s : Fin k, numberAt index s = index.get ⟨s, hplaced.slot_lt s⟩ := by
    intro s
    rw [numberAt, List.getElem?_eq_getElem (hplaced.slot_lt s), Option.getD_some,
      List.get_eq_getElem]
  apply hplaced.positions.injective
  dsimp only at heq ⊢
  rw [← hget, ← hget, heq]

/-- A primary block is missing when a check block stands in its slot. -/
theorem Placed.mem_index_iff (hplaced : Placed k n index) {row : ℕ} (hlt : row < k) :
    row ∈ index ↔ numberAt index row < k := by
  constructor
  · intro hmem
    rcases List.getElem?_of_mem hmem with ⟨slot, hslot⟩
    have hsame := hplaced.primary slot row hslot hlt
    rw [← hsame, hplaced.getElem?_eq hlt, Option.some.injEq] at hslot
    rwa [hslot]
  · intro hprimary
    have hsame := hplaced.primary row _ (hplaced.getElem?_eq hlt) hprimary
    rw [← hsame]
    exact hplaced.numberAt_mem hlt

theorem decodeMatrixRow_eq (hle : k ≤ 256) (hplaced : Placed k n index) (slot : Fin k) :
    ∃ row, decodeMatrixRow (.new k n) index slot = some row ∧
      ∀ col : Fin k, row col = generator FecT.point k (numberAt index slot) col := by
  have hslot := hplaced.getElem?_eq slot.isLt
  by_cases hprimary : numberAt index slot < k
  · refine ⟨InvertMat.idRow slot, ?_, ?_⟩
    · rw [decodeMatrixRow, hslot]
      exact if_pos hprimary
    · intro col
      have hsame := hplaced.primary slot _ hslot hprimary
      rw [hsame, FecT.generator_point hle, InvertMat.idRow, Function.update_apply, Matrix.one_apply]
      simp only [Fin.ext_iff, eq_comm]
      rfl
  · refine ⟨(FecT.new k n).encMatrix (numberAt index slot), ?_, FecT.encMatrix_new hle n _⟩
    have hlt := hplaced.lt _ (hplaced.numberAt_mem slot.isLt)
    rw [decodeMatrixRow, hslot, Option.bind_eq_bind, Option.bind_some]
    simp only [FecT.new, hprimary, hlt, guard, if_false, if_true]
    rfl

theorem buildDecodeMatrix_mul (hchar : k < 256) (hk : k ≤ n) (hpoints : k ≤ 1 ∨ n ≤ 256)
    (hplaced : Placed k n index) :
    ∃ mDec, buildDecodeMatrix (.new k n) index = some mDec ∧
      mDec.block k * Matrix.of (fun slot : Fin k =>
        generator FecT.point k (numberAt index slot)) = 1 := by
  choose row hrow hentry using decodeMatrixRow_eq hchar.le hplaced
  have hrows : (List.range k).mapM (decodeMatrixRow (.new k n) index) =
      some ((List.range k).map fun i => if hlt : i < k then row ⟨i, hlt⟩ else 0) := by
    apply mapM_eq_some
    intro i hmem
    have hlt := List.mem_range.mp hmem
    rw [dif_pos hlt]
    exact hrow ⟨i, hlt⟩
  have hblock : GfMatrix.block (fun i => ((((List.range k).map fun i =>
      if hlt : i < k then row ⟨i, hlt⟩ else 0) : List GfRow)[i]?).getD 0) k =
      Matrix.of fun slot : Fin k => generator FecT.point k (numberAt index slot) := by
    ext slot col
    rw [GfMatrix.block, List.getElem?_map, List.getElem?_range slot.isLt, Option.map_some,
      Option.getD_some, dif_pos slot.isLt]
    exact hentry slot col
  have hdet := FecT.det_generator_point hchar.le hk hpoints hplaced.numberAt_injective
    fun slot => hplaced.lt _ (hplaced.numberAt_mem slot.isLt)
  rw [← hblock] at hdet ⊢
  rcases InvertMat.invertMat_eq_inv hdet with ⟨mDec, hinvert, hinverse⟩
  refine ⟨mDec, ?_, ?_⟩
  · rw [buildDecodeMatrix, show (FecT.new k n).k = k from rfl, charRange_eq hchar,
      Option.bind_eq_bind, Option.bind_some, hrows]
    exact hinvert
  · rw [hinverse]
    exact Matrix.nonsing_inv_mul _ (isUnit_iff_ne_zero.mpr hdet)

/-- The sum of the blocks at hand for a row of the inverse. -/
def recovered (inpkts : List GfRow) (mDec : GfMatrix) (row sz m : ℕ) : GfRow := fun i =>
  if i < sz then ∑ col ∈ Finset.range m, mDec row col * ((inpkts[col]?).getD 0) i else 0

theorem foldlM_addInput {inpkts : List GfRow} (mDec : GfMatrix) (row sz : ℕ) {m : ℕ}
    (hle : m ≤ inpkts.length) : (List.range m).foldlM (addInput inpkts mDec row sz) 0 =
      some (recovered inpkts mDec row sz m) := by
  induction m with
  | zero =>
      apply congrArg some
      funext i
      exact (ite_self 0).symm
  | succ m ih =>
      have hinpkt := getElem?_of_lt (show m < inpkts.length from Nat.lt_of_succ_le hle)
      rw [List.range_succ, List.foldlM_append, ih (by omega), Option.bind_eq_bind,
        Option.bind_some, List.foldlM_cons, addInput, hinpkt, Option.bind_eq_bind,
        Option.bind_some, Option.pure_def, Option.bind_some, List.foldlM_nil, Option.pure_def,
        Option.some.injEq]
      funext i
      rw [addmul_apply, recovered, recovered]
      split_ifs
      · rw [Finset.sum_range_succ]
      · rfl

/-- Multiplying with the inverse of their rows gives the source blocks back. -/
theorem sum_codeword {mDec : GfMatrix} (hmul : mDec.block k *
      Matrix.of (fun slot : Fin k => generator FecT.point k (numberAt index slot)) = 1)
    (src : List Bytes) (row : Fin k) (i : ℕ) :
    ∑ col : Fin k, mDec row col * codeword k src (numberAt index col) i =
      GfRow.ofBytes ((src[(row : ℕ)]?).getD []) i := by
  have hvec := congrArg (Matrix.mulVec · fun j : Fin k =>
    GfRow.ofBytes ((src[(j : ℕ)]?).getD []) i) hmul
  rw [Matrix.one_mulVec, ← Matrix.mulVec_mulVec] at hvec
  exact congrFun hvec row

theorem decodeRow_eq (hchar : k < 256) (hplaced : Placed k n index) {inpkts : List GfRow}
    (hlength : inpkts.length = k) (mDec : GfMatrix) (sz : ℕ) {row : ℕ} (hlt : row < k) :
    decodeRow (.new k n) inpkts index mDec sz row =
      some (if numberAt index row < k then none else some (recovered inpkts mDec row sz k)) := by
  have hslot := hplaced.getElem?_eq hlt
  have hsum := foldlM_addInput mDec row sz hlength.ge
  rw [decodeRow, hslot, Option.bind_eq_bind, Option.bind_some]
  by_cases hprimary : numberAt index row < k
  · have hsame := hplaced.primary row _ hslot hprimary
    simp [FecT.new, hsame, hlt]
  · have hge := Nat.le_of_not_lt hprimary
    simp [FecT.new, hge, hprimary, charRange_eq hchar, hsum]

theorem toBytes_recovered (hk : k ≤ n) (hchar : k < 256) (hblocks : Blocks k sz src)
    (hplaced : Placed k n index) {mDec : GfMatrix} (hmul : mDec.block k *
      Matrix.of (fun slot : Fin k => generator FecT.point k (numberAt index slot)) = 1)
    {row : ℕ} (hlt : row < k) :
    (recovered ((index.map ((zfec beyond).block k n sz src)).map GfRow.ofBytes) mDec row sz
        k).toBytes sz = (zfec beyond).block k n sz src row := by
  rw [zfec_block hchar hblocks (hlt.trans_le hk), codeword_primary hchar.le src hlt]
  apply toBytes_congr
  intro i hi
  rw [recovered, if_pos hi, ← sum_codeword hmul src ⟨row, hlt⟩ i, Finset.sum_range]
  apply Finset.sum_congr rfl
  intro col _
  have hnumber := hplaced.lt _ (hplaced.numberAt_mem col.isLt)
  rw [getD_map_ofBytes, List.getElem?_map, hplaced.getElem?_eq col.isLt, Option.map_some,
    Option.getD_some, zfec_block hchar hblocks hnumber, ofBytes_toBytes _ hi]

theorem filterMap_missing (hplaced : Placed k n index) (outpkt : ℕ → GfRow) :
    ((List.range k).map fun row =>
      if numberAt index row < k then none else some (outpkt row)).filterMap id =
      (missing k index).map outpkt := by
  rw [List.filterMap_map, missing, ← List.filterMap_eq_map, List.filterMap_filter]
  apply List.filterMap_congr
  intro row hmem
  have hiff := hplaced.mem_index_iff (List.mem_range.mp hmem)
  by_cases hprimary : numberAt index row < k <;> simp [hprimary, hiff]

theorem zfec_decode_some {inpkts : List Bytes} {outpkts : List GfRow}
    (hdecode : fecDecode (.new k n) (inpkts.map GfRow.ofBytes) index sz = some outpkts) :
    (zfec beyond).decode k n inpkts index sz = outpkts.map fun outpkt => outpkt.toBytes sz := by
  simp only [zfec, hdecode]

theorem zfec_decode (hchar : k < 256) (hk : k ≤ n) (hpoints : k ≤ 1 ∨ n ≤ 256)
    (hblocks : Blocks k sz src)
    (hplaced : Placed k n index) :
    (zfec beyond).decode k n (index.map ((zfec beyond).block k n sz src)) index sz =
      (missing k index).map ((zfec beyond).block k n sz src) := by
  rcases buildDecodeMatrix_mul hchar hk hpoints hplaced with ⟨mDec, hbuild, hmul⟩
  have hlength : ((index.map ((zfec beyond).block k n sz src)).map GfRow.ofBytes).length = k := by
    rw [List.length_map, List.length_map, hplaced.length]
  have hrows := mapM_eq_some fun row hmem =>
    decodeRow_eq (n := n) hchar hplaced hlength mDec sz (List.mem_range.mp hmem)
  have hdecode : fecDecode (.new k n)
      ((index.map ((zfec beyond).block k n sz src)).map GfRow.ofBytes) index sz =
        some ((missing k index).map fun row => recovered
          ((index.map ((zfec beyond).block k n sz src)).map GfRow.ofBytes) mDec row sz k) := by
    rw [fecDecode, hbuild, Option.bind_eq_bind, Option.bind_some,
      show (FecT.new k n).k = k from rfl, charRange_eq hchar, Option.bind_eq_bind,
      Option.bind_some, hrows, ← filterMap_missing hplaced]
    rfl
  rw [zfec_decode_some hdecode, List.map_map]
  apply List.map_congr_left
  intro row hmem
  exact toBytes_recovered hk hchar hblocks hplaced hmul (mem_missing.mp hmem).1

end Decoding

theorem zfec_lawful (beyond : Bytes → ℕ → UInt8) {k n : ℕ} (hchar : k < 256) (hk : k ≤ n)
    (hpoints : k ≤ 1 ∨ n ≤ 256) : (zfec beyond).Lawful k n := by
  constructor
  · intro src sz i hblocks hge hlt
    rw [zfec_encode hchar hblocks.length hge hlt, GfRow.toBytes, List.length_map,
      List.length_range]
  · intro src sz index hblocks hplaced
    exact zfec_decode hchar hk hpoints hblocks hplaced

/-! ## The limit on the number of blocks -/

section Limit

variable {k : ℕ}

/-- Source blocks of one byte; only the first one is not zero. -/
def firstByte (k : ℕ) (byte : UInt8) : List Bytes := [byte] :: List.replicate (k - 1) [0]

theorem blocks_firstByte (hk : 0 < k) (byte : UInt8) : Blocks k 1 (firstByte k byte) := by
  constructor
  · rw [firstByte, List.length_cons, List.length_replicate, Nat.sub_add_cancel hk]
  · intro block hmem
    rcases List.mem_cons.mp hmem with rfl | hrest
    · rfl
    · rw [List.eq_of_mem_replicate hrest]
      rfl

/-- Block 256 in place of block 0. -/
theorem placed_repeated {n : ℕ} (hk : 2 ≤ k) (hle : k ≤ 256) (hn : 256 < n) :
    Placed k n (256 :: List.range' 1 (k - 1)) := by
  constructor
  · rw [List.length_cons, List.length_range', Nat.sub_add_cancel (by omega)]
  · rw [List.nodup_cons]
    refine ⟨?_, List.nodup_range'⟩
    rw [List.mem_range'_1]
    omega
  · intro i hmem
    rcases List.mem_cons.mp hmem with rfl | hrest
    · exact hn
    · have hrange := List.mem_range'_1.mp hrest
      omega
  · intro slot i hslot hprimary
    cases slot with
    | zero =>
        rw [List.getElem?_cons_zero, Option.some.injEq] at hslot
        omega
    | succ slot =>
        rw [List.getElem?_cons_succ] at hslot
        rcases List.getElem?_eq_some_iff.mp hslot with ⟨_, hget⟩
        rw [List.getElem_range'] at hget
        omega

/-- The blocks are the same for both sources, since block 256 is block 1. -/
theorem block_firstByte (beyond : Bytes → ℕ → UInt8) {n : ℕ} (hk : 2 ≤ k) (hchar : k < 256)
    (hn : 256 < n) (byte : UInt8) {i : ℕ} (hmem : i ∈ 256 :: List.range' 1 (k - 1)) :
    (zfec beyond).block k n 1 (firstByte k byte) i = [0] := by
  have hprimary : ∀ j, 1 ≤ j → j < k →
      (zfec beyond).block k n 1 (firstByte k byte) j = [0] := by
    intro j hle hlt
    obtain ⟨j, rfl⟩ := Nat.exists_eq_add_of_le' hle
    rw [Fec.block_primary _ n 1 _ hlt, firstByte, List.getElem?_cons_succ,
      List.getElem?_replicate, if_pos (by omega), Option.getD_some]
  rcases List.mem_cons.mp hmem with rfl | hrest
  · have hblocks := blocks_firstByte (by omega : 0 < k) byte
    have hrepeats : codeword k (firstByte k byte) 256 = codeword k (firstByte k byte) 1 := by
      funext i
      rw [codeword, FecT.generator_repeats]
      rfl
    rw [← hprimary 1 le_rfl hk, zfec_block hchar hblocks hn, zfec_block hchar hblocks (by omega),
      hrepeats]
  · have hrange := List.mem_range'_1.mp hrest
    exact hprimary i hrange.1 (by omega)

/-- zfec keeps its contract exactly as long as there are field elements enough for the blocks. -/
theorem zfec_lawful_iff (beyond : Bytes → ℕ → UInt8) (k n : ℕ) (hchar : k < 256) (hk : k ≤ n) :
    (zfec beyond).Lawful k n ↔ k ≤ 1 ∨ n ≤ 256 := by
  constructor
  · intro hlawful
    by_contra hfew
    have hsame := hlawful.eq_of_placed (placed_repeated (by omega) hchar.le (by omega))
      (blocks_firstByte (by omega) 0) (blocks_firstByte (by omega) 1) fun i hmem => by
        rw [block_firstByte beyond (by omega) hchar (by omega) 0 hmem,
          block_firstByte beyond (by omega) hchar (by omega) 1 hmem]
    simp [firstByte] at hsame
  · exact zfec_lawful beyond hchar hk

theorem zfec_lawful_three_of_five : (zfec fun _ _ => 0).Lawful 3 5 :=
  (zfec_lawful_iff (fun _ _ => 0) 3 5 (by decide) (by decide)).mpr (.inr (by decide))

end Limit

end NDNPaxos
