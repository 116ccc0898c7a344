import NDNPaxos.GaloisTables
import NDNPaxos.View

/-!
# The bundled zfec library

`fec_new` makes the matrix of a systematic code from the powers of field
elements, `fec_encode` multiplies with its rows, and `fec_decode` inverts the
rows that belong to the blocks at hand.  `+` on `Gf` is `^=`, `*` is `gf_mul`
and the inverse is the table.  A row of a matrix and a block are memory from an
address on, so they are functions of an offset; `none` is a failed assertion, a
read past the end of an array or a loop that never ends.
-/

namespace NDNPaxos

abbrev GfRow : Type := ℕ → Gf

abbrev GfMatrix : Type := ℕ → GfRow

/-! ## Linear algebra -/

/-- The offsets in the order of `_addmul1`, which is unrolled 16 times. -/
def unrolled (sz : ℕ) : List ℕ :=
  ((List.range (sz / 16)).flatMap fun block => (List.range 16).map (16 * block + ·)) ++
    List.range' (16 * (sz / 16)) (sz % 16)

/-- `_addmul1` -/
def addmul1 (dst src : GfRow) (c : Gf) (sz : ℕ) : GfRow :=
  (unrolled sz).foldl (fun dst i => Function.update dst i (dst i + c * src i)) dst

def addmul (dst src : GfRow) (c : Gf) (sz : ℕ) : GfRow :=
  if c ≠ 0 then addmul1 dst src c sz else dst

/-- `_matmul`, where `k` is the length of the rows of `a`. -/
def matmul (a b : GfMatrix) (k : ℕ) : GfMatrix := fun row col =>
  (List.range k).foldl (fun acc i => acc + a row i * b i col) 0

/-- The variables of `_invert_mat`; `indx` is `indxr` and `indxc`, the latest
column first. -/
structure InvertMat where
  src : GfMatrix
  ipiv : ℕ → ℕ := fun _ => 0
  irow : ℕ := 0
  icol : ℕ := 0
  indx : List (ℕ × ℕ) := []

namespace InvertMat

/-- The search for a pivot elsewhere, row by row; the outer `none` is the
assertion on `ipiv`. -/
def search (state : InvertMat) : List (ℕ × ℕ) → Option (Option (ℕ × ℕ))
  | [] => some none
  | (row, ix) :: rest =>
      if state.ipiv row = 1 then search state rest
      else if state.ipiv ix = 0 then
        if state.src row ix ≠ 0 then some (some (row, ix)) else search state rest
      else if state.ipiv ix ≤ 1 then search state rest
      else none

def entries (k : ℕ) : List (ℕ × ℕ) :=
  (List.range k).flatMap fun row => (List.range k).map fun ix => (row, ix)

/-- The diagonal is tried first. -/
def findPivot (state : InvertMat) (k col : ℕ) : Option (Option (ℕ × ℕ)) :=
  if state.ipiv col ≠ 1 ∧ state.src col col ≠ 0 then some (some (col, col))
  else state.search (entries k)

def swapRows (src : GfMatrix) (irow icol : ℕ) : GfMatrix := fun row =>
  src (Equiv.swap irow icol row)

/-- The pivot becomes 1 before its row is multiplied with its inverse. -/
def scaleRow (src : GfMatrix) (icol : ℕ) (c : Gf) (k : ℕ) : GfMatrix :=
  Function.update src icol fun ix =>
    if ix < k then c * (Function.update (src icol) icol 1) ix else src icol ix

def idRow (icol : ℕ) : GfRow := Function.update 0 icol 1

def clearColumn (src : GfMatrix) (icol k : ℕ) : GfMatrix := fun ix =>
  if ix < k ∧ ix ≠ icol then
    addmul (Function.update (src ix) icol 0) (src icol) (src ix icol) k
  else src ix

/-- One turn of the loop over the columns. -/
def step (k : ℕ) (state : InvertMat) (col : ℕ) : Option InvertMat := do
  let found ← state.findPivot k col
  -- When nothing is found, `irow` and `icol` are still those of the last column.
  let (irow, icol) := found.getD (state.irow, state.icol)
  let ipiv := Function.update state.ipiv icol (state.ipiv icol + 1)
  let src := if irow ≠ icol then swapRows state.src irow icol else state.src
  let c := src icol icol
  guard (c ≠ 0)
  let src := if c ≠ 1 then scaleRow src icol c⁻¹ k else src
  let src := if ∀ ix < k, src icol ix = idRow icol ix then src else clearColumn src icol k
  return { src, ipiv, irow, icol, indx := (irow, icol) :: state.indx }

def swapColumns (src : GfMatrix) (indx : ℕ × ℕ) : GfMatrix :=
  if indx.1 ≠ indx.2 then fun row col => src row (Equiv.swap indx.1 indx.2 col) else src

end InvertMat

/-- `_invert_mat` -/
def invertMat (src : GfMatrix) (k : ℕ) : Option GfMatrix := do
  let state ← (List.range k).foldlM (InvertMat.step k) { src }
  return state.indx.foldl InvertMat.swapColumns state.src

namespace InvertVdm

/-- One point more in the coefficients of the product of the `x - p[i]`. -/
def nextCoefficients (p : GfRow) (k : ℕ) (c : GfRow) (i : ℕ) : GfRow :=
  let c := (List.range' (k - 1 - (i - 1)) (i - 1)).foldl
    (fun c j => Function.update c j (c j + p i * c (j + 1))) c
  Function.update c (k - 1) (c (k - 1) + p i)

def coefficients (p : GfRow) (k : ℕ) : GfRow :=
  (List.range' 1 (k - 1)).foldl (nextCoefficients p k) (Function.update 0 (k - 1) (p 0))

/-- Synthetic division; `i` counts down from `k - 1`. -/
def divideStep (c : GfRow) (xx : Gf) (k : ℕ) (state : GfRow × Gf) (turn : ℕ) : GfRow × Gf :=
  let i := k - 1 - turn
  let b := Function.update state.1 (i - 1) (c i + xx * state.1 i)
  (b, xx * state.2 + b (i - 1))

def divide (c : GfRow) (xx : Gf) (k : ℕ) (b : GfRow) : GfRow × Gf :=
  (List.range (k - 1)).foldl (divideStep c xx k) (Function.update b (k - 1) 1, 1)

/-- The column of the inverse for one row; `b` is used again for the next one. -/
def column (p c : GfRow) (k : ℕ) (state : GfMatrix × GfRow) (row : ℕ) : GfMatrix × GfRow :=
  let (b, t) := divide c (p row) k state.2
  (fun i j => if i < k ∧ j = row then t⁻¹ * b i else state.1 i j, b)

end InvertVdm

/-- `_invert_vdm` -/
def invertVdm (src : GfMatrix) (k : ℕ) : GfMatrix :=
  if k = 1 then src
  else
    let p : GfRow := fun i => src i 1
    let c := InvertVdm.coefficients p k
    ((List.range k).foldl (InvertVdm.column p c k) (src, 0)).1

/-! ## The code -/

structure FecT where
  k : ℕ
  n : ℕ
  encMatrix : GfMatrix

namespace FecT

/-- Powers of field elements, starting from 0. -/
def powers : GfMatrix := fun row col =>
  if row = 0 then if col = 0 then 1 else 0 else gfTables.gfExp (modnn ((row - 1) * col))

/-- `fec_new` -/
def new (k n : ℕ) : FecT :=
  let tmpM := invertVdm powers k
  let product := matmul (fun row => tmpM (k + row)) tmpM k
  { k, n, encMatrix := fun row col =>
      if row < k then if row = col then 1 else 0 else product (row - k) col }

end FecT

/-- `STRIDE` -/
def stride : ℕ := 8192

/-- A loop whose counter is an `unsigned char`; past 255 it never ends. -/
def charRange (bound : ℕ) : Option (List ℕ) :=
  if bound < 256 then some (List.range bound) else none

/-- One source block more in one stride of a check block. -/
def addSource (code : FecT) (src : List GfRow) (fecnum offset size : ℕ) (fec : GfRow) (j : ℕ) :
    Option GfRow := do
  let row ← src[j]?
  let sum := addmul (fun i => fec (offset + i)) (fun i => row (offset + i))
    (code.encMatrix fecnum j) size
  return fun i => if offset ≤ i then sum (i - offset) else fec i

/-- One stride of one check block. -/
def encodeStride (code : FecT) (src : List GfRow) (sz offset : ℕ) (fec : GfRow) (fecnum : ℕ) :
    Option GfRow := do
  let size := min (sz - offset) stride
  guard (code.k ≤ fecnum)
  guard (fecnum < code.n)
  let cleared : GfRow := fun i => if offset ≤ i ∧ i < offset + size then 0 else fec i
  (← charRange code.k).foldlM (addSource code src fecnum offset size) cleared

/-- One stride of all check blocks. -/
def encodeStrides (code : FecT) (src : List GfRow) (blockNums : List ℕ) (sz : ℕ)
    (fecs : List GfRow) (turn : ℕ) : Option (List GfRow) := do
  let counters ← charRange blockNums.length
  counters.mapM fun i => do
    encodeStride code src sz (turn * stride) (← fecs[i]?) (← blockNums[i]?)

/-- `fec_encode` -/
def fecEncode (code : FecT) (src fecs : List GfRow) (blockNums : List ℕ) (sz : ℕ) :
    Option (List GfRow) :=
  (List.range ((sz + stride - 1) / stride)).foldlM (encodeStrides code src blockNums sz) fecs

def decodeMatrixRow (code : FecT) (index : List ℕ) (i : ℕ) : Option GfRow := do
  let fecnum ← index[i]?
  if fecnum < code.k then return InvertMat.idRow i
  guard (fecnum < code.n)
  return code.encMatrix fecnum

/-- `build_decode_matrix_into_space` -/
def buildDecodeMatrix (code : FecT) (index : List ℕ) : Option GfMatrix := do
  let rows ← (← charRange code.k).mapM (decodeMatrixRow code index)
  invertMat (fun i => (rows[i]?).getD 0) code.k

/-- One input block more in a recovered block. -/
def addInput (inpkts : List GfRow) (mDec : GfMatrix) (row sz : ℕ) (outpkt : GfRow) (col : ℕ) :
    Option GfRow := do
  let inpkt ← inpkts[col]?
  return addmul outpkt inpkt (mDec row col) sz

/-- The recovered block of a row, if there is one. -/
def decodeRow (code : FecT) (inpkts : List GfRow) (index : List ℕ) (mDec : GfMatrix) (sz : ℕ)
    (row : ℕ) : Option (Option GfRow) := do
  let fecnum ← index[row]?
  guard (code.k ≤ fecnum ∨ fecnum = row)
  if fecnum < code.k then return none
  let outpkt ← (← charRange code.k).foldlM (addInput inpkts mDec row sz) 0
  return some outpkt

/-- `fec_decode`, which fills `outpkts` in the order of the rows. -/
def fecDecode (code : FecT) (inpkts : List GfRow) (index : List ℕ) (sz : ℕ) :
    Option (List GfRow) := do
  let mDec ← buildDecodeMatrix code index
  let rows ← (← charRange code.k).mapM (decodeRow code inpkts index mDec sz)
  return rows.filterMap id

/-! ## The library as the codecs use it -/

def GfRow.ofBytes (block : Bytes) : GfRow := fun i => ⟨(block[i]?).getD 0⟩

def GfRow.toBytes (row : GfRow) (sz : ℕ) : Bytes := (List.range sz).map fun i => (row i).byte

/-- A failed assertion ends the program, so nothing is said about the result. -/
def zfec (beyond : Bytes → ℕ → UInt8) : Fec where
  encode k n src blockNum sz :=
    match fecEncode (.new k n) (src.map GfRow.ofBytes) [0] [blockNum] sz with
    | some [fec] => GfRow.toBytes fec sz
    | _ => List.replicate sz 0
  decode k n inpkts index sz :=
    match fecDecode (.new k n) (inpkts.map GfRow.ofBytes) index sz with
    | some outpkts => outpkts.map fun outpkt => GfRow.toBytes outpkt sz
    | none => []
  beyond

/-- The configuration with this library, where memory behind a string's NUL reads as 0. -/
def Config.withZfec (config : Config) : Config := { config with fec := zfec fun _ _ => 0 }

end NDNPaxos
