import NDNPaxos.Message

/-!
# Reed-Solomon encoder and decoder

`RSEncoder` and `RSDecoder` around the bundled zfec library.  The library is
a parameter: `encode` gives one check block of the code, `decode` the missing
primary blocks in increasing order, and `beyond` is whatever memory holds
behind the terminating NUL of a string.  Results are collected in a member of
the object, as in the source, so an object remembers its earlier calls.
-/

namespace NDNPaxos

/-- The two zfec entry points, for a code with `k` primary of `n` blocks. -/
structure Fec where
  encode : (k n : ℕ) → (src : List Bytes) → (blockNum sz : ℕ) → Bytes :=
    fun _ _ _ _ sz => List.replicate sz 0
  decode : (k n : ℕ) → (inpkts : List Bytes) → (index : List ℕ) → (sz : ℕ) → List Bytes :=
    fun k _ _ index sz => (index.filter (k ≤ ·)).map fun _ => List.replicate sz 0
  beyond : Bytes → ℕ → UInt8 := fun _ _ => 0

/-- `sz` bytes of memory read from a string, starting at an offset. -/
def Fec.read (fec : Fec) (data : Bytes) (offset sz : ℕ) : Bytes :=
  (List.range sz).map fun i =>
    match data[offset + i]? with
    | some byte => byte
    | none => if offset + i = data.length then 0 else fec.beyond data (offset + i)

structure RSEncoder where
  k : ℕ
  n : ℕ
  encodedData : List Bytes := []

namespace RSEncoder

def new (k n : ℕ) : RSEncoder := { k, n }

def blkSize (encoder : RSEncoder) (data : Bytes) : ℕ :=
  (data.length + encoder.k - 1) / encoder.k

/-- `std::string::substr`, which throws past the end of the string. -/
def substr (data : Bytes) (pos len : ℕ) : Option Bytes :=
  if pos ≤ data.length then some ((data.drop pos).take len) else none

/-- `none` is the exception that `substr` throws. -/
def rsEncode (fec : Fec) (encoder : RSEncoder) (data : Bytes) :
    Option (List Bytes × RSEncoder) := do
  let blk := encoder.blkSize data
  let primary ← (List.range encoder.k).mapM fun i => substr data (i * blk) blk
  let src := (List.range encoder.k).map fun i => fec.read data (i * blk) blk
  let check := (List.range (encoder.n - encoder.k)).map fun i =>
    fec.encode encoder.k encoder.n src (encoder.k + i) blk
  let encodedData := encoder.encodedData ++ primary ++ check
  return (encodedData, { encoder with encodedData })

end RSEncoder

structure RSDecoder where
  k : ℕ
  n : ℕ
  decodedData : Bytes := []

namespace RSDecoder

def new (k n : ℕ) : RSDecoder := { k, n }

/-- `while (!map[r]) r++`, stopped at the end of the map. -/
def nextPresent (map : List Bool) (r : ℕ) : Option ℕ :=
  (List.range' r (map.length - r)).find? fun i => map[i]? == some true

/-- The block number used for each primary position: the position itself when
its block is present, else the next present check block. -/
def recoveryIndex (map : List Bool) : (positions : List ℕ) → (r : ℕ) → Option (List ℕ)
  | [], _ => some []
  | i :: rest, r =>
      if map[i]? = some true then do
        return i :: (← recoveryIndex map rest r)
      else do
        let j ← nextPresent map r
        return j :: (← recoveryIndex map rest (j + 1))

/-- The decoded blocks in order, taking the recovered ones as they come. -/
def mergeBlocks (blocks : List Bytes) (map : List Bool) :
    (positions : List ℕ) → (recovered : List Bytes) → Bytes
  | [], _ => []
  | i :: rest, recovered =>
      if map[i]? = some true then
        (blocks[i]?).getD [] ++ mergeBlocks blocks map rest recovered
      else
        (recovered.head?).getD [] ++ mergeBlocks blocks map rest recovered.tail

/-- `none` is a read past the end of `map`. -/
def rsDecode (fec : Fec) (decoder : RSDecoder) (blocks : List Bytes) (map : List Bool)
    (_lostNum : ℕ) : Option (Bytes × RSDecoder) := do
  let blk := ((blocks[0]?).getD []).length
  let positions := List.range decoder.k
  let index ← recoveryIndex map positions decoder.k
  let inpkts := index.map fun i => fec.read ((blocks[i]?).getD []) 0 blk
  let recovered := fec.decode decoder.k decoder.n inpkts index blk
  let decodedData := decoder.decodedData ++ mergeBlocks blocks map positions recovered
  return (decodedData, { decoder with decodedData })

end RSDecoder

end NDNPaxos
