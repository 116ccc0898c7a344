import NDNPaxos.FecContract
import Mathlib.Data.Nat.ModEq
import Mathlib.Tactic

/-!
# What the encoder and the decoder compute

The blocks of a data string as functions of the string, the condition under
which `rs_encode` does not throw, and the two loops of `rs_decode` in terms of
the set of present blocks.  Nothing here depends on the contract of zfec.
-/

namespace NDNPaxos

/-- `ceil(double(size) / k)`. -/
def blkSize (x : ℕ) (data : Bytes) : ℕ := (data.length + x - 1) / x

def sources (fec : Fec) (x : ℕ) (data : Bytes) : List Bytes :=
  (List.range x).map fun i => fec.read data (i * blkSize x data) (blkSize x data)

def shard (fec : Fec) (x n : ℕ) (data : Bytes) (i : ℕ) : Bytes :=
  if i < x then (data.drop (i * blkSize x data)).take (blkSize x data)
  else fec.encode x n (sources fec x data) i (blkSize x data)

def shards (fec : Fec) (x n : ℕ) (data : Bytes) : List Bytes :=
  (List.range n).map (shard fec x n data)

/-- The last primary block begins inside the string or at its end. -/
def Encodable (x : ℕ) (data : Bytes) : Prop := (x - 1) * blkSize x data ≤ data.length

instance (x : ℕ) (data : Bytes) : Decidable (Encodable x data) :=
  inferInstanceAs (Decidable (_ ≤ _))

/-! ## Encoding -/

theorem mapM_eq_some {α β : Type*} {f : α → Option β} {g : α → β} {list : List α}
    (hsome : ∀ a ∈ list, f a = some (g a)) : list.mapM f = some (list.map g) := by
  induction list with
  | nil => rfl
  | cons a rest ih =>
      have hrest := ih fun b hmem => hsome b (List.mem_cons_of_mem a hmem)
      rw [List.mapM_cons, hsome a (List.mem_cons_self ..), hrest]
      rfl

theorem mapM_eq_none {α β : Type*} {f : α → Option β} {list : List α} {a : α}
    (hmem : a ∈ list) (hnone : f a = none) : list.mapM f = none := by
  induction list with
  | nil => exact absurd hmem List.not_mem_nil
  | cons b rest ih =>
      rw [List.mapM_cons]
      rcases List.mem_cons.mp hmem with rfl | hrest
      · rw [hnone]
        rfl
      · rw [ih hrest]
        cases f b <;> rfl

section Lengths

variable {x : ℕ} {data : Bytes}

theorem mul_blkSize_ge (hx : 0 < x) : data.length ≤ x * blkSize x data := by
  have hdiv := Nat.lt_mul_div_succ (data.length + x - 1) hx
  rw [blkSize]
  rw [Nat.mul_add, Nat.mul_one] at hdiv
  omega

theorem blkSize_le (hx : 0 < x) : blkSize x data ≤ data.length := by
  rw [blkSize]
  rcases Nat.eq_zero_or_pos data.length with hzero | hpos
  · rw [hzero, Nat.zero_add, Nat.div_eq_of_lt (by omega)]
  · rw [Nat.div_le_iff_le_mul_add_pred hx]
    have hle : data.length ≤ x * data.length := Nat.le_mul_of_pos_left _ hx
    omega

theorem blkSize_pos (hx : 0 < x) (hdata : data ≠ []) : 0 < blkSize x data := by
  have hlength : 0 < data.length := List.length_pos_iff.mpr hdata
  rw [blkSize]
  exact Nat.div_pos (by omega) hx

/-- The string fills its blocks exactly when `x` divides its length. -/
theorem dvd_length_iff (hx : 0 < x) : x ∣ data.length ↔ x * blkSize x data = data.length := by
  constructor
  · rintro ⟨size, hsize⟩
    have hblk : blkSize x data = size := by
      rw [blkSize, hsize, Nat.add_sub_assoc hx, Nat.mul_add_div hx, Nat.div_eq_of_lt (by omega),
        Nat.add_zero]
    rw [hblk, hsize]
  · intro heq
    exact ⟨blkSize x data, heq.symm⟩

theorem block_le_length (hencodable : Encodable x data) {i : ℕ} (hlt : i + 1 < x) :
    i * blkSize x data + blkSize x data ≤ data.length := by
  have hmul : (i + 1) * blkSize x data ≤ (x - 1) * blkSize x data :=
    Nat.mul_le_mul_right _ (by omega)
  rw [Nat.add_mul, Nat.one_mul] at hmul
  exact hmul.trans hencodable

end Lengths

section Encoding

variable {fec : Fec} {x n : ℕ} {data : Bytes}

theorem length_shards : (shards fec x n data).length = n := by
  rw [shards, List.length_map, List.length_range]

theorem shards_getElem? {i : ℕ} (hlt : i < n) :
    (shards fec x n data)[i]? = some (shard fec x n data i) := by
  rw [shards, List.getElem?_map, List.getElem?_range hlt, Option.map_some]

theorem shard_primary {i : ℕ} (hlt : i < x) :
    shard fec x n data i = (data.drop (i * blkSize x data)).take (blkSize x data) := by
  rw [shard, if_pos hlt]

theorem shards_eq_append (hle : x ≤ n) :
    shards fec x n data =
      (List.range x).map (fun i => (data.drop (i * blkSize x data)).take (blkSize x data)) ++
      (List.range (n - x)).map fun i =>
        fec.encode x n (sources fec x data) (x + i) (blkSize x data) := by
  obtain ⟨c, rfl⟩ := Nat.exists_eq_add_of_le hle
  rw [shards, List.range_add, List.map_append, List.map_map, Nat.add_sub_cancel_left]
  congr 1
  · apply List.map_congr_left
    intro i hmem
    rw [shard, if_pos (List.mem_range.mp hmem)]
  · apply List.map_congr_left
    intro i _
    rw [Function.comp_apply, shard, if_neg (by omega)]

theorem rsEncode_eq (encoder : RSEncoder) (hpos : 0 < encoder.k) (hle : encoder.k ≤ encoder.n)
    (data : Bytes) :
    encoder.rsEncode fec data =
      if Encodable encoder.k data then
        some (encoder.encodedData ++ shards fec encoder.k encoder.n data,
          { encoder with
            encodedData := encoder.encodedData ++ shards fec encoder.k encoder.n data })
      else none := by
  have hsize : encoder.blkSize data = blkSize encoder.k data := rfl
  simp only [RSEncoder.rsEncode, hsize]
  by_cases hencodable : Encodable encoder.k data
  · have hprimary : ∀ i ∈ List.range encoder.k,
        RSEncoder.substr data (i * blkSize encoder.k data) (blkSize encoder.k data) =
          some ((data.drop (i * blkSize encoder.k data)).take (blkSize encoder.k data)) := by
      intro i hmem
      have hlast : i * blkSize encoder.k data ≤ (encoder.k - 1) * blkSize encoder.k data :=
        Nat.mul_le_mul_right _ (Nat.le_pred_of_lt (List.mem_range.mp hmem))
      rw [RSEncoder.substr, if_pos (hlast.trans hencodable)]
    rw [if_pos hencodable, mapM_eq_some hprimary, shards_eq_append hle, ← List.append_assoc]
    rfl
  · have hlast : (fun i => RSEncoder.substr data (i * blkSize encoder.k data)
        (blkSize encoder.k data)) (encoder.k - 1) = none := if_neg hencodable
    rw [if_neg hencodable, mapM_eq_none (List.mem_range.mpr (Nat.sub_one_lt_of_lt hpos)) hlast]
    rfl

theorem encodable_of_rsEncode (encoder : RSEncoder) (hpos : 0 < encoder.k)
    (hle : encoder.k ≤ encoder.n) {result : List Bytes × RSEncoder}
    (hencode : encoder.rsEncode fec data = some result) : Encodable encoder.k data := by
  rw [rsEncode_eq encoder hpos hle] at hencode
  by_contra hnot
  rw [if_neg hnot] at hencode
  simp at hencode

theorem rsEncode_new (fec : Fec) (data : Bytes) (hpos : 0 < x) (hle : x ≤ n) :
    (RSEncoder.new x n).rsEncode fec data =
      if Encodable x data then
        some (shards fec x n data,
          { k := x, n := n, encodedData := shards fec x n data })
      else none :=
  rsEncode_eq (RSEncoder.new x n) hpos hle data

/-- The first blocks of the string, one after the other. -/
theorem flatten_take (data : Bytes) (blk count : ℕ) :
    ((List.range count).map fun i => (data.drop (i * blk)).take blk).flatten =
      data.take (count * blk) := by
  induction count with
  | zero => simp
  | succ count ih =>
      rw [List.range_succ, List.map_append, List.flatten_append, ih, Nat.add_mul, Nat.one_mul,
        List.take_add]
      simp

theorem flatten_primary (hx : 0 < x) :
    ((List.range x).map (shard fec x n data)).flatten = data := by
  have hprimary : (List.range x).map (shard fec x n data) =
      (List.range x).map fun i => (data.drop (i * blkSize x data)).take (blkSize x data) := by
    apply List.map_congr_left
    intro i hmem
    exact shard_primary (List.mem_range.mp hmem)
  rw [hprimary, flatten_take, List.take_of_length_le (mul_blkSize_ge hx)]

end Encoding

end NDNPaxos
