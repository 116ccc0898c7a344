import NDNPaxos.ReedSolomon
import NDNPaxos.Library.SystematicCode
import Mathlib.Data.Fintype.Vector
import Mathlib.Tactic

/-!
# The contract of zfec

What its header documents: `fec_encode` turns `k` source blocks of `sz` bytes
into check blocks of `sz` bytes, and `fec_decode` recovers the missing primary
blocks from any `k` different blocks, a present primary one in its own place.
For blocks of one size this is a recoverable systematic code, so `fec_decode`
finds some source for any `k` blocks, also for blocks that nobody encoded.
-/

namespace NDNPaxos

structure Blocks (k sz : ℕ) (blocks : List Bytes) : Prop where
  length : blocks.length = k
  size : ∀ block ∈ blocks, block.length = sz

structure Placed (k n : ℕ) (index : List ℕ) : Prop where
  length : index.length = k
  nodup : index.Nodup
  lt : ∀ i ∈ index, i < n
  primary : ∀ slot i, index[slot]? = some i → i < k → i = slot

/-- The primary blocks to be recovered, in the order of `outpkts`. -/
def missing (k : ℕ) (index : List ℕ) : List ℕ :=
  (List.range k).filter fun i => i ∉ index

/-- The `i`th block, a primary or a check block. -/
def Fec.block (fec : Fec) (k n sz : ℕ) (src : List Bytes) (i : ℕ) : Bytes :=
  if i < k then (src[i]?).getD [] else fec.encode k n src i sz

structure Fec.Lawful (fec : Fec) (k n : ℕ) : Prop where
  encode_length : ∀ src sz i, Blocks k sz src → k ≤ i → i < n →
    (fec.encode k n src i sz).length = sz
  decode : ∀ src sz index, Blocks k sz src → Placed k n index →
    fec.decode k n (index.map (fec.block k n sz src)) index sz =
      (missing k index).map (fec.block k n sz src)

def replication : Fec where
  encode := fun _ _ src _ _ => (src[0]?).getD []
  decode := fun k _ inpkts index _ =>
    (missing k index).map fun _ => (inpkts[0]?).getD []

section Contract

variable {fec : Fec} {k n sz : ℕ} {src src' : List Bytes} {index : List ℕ}

theorem Fec.block_primary (fec : Fec) (n sz : ℕ) (src : List Bytes) {i : ℕ} (hlt : i < k) :
    fec.block k n sz src i = (src[i]?).getD [] := by
  rw [Fec.block, if_pos hlt]

theorem Fec.block_check (fec : Fec) (n sz : ℕ) (src : List Bytes) {i : ℕ} (hle : k ≤ i) :
    fec.block k n sz src i = fec.encode k n src i sz := by
  rw [Fec.block, if_neg (Nat.not_lt.mpr hle)]

theorem Blocks.getD_length (hblocks : Blocks k sz src) {i : ℕ} (hlt : i < k) :
    ((src[i]?).getD []).length = sz := by
  have hlt' : i < src.length := by rwa [hblocks.length]
  rw [List.getElem?_eq_getElem hlt', Option.getD_some]
  exact hblocks.size _ (List.getElem_mem hlt')

theorem mem_missing {i : ℕ} : i ∈ missing k index ↔ i < k ∧ i ∉ index := by
  rw [missing, List.mem_filter, List.mem_range, decide_eq_true_iff]

/-! ## The code on blocks of one size -/

abbrev Block (sz : ℕ) : Type := { block : Bytes // block.length = sz }

theorem finite_block (sz : ℕ) : Finite (Block sz) := by
  have hbytes : Finite UInt8 := by
    apply Finite.of_injective UInt8.toFin
    intro byte byte' heq
    exact UInt8.toFin_inj.mp heq
  exact inferInstanceAs (Finite (List.Vector UInt8 sz))

def listOf (source : Fin k → Block sz) : List Bytes :=
  List.ofFn fun slot => (source slot).1

theorem blocks_listOf (source : Fin k → Block sz) : Blocks k sz (listOf source) := by
  constructor
  · exact List.length_ofFn
  · intro block hmem
    rcases (List.mem_ofFn' _ _).mp hmem with ⟨slot, rfl⟩
    exact (source slot).2

theorem listOf_getD (source : Fin k → Block sz) (slot : Fin k) :
    ((listOf source)[(slot : ℕ)]?).getD [] = (source slot).1 := by
  simp [listOf]

theorem Blocks.exists_listOf (hblocks : Blocks k sz src) :
    ∃ source : Fin k → Block sz, listOf source = src := by
  have hlt : ∀ slot : Fin k, (slot : ℕ) < src.length := fun slot => by
    rw [hblocks.length]
    exact slot.isLt
  refine ⟨fun slot => ⟨src.get ⟨slot, hlt slot⟩, hblocks.size _ (List.get_mem _ _)⟩, ?_⟩
  apply List.ext_getElem
  · rw [(blocks_listOf _).length, hblocks.length]
  · intro slot hslot hslot'
    simp [listOf]

theorem Placed.slot_lt (hplaced : Placed k n index) (slot : Fin k) :
    (slot : ℕ) < index.length := by
  rw [hplaced.length]
  exact slot.isLt

theorem Placed.positions (hplaced : Placed k n index) :
    SystematicCode.Placed n fun slot : Fin k => index.get ⟨slot, hplaced.slot_lt slot⟩ := by
  constructor
  · intro slot slot' heq
    exact Fin.ext ((List.Nodup.getElem_inj_iff hplaced.nodup).mp heq)
  · exact fun slot => hplaced.lt _ (List.get_mem index _)
  · intro slot hprimary
    exact hplaced.primary slot _ (List.getElem?_eq_getElem (hplaced.slot_lt slot)) hprimary

namespace Fec.Lawful

/-- The code that zfec is on blocks of `sz` bytes; no check block has another number. -/
def code (hlawful : fec.Lawful k n) (sz : ℕ) : SystematicCode (Block sz) k n where
  check := fun source i =>
    if hcheck : k ≤ i ∧ i < n then
      ⟨fec.encode k n (listOf source) i sz,
        hlawful.encode_length _ _ _ (blocks_listOf source) hcheck.1 hcheck.2⟩
    else ⟨List.replicate sz 0, List.length_replicate⟩

theorem word_code (hlawful : fec.Lawful k n) (source : Fin k → Block sz) {i : ℕ}
    (hlt : i < n) :
    ((hlawful.code sz).word source i).1 = fec.block k n sz (listOf source) i := by
  by_cases hprimary : i < k
  · rw [Fec.block_primary fec n sz _ hprimary, listOf_getD source ⟨i, hprimary⟩,
      SystematicCode.word, dif_pos hprimary]
  · have hle := Nat.le_of_not_lt hprimary
    rw [Fec.block_check fec n sz _ hle, SystematicCode.word_check source hle]
    simp only [code, hle, hlt, and_self, dif_pos]

theorem placed_ofFn {positions : Fin k → ℕ} (hplaced : SystematicCode.Placed n positions) :
    Placed k n (List.ofFn positions) := by
  constructor
  · exact List.length_ofFn
  · exact List.nodup_ofFn.mpr hplaced.injective
  · intro i hmem
    rcases (List.mem_ofFn' _ _).mp hmem with ⟨slot, rfl⟩
    exact hplaced.lt slot
  · intro slot i hslot hprimary
    rw [List.getElem?_ofFn] at hslot
    split at hslot
    next hlt =>
      rw [Option.some.injEq] at hslot
      subst hslot
      exact hplaced.primary ⟨slot, hlt⟩ hprimary
    next => simp at hslot

theorem recoverable (hlawful : fec.Lawful k n) (sz : ℕ) : (hlawful.code sz).Recoverable := by
  intro positions hplaced source source' hequal
  have hblock : ∀ slot, fec.block k n sz (listOf source) (positions slot) =
      fec.block k n sz (listOf source') (positions slot) := by
    intro slot
    rw [← hlawful.word_code source (hplaced.lt slot), ← hlawful.word_code source' (hplaced.lt slot)]
    exact congrArg Subtype.val (congrFun hequal slot)
  have hinputs : (List.ofFn positions).map (fec.block k n sz (listOf source)) =
      (List.ofFn positions).map (fec.block k n sz (listOf source')) := by
    apply List.map_congr_left
    intro i hmem
    rcases (List.mem_ofFn' _ _).mp hmem with ⟨slot, rfl⟩
    exact hblock slot
  have hdecoded := hlawful.decode _ _ _ (blocks_listOf source) (placed_ofFn hplaced)
  rw [hinputs, hlawful.decode _ _ _ (blocks_listOf source') (placed_ofFn hplaced)] at hdecoded
  funext slot
  apply Subtype.ext
  rw [← listOf_getD source slot, ← listOf_getD source' slot,
    ← Fec.block_primary fec n sz _ slot.isLt, ← Fec.block_primary fec n sz _ slot.isLt]
  by_cases hpresent : (slot : ℕ) ∈ List.ofFn positions
  · rcases (List.mem_ofFn' _ _).mp hpresent with ⟨slot', hslot⟩
    rw [← hslot]
    exact hblock slot'
  · exact (List.map_inj_left.mp hdecoded.symm) slot
      (mem_missing.mpr ⟨slot.isLt, hpresent⟩)

/-- Any `k` blocks are those of some source, which `fec_decode` then finds. -/
theorem exists_source (hlawful : fec.Lawful k n) (hplaced : Placed k n index)
    {received : List Bytes} (hreceived : Blocks k sz received) :
    ∃ src, Blocks k sz src ∧ index.map (fec.block k n sz src) = received := by
  have hfinite := finite_block sz
  have hpositions := hplaced.positions
  rcases hreceived.exists_listOf with ⟨blocks, rfl⟩
  rcases SystematicCode.exists_source (hlawful.recoverable sz) hpositions blocks with
    ⟨source, hsource⟩
  refine ⟨listOf source, blocks_listOf source, ?_⟩
  apply List.ext_getElem
  · rw [List.length_map, hplaced.length, (blocks_listOf blocks).length]
  · intro slot hslot hslot'
    rw [List.length_map, hplaced.length] at hslot
    have hword := congrArg Subtype.val (hsource ⟨slot, hslot⟩)
    rw [hlawful.word_code source (hpositions.lt ⟨slot, hslot⟩)] at hword
    rw [List.getElem_map]
    apply hword.trans
    simp [listOf]

theorem eq_of_placed (hlawful : fec.Lawful k n) (hplaced : Placed k n index)
    (hblocks : Blocks k sz src) (hblocks' : Blocks k sz src')
    (hsame : ∀ i ∈ index, fec.block k n sz src i = fec.block k n sz src' i) : src = src' := by
  rcases hblocks.exists_listOf with ⟨source, rfl⟩
  rcases hblocks'.exists_listOf with ⟨source', rfl⟩
  have hequal : source = source' := by
    apply hlawful.recoverable sz _ hplaced.positions
    funext slot
    apply Subtype.ext
    have hlt := hplaced.positions.lt slot
    rw [hlawful.word_code source hlt, hlawful.word_code source' hlt]
    exact hsame _ (List.getElem_mem _)
  rw [hequal]

theorem eq_of_block_eq (hlawful : fec.Lawful k n) (hblocks : Blocks k sz src)
    (hblocks' : Blocks k sz src') {last : ℕ} (hlast : last < k)
    (hsame : ∀ slot < k, slot ≠ last →
      fec.block k n sz src slot = fec.block k n sz src' slot)
    {i : ℕ} (hle : k ≤ i) (hlt : i < n)
    (hcheck : fec.block k n sz src i = fec.block k n sz src' i) : src = src' := by
  rcases hblocks.exists_listOf with ⟨source, rfl⟩
  rcases hblocks'.exists_listOf with ⟨source', rfl⟩
  have hothers : ∀ slot : Fin k, slot ≠ ⟨last, hlast⟩ → source slot = source' slot := by
    intro slot hslot
    apply Subtype.ext
    rw [← listOf_getD source slot, ← listOf_getD source' slot,
      ← Fec.block_primary fec n sz _ slot.isLt, ← Fec.block_primary fec n sz _ slot.isLt]
    exact hsame slot slot.isLt fun heq => hslot (Fin.ext heq)
  have hsymbol : (hlawful.code sz).check source i = (hlawful.code sz).check source' i := by
    rw [← SystematicCode.word_check source hle, ← SystematicCode.word_check source' hle]
    apply Subtype.ext
    rw [hlawful.word_code source hlt, hlawful.word_code source' hlt, hcheck]
  rw [SystematicCode.eq_of_check_eq (hlawful.recoverable sz) hothers hle hlt hsymbol]

end Fec.Lawful

end Contract

theorem replication_lawful (n : ℕ) : replication.Lawful 1 n := by
  constructor
  · intro src sz i hblocks _ _
    exact hblocks.getD_length Nat.one_pos
  · intro src sz index hblocks hplaced
    apply List.map_congr_left
    intro i hmem
    have hzero : i = 0 := Nat.lt_one_iff.mp (mem_missing.mp hmem).1
    have hlt : 0 < index.length := by
      rw [hplaced.length]
      exact Nat.one_pos
    have hcopy : ∀ j, replication.block 1 n sz src j = (src[0]?).getD [] := by
      intro j
      rcases Nat.lt_or_ge j 1 with hprimary | hcheck
      · rw [Fec.block_primary replication n sz src hprimary, Nat.lt_one_iff.mp hprimary]
      · rw [Fec.block_check replication n sz src hcheck]
        rfl
    rw [hcopy i, List.getElem?_map, List.getElem?_eq_getElem hlt, Option.map_some, hcopy]
    rfl

/-- Without check blocks there is nothing to encode and nothing to recover. -/
theorem lawful_without_checks (n : ℕ) : ({} : Fec).Lawful n n := by
  constructor
  · intro src sz i _ hle hlt
    exact absurd hlt (Nat.not_lt.mpr hle)
  · intro src sz index _ hplaced
    have hchecks : index.filter (n ≤ ·) = [] := by
      rw [List.filter_eq_nil_iff]
      intro i hmem
      simpa using hplaced.lt i hmem
    have hmissing : missing n index = [] := by
      rw [List.eq_nil_iff_forall_not_mem]
      intro i hmem
      rcases mem_missing.mp hmem with ⟨hlt, hnot⟩
      have hall : index.toFinset = Finset.range n := by
        apply Finset.eq_of_subset_of_card_le
        · exact fun j hj => Finset.mem_range.mpr (hplaced.lt j (List.mem_toFinset.mp hj))
        · rw [List.toFinset_card_of_nodup hplaced.nodup, hplaced.length, Finset.card_range]
      exact hnot (List.mem_toFinset.mp (hall ▸ Finset.mem_range.mpr hlt))
    rw [hmissing]
    change (index.filter (n ≤ ·)).map _ = []
    rw [hchecks]
    rfl

end NDNPaxos
