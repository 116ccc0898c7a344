import NDNPaxos.Shards
import Mathlib.Tactic

/-!
# What the decoder computes

The two loops of `rs_decode` in terms of the set of present blocks: which block
numbers it hands to zfec, and how it puts the string together.  Under zfec's
contract the string consists of the present primary blocks and of those of some
source whose word agrees with all the blocks that were used.
-/

namespace NDNPaxos

/-- `map[i] = true` for the present blocks and `false` for the others. -/
def presence (n : ℕ) (present : Finset ℕ) : List Bool :=
  (List.range n).map fun i => decide (i ∈ present)

def kept (n : ℕ) (present : Finset ℕ) (blocks : List Bytes) : List Bytes :=
  (List.range n).map fun i => if i ∈ present then (blocks[i]?).getD [] else []

/-- The flags of a vector are those of a set of block numbers. -/
structure Marks (map : List Bool) (n : ℕ) (present : Finset ℕ) : Prop where
  length : map.length = n
  mem_iff : ∀ i, map[i]? = some true ↔ i ∈ present

theorem marks_presence {n : ℕ} {present : Finset ℕ} (hpresent : present ⊆ Finset.range n) :
    Marks (presence n present) n present := by
  constructor
  · rw [presence, List.length_map, List.length_range]
  · intro i
    rw [presence, List.getElem?_map]
    constructor
    · intro hget
      rcases Option.map_eq_some_iff.mp hget with ⟨j, hj, hmem⟩
      rcases List.getElem?_eq_some_iff.mp hj with ⟨hlt, rfl⟩
      rw [List.getElem_range, decide_eq_true_iff] at hmem
      exact hmem
    · intro hmem
      have hlt := Finset.mem_range.mp (hpresent hmem)
      rw [List.getElem?_range hlt, Option.map_some, decide_eq_true hmem]

section Loops

variable {map : List Bool} {n : ℕ} {present : Finset ℕ}

theorem Marks.lt (hmarks : Marks map n present) {i : ℕ} (hmem : i ∈ present) : i < n := by
  rcases List.getElem?_eq_some_iff.mp ((hmarks.mem_iff i).mpr hmem) with ⟨hlt, _⟩
  rwa [hmarks.length] at hlt

theorem Marks.test_iff (hmarks : Marks map n present) (i : ℕ) :
    (map[i]? == some true) = true ↔ i ∈ present := by
  rw [beq_iff_eq, hmarks.mem_iff]

theorem nextPresent_spec (hmarks : Marks map n present) {r j : ℕ}
    (hnext : RSDecoder.nextPresent map r = some j) :
    j ∈ present ∧ r ≤ j ∧ ∀ i ∈ present, r ≤ i → j ≤ i := by
  rw [RSDecoder.nextPresent, List.find?_range'_eq_some] at hnext
  rcases hnext with ⟨htest, hrange, hfirst⟩
  refine ⟨(hmarks.test_iff j).mp htest, (List.mem_range'_1.mp hrange).1, ?_⟩
  intro i hmem hle
  by_contra hlt
  have hskipped := hfirst i hle (Nat.lt_of_not_le hlt)
  rw [(hmarks.test_iff i).mpr hmem] at hskipped
  simp at hskipped

theorem exists_nextPresent (hmarks : Marks map n present) {r i : ℕ} (hmem : i ∈ present)
    (hle : r ≤ i) : ∃ j, RSDecoder.nextPresent map r = some j := by
  apply Option.ne_none_iff_exists'.mp
  intro hnone
  rw [RSDecoder.nextPresent, List.find?_range'_eq_none] at hnone
  have hlt := hmarks.lt hmem
  rw [hmarks.length] at hnone
  have hskipped := hnone i hle (by omega)
  rw [(hmarks.test_iff i).mpr hmem] at hskipped
  simp at hskipped

/-- The block used for a primary position. -/
def Stands (present : Finset ℕ) (r position i : ℕ) : Prop :=
  i ∈ present ∧ if position ∈ present then i = position else r ≤ i

theorem recoveryIndex_cons (hmarks : Marks map n present) {position r : ℕ} {rest index : List ℕ} :
    RSDecoder.recoveryIndex map (position :: rest) r = some index ↔
      (position ∈ present ∧ ∃ others, RSDecoder.recoveryIndex map rest r = some others ∧
        position :: others = index) ∨
      (position ∉ present ∧ ∃ j, RSDecoder.nextPresent map r = some j ∧
        ∃ others, RSDecoder.recoveryIndex map rest (j + 1) = some others ∧
          j :: others = index) := by
  simp only [RSDecoder.recoveryIndex, hmarks.mem_iff, Option.bind_eq_bind]
  split
  next hmem => simp [hmem, Option.bind_eq_some_iff]
  next hmem => simp [hmem, Option.bind_eq_some_iff]

theorem recoveryIndex_stands (hmarks : Marks map n present) {positions index : List ℕ} {r : ℕ}
    (hindex : RSDecoder.recoveryIndex map positions r = some index) :
    List.Forall₂ (Stands present r) positions index := by
  induction positions generalizing index r with
  | nil =>
      rw [RSDecoder.recoveryIndex, Option.some.injEq] at hindex
      rw [← hindex]
      exact .nil
  | cons position rest ih =>
      rcases (recoveryIndex_cons hmarks).mp hindex with
        ⟨hmem, others, hothers, rfl⟩ | ⟨hmem, j, hnext, others, hothers, rfl⟩
      · apply List.Forall₂.cons _ (ih hothers)
        exact ⟨hmem, by rw [if_pos hmem]⟩
      · rcases nextPresent_spec hmarks hnext with ⟨hj, hle, _⟩
        apply List.Forall₂.cons
        · exact ⟨hj, by rwa [if_neg hmem]⟩
        · apply (ih hothers).imp
          intro other i hstands
          refine ⟨hstands.1, ?_⟩
          have hplace := hstands.2
          split_ifs at hplace ⊢ with hother
          · exact hplace
          · omega

theorem recoveryIndex_nodup (hmarks : Marks map n present) {positions index : List ℕ} {r : ℕ}
    (hnodup : positions.Nodup) (hbelow : ∀ position ∈ positions, position < r)
    (hindex : RSDecoder.recoveryIndex map positions r = some index) :
    index.Nodup ∧ ∀ i ∈ index, i ∈ positions ∨ r ≤ i := by
  induction positions generalizing index r with
  | nil =>
      rw [RSDecoder.recoveryIndex, Option.some.injEq] at hindex
      rw [← hindex]
      exact ⟨List.nodup_nil, fun i hmem => absurd hmem List.not_mem_nil⟩
  | cons position rest ih =>
      rw [List.nodup_cons] at hnodup
      have hposition := hbelow position (List.mem_cons_self ..)
      have hrest := fun other hmem => hbelow other (List.mem_cons_of_mem position hmem)
      rcases (recoveryIndex_cons hmarks).mp hindex with
        ⟨hmem, others, hothers, rfl⟩ | ⟨hmem, j, hnext, others, hothers, rfl⟩
      · rcases ih hnodup.2 hrest hothers with ⟨hdistinct, hplaces⟩
        constructor
        · rw [List.nodup_cons]
          refine ⟨?_, hdistinct⟩
          intro hagain
          rcases hplaces position hagain with hother | hle
          · exact hnodup.1 hother
          · omega
        · intro i hi
          rcases List.mem_cons.mp hi with rfl | hother
          · exact .inl (List.mem_cons_self ..)
          · exact (hplaces i hother).imp_left (List.mem_cons_of_mem position)
      · have hle := (nextPresent_spec hmarks hnext).2.1
        rcases ih hnodup.2 (fun other hother => (hrest other hother).trans (by omega)) hothers with
          ⟨hdistinct, hplaces⟩
        constructor
        · rw [List.nodup_cons]
          refine ⟨?_, hdistinct⟩
          intro hagain
          rcases hplaces j hagain with hother | hlt
          · have hlt := hrest j hother
            omega
          · omega
        · intro i hi
          rcases List.mem_cons.mp hi with rfl | hother
          · exact .inr hle
          · rcases hplaces i hother with hmem' | hlt
            · exact .inl (List.mem_cons_of_mem position hmem')
            · exact .inr (by omega)

theorem exists_recoveryIndex (hmarks : Marks map n present) {positions : List ℕ} {r : ℕ}
    (henough : (positions.filter (· ∉ present)).length ≤ (present.filter (r ≤ ·)).card) :
    ∃ index, RSDecoder.recoveryIndex map positions r = some index := by
  induction positions generalizing r with
  | nil => exact ⟨[], rfl⟩
  | cons position rest ih =>
      by_cases hmem : position ∈ present
      · rw [List.filter_cons_of_neg (by simpa using hmem)] at henough
        rcases ih henough with ⟨others, hothers⟩
        exact ⟨position :: others,
          (recoveryIndex_cons hmarks).mpr (.inl ⟨hmem, others, hothers, rfl⟩)⟩
      · rw [List.filter_cons_of_pos (by simpa using hmem), List.length_cons] at henough
        have hpos : 0 < (present.filter (r ≤ ·)).card := by omega
        rcases Finset.card_pos.mp hpos with ⟨i, hi⟩
        rw [Finset.mem_filter] at hi
        rcases exists_nextPresent hmarks hi.1 hi.2 with ⟨j, hnext⟩
        have hspec := nextPresent_spec hmarks hnext
        -- the check block found is the only one that the rest of the search cannot use
        have hrest : present.filter (j + 1 ≤ ·) = (present.filter (r ≤ ·)).erase j := by
          ext other
          simp only [Finset.mem_filter, Finset.mem_erase]
          constructor
          · intro hother
            exact ⟨by omega, hother.1, by omega⟩
          · intro hother
            have hle := hspec.2.2 other hother.2.1 hother.2.2
            exact ⟨hother.2.1, by omega⟩
        have hj : j ∈ present.filter (r ≤ ·) := Finset.mem_filter.mpr ⟨hspec.1, hspec.2.1⟩
        have hothers : ∃ others, RSDecoder.recoveryIndex map rest (j + 1) = some others := by
          apply ih
          rw [hrest, Finset.card_erase_of_mem hj]
          omega
        rcases hothers with ⟨others, hothers⟩
        exact ⟨j :: others,
          (recoveryIndex_cons hmarks).mpr (.inr ⟨hmem, j, hnext, others, hothers, rfl⟩)⟩

/-- The decoded string, when the recovered blocks are those of `found`. -/
theorem mergeBlocks_eq (hmarks : Marks map n present) (blocks : List Bytes) (found : ℕ → Bytes)
    (positions : List ℕ) :
    RSDecoder.mergeBlocks blocks map positions ((positions.filter (· ∉ present)).map found) =
      (positions.map fun i => if i ∈ present then (blocks[i]?).getD [] else found i).flatten := by
  induction positions with
  | nil => rfl
  | cons position rest ih =>
      simp only [RSDecoder.mergeBlocks, hmarks.mem_iff, List.map_cons, List.flatten_cons]
      split
      next hmem =>
        rw [List.filter_cons_of_neg (by simpa using hmem), ih]
      next hmem =>
        rw [List.filter_cons_of_pos (by simpa using hmem), List.map_cons, List.head?_cons,
          List.tail_cons, Option.getD_some, ih]

theorem length_filter_missing (present : Finset ℕ) (x : ℕ) :
    ((List.range x).filter (· ∉ present)).length = (Finset.range x \ present).card := by
  rw [← List.toFinset_card_of_nodup (List.nodup_range.filter _)]
  congr 1
  ext i
  simp

/-- The present blocks that are not needed for their own positions cover the missing ones. -/
theorem missing_le_card {x : ℕ} (henough : x ≤ present.card) :
    ((List.range x).filter (· ∉ present)).length ≤ (present.filter (x ≤ ·)).card := by
  have hsplit : present.filter (x ≤ ·) = present \ Finset.range x := by
    ext i
    simp
  rw [length_filter_missing, hsplit, Finset.card_sdiff_le_card_sdiff_iff, Finset.card_range]
  exact henough

theorem placed_recoveryIndex (hmarks : Marks map n present) {x : ℕ} {index : List ℕ}
    (hindex : RSDecoder.recoveryIndex map (List.range x) x = some index) :
    Placed x n index ∧ (∀ i ∈ index, i ∈ present) ∧
      (∀ i < x, if i ∈ present then i ∈ index else ∃ j ∈ index, x ≤ j) := by
  have hstands := List.forall₂_iff_get.mp (recoveryIndex_stands hmarks hindex)
  have hlength : index.length = x := by
    rw [← hstands.1, List.length_range]
  have hslot : ∀ slot (hlt : slot < index.length), Stands present x slot index[slot] := by
    intro slot hlt
    have hget := hstands.2 slot (by rwa [hstands.1]) hlt
    simpa using hget
  have hmem : ∀ i ∈ index, i ∈ present := by
    intro i hi
    rcases List.getElem_of_mem hi with ⟨slot, hlt, rfl⟩
    exact (hslot slot hlt).1
  constructor
  · constructor
    · exact hlength
    · apply (recoveryIndex_nodup hmarks List.nodup_range _ hindex).1
      exact fun position hposition => List.mem_range.mp hposition
    · exact fun i hi => hmarks.lt (hmem i hi)
    · intro slot i hget hprimary
      rcases List.getElem?_eq_some_iff.mp hget with ⟨hlt, rfl⟩
      have hplace := (hslot slot hlt).2
      split_ifs at hplace with hpresent
      · exact hplace
      · omega
  · refine ⟨hmem, ?_⟩
    intro i hlt
    have hplace := (hslot i (by rwa [hlength])).2
    split_ifs at hplace ⊢ with hpresent
    · have hfound := List.getElem_mem (show i < index.length by rwa [hlength])
      rwa [hplace] at hfound
    · exact ⟨_, List.getElem_mem _, hplace⟩

end Loops

/-! ## Decoding under the contract -/

theorem length_read (fec : Fec) (data : Bytes) (offset sz : ℕ) :
    (fec.read data offset sz).length = sz := by
  rw [Fec.read, List.length_map, List.length_range]

/-- The block numbers handed to zfec and the source whose word has the blocks
that were read. -/
structure DecodedFrom (fec : Fec) (x n : ℕ) (present : Finset ℕ) (blocks : List Bytes)
    (index : List ℕ) (src : List Bytes) : Prop where
  placed : Placed x n index
  used : ∀ i ∈ index, i ∈ present
  covers : ∀ i < x, if i ∈ present then i ∈ index else ∃ j ∈ index, x ≤ j
  sizes : Blocks x ((blocks[0]?).getD []).length src
  word : ∀ i ∈ index, fec.block x n ((blocks[0]?).getD []).length src i =
    fec.read ((blocks[i]?).getD []) 0 ((blocks[0]?).getD []).length

def merged (x : ℕ) (present : Finset ℕ) (blocks src : List Bytes) : Bytes :=
  ((List.range x).map fun i =>
    if i ∈ present then (blocks[i]?).getD [] else (src[i]?).getD []).flatten

theorem Fec.Lawful.rsDecode_eq {fec : Fec} (decoder : RSDecoder) {map : List Bool}
    {present : Finset ℕ} (hlawful : fec.Lawful decoder.k decoder.n)
    (hmarks : Marks map decoder.n present) (henough : decoder.k ≤ present.card)
    (blocks : List Bytes) (lost : ℕ) :
    ∃ index src, DecodedFrom fec decoder.k decoder.n present blocks index src ∧
      decoder.rsDecode fec blocks map lost =
        some (decoder.decodedData ++ merged decoder.k present blocks src,
          { decoder with
            decodedData := decoder.decodedData ++ merged decoder.k present blocks src }) := by
  rcases exists_recoveryIndex hmarks (missing_le_card henough) with ⟨index, hindex⟩
  rcases placed_recoveryIndex hmarks hindex with ⟨hplaced, hpresent, hcovers⟩
  have hinputs : Blocks decoder.k ((blocks[0]?).getD []).length
      (index.map fun i => fec.read ((blocks[i]?).getD []) 0 ((blocks[0]?).getD []).length) := by
    constructor
    · rw [List.length_map, hplaced.length]
    · intro block hmem
      rcases List.mem_map.mp hmem with ⟨i, _, rfl⟩
      exact length_read fec _ _ _
  rcases hlawful.exists_source hplaced hinputs with ⟨src, hsrc, hword⟩
  have hmissing : missing decoder.k index =
      (List.range decoder.k).filter (· ∉ present) := by
    apply List.filter_congr
    intro i hi
    have hcover := hcovers i (List.mem_range.mp hi)
    apply decide_eq_decide.mpr
    constructor
    · intro hnot hmem
      rw [if_pos hmem] at hcover
      exact hnot hcover
    · exact fun hnot hmem => hnot (hpresent i hmem)
  have hfound : ((List.range decoder.k).filter (· ∉ present)).map
      (fec.block decoder.k decoder.n ((blocks[0]?).getD []).length src) =
        ((List.range decoder.k).filter (· ∉ present)).map fun i => (src[i]?).getD [] := by
    apply List.map_congr_left
    intro i hi
    exact Fec.block_primary fec _ _ _ (List.mem_range.mp (List.mem_filter.mp hi).1)
  refine ⟨index, src, ⟨hplaced, hpresent, hcovers, hsrc, ?_⟩, ?_⟩
  · exact fun i hi => List.map_inj_left.mp hword i hi
  · simp only [RSDecoder.rsDecode, hindex, Option.bind_eq_bind, Option.bind_some, ← hword,
      hlawful.decode _ _ _ hsrc hplaced, hmissing, hfound, mergeBlocks_eq hmarks]
    rfl

theorem Fec.Lawful.rsDecode_new {fec : Fec} {x n : ℕ} {map : List Bool} {present : Finset ℕ}
    (hlawful : fec.Lawful x n) (hmarks : Marks map n present) (henough : x ≤ present.card)
    (blocks : List Bytes) (lost : ℕ) :
    ∃ index src, DecodedFrom fec x n present blocks index src ∧
      (RSDecoder.new x n).rsDecode fec blocks map lost =
        some (merged x present blocks src,
          { k := x, n := n, decodedData := merged x present blocks src }) :=
  hlawful.rsDecode_eq (RSDecoder.new x n) hmarks henough blocks lost

end NDNPaxos
