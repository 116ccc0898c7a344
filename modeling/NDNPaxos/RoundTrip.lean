import NDNPaxos.Recovery
import NDNPaxos.ZfecContract
import Mathlib.Algebra.BigOperators.Group.Finset.Basic
import Mathlib.Tactic

/-!
# The Reed-Solomon round trip

A string that a new encoder has split, and from whose present blocks a new
decoder puts a string together.  The decoder takes the block size from block 0
and does not know the length of the last block, which zfec has read beyond the
end of the string; this decides which strings survive which losses.  It does so
for every library that keeps the contract, and so for the bundled one.
-/

namespace NDNPaxos

def RoundTrip (fec : Fec) (x n : ℕ) (data : Bytes) (present : Finset ℕ) : Prop :=
  ∃ blocks encoder decoder,
    (RSEncoder.new x n).rsEncode fec data = some (blocks, encoder) ∧ blocks.length = n ∧
      (RSDecoder.new x n).rsDecode fec (kept n present blocks) (presence n present)
        (n - present.card) = some (data, decoder)

/-- zfec reads the same bytes behind the last block in the string and in the
block that the decoder gets. -/
def TailsAgree (fec : Fec) (x : ℕ) (data : Bytes) : Prop :=
  fec.read data ((x - 1) * blkSize x data) (blkSize x data) =
    fec.read (data.drop ((x - 1) * blkSize x data)) 0 (blkSize x data)

/-- Block 0 is there, and no byte behind the end of the string matters. -/
def Survives (fec : Fec) (x : ℕ) (data : Bytes) (present : Finset ℕ) : Prop :=
  Encodable x data ∧
    (data = [] ∨ 0 ∈ present ∧
      ((∀ i < x, i ∈ present) ∨ x ∣ data.length ∨ (x - 1 ∈ present ∧ TailsAgree fec x data)))

instance (fec : Fec) (x : ℕ) (data : Bytes) : Decidable (TailsAgree fec x data) :=
  inferInstanceAs (Decidable (_ = _))

instance (fec : Fec) (x : ℕ) (data : Bytes) (present : Finset ℕ) :
    Decidable (Survives fec x data present) :=
  inferInstanceAs (Decidable (_ ∧ (_ ∨ _ ∧ (_ ∨ _ ∨ (_ ∧ _)))))

theorem kept_getD {n : ℕ} {present : Finset ℕ} (hpresent : present ⊆ Finset.range n)
    (blocks : List Bytes) (i : ℕ) :
    ((kept n present blocks)[i]?).getD [] =
      if i ∈ present then (blocks[i]?).getD [] else [] := by
  rw [kept, List.getElem?_map]
  by_cases hlt : i < n
  · rw [List.getElem?_range hlt]
    rfl
  · have hnone : (List.range n)[i]? = none := by
      rw [List.getElem?_eq_none_iff, List.length_range]
      exact Nat.le_of_not_lt hlt
    have hnot : i ∉ present := fun hmem => hlt (Finset.mem_range.mp (hpresent hmem))
    rw [hnone, if_neg hnot]
    rfl

theorem length_flatten_map (x : ℕ) (block : ℕ → Bytes) :
    (((List.range x).map block).flatten).length = ∑ i ∈ Finset.range x, (block i).length := by
  rw [List.length_flatten, List.map_map, ← List.toFinset_range,
    List.sum_toFinset _ List.nodup_range]
  rfl

theorem read_of_le (fec : Fec) {data : Bytes} {offset sz : ℕ} (hle : offset + sz ≤ data.length) :
    fec.read data offset sz = (data.drop offset).take sz := by
  apply List.ext_getElem
  · rw [length_read, List.length_take, List.length_drop]
    omega
  · intro i hi hi'
    rw [length_read] at hi
    have hlt : offset + i < data.length := by omega
    simp only [Fec.read, List.getElem_map, List.getElem_range, List.getElem_take,
      List.getElem_drop, List.getElem?_eq_getElem hlt]

theorem read_self (fec : Fec) {block : Bytes} {sz : ℕ} (hlength : block.length = sz) :
    fec.read block 0 sz = block := by
  rw [read_of_le fec (by omega), List.drop_zero, List.take_of_length_le hlength.le]

section Blocks

variable {fec : Fec} {x n : ℕ} {data : Bytes} {present : Finset ℕ}

theorem blocks_sources (fec : Fec) (x : ℕ) (data : Bytes) :
    Blocks x (blkSize x data) (sources fec x data) := by
  constructor
  · rw [sources, List.length_map, List.length_range]
  · intro block hmem
    rcases List.mem_map.mp hmem with ⟨i, _, rfl⟩
    exact length_read fec _ _ _

theorem sources_getD {i : ℕ} (hlt : i < x) :
    ((sources fec x data)[i]?).getD [] = fec.read data (i * blkSize x data) (blkSize x data) := by
  rw [sources, List.getElem?_map, List.getElem?_range hlt]
  rfl

theorem shard_length (hencodable : Encodable x data) {i : ℕ} (hlt : i + 1 < x) :
    (shard fec x n data i).length = blkSize x data := by
  have hle := block_le_length hencodable hlt
  rw [shard_primary (by omega), List.length_take, List.length_drop]
  omega

theorem shard_length_le {i : ℕ} (hlt : i < x) :
    (shard fec x n data i).length ≤ blkSize x data := by
  rw [shard_primary hlt]
  exact List.length_take_le _ _

theorem shard_zero_length (hx : 0 < x) : (shard fec x n data 0).length = blkSize x data := by
  have hle : blkSize x data ≤ data.length := blkSize_le hx
  rw [shard_primary hx, Nat.zero_mul, List.drop_zero, List.length_take]
  omega

theorem shard_last (hx : 0 < x) :
    shard fec x n data (x - 1) = data.drop ((x - 1) * blkSize x data) := by
  have hge : data.length ≤ x * blkSize x data := mul_blkSize_ge hx
  have hsplit : x * blkSize x data = (x - 1) * blkSize x data + blkSize x data := by
    rw [← Nat.succ_mul, Nat.succ_eq_add_one, Nat.sub_add_cancel hx]
  rw [shard_primary (by omega), List.take_of_length_le]
  rw [List.length_drop]
  omega

theorem read_shard (hencodable : Encodable x data) {i : ℕ} (hlt : i + 1 < x) :
    fec.read (shard fec x n data i) 0 (blkSize x data) =
      fec.read data (i * blkSize x data) (blkSize x data) := by
  rw [read_self fec (shard_length hencodable hlt), shard_primary (by omega),
    read_of_le fec (block_le_length hencodable hlt)]

/-- What the decoder reads from the block is what zfec has encoded. -/
theorem read_eq_block (hlawful : fec.Lawful x n) (hencodable : Encodable x data) {i : ℕ}
    (hlt : i < n) (hlast : i = x - 1 → TailsAgree fec x data) :
    fec.block x n (blkSize x data) (sources fec x data) i =
      fec.read (shard fec x n data i) 0 (blkSize x data) := by
  rcases Nat.lt_or_ge i x with hprimary | hcheck
  · rw [Fec.block_primary fec n _ _ hprimary, sources_getD hprimary]
    by_cases hfull : i + 1 < x
    · exact (read_shard hencodable hfull).symm
    · have heq : i = x - 1 := by omega
      rw [heq, shard_last (by omega)]
      exact hlast heq
  · have hlength := hlawful.encode_length _ _ i (blocks_sources fec x data) hcheck hlt
    rw [Fec.block_check fec n _ _ hcheck, shard, if_neg (by omega), read_self fec hlength]

theorem tailsAgree_of_dvd (hx : 0 < x) (hdvd : x ∣ data.length) : TailsAgree fec x data := by
  have heq := (dvd_length_iff hx).mp hdvd
  have hsplit : x * blkSize x data = (x - 1) * blkSize x data + blkSize x data := by
    rw [← Nat.succ_mul, Nat.succ_eq_add_one, Nat.sub_add_cancel hx]
  rw [TailsAgree, read_of_le fec (by omega), read_of_le fec]
  · rw [List.drop_zero]
  · rw [List.length_drop]
    omega

end Blocks

/-! ## Which strings survive -/

section Decoded

variable {fec : Fec} {x n : ℕ} {data : Bytes} {present : Finset ℕ} {blocks src : List Bytes}
  {index : List ℕ}

structure Carries (fec : Fec) (x n : ℕ) (data : Bytes) (present : Finset ℕ)
    (blocks : List Bytes) : Prop where
  subset : present ⊆ Finset.range n
  block : ∀ i ∈ present, (blocks[i]?).getD [] = shard fec x n data i
  lost : ∀ i ∉ present, (blocks[i]?).getD [] = []

theorem carries_kept (hpresent : present ⊆ Finset.range n) :
    Carries fec x n data present (kept n present (shards fec x n data)) := by
  constructor
  · exact hpresent
  · intro i hmem
    rw [kept_getD hpresent, if_pos hmem, shards_getElem? (Finset.mem_range.mp (hpresent hmem))]
    rfl
  · intro i hnot
    rw [kept_getD hpresent, if_neg hnot]

theorem Carries.size (hcarries : Carries fec x n data present blocks) (hx : 0 < x)
    (hzero : 0 ∈ present) : ((blocks[0]?).getD []).length = blkSize x data := by
  rw [hcarries.block 0 hzero, shard_zero_length hx]

/-- zfec finds the source blocks unless the last block is read differently. -/
theorem DecodedFrom.src_eq (hdecoded : DecodedFrom fec x n present blocks index src)
    (hcarries : Carries fec x n data present blocks) (hlawful : fec.Lawful x n)
    (hx : 0 < x) (hencodable : Encodable x data) (hzero : 0 ∈ present)
    (hlast : x - 1 ∈ present → TailsAgree fec x data) : src = sources fec x data := by
  have hsize := hcarries.size hx hzero
  have hblocks := hdecoded.sizes
  rw [hsize] at hblocks
  apply hlawful.eq_of_placed hdecoded.placed hblocks (blocks_sources fec x data)
  intro i hmem
  have hpresent := hdecoded.used i hmem
  have hword := hdecoded.word i hmem
  rw [hsize, hcarries.block i hpresent] at hword
  rw [hword, read_eq_block hlawful hencodable (hdecoded.placed.lt i hmem)]
  intro heq
  exact hlast (heq ▸ hpresent)

theorem merged_of_parts (fec : Fec) (n : ℕ) (hx : 0 < x) {src : List Bytes}
    (hparts : ∀ i < x, (if i ∈ present then (blocks[i]?).getD [] else (src[i]?).getD []) =
      shard fec x n data i) :
    merged x present blocks src = data := by
  have hdata : ((List.range x).map (shard fec x n data)).flatten = data := flatten_primary hx
  apply Eq.trans _ hdata
  rw [merged]
  congr 1
  apply List.map_congr_left
  intro i hmem
  exact hparts i (List.mem_range.mp hmem)

theorem merged_sources (hcarries : Carries fec x n data present blocks) (hx : 0 < x)
    (hencodable : Encodable x data) (hlast : x - 1 ∈ present ∨ x ∣ data.length) :
    merged x present blocks (sources fec x data) = data := by
  apply merged_of_parts fec n hx
  intro i hlt
  split_ifs with hpresent
  · exact hcarries.block i hpresent
  · have hle : i * blkSize x data + blkSize x data ≤ data.length := by
      rcases hlast with hin | hdvd
      · have hne : i ≠ x - 1 := fun heq => hpresent (heq ▸ hin)
        exact block_le_length hencodable (by omega)
      · rw [← (dvd_length_iff hx).mp hdvd, ← Nat.succ_mul]
        exact Nat.mul_le_mul_right _ hlt
    rw [sources_getD hlt, read_of_le fec hle, shard_primary hlt]

theorem merged_present (hcarries : Carries fec x n data present blocks) (hx : 0 < x)
    (hall : ∀ i < x, i ∈ present) (src : List Bytes) : merged x present blocks src = data := by
  apply merged_of_parts fec n hx
  intro i hlt
  rw [if_pos (hall i hlt)]
  exact hcarries.block i (hall i hlt)

theorem merged_nil (hdecoded : DecodedFrom fec x n present blocks index src)
    (hcarries : Carries fec x n [] present blocks) (hx : 0 < x) :
    merged x present blocks src = [] := by
  have hempty : ∀ i, (blocks[i]?).getD [] = [] ∨ x ≤ i := by
    intro i
    by_cases hpresent : i ∈ present
    · rcases Nat.lt_or_ge i x with hlt | hge
      · rw [hcarries.block i hpresent, shard_primary hlt]
        exact .inl (by simp)
      · exact .inr hge
    · exact .inl (hcarries.lost i hpresent)
  rw [merged, List.flatten_eq_nil_iff]
  intro block hmem
  rcases List.mem_map.mp hmem with ⟨i, hi, rfl⟩
  have hlt := List.mem_range.mp hi
  split_ifs
  · exact (hempty i).resolve_right (Nat.not_le.mpr hlt)
  · have hsize := hdecoded.sizes.getD_length hlt
    rw [(hempty 0).resolve_right (Nat.not_le.mpr hx), List.length_nil] at hsize
    exact List.eq_nil_of_length_eq_zero hsize

theorem merged_eq (hdecoded : DecodedFrom fec x n present blocks index src)
    (hcarries : Carries fec x n data present blocks) (hlawful : fec.Lawful x n) (hx : 0 < x)
    (hsurvives : Survives fec x data present) : merged x present blocks src = data := by
  rcases hsurvives with ⟨hencodable, rfl | ⟨hzero, hall | hdvd | ⟨hlast, htails⟩⟩⟩
  · exact merged_nil hdecoded hcarries hx
  · exact merged_present hcarries hx hall src
  · rw [hdecoded.src_eq hcarries hlawful hx hencodable hzero fun _ => tailsAgree_of_dvd hx hdvd]
    exact merged_sources hcarries hx hencodable (.inr hdvd)
  · rw [hdecoded.src_eq hcarries hlawful hx hencodable hzero fun _ => htails]
    exact merged_sources hcarries hx hencodable (.inl hlast)

theorem length_merged (hdecoded : DecodedFrom fec x n present blocks index src)
    (hcarries : Carries fec x n data present blocks) :
    (merged x present blocks src).length = ∑ i ∈ Finset.range x,
      if i ∈ present then (shard fec x n data i).length else ((blocks[0]?).getD []).length := by
  rw [merged, length_flatten_map]
  apply Finset.sum_congr rfl
  intro i hmem
  split_ifs with hpresent
  · rw [hcarries.block i hpresent]
  · exact hdecoded.sizes.getD_length (Finset.mem_range.mp hmem)

theorem length_data (hx : 0 < x) :
    ∑ i ∈ Finset.range x, (shard fec x n data i).length = data.length := by
  have hdata : ((List.range x).map (shard fec x n data)).flatten = data := flatten_primary hx
  rw [← length_flatten_map, hdata]

/-- Without block 0 the recovered blocks are empty. -/
theorem zero_mem_of_merged (hdecoded : DecodedFrom fec x n present blocks index src)
    (hcarries : Carries fec x n data present blocks) (hx : 0 < x) (hdata : data ≠ [])
    (hmerged : merged x present blocks src = data) : 0 ∈ present := by
  by_contra hzero
  have hlength := length_merged hdecoded hcarries
  have hdataLength : ∑ i ∈ Finset.range x, (shard fec x n data i).length = data.length :=
    length_data hx
  rw [hmerged, ← hdataLength, hcarries.lost 0 hzero, List.length_nil] at hlength
  have hlt : (∑ i ∈ Finset.range x, if i ∈ present then (shard fec x n data i).length else 0) <
      ∑ i ∈ Finset.range x, (shard fec x n data i).length := by
    apply Finset.sum_lt_sum
    · intro i _
      split_ifs
      · exact le_rfl
      · exact Nat.zero_le _
    · refine ⟨0, Finset.mem_range.mpr hx, ?_⟩
      rw [if_neg hzero, shard_zero_length hx]
      exact blkSize_pos hx hdata
  omega

/-- A last block that is recovered keeps its padding. -/
theorem last_mem_of_merged (hdecoded : DecodedFrom fec x n present blocks index src)
    (hcarries : Carries fec x n data present blocks) (hx : 0 < x) (hencodable : Encodable x data)
    (hzero : 0 ∈ present) (hdvd : ¬ x ∣ data.length)
    (hmerged : merged x present blocks src = data) : x - 1 ∈ present := by
  by_contra hlast
  have hlength := length_merged hdecoded hcarries
  rw [hmerged, hcarries.size hx hzero] at hlength
  have hfull : ∀ i ∈ Finset.range x,
      (if i ∈ present then (shard fec x n data i).length else blkSize x data) =
        blkSize x data := by
    intro i hmem
    split_ifs with hpresent
    · have hlt := Finset.mem_range.mp hmem
      have hne : i ≠ x - 1 := fun heq => hlast (heq ▸ hpresent)
      exact shard_length hencodable (by omega)
    · rfl
  rw [Finset.sum_congr rfl hfull, Finset.sum_const, Finset.card_range, smul_eq_mul] at hlength
  exact hdvd ((dvd_length_iff hx).mpr hlength.symm)

/-- When a block is recovered rightly, so are all, and zfec has read the last
block as the encoder did. -/
theorem tailsAgree_of_merged (hdecoded : DecodedFrom fec x n present blocks index src)
    (hcarries : Carries fec x n data present blocks) (hlawful : fec.Lawful x n) (hx : 0 < x)
    (hencodable : Encodable x data) (hzero : 0 ∈ present) (hlast : x - 1 ∈ present) {lost : ℕ}
    (hlost : lost < x) (hnot : lost ∉ present)
    (hmerged : merged x present blocks src = data) : TailsAgree fec x data := by
  have hsize := hcarries.size hx hzero
  have hblocks := hdecoded.sizes
  have hword := hdecoded.word
  rw [hsize] at hblocks
  rw [hsize] at hword
  have hrecovered : ∀ i < x, i ∉ present →
      (src[i]?).getD [] = ((sources fec x data)[i]?).getD [] := by
    have hdata : ((List.range x).map (shard fec x n data)).flatten = data := flatten_primary hx
    have hflatten := hmerged.trans hdata.symm
    rw [merged] at hflatten
    have hlists := List.eq_iff_flatten_eq.mpr ⟨hflatten, ?_⟩
    · intro i hlt hmiss
      have hblock := List.map_inj_left.mp hlists i (List.mem_range.mpr hlt)
      have hne : i ≠ x - 1 := fun heq => hmiss (heq ▸ hlast)
      rw [if_neg hmiss] at hblock
      rw [hblock, sources_getD hlt, ← read_shard (n := n) hencodable (by omega),
        read_self fec (shard_length hencodable (by omega))]
    · rw [List.map_map, List.map_map]
      apply List.map_congr_left
      intro i hmem
      have hlt := List.mem_range.mp hmem
      rw [Function.comp_apply, Function.comp_apply]
      split_ifs with hpresent
      · rw [hcarries.block i hpresent]
      · have hne : i ≠ x - 1 := fun heq => hpresent (heq ▸ hlast)
        rw [hblocks.getD_length hlt, shard_length hencodable (by omega)]
  have hothers : ∀ slot < x, slot ≠ x - 1 → fec.block x n (blkSize x data) src slot =
      fec.block x n (blkSize x data) (sources fec x data) slot := by
    intro slot hlt hne
    by_cases hpresent : slot ∈ present
    · have hin := hdecoded.covers slot hlt
      rw [if_pos hpresent] at hin
      rw [hword slot hin, hcarries.block slot hpresent,
        read_eq_block hlawful hencodable (hdecoded.placed.lt slot hin) (absurd · hne)]
    · rw [Fec.block_primary fec n _ _ hlt, Fec.block_primary fec n _ _ hlt]
      exact hrecovered slot hlt hpresent
  have hcheck := hdecoded.covers lost hlost
  rw [if_neg hnot] at hcheck
  rcases hcheck with ⟨j, hj, hle⟩
  have hsources : src = sources fec x data := by
    apply hlawful.eq_of_block_eq hblocks (blocks_sources fec x data) (Nat.sub_one_lt_of_lt hx)
      hothers hle (hdecoded.placed.lt j hj)
    rw [hword j hj, hcarries.block j (hdecoded.used j hj),
      read_eq_block hlawful hencodable (hdecoded.placed.lt j hj) (by omega)]
  have hin := hdecoded.covers (x - 1) (Nat.sub_one_lt_of_lt hx)
  rw [if_pos hlast] at hin
  have hfinal := hword (x - 1) hin
  rw [hsources, hcarries.block (x - 1) hlast, Fec.block_primary fec n _ _ (by omega),
    sources_getD (by omega), shard_last hx] at hfinal
  exact hfinal

theorem survives_of_merged (hdecoded : DecodedFrom fec x n present blocks index src)
    (hcarries : Carries fec x n data present blocks) (hlawful : fec.Lawful x n) (hx : 0 < x)
    (hencodable : Encodable x data) (hmerged : merged x present blocks src = data) :
    Survives fec x data present := by
  refine ⟨hencodable, ?_⟩
  by_cases hdata : data = []
  · exact .inl hdata
  have hzero := zero_mem_of_merged hdecoded hcarries hx hdata hmerged
  refine .inr ⟨hzero, ?_⟩
  by_cases hall : ∀ i < x, i ∈ present
  · exact .inl hall
  by_cases hdvd : x ∣ data.length
  · exact .inr (.inl hdvd)
  push Not at hall
  rcases hall with ⟨lost, hlost, hnot⟩
  have hlast := last_mem_of_merged hdecoded hcarries hx hencodable hzero hdvd hmerged
  exact .inr (.inr ⟨hlast,
    tailsAgree_of_merged hdecoded hcarries hlawful hx hencodable hzero hlast hlost hnot hmerged⟩)

end Decoded

/-- A string comes back from a set of its blocks exactly when it survives. -/
theorem roundTrip_iff (fec : Fec) (x n : ℕ) (hx : 1 ≤ x) (hle : x ≤ n)
    (hlawful : fec.Lawful x n) (data : Bytes) (present : Finset ℕ)
    (hpresent : present ⊆ Finset.range n) (henough : x ≤ present.card) :
    RoundTrip fec x n data present ↔ Survives fec x data present := by
  have hcarries : Carries fec x n data present (kept n present (shards fec x n data)) :=
    carries_kept hpresent
  rcases hlawful.rsDecode_new (marks_presence hpresent) henough
    (kept n present (shards fec x n data)) (n - present.card) with ⟨index, src, hdecoded, hdecode⟩
  constructor
  · intro htrip
    rcases htrip with ⟨blocks, encoder, decoder, hencode, _, htrip⟩
    rw [rsEncode_new fec data hx hle] at hencode
    split at hencode
    next hencodable =>
      rw [Option.some.injEq, Prod.mk.injEq] at hencode
      rw [← hencode.1] at htrip
      have hsame := hdecode.symm.trans htrip
      rw [Option.some.injEq, Prod.mk.injEq] at hsame
      exact survives_of_merged hdecoded hcarries hlawful hx hencodable hsame.1
    next => simp at hencode
  · intro hsurvives
    have hencode := rsEncode_new fec data hx hle
    rw [if_pos hsurvives.1] at hencode
    rw [merged_eq hdecoded hcarries hlawful hx hsurvives] at hdecode
    exact ⟨shards fec x n data, _, _, hencode, length_shards, hdecode⟩

/-- The second of three primary blocks is lost, and the last one is short. -/
theorem roundTrip_three_of_five :
    RoundTrip (zfec fun _ _ => 0) 3 5 [1, 2, 3, 4, 5, 6, 7, 8] {0, 2, 3} :=
  (roundTrip_iff (zfec fun _ _ => 0) 3 5 (by decide) (by decide)
    (zfec_lawful (fun _ _ => 0) (by decide) (by decide) (.inr (by decide)))
    [1, 2, 3, 4, 5, 6, 7, 8] {0, 2, 3} (by decide) (by decide)).mpr (by decide)

/-- The check block alone has the byte, but the decoder reads no byte of it. -/
theorem roundTrip_without_block_zero :
    replication.Lawful 1 2 ∧ ({1} : Finset ℕ) ⊆ Finset.range 2 ∧ 1 ≤ ({1} : Finset ℕ).card ∧
      ¬ RoundTrip replication 1 2 [7] {1} := by
  refine ⟨replication_lawful 2, by decide, le_rfl, ?_⟩
  intro htrip
  rcases htrip with ⟨blocks, encoder, decoder, hencode, _, hdecode⟩
  have hblocks : ((RSEncoder.new 1 2).rsEncode replication [7]).map Prod.fst =
      some [[7], [7]] := by
    decide
  rw [hencode, Option.map_some, Option.some.injEq] at hblocks
  subst hblocks
  have hdata : ((RSDecoder.new 1 2).rsDecode replication (kept 2 {1} [[7], [7]])
      (presence 2 {1}) 1).map Prod.fst = some [] := by
    decide
  rw [show 2 - ({1} : Finset ℕ).card = 1 from rfl] at hdecode
  rw [hdecode] at hdata
  simp at hdata

/-! ## The codecs with zfec -/

section Codecs

variable {beyond : Bytes → ℕ → UInt8} {x n : ℕ} {data : Bytes}

/-- One call for all check blocks computes what the encoder collects, whatever
the blocks have been allocated with. -/
theorem fecEncode_shards (hchar : x < 256) (hchecks : n - x < 256) (beyond : Bytes → ℕ → UInt8)
    (data : Bytes) {fecs : List GfRow} (hlength : fecs.length = n - x) :
    ∃ rows, fecEncode (.new x n) ((sources (zfec beyond) x data).map GfRow.ofBytes) fecs
        (List.range' x (n - x)) (blkSize x data) = some rows ∧
      rows.map (fun row => row.toBytes (blkSize x data)) =
        (List.range' x (n - x)).map (shard (zfec beyond) x n data) := by
  have hsources := (blocks_sources (zfec beyond) x data).length
  refine ⟨_, fecEncode_eq (by rw [List.length_map, hsources]; rfl) hchar
    (by rw [hlength, List.length_range']) (by rwa [List.length_range']) ?_ _, ?_⟩
  · intro fecnum hmem
    have hrange := List.mem_range'_1.mp hmem
    exact ⟨hrange.1, by simp only [FecT.new]; omega⟩
  · rw [fillAll, List.map_zipWith]
    apply List.ext_getElem
    · simp [hlength]
    · intro i hi hi'
      have hlt : i < n - x := by simpa using hi'
      simp only [List.getElem_zipWith, List.getElem_map, List.getElem_range', Nat.one_mul]
      rw [shard, if_neg (by omega), zfec_encode hchar hsources (by omega) (by omega),
        mixed_new hchar.le]
      apply toBytes_congr
      exact fun i hi => if_pos hi

theorem fecEncode_shards_three_of_five :
    ∃ rows, fecEncode (.new 3 5)
        ((sources (zfec fun _ _ => 0) 3 [1, 2, 3, 4, 5, 6]).map GfRow.ofBytes) [1, 0]
        (List.range' 3 2) (blkSize 3 [1, 2, 3, 4, 5, 6]) = some rows ∧
      rows.map (fun row => row.toBytes (blkSize 3 [1, 2, 3, 4, 5, 6])) =
        (List.range' 3 2).map (shard (zfec fun _ _ => 0) 3 5 [1, 2, 3, 4, 5, 6]) :=
  fecEncode_shards (n := 5) (by decide) (by decide) (fun _ _ => 0) [1, 2, 3, 4, 5, 6] rfl

/-- A string that fills its blocks comes back from any `x` of them with block 0. -/
theorem zfec_roundTrip (beyond : Bytes → ℕ → UInt8) (hx : 1 ≤ x) (hle : x ≤ n)
    (hchar : x < 256) (hn : n ≤ 256) (hdvd : x ∣ data.length) {present : Finset ℕ}
    (hpresent : present ⊆ Finset.range n) (henough : x ≤ present.card) (hzero : 0 ∈ present) :
    RoundTrip (zfec beyond) x n data present := by
  have hlawful := zfec_lawful beyond hchar hle (.inr hn)
  have hencodable : Encodable x data := by
    have hfull := (dvd_length_iff hx).mp hdvd
    have hmul : (x - 1) * blkSize x data ≤ x * blkSize x data :=
      Nat.mul_le_mul_right _ (Nat.sub_le x 1)
    exact hmul.trans hfull.le
  have hencode := rsEncode_new (zfec beyond) data hx hle
  rw [if_pos hencodable] at hencode
  rcases hlawful.rsDecode_new (marks_presence hpresent) henough
    (kept n present (shards (zfec beyond) x n data)) (n - present.card) with
    ⟨index, src, hdecoded, hdecode⟩
  rw [merged_eq hdecoded (carries_kept hpresent) hlawful hx
    ⟨hencodable, .inr ⟨hzero, .inr (.inl hdvd)⟩⟩] at hdecode
  exact ⟨shards (zfec beyond) x n data, _, _, hencode, length_shards, hdecode⟩

theorem zfec_roundTrip_three_of_five :
    RoundTrip (zfec fun _ _ => 0) 3 5 [1, 2, 3, 4, 5, 6] {0, 3, 4} :=
  zfec_roundTrip (fun _ _ => 0) (by decide) (by decide) (by decide) (by decide) (by decide)
    (by decide) (by decide) (by decide)

end Codecs

end NDNPaxos
