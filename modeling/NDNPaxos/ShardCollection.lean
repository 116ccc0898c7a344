import NDNPaxos.Proposer
import NDNPaxos.RoundTrip
import NDNPaxos.Library.OrderedMap
import Mathlib.Tactic

/-!
# Collecting the shards of a value

Before it decodes, the promise handler goes through the recorded messages and
takes the shards of those that report the id of the highest accepted value.
The result of this loop, and of the recovery that follows, in terms of the set
of nodes whose messages count.
-/

namespace NDNPaxos

namespace Proposer

/-- The message counts as a shard of the value; one without a value reads as id 0. -/
def reports (valueId : ℕ) (ack : MsgAckPrepare) : Bool :=
  ack.reply && valueId == (ack.maxPropValue.getD {}).id

/-- The nodes whose recorded messages count. -/
def reporters (proposer : Proposer) (valueId : ℕ) : Finset ℕ :=
  (OrderedMap.keysWhere (reports valueId) proposer.msgAckPrepare).toFinset

theorem reports_iff {valueId : ℕ} {ack : MsgAckPrepare} :
    reports valueId ack = true ↔ ack.reply = true ∧ valueId = (ack.maxPropValue.getD {}).id := by
  rw [reports, Bool.and_eq_true, beq_iff_eq]

theorem mem_reporters {proposer : Proposer} {valueId node : ℕ} :
    node ∈ proposer.reporters valueId ↔
      ∃ ack, proposer.msgAckPrepare[node]? = some ack ∧ reports valueId ack = true := by
  rw [reporters, List.mem_toFinset, OrderedMap.mem_keysWhere]

theorem card_reporters (proposer : Proposer) (valueId : ℕ) :
    (proposer.reporters valueId).card =
      (proposer.msgAckPrepare.toList.map Prod.snd).countP (reports valueId) :=
  OrderedMap.card_keysWhere

/-- Two vectors and a counter after a pass over some messages. -/
structure Collects (valueId : ℕ) (entries : List (ℕ × MsgAckPrepare))
    (start found : List Bytes × List Bool × ℕ) : Prop where
  within : ∀ entry ∈ entries, reports valueId entry.2 = true → entry.1 < start.1.length
  taken : ∀ entry ∈ entries, reports valueId entry.2 = true →
    found.1[entry.1]? = some (entry.2.maxPropValue.getD {}).data ∧
      found.2.1[entry.1]? = some true
  kept : ∀ i, (∀ entry ∈ entries, reports valueId entry.2 = true → entry.1 ≠ i) →
    found.1[i]? = start.1[i]? ∧ found.2.1[i]? = start.2.1[i]?
  length : found.2.1.length = start.2.1.length
  lost : found.2.2 = start.2.2 - (entries.map Prod.snd).countP (reports valueId)

section Pass

variable {valueId : ℕ} {entries rest : List (ℕ × MsgAckPrepare)} {node : ℕ} {ack : MsgAckPrepare}
  {blocks : List Bytes} {index : List Bool} {lost : ℕ} {found : List Bytes × List Bool × ℕ}

theorem Collects.skip (hother : reports valueId ack = false)
    (hrest : Collects valueId rest (blocks, index, lost) found) :
    Collects valueId ((node, ack) :: rest) (blocks, index, lost) found := by
  have hreporting : ∀ entry ∈ (node, ack) :: rest, reports valueId entry.2 = true →
      entry ∈ rest := by
    intro entry hmem hreports
    rcases List.mem_cons.mp hmem with rfl | hmem
    · simp [hother] at hreports
    · exact hmem
  constructor
  · exact fun entry hmem hreports => hrest.within entry (hreporting entry hmem hreports) hreports
  · exact fun entry hmem hreports => hrest.taken entry (hreporting entry hmem hreports) hreports
  · exact fun i hnone => hrest.kept i fun entry hmem => hnone entry (List.mem_cons_of_mem _ hmem)
  · exact hrest.length
  · rw [hrest.lost, List.map_cons, List.countP_cons_of_neg (by simp [hother])]

theorem Collects.take (hreports : reports valueId ack = true) (hlt : node < blocks.length)
    (hlength : index.length = blocks.length)
    (hfresh : ∀ entry ∈ rest, entry.1 ≠ node)
    (hrest : Collects valueId rest
      (blocks.set node (ack.maxPropValue.getD {}).data, index.set node true, lost - 1) found) :
    Collects valueId ((node, ack) :: rest) (blocks, index, lost) found := by
  constructor
  · intro entry hmem hentry
    rcases List.mem_cons.mp hmem with rfl | hmem
    · exact hlt
    · simpa using hrest.within entry hmem hentry
  · intro entry hmem hentry
    rcases List.mem_cons.mp hmem with rfl | hmem
    · have hkept := hrest.kept node fun other hother _ => hfresh other hother
      constructor
      · rw [hkept.1, List.getElem?_set_self hlt]
      · rw [hkept.2, List.getElem?_set_self (by omega)]
    · exact hrest.taken entry hmem hentry
  · intro i hnone
    have hne : node ≠ i := hnone (node, ack) (List.mem_cons_self ..) hreports
    have hkept := hrest.kept i fun entry hmem => hnone entry (List.mem_cons_of_mem _ hmem)
    rw [List.getElem?_set_ne hne, List.getElem?_set_ne hne] at hkept
    exact hkept
  · rw [hrest.length, List.length_set]
  · rw [hrest.lost, List.map_cons, List.countP_cons_of_pos hreports]
    dsimp only
    omega

theorem collectShards_collects (hnodup : (entries.map Prod.fst).Nodup)
    (hlength : index.length = blocks.length)
    (hcollect : collectShards valueId entries (blocks, index, lost) = some found) :
    Collects valueId entries (blocks, index, lost) found := by
  induction entries generalizing blocks index lost with
  | nil =>
      rw [collectShards, Option.some.injEq] at hcollect
      subst hcollect
      exact ⟨by simp, by simp, fun i _ => ⟨rfl, rfl⟩, rfl, by simp⟩
  | cons entry rest ih =>
      rcases entry with ⟨node, ack⟩
      rw [List.map_cons, List.nodup_cons] at hnodup
      rw [collectShards] at hcollect
      split at hcollect
      next hreports =>
        split at hcollect
        next hlt =>
          apply Collects.take (reports_iff.mpr hreports) hlt hlength
          · intro entry hmem heq
            exact hnodup.1 (List.mem_map.mpr ⟨entry, hmem, heq⟩)
          · exact ih hnodup.2 (by simpa using hlength) hcollect
        next => simp at hcollect
      next hother =>
        apply Collects.skip _ (ih hnodup.2 hlength hcollect)
        exact Bool.eq_false_iff.mpr fun hreports => hother (reports_iff.mp hreports)

theorem exists_collectShards
    (hwithin : ∀ entry ∈ entries, reports valueId entry.2 = true → entry.1 < blocks.length) :
    ∃ found, collectShards valueId entries (blocks, index, lost) = some found := by
  induction entries generalizing blocks index lost with
  | nil => exact ⟨(blocks, index, lost), rfl⟩
  | cons entry rest ih =>
      rcases entry with ⟨node, ack⟩
      have hrest := fun entry hmem => hwithin entry (List.mem_cons_of_mem (node, ack) hmem)
      rw [collectShards]
      split
      next hreports =>
        rw [if_pos (hwithin (node, ack) (List.mem_cons_self ..) (reports_iff.mpr hreports))]
        apply ih
        simpa using hrest
      next => exact ih hrest

end Pass

/-- The vectors and the counter that `rs_decode` gets. -/
structure Collected (proposer : Proposer) (valueId n : ℕ) (blocks : List Bytes)
    (index : List Bool) (lost : ℕ) : Prop where
  subset : proposer.reporters valueId ⊆ Finset.range n
  marks : Marks index n (proposer.reporters valueId)
  block : ∀ (node : ℕ) ack, proposer.msgAckPrepare[node]? = some ack → reports valueId ack = true →
    (blocks[node]?).getD [] = (ack.maxPropValue.getD {}).data
  none : ∀ i ∉ proposer.reporters valueId, (blocks[i]?).getD [] = []
  lost : lost = n - (proposer.reporters valueId).card

theorem collected {proposer : Proposer} {valueId n : ℕ} {blocks : List Bytes} {index : List Bool}
    {lost : ℕ}
    (hcollect : collectShards valueId proposer.msgAckPrepare.toList
      (List.replicate n [], List.replicate n false, n) = some (blocks, index, lost)) :
    Collected proposer valueId n blocks index lost := by
  have hcollects := collectShards_collects (OrderedMap.nodup_keys _) (by simp) hcollect
  have hentry : ∀ {node : ℕ} {ack}, proposer.msgAckPrepare[node]? = some ack →
      (node, ack) ∈ proposer.msgAckPrepare.toList :=
    fun hget => Std.TreeMap.mem_toList_iff_getElem?_eq_some.mpr hget
  have hkept : ∀ i ∉ proposer.reporters valueId,
      blocks[i]? = (List.replicate n ([] : Bytes))[i]? ∧
        index[i]? = (List.replicate n false)[i]? := by
    intro i hnot
    apply hcollects.kept i
    intro entry hmem hreports heq
    apply hnot
    rw [← heq]
    exact mem_reporters.mpr
      ⟨entry.2, Std.TreeMap.mem_toList_iff_getElem?_eq_some.mp hmem, hreports⟩
  constructor
  · intro node hmem
    rcases mem_reporters.mp hmem with ⟨ack, hget, hreports⟩
    have hlt := hcollects.within (node, ack) (hentry hget) hreports
    rw [List.length_replicate] at hlt
    exact Finset.mem_range.mpr hlt
  · constructor
    · rw [hcollects.length, List.length_replicate]
    · intro i
      by_cases hmem : i ∈ proposer.reporters valueId
      · rcases mem_reporters.mp hmem with ⟨ack, hget, hreports⟩
        exact iff_of_true (hcollects.taken (i, ack) (hentry hget) hreports).2 hmem
      · apply iff_of_false _ hmem
        rw [(hkept i hmem).2, List.getElem?_replicate]
        split <;> simp
  · intro node ack hget hreports
    have htaken := (hcollects.taken (node, ack) (hentry hget) hreports).1
    dsimp only at htaken
    rw [htaken, Option.getD_some]
  · intro i hnot
    rw [(hkept i hnot).1, List.getElem?_replicate]
    split <;> rfl
  · rw [card_reporters]
    exact hcollects.lost

theorem exists_collected {proposer : Proposer} {valueId n : ℕ}
    (hsubset : proposer.reporters valueId ⊆ Finset.range n) :
    ∃ blocks index lost, collectShards valueId proposer.msgAckPrepare.toList
      (List.replicate n [], List.replicate n false, n) = some (blocks, index, lost) := by
  have hfound : ∃ found, collectShards valueId proposer.msgAckPrepare.toList
      (List.replicate n [], List.replicate n false, n) = some found := by
    apply exists_collectShards
    intro entry hmem hreports
    rw [List.length_replicate]
    apply Finset.mem_range.mp
    apply hsubset
    exact mem_reporters.mpr
      ⟨entry.2, Std.TreeMap.mem_toList_iff_getElem?_eq_some.mp hmem, hreports⟩
  rcases hfound with ⟨⟨blocks, index, lost⟩, hcollect⟩
  exact ⟨blocks, index, lost, hcollect⟩

/-! ## Recovery -/

/-- The proposer after a value has been decoded and encoded again. -/
def withRecovered (proposer : Proposer) (value : PropValue) (rsValues : List Bytes)
    (rsEncoder : RSEncoder) (rsDecoder : RSDecoder) : Proposer :=
  { proposer with
    currValue := some value, maxValue := some value, rsValues, rsEncoder, rsDecoder }

theorem recoverValue_eq_some {proposer after : Proposer} {view : View} {highest : PropValue}
    {ack : AckType} :
    proposer.recoverValue view highest = some (ack, after) ↔
      ∃ blocks index lost,
        collectShards highest.id proposer.msgAckPrepare.toList
          (List.replicate view.config.rsParams.n [], List.replicate view.config.rsParams.n false,
            view.config.rsParams.n) = some (blocks, index, lost) ∧
        ((view.config.rsParams.f < lost ∧ ack = .restart ∧ after = proposer) ∨
          (lost ≤ view.config.rsParams.f ∧ ack = .continuePhase ∧
            ∃ data decoder shards encoder,
              proposer.rsDecoder.rsDecode view.config.fec blocks index lost =
                some (data, decoder) ∧
              proposer.rsEncoder.rsEncode view.config.fec data = some (shards, encoder) ∧
              after = proposer.withRecovered { id := highest.id, data } shards encoder
                decoder)) := by
  simp only [recoverValue, Option.bind_eq_bind, Option.bind_eq_some_iff, Prod.exists]
  constructor
  · rintro ⟨blocks, index, lost, hcollect, hrest⟩
    refine ⟨blocks, index, lost, hcollect, ?_⟩
    split at hrest
    next hlost =>
      simp only [pure, Option.some.injEq, Prod.mk.injEq] at hrest
      exact .inl ⟨hlost, hrest.1.symm, hrest.2.symm⟩
    next hkept =>
      simp only [Option.bind_eq_some_iff, Prod.exists, pure, Option.some.injEq,
        Prod.mk.injEq] at hrest
      rcases hrest with ⟨data, decoder, hdecode, shards, encoder, hencode, rfl, rfl⟩
      exact .inr ⟨Nat.le_of_not_lt hkept, rfl, data, decoder, shards, encoder, hdecode,
        hencode, rfl⟩
  · rintro ⟨blocks, index, lost, hcollect, hrest⟩
    refine ⟨blocks, index, lost, hcollect, ?_⟩
    rcases hrest with ⟨hlost, rfl, rfl⟩ |
      ⟨hkept, rfl, data, decoder, shards, encoder, hdecode, hencode, rfl⟩
    · rw [if_pos hlost]
      rfl
    · rw [if_neg (Nat.not_lt.mpr hkept)]
      simp only [hdecode, Option.bind_some, hencode]
      rfl

theorem rsDecode_codec {fec : Fec} {decoder decoder' : RSDecoder} {blocks : List Bytes}
    {map : List Bool} {lost : ℕ} {data : Bytes}
    (hdecode : decoder.rsDecode fec blocks map lost = some (data, decoder')) :
    decoder'.k = decoder.k ∧ decoder'.n = decoder.n := by
  simp only [RSDecoder.rsDecode, Option.bind_eq_bind, Option.bind_eq_some_iff, pure,
    Option.some.injEq, Prod.mk.injEq] at hdecode
  rcases hdecode with ⟨index, _, _, rfl⟩
  exact ⟨rfl, rfl⟩

/-- A decoder that has not read past its vectors has had enough blocks. -/
theorem le_card_of_rsDecode {fec : Fec} {decoder decoder' : RSDecoder} {map : List Bool}
    {present : Finset ℕ} (hmarks : Marks map decoder.n present) {blocks : List Bytes} {lost : ℕ}
    {data : Bytes} (hdecode : decoder.rsDecode fec blocks map lost = some (data, decoder')) :
    decoder.k ≤ present.card := by
  simp only [RSDecoder.rsDecode, Option.bind_eq_bind, Option.bind_eq_some_iff] at hdecode
  rcases hdecode with ⟨index, hindex, _⟩
  rcases placed_recoveryIndex hmarks hindex with ⟨hplaced, hpresent, _⟩
  calc
    decoder.k = index.toFinset.card := by
      rw [List.toFinset_card_of_nodup hplaced.nodup, hplaced.length]
    _ ≤ present.card :=
      Finset.card_le_card fun i hmem => hpresent i (List.mem_toFinset.mp hmem)

end Proposer

end NDNPaxos
