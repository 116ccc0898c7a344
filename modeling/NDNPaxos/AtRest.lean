import NDNPaxos.Quiescence
import NDNPaxos.ReplicatedLog
import NDNPaxos.ValuePlaces
import Mathlib.Tactic

/-!
# A cluster at rest

When nothing was lost and nothing is in flight any more, no slot is open and no
value waits.  Whatever was decided has been learned everywhere, so all nodes have
delivered the same slots, and every value that was handed over is in one of them.
-/

namespace NDNPaxos

open Replication

/-- Whatever is decided has the id of a value that some node has opened for the slot. -/
theorem Decided.opened {deployment : Deployment} {actions : List Action} {final : Cluster}
    (hrun : deployment.run actions = some final) (hagreeing : deployment.Agreeing final.nodes)
    {slot : ℕ} {value : PropValue}
    (hdecided : Decided deployment.config.size final.nodes slot value) :
    ∃ i < deployment.config.size, ∃ given,
      Opened (final.nodes i).log slot given ∧ given.id = value.id := by
  by_cases hmode : deployment.config.mode = .rs
  · rw [Deployment.Agreeing, hmode] at hagreeing
    rcases writtenId_of_decided hmode hrun hdecided with ⟨hpaxos, ballot, hchosen⟩
    exact hpaxos.opened slot ballot _ (hchosen.proposed (hpaxos.sound slot) hagreeing.nonempty)
  · rcases knowledge_of_run hmode hrun with ⟨_, _, hknowledge, _⟩
    rcases (hknowledge.decided hdecided).1 with ⟨i, hi, hopened⟩
    exact ⟨i, hi, value, hopened, rfl⟩

theorem Captain.mem_delivered {captain : Captain} {slot : ℕ} {value : PropValue} :
    (slot, value) ∈ captain.delivered ↔
      0 < slot ∧ slot ≤ captain.maxChosenWithoutHole ∧ captain.chosenAt slot = some value := by
  rw [delivered, deliveredFrom, List.mem_filterMap]
  constructor
  · rintro ⟨found, hmem, hvalue⟩
    rw [List.mem_range'_1] at hmem
    rw [Option.map_eq_some_iff] at hvalue
    rcases hvalue with ⟨stored, hstored, heq⟩
    rw [Prod.mk.injEq] at heq
    rcases heq with ⟨rfl, rfl⟩
    exact ⟨by omega, by omega, hstored⟩
  · rintro ⟨hpos, hle, hvalue⟩
    exact ⟨slot, List.mem_range'_1.mpr (by omega), by rw [hvalue, Option.map_some]⟩

theorem exists_opened {log : List Output} {slot : ℕ} (hmem : slot ∈ openedSlots log) :
    ∃ value, Opened log slot value := by
  rcases List.mem_filterMap.mp hmem with ⟨out, hout, hslot⟩
  unfold openedSlot? at hslot
  split at hslot
  next found value name tryTime =>
    rw [Option.some.injEq] at hslot
    subst hslot
    exact ⟨value, name, tryTime, hout⟩
  next => simp at hslot

/-- The waiting queues in every run without `master_change` on other nodes than
the master. -/
theorem queues_of_run {deployment : Deployment} {actions : List Action} {final : Cluster}
    (hrun : deployment.run actions = some final)
    (hcalls : ∀ action ∈ actions, ∀ call ∈ action.calls, ∀ value, call ≠ .masterChange value) :
    ∀ i < deployment.config.size, (final.nodes i).captain.QueueInvariant (final.nodes i).log ∧
      (final.nodes i).captain.windowSize = deployment.windowSize i := by
  have hqueue : PreservedAtNode StepCondition.noMasterChange Captain.QueueInvariant := by
    intro captain log setting outs final hkept hcovers hqueue hmove
    exact hqueue.move hkept (.inl fun value hcall => hcovers.calls _ hcall value rfl) hmove
  have hreaches := reaches_of_run hqueue.moves
    (fun i _ => Captain.QueueInvariant.initial deployment i) (runMeets_of_calls deployment hcalls)
    hrun
  exact fun i hi => ⟨hreaches.invariant i hi, hreaches.keeps.windowSize i hi⟩

section Rest

variable {deployment : Deployment} {actions : List Action} {final : Cluster}
  (hreachable : deployment.config.Reachable) (hrun : deployment.run actions = some final)
  (hlossless : Lossless actions) (hrest : final.net = [])

include hreachable hrun hlossless hrest

theorem no_proposer_at_rest {i : ℕ} (hi : i < deployment.config.size) (slot : ℕ) :
    (final.nodes i).captain.proposers[slot]? = none := by
  rw [Option.eq_none_iff_forall_ne_some]
  intro info hinfo
  rcases (attended_of_run hreachable hlossless hrun).served hreachable hi hinfo with
    ⟨_, _, _, packet, hpacket, _⟩
  rw [hrest] at hpacket
  exact absurd hpacket List.not_mem_nil

variable (hcalls : ∀ action ∈ actions, ∀ call ∈ action.calls, ∀ value,
  call ≠ .masterChange value)

include hcalls

/-- Every slot that was opened is closed, and its decision known everywhere. -/
theorem learned_at_rest {i : ℕ} (hi : i < deployment.config.size) {slot : ℕ} {value : PropValue}
    (hopened : Opened (final.nodes i).log slot value) :
    (∃ chosen, .note (.chose slot chosen value) ∈ (final.nodes i).log) ∧
      ∀ j < deployment.config.size, (final.nodes j).captain.Knows slot := by
  have hchose : ∃ chosen, .note (.chose slot chosen value) ∈ (final.nodes i).log := by
    refine ((places_of_run hrun hcalls i hi).2.1.opened slot value hopened).resolve_left ?_
    intro hlive
    rcases Captain.mem_liveValues.mp hlive with ⟨info, hinfo, _⟩
    rw [no_proposer_at_rest hreachable hrun hlossless hrest hi] at hinfo
    simp at hinfo
  refine ⟨hchose, fun j hj => ?_⟩
  rcases hchose with ⟨chosen, hmem⟩
  rcases covered_of_run hlossless hrun i hi slot chosen value hmem j hj with
    hknows | ⟨packet, hpacket, _⟩
  · exact hknows
  · rw [hrest] at hpacket
    exact absurd hpacket List.not_mem_nil

theorem opened_le_at_rest {i j : ℕ} (hi : i < deployment.config.size)
    (hj : j < deployment.config.size) {slot : ℕ} {value : PropValue}
    (hopened : Opened (final.nodes i).log slot value) :
    slot ≤ (final.nodes j).captain.maxChosenWithoutHole := by
  have hslots := ((queues_of_run hrun hcalls) i hi).1.opened
  have hmem := Captain.mem_openedSlots hopened
  rw [hslots, List.mem_range'_1] at hmem
  by_contra hlater
  -- The node has opened the slot of the hole too.
  have hhole : (final.nodes j).captain.maxChosenWithoutHole + 1 ∈
      openedSlots (final.nodes i).log := by
    rw [hslots, List.mem_range'_1]
    omega
  rcases exists_opened hhole with ⟨other, hother⟩
  have hknows := (learned_at_rest hreachable hrun hlossless hrest hcalls hi hother).2 j hj
  rw [Captain.Knows, (logRefined_of_run hrun hj).deliversLog.hole] at hknows
  simp at hknows

variable (hagreeing : deployment.Agreeing final.nodes)

include hagreeing

theorem decided_le_at_rest {slot : ℕ} {value : PropValue}
    (hdecided : Decided deployment.config.size final.nodes slot value) {j : ℕ}
    (hj : j < deployment.config.size) :
    slot ≤ (final.nodes j).captain.maxChosenWithoutHole := by
  rcases hdecided.opened hrun hagreeing with ⟨i, hi, given, hopened, _⟩
  exact opened_le_at_rest hreachable hrun hlossless hrest hcalls hi hj hopened

theorem delivered_eq_at_rest {i j : ℕ} (hi : i < deployment.config.size)
    (hj : j < deployment.config.size) {Part : Type*} (look : PropValue → Part)
    (hsame : ∀ slot value value', Decided deployment.config.size final.nodes slot value →
      Decided deployment.config.size final.nodes slot value' → look value = look value') :
    (final.nodes i).captain.delivered.map (fun entry => (entry.1, look entry.2)) =
      (final.nodes j).captain.delivered.map fun entry => (entry.1, look entry.2) := by
  let replica (k : ℕ) (hk : k < deployment.config.size) : Replica Part :=
    (logRefined_of_run hrun hk).deliversLog.replica.map look
  have hstored : ∀ {k : ℕ} (hk : k < deployment.config.size) {slot : ℕ} {part : Part},
      (replica k hk).value slot = some part →
        ∃ value, Decided deployment.config.size final.nodes slot value ∧ look value = part := by
    intro k hk slot part hpart
    rcases Option.map_eq_some_iff.mp hpart with ⟨value, hvalue, hlook⟩
    exact ⟨value, ⟨k, hk, .inr hvalue⟩, hlook⟩
  have hexecuted : ∀ {k : ℕ} (hk : k < deployment.config.size) {l : ℕ}
      (hl : l < deployment.config.size) (slot : ℕ),
      ((replica k hk).value slot).isSome → slot ≤ (replica l hl).executed := by
    intro k hk l hl slot hsome
    rcases Option.isSome_iff_exists.mp hsome with ⟨part, hpart⟩
    rcases hstored hk hpart with ⟨value, hdecided, _⟩
    exact decided_le_at_rest hreachable hrun hlossless hrest hcalls hagreeing hdecided hl
  have hagrees : (replica i hi).Agrees (replica j hj) := by
    intro slot part part' hpart hpart'
    rcases hstored hi hpart with ⟨value, hdecided, rfl⟩
    rcases hstored hj hpart' with ⟨value', hdecided', rfl⟩
    exact hsame slot value value' hdecided hdecided'
  have hcommands := hagrees.commands_eq (hexecuted hi hj) (hexecuted hj hi)
  simp only [replica, Replica.commands_map] at hcommands
  exact hcommands

theorem deliveredId_of_decided {slot : ℕ} {value : PropValue}
    (hdecided : Decided deployment.config.size final.nodes slot value) {j : ℕ}
    (hj : j < deployment.config.size) :
    (slot, value.id) ∈ (final.nodes j).captain.deliveredIds := by
  rcases hdecided.opened hrun hagreeing with ⟨i, hi, given, hopened, _⟩
  have hknows := (learned_at_rest hreachable hrun hlossless hrest hcalls hi hopened).2 j hj
  rcases Option.isSome_iff_exists.mp hknows with ⟨stored, hstored⟩
  have hle := opened_le_at_rest hreachable hrun hlossless hrest hcalls hi hj hopened
  have hid : stored.id = value.id :=
    Decided.ids_eq hrun hagreeing ⟨j, hj, .inr hstored⟩ hdecided
  have hpos : 0 < slot := by
    have hmem := Captain.mem_openedSlots hopened
    rw [(queues_of_run hrun hcalls i hi).1.opened, List.mem_range'_1] at hmem
    exact hmem.1
  rw [← hid]
  exact List.mem_map_of_mem (f := fun entry : ℕ × PropValue => (entry.1, entry.2.id))
    (Captain.mem_delivered.mpr ⟨hpos, hle, hstored⟩)

/-- A delivered id is that of a value that its node has retired in the slot. -/
theorem retired_of_delivered (honce : HandedOnce deployment.config.size final.nodes) {i j : ℕ}
    (hi : i < deployment.config.size) (hj : j < deployment.config.size) {value : PropValue}
    {name : Name} (hhanded : .note (.commit value name) ∈ (final.nodes i).log) {slot : ℕ}
    (hdelivered : (slot, value.id) ∈ (final.nodes j).captain.deliveredIds) :
    (slot, value) ∈ ownRetirements (final.nodes i).log := by
  rcases List.mem_map.mp hdelivered with ⟨⟨found, stored⟩, hmem, heq⟩
  rw [Prod.mk.injEq] at heq
  rcases heq with ⟨rfl, hid⟩
  have hdecided : Decided deployment.config.size final.nodes found stored :=
    ⟨j, hj, .inr (Captain.mem_delivered.mp hmem).2.2⟩
  rcases hdecided.opened hrun hagreeing with ⟨k, hk, given, hopened, hgivenId⟩
  have hgiven := (reaches_of_run GivenValues.preserved.moves
    (fun i _ => givenValues_initial deployment i) (runMeets_anything deployment actions)
    hrun).invariant k hk
  have howner : k = i ∧ given = value := by
    rcases hgiven.opened found given hopened with ⟨other, hcommit⟩ | hcommand
    · rcases honce.same hk hi (mem_handed.mpr hcommit) (mem_handed.mpr hhanded)
        (hgivenId.trans hid) with ⟨hnode, hpair⟩
      exact ⟨hnode, congrArg Prod.fst hpair⟩
    · exact absurd hcommand ((places_of_run hrun hcalls k hk).2.2 given)
  rcases howner with ⟨rfl, rfl⟩
  rcases (learned_at_rest hreachable hrun hlossless hrest hcalls hk hopened).1 with
    ⟨chosen, hchose⟩
  refine mem_ownRetirements.mpr ⟨chosen, hchose, ?_⟩
  exact (Decided.ids_eq hrun hagreeing ⟨k, hk, .inl ⟨given, hchose⟩⟩ hdecided).trans hid

omit hagreeing

variable (hwindow : ∀ i < deployment.config.size, 0 < deployment.windowSize i)

include hwindow

theorem queue_empty_at_rest {i : ℕ} (hi : i < deployment.config.size) :
    (final.nodes i).captain.tocommitValues = [] := by
  rcases queues_of_run hrun hcalls i hi with ⟨hqueue, hsize⟩
  by_contra hwaiting
  have hfull := hqueue.full hwaiting
  have hnone : (final.nodes i).captain.proposers.size = 0 := by
    have hsame : ∀ slot : ℕ, ((final.nodes i).captain.proposers[slot]?).map id =
        ((∅ : Std.TreeMap ℕ ProposerInfo)[slot]?).map id := by
      intro slot
      rw [no_proposer_at_rest hreachable hrun hlossless hrest hi]
      simp
    rw [OrderedMap.size_eq hsame]
    rfl
  have hpos := hwindow i hi
  omega

/-- The values that were handed over are those that were retired under their own ids. -/
theorem retired_perm_at_rest {i : ℕ} (hi : i < deployment.config.size) :
    ((handed (final.nodes i).log).map Prod.fst).Perm
      ((ownRetirements (final.nodes i).log).map Prod.snd) := by
  have hplaced := (places_of_run hrun hcalls i hi).1
  have hlive : (final.nodes i).captain.liveValues = [] := by
    rw [List.eq_nil_iff_forall_not_mem]
    rintro ⟨slot, value⟩ hmem
    rcases Captain.mem_liveValues.mp hmem with ⟨info, hinfo, _⟩
    rw [no_proposer_at_rest hreachable hrun hlossless hrest hi] at hinfo
    simp at hinfo
  rw [Captain.ValuesPlaced, hlive,
    queue_empty_at_rest hreachable hrun hlossless hrest hcalls hwindow hi] at hplaced
  simpa using hplaced

end Rest

/-- No slot is open and no value waits, all nodes have delivered the same, and among
it every value that was handed over. -/
structure Settled (deployment : Deployment) (nodes : ℕ → Node) : Prop where
  closed : ∀ i < deployment.config.size, ∀ slot : ℕ, (nodes i).captain.proposers[slot]? = none
  sent : ∀ i < deployment.config.size, (nodes i).captain.tocommitValues = []
  same : ∀ i < deployment.config.size, ∀ j < deployment.config.size,
    (nodes i).captain.deliveredIds = (nodes j).captain.deliveredIds
  sameValues : deployment.config.mode ≠ .rs → IdsIdentify deployment.config.size nodes →
    ∀ i < deployment.config.size, ∀ j < deployment.config.size,
      (nodes i).captain.delivered = (nodes j).captain.delivered
  delivered : ∀ i < deployment.config.size, ∀ value name,
    .note (.commit value name) ∈ (nodes i).log → ∀ j < deployment.config.size,
      ∃ slot, (slot, value.id) ∈ (nodes j).captain.deliveredIds ∧
        (HandedOnce deployment.config.size nodes → ∀ slot',
          (slot', value.id) ∈ (nodes j).captain.deliveredIds → slot' = slot)

/-- A cluster that has lost nothing and has nothing in flight has delivered every
value that was handed over, everywhere and in one order, in all builds. -/
theorem settled_at_rest (deployment : Deployment) (hreachable : deployment.config.Reachable)
    (hwindow : ∀ i < deployment.config.size, 0 < deployment.windowSize i)
    (actions : List Action) (final : Cluster) (hrun : deployment.run actions = some final)
    (hlossless : Lossless actions)
    (hcalls : ∀ action ∈ actions, ∀ call ∈ action.calls, ∀ value, call ≠ .masterChange value)
    (hagreeing : deployment.Agreeing final.nodes) (hrest : final.net = []) :
    Settled deployment final.nodes := by
  constructor
  · exact fun i hi => no_proposer_at_rest hreachable hrun hlossless hrest hi
  · exact fun i hi => queue_empty_at_rest hreachable hrun hlossless hrest hcalls hwindow hi
  · intro i hi j hj
    exact delivered_eq_at_rest hreachable hrun hlossless hrest hcalls hagreeing hi hj PropValue.id
      fun slot value value' hdecided hdecided' => hdecided.ids_eq hrun hagreeing hdecided'
  · intro hshards hids i hi j hj
    have hsame := delivered_eq_at_rest hreachable hrun hlossless hrest hcalls hagreeing hi hj id
      fun slot value value' hdecided hdecided' =>
        hdecided.eq_of_idsIdentify hrun hagreeing hdecided' hshards hids
    simpa using hsame
  · intro i hi value name hhanded j hj
    have hretired := retired_perm_at_rest hreachable hrun hlossless hrest hcalls hwindow hi
    have hmem : value ∈ (ownRetirements (final.nodes i).log).map Prod.snd :=
      hretired.mem_iff.mp (List.mem_map_of_mem (mem_handed.mpr hhanded))
    rcases List.mem_map.mp hmem with ⟨⟨slot, _⟩, hentry, rfl⟩
    rcases mem_ownRetirements.mp hentry with ⟨chosen, hchose, hid⟩
    refine ⟨slot, ?_, fun honce slot' hdelivered => ?_⟩
    · rw [← hid]
      exact deliveredId_of_decided hreachable hrun hlossless hrest hcalls hagreeing
        ⟨i, hi, .inl ⟨_, hchose⟩⟩ hj
    · have hentry' := retired_of_delivered hreachable hrun hlossless hrest hcalls hagreeing honce
        hi hj hhanded hdelivered
      have hnodup := hretired.nodup_iff.mp (honce.nodup hi)
      exact congrArg Prod.fst (List.inj_on_of_nodup_map hnodup hentry' hentry rfl)

/-- Node 0 loses slot 1 to node 1 and opens slot 2 for its value. -/
theorem settled_at_rest_twoNodes :
    ∃ final, Deployment.run { config := twoNodes .basic }
        (.call 1 (.commit { id := 65537 } (some [[1]])) ::
          .call 0 (.commit { id := 65536 } (some [[2]])) ::
            List.replicate 34 (.deliver 0 [] {})) = some final ∧
      (final.nodes 0).captain.deliveredIds = [(1, 65537), (2, 65536)] ∧
      Settled { config := twoNodes .basic } final.nodes := by
  have hfinal : (Deployment.run { config := twoNodes .basic }
      (.call 1 (.commit { id := 65537 } (some [[1]])) ::
        .call 0 (.commit { id := 65536 } (some [[2]])) ::
          List.replicate 34 (.deliver 0 [] {}))).map
        (fun final => (final.net.isEmpty, (final.nodes 0).captain.deliveredIds)) =
      some (true, [(1, 65537), (2, 65536)]) := by
    set_option maxRecDepth 10000 in
    decide
  rcases Option.map_eq_some_iff.mp hfinal with ⟨final, hrun, hfinal⟩
  rw [Prod.mk.injEq, List.isEmpty_iff] at hfinal
  exact ⟨final, hrun, hfinal.2, settled_at_rest { config := twoNodes .basic }
    (Config.reachable _ (by simp [twoNodes])) (fun _ _ => Nat.one_pos) _ final hrun
    (by simp [Lossless, Action.calls]) (by simp [Action.calls]) trivial hfinal.1⟩

end NDNPaxos
