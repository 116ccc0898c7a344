import NDNPaxos.GivenValues
import NDNPaxos.LearnedValues
import NDNPaxos.WaitingQueue
import Mathlib.Tactic

/-!
# Agreement

What nodes decide for a slot, by their own quorum or by learning, is one value
that has been handed to some node.  The Multi-Paxos build keeps this only as
long as the lease excludes the lower ballots of every slot that is opened
without Phase I.
-/

namespace NDNPaxos

def ChosenId (config : Config) (nodes : ℕ → Node) (slot id : ℕ) : Prop :=
  ∃ ballot, (votingAt config.size nodes slot).ChosenAt config.Quorum ballot id

/-! ## Knowledge of all nodes -/

/-- Every node holds opened values, and has learned chosen ones. -/
def Knowledge (config : Config) (nodes : ℕ → Node) : Prop :=
  ∀ known : ℕ → PropValue → Prop,
    (∀ i < config.size, ∀ slot value, Opened (nodes i).log slot value → known slot value) →
      ∀ i < config.size, Captain.ValuesKnown known (nodes i).captain (nodes i).log ∧
        Captain.LearnedFrom known (ChosenId config nodes) (nodes i).captain (nodes i).log

theorem knowledge_initial (deployment : Deployment) :
    Knowledge deployment.config deployment.node := by
  intro known hknown i hi
  have hnone : ∀ (slot : ℕ) info, (deployment.node i).captain.proposers[slot]? ≠ some info := by
    intro slot info hinfo
    simp [Deployment.node, Captain.new] at hinfo
  constructor
  · constructor
    · exact fun slot info hinfo => absurd hinfo (hnone slot info)
    · intro slot value hvalue
      have hnew := (Captain.new_acceptorOf deployment.config i (deployment.windowSize i) slot).2
      change ((deployment.node i).captain.acceptorOf slot).maxValue = none at hnew
      rw [hnew] at hvalue
      simp at hvalue
    · intro slot ballot value hmem
      simp [Deployment.node] at hmem
    · exact fun dst msg hsends => absurd hsends Captain.not_sends_nil
  · constructor
    · exact fun slot info value hinfo => absurd hinfo (hnone slot info)
    · intro slot value hvalue
      cases slot <;> simp [Deployment.node, Captain.new, Captain.chosenAt] at hvalue
    · intro slot value init hmem
      simp [Deployment.node] at hmem
    · exact fun dst msg hsends => absurd hsends Captain.not_sends_nil

/-- A proposer that gets CHOOSE holds the value of an accepting quorum. -/
theorem chosenId_of_choose {deployment : Deployment} {nodes : ℕ → Node} {i : ℕ}
    (hkeeps : deployment.Keeps nodes) (hmode : deployment.config.mode ≠ .rs)
    (hhistories : Histories deployment.config.size nodes) (hi : i < deployment.config.size)
    {msg : MsgAckAccept} {info : ProposerInfo} {proposer : Proposer} {value : PropValue}
    (hreceived : Received deployment.config.size nodes i (.accepted msg))
    (hinfo : (nodes i).captain.proposers[msg.msgHeader.slotId]? = some info)
    (hstatus : info.proposerStatus = .phaseII)
    (hack : info.currProposer.handleMsgAccepted msg = (.choose, proposer))
    (hvalue : proposer.currValue = some value) :
    ChosenId deployment.config nodes msg.msgHeader.slotId value.id := by
  have hhistory := hhistories.proposers i hi
  have hlive := hhistory.live _ info hinfo
  cases Proposer.handleMsgAccepted_step hack with
  | chooses hballot hsome htrue =>
      rcases hlive.accepting (.inl hstatus) with ⟨current, hcurrent, honly⟩
      have heq : current = value := Option.some.inj (hcurrent.symm.trans hvalue)
      subst heq
      have hviewMode : (nodes i).captain.view.mode ≠ .rs := by
        rw [View.mode, hkeeps.config i hi]
        exact hmode
      rw [(hlive.quorums hviewMode).2, View.quorumSize, hkeeps.config i hi] at htrue
      have hlive' := hlive.recordAccept hreceived rfl hballot
      exact ⟨_, chosenAt_of_accepteds hkeeps hhistories hi hlive' honly
        (hhistory.below hinfo) htrue⟩

theorem knowledge_preserved {deployment : Deployment} (condition : StepCondition)
    (hmode : deployment.config.mode ≠ .rs) :
    PreservedBySlotMoves deployment condition fun nodes =>
      Paxos deployment.config nodes ∧ Knowledge deployment.config nodes := by
  refine (paxos_preserved condition hmode).and ?_
  intro nodes i setting outs final hi hkeeps hallows hpaxos _ hknowledge hmove known hknown
  have hshape := (hkeeps.wellKept i hi).shape
  have hmodeAt : (nodes i).captain.mode ≠ .rs := by
    rw [hkeeps.mode hi]
    exact hmode
  have hbefore : ∀ j < deployment.config.size, ∀ slot value,
      Opened (nodes j).log slot value → known slot value := by
    rintro j hj slot value ⟨name, tryTime, hmem⟩
    exact hknown j hj slot value ⟨name, tryTime, mem_log_actOn.mpr (.inl hmem)⟩
  have hopened : ∀ slot value, Opened outs slot value → known slot value := by
    rintro slot value ⟨name, tryTime, hmem⟩
    exact hknown i hi slot value ⟨name, tryTime, mem_log_actOn.mpr (.inr ⟨rfl, hmem⟩)⟩
  have hall := hknowledge known hbefore
  have hcarries : ∀ msg, setting.received msg → msg.Carries known := by
    intro msg hmsg
    rcases hallows.received msg hmsg with ⟨j, hj, hsends⟩
    exact (hall j hj).1.sent i msg hsends
  have hreports : ∀ msg, setting.received msg →
      msg.Reports known (ChosenId deployment.config nodes) := by
    intro msg hmsg
    rcases hallows.received msg hmsg with ⟨j, hj, hsends⟩
    exact (hall j hj).2.sent i msg hsends
  have hgrow : ∀ slot id, ChosenId deployment.config nodes slot id →
      ChosenId deployment.config (actOn nodes i (final, outs)) slot id := by
    rintro slot id ⟨ballot, hchosen⟩
    exact ⟨ballot, (extends_actOn (hmove.advances hshape) slot).chosenAt hchosen⟩
  have hvalues := (hall i hi).1.slotMove (hkeeps.wellKept i hi) (hkeeps.whoami_lt hi) hmodeAt
    (hpaxos.histories.acceptors i hi).unvoted hcarries hopened hmove
  have hlearned : Captain.LearnedFrom known (ChosenId deployment.config nodes) final
      ((nodes i).log ++ outs) := by
    rcases (hall i hi).2.learning (hall i hi).1 hshape hmodeAt hreports hmove with
      ⟨hstored, hsent⟩
    constructor
    · intro slot info value hinfo hstatus hvalue
      rcases hmove.chosen_cases hshape hinfo hstatus with hold |
        ⟨msg, before, proposer, hmsg, rfl, hbefore, hphase, hack, rfl⟩
      · exact (hall i hi).2.proposers slot info value hold hstatus hvalue
      · exact chosenId_of_choose hkeeps hmode hpaxos.histories hi (hallows.received _ hmsg)
          hbefore hphase hack hvalue
    · exact hstored
    · intro slot value init hmem
      rcases List.mem_append.mp hmem with hold | hnew
      · exact (hall i hi).2.chose slot value init hold
      · rcases hmove.chose_of_mem hshape hnew with ⟨info, hinfo, hstatus, hvalue, _⟩
        exact ⟨((hall i hi).1.proposers slot info hinfo).currValue value hvalue,
          (hall i hi).2.proposers slot info value hinfo hstatus hvalue⟩
    · intro dst msg hsends
      rcases sends_append.mp hsends with hold | hnew
      · exact (hall i hi).2.sent dst msg hold
      · exact hsent dst msg hnew
  exact forall_actOn
    (fun _ captain log => Captain.ValuesKnown known captain log ∧
      Captain.LearnedFrom known _ captain log)
    (fun j hj => ⟨(hall j hj).1, (hall j hj).2.mono hgrow⟩) ⟨hvalues, hlearned.mono hgrow⟩

/-! ## Agreement of the basic and the quorum build -/

/-- A node has retired a proposer on the value for the slot, or stores it. -/
def Decided (size : ℕ) (nodes : ℕ → Node) (slot : ℕ) (value : PropValue) : Prop :=
  ∃ i < size, (∃ init, .note (.chose slot value init) ∈ (nodes i).log) ∨
    (nodes i).captain.chosenAt slot = some value

/-- Given values with one id are one value. -/
def IdsIdentify (size : ℕ) (nodes : ℕ → Node) : Prop :=
  ∀ i < size, ∀ j < size, ∀ value value', Given (nodes i).log value →
    Given (nodes j).log value' → value.id = value'.id → value = value'

/-- What holds at the end of every run of the builds without shards. -/
theorem knowledge_of_run {deployment : Deployment} (hmode : deployment.config.mode ≠ .rs)
    {actions : List Action} {final : Cluster} (hrun : deployment.run actions = some final) :
    deployment.Keeps final.nodes ∧ Paxos deployment.config final.nodes ∧
      Knowledge deployment.config final.nodes ∧
      ∀ i < deployment.config.size, GivenValues (final.nodes i).captain (final.nodes i).log := by
  have hmeets := runMeets_anything deployment actions
  have hknowledge := reaches_of_run (knowledge_preserved {} hmode).moves
    ⟨paxos_initial deployment, knowledge_initial deployment⟩ hmeets hrun
  have hgiven := reaches_of_run GivenValues.preserved.moves
    (fun i _ => givenValues_initial deployment i) hmeets hrun
  exact ⟨hknowledge.keeps, hknowledge.invariant.1, hknowledge.invariant.2, hgiven.invariant⟩

theorem runMeets_of_calls (deployment : Deployment) {actions : List Action}
    (hcalls : ∀ action ∈ actions, ∀ call ∈ action.calls, ∀ value, call ≠ .masterChange value) :
    deployment.machine.RunMeets StepCondition.noMasterChange.Holds deployment.initial actions := by
  apply PartialMachine.runMeets_of_forall
  intro action hmem cluster
  cases action with
  | call i made => exact hcalls _ hmem made (List.mem_singleton_self made)
  | deliver index dataName app => exact fun _ _ => ⟨hcalls _ hmem, fun _ _ _ => trivial⟩
  | lose index => trivial
  | duplicate index => trivial

theorem Paxos.chosenId_unique {config : Config} {nodes : ℕ → Node} (hpaxos : Paxos config nodes)
    (hmode : config.mode ≠ .multi) {slot id id' : ℕ} (hchosen : ChosenId config nodes slot id)
    (hchosen' : ChosenId config nodes slot id') : id = id' := by
  rcases hchosen with ⟨ballot, hchosen⟩
  rcases hchosen' with ⟨ballot', hchosen'⟩
  have hsound := hpaxos.sound slot (fun _ => True) (fun _ => True)
    ⟨fun _ _ _ _ => trivial, fun _ _ _ _ => trivial⟩ fun h => absurd h hmode
  exact hsound.agreement config.intersecting_quorum hchosen hchosen'

theorem Knowledge.opened {config : Config} {nodes : ℕ → Node}
    (hknowledge : Knowledge config nodes) {i : ℕ} (hi : i < config.size) :
    Captain.ValuesKnown (fun slot value => ∃ j < config.size, Opened (nodes j).log slot value)
        (nodes i).captain (nodes i).log ∧
      Captain.LearnedFrom (fun slot value => ∃ j < config.size, Opened (nodes j).log slot value)
        (ChosenId config nodes) (nodes i).captain (nodes i).log :=
  hknowledge _ (fun j hj _ _ hopened => ⟨j, hj, hopened⟩) i hi

/-- A decided value was opened by some node and has a chosen id. -/
theorem Knowledge.decided {config : Config} {nodes : ℕ → Node}
    (hknowledge : Knowledge config nodes) {slot : ℕ} {value : PropValue}
    (hdecided : Decided config.size nodes slot value) :
    (∃ i < config.size, Opened (nodes i).log slot value) ∧
      ChosenId config nodes slot value.id := by
  rcases hdecided with ⟨i, hi, ⟨init, hmem⟩ | hstored⟩
  · exact (hknowledge.opened hi).2.chose slot value init hmem
  · exact (hknowledge.opened hi).2.stored slot value hstored

theorem Decided.same {deployment : Deployment}
    (hmode : deployment.config.mode = .basic ∨ deployment.config.mode = .quorum)
    {actions : List Action} {final : Cluster} (hrun : deployment.run actions = some final)
    {slot : ℕ} {value value' : PropValue}
    (hdecided : Decided deployment.config.size final.nodes slot value)
    (hdecided' : Decided deployment.config.size final.nodes slot value') :
    value.id = value'.id ∧
      (IdsIdentify deployment.config.size final.nodes → value = value') ∧
      ∃ i < deployment.config.size, Given (final.nodes i).log value := by
  have hshards : deployment.config.mode ≠ .rs := by
    rcases hmode with h | h <;> simp [h]
  have hmulti : deployment.config.mode ≠ .multi := by
    rcases hmode with h | h <;> simp [h]
  rcases knowledge_of_run hshards hrun with ⟨hkeeps, hpaxos, hknowledge, hgiven⟩
  rcases hknowledge.decided hdecided with ⟨⟨i, hi, hopened⟩, hchosen⟩
  rcases hknowledge.decided hdecided' with ⟨⟨j, hj, hopened'⟩, hchosen'⟩
  have hid := hpaxos.chosenId_unique hmulti hchosen hchosen'
  have hvalue := (hgiven i hi).opened slot value hopened
  have hvalue' := (hgiven j hj).opened slot value' hopened'
  exact ⟨hid, fun hids => hids i hi j hj value value' hvalue hvalue' hid, i, hi, hvalue⟩

/-- Agreement: for every slot, what any proposer gets CHOOSE for and what any
node stores is one value, and it was handed to some node's `commit`. -/
theorem decided_agree (deployment : Deployment)
    (hmode : deployment.config.mode = .basic ∨ deployment.config.mode = .quorum)
    (actions : List Action) (final : Cluster) (hrun : deployment.run actions = some final)
    (hcalls : ∀ action ∈ actions, ∀ call ∈ action.calls, ∀ value, call ≠ .masterChange value)
    (hids : IdsIdentify deployment.config.size final.nodes) (slot : ℕ)
    (value value' : PropValue) (hdecided : Decided deployment.config.size final.nodes slot value)
    (hdecided' : Decided deployment.config.size final.nodes slot value') :
    value = value' ∧
      ∃ i < deployment.config.size, ∃ name, .note (.commit value name) ∈ (final.nodes i).log := by
  rcases hdecided.same hmode hrun hdecided' with ⟨_, hsame, i, hi, hvalue⟩
  have hquiet := (reaches_of_run noCommand_preserved.moves (fun i _ value hmem => by
    simp [Deployment.node] at hmem) (runMeets_of_calls deployment hcalls) hrun).invariant
  refine ⟨hsame hids, i, hi, ?_⟩
  rcases hvalue with hcommitted | hcommand
  · exact hcommitted
  · exact absurd hcommand (hquiet i hi value)

theorem decided_agree_twoNodes :
    ∃ final, Deployment.run { config := twoNodes .basic }
        (.call 1 (.commit { id := 65537 } (some [[1]])) :: List.replicate 10 (.deliver 0 [] {})) =
          some final ∧
      (final.nodes 0).captain.chosenAt 1 = some { id := 65537 } ∧
      ∃ i < (twoNodes .basic).size, ∃ name,
        .note (.commit { id := 65537 } name) ∈ (final.nodes i).log := by
  have hfinal : (Deployment.run { config := twoNodes .basic }
      (.call 1 (.commit { id := 65537 } (some [[1]])) :: List.replicate 10 (.deliver 0 [] {}))).map
        (fun final => ((final.nodes 0).captain.chosenAt 1, givenValues (final.nodes 0).log,
          givenValues (final.nodes 1).log)) =
      some (some { id := 65537 }, [], [{ id := 65537 }]) := by
    decide
  rcases Option.map_eq_some_iff.mp hfinal with ⟨final, hrun, hfinal⟩
  simp only [Prod.mk.injEq] at hfinal
  rcases hfinal with ⟨hstored, hgiven₀, hgiven₁⟩
  have hgiven : ∀ i < 2, ∀ value, Given (final.nodes i).log value → value = { id := 65537 } := by
    intro i hi value hvalue
    rw [given_iff] at hvalue
    interval_cases i
    · simp [hgiven₀] at hvalue
    · simpa [hgiven₁] using hvalue
  have hdecided : Decided 2 final.nodes 1 { id := 65537 } := ⟨0, by decide, .inr hstored⟩
  have hagree := decided_agree { config := twoNodes .basic } (.inl rfl) _ final hrun
    (by simp [Action.calls]) (fun i hi j hj value value' hvalue hvalue' _ =>
      (hgiven i hi value hvalue).trans (hgiven j hj value' hvalue').symm) 1 _ _ hdecided hdecided
  exact ⟨final, hrun, hstored, hagree.2⟩

/-! ## Agreement of the Multi-Paxos build -/

def AcceptedByQuorum (config : Config) (nodes : ℕ → Node) (slot ballot : ℕ)
    (value : PropValue) : Prop :=
  ∃ members, config.Quorum members ∧
    ∀ i ∈ members, .note (.accepted slot ballot value) ∈ (nodes i).log

/-- Where a node has opened a slot at the first attempt, a smaller node opens
the slot only if it is below the first master and the slot is leased. -/
def LeaseRespected (config : Config) (nodes : ℕ → Node) : Prop :=
  ∀ slot, ∀ node < config.size, ∀ lower < node,
    (∃ value, OpenedFirst (nodes node).log slot value) →
      (∃ value, Opened (nodes lower).log slot value) →
        lower < config.masterId ∧ slot ≤ config.length

/-- Agreement with the lease: no two values are accepted by quorums for one
slot, for any interleaving of commits, changes of the master and deliveries. -/
theorem acceptedByQuorum_agree (deployment : Deployment)
    (hmode : deployment.config.mode = .multi) (actions : List Action) (final : Cluster)
    (hrun : deployment.run actions = some final)
    (hlease : LeaseRespected deployment.config final.nodes) (slot ballot ballot' : ℕ)
    (value value' : PropValue)
    (haccepted : AcceptedByQuorum deployment.config final.nodes slot ballot value)
    (haccepted' : AcceptedByQuorum deployment.config final.nodes slot ballot' value') :
    value.id = value'.id ∧
      (IdsIdentify deployment.config.size final.nodes → value = value') := by
  have hshards : deployment.config.mode ≠ .rs := by simp [hmode]
  rcases knowledge_of_run hshards hrun with ⟨hkeeps, hpaxos, hknowledge, hgiven⟩
  have hsource : ∀ ballot accepted,
      AcceptedByQuorum deployment.config final.nodes slot ballot accepted →
        (votingAt deployment.config.size final.nodes slot).ChosenAt deployment.config.Quorum
          ballot accepted.id ∧
        ∃ i < deployment.config.size, Given (final.nodes i).log accepted := by
    rintro ballot accepted ⟨members, hmembers, hall⟩
    refine ⟨⟨members, hmembers, ?_⟩, ?_⟩
    · intro i hi
      exact ⟨Finset.mem_range.mp (hmembers.1 hi), accepted, hall i hi, rfl⟩
    · rcases deployment.config.intersecting_quorum members members hmembers hmembers with
        ⟨i, hi, _⟩
      have hlt := Finset.mem_range.mp (hmembers.1 hi)
      rcases (hknowledge.opened hlt).1.accepted slot ballot accepted (hall i hi) with
        ⟨j, hj, hopened⟩
      exact ⟨j, hj, (hgiven j hj).opened slot accepted hopened⟩
  rcases hsource ballot value haccepted with ⟨hchosen, i, hi, hvalue⟩
  rcases hsource ballot' value' haccepted' with ⟨hchosen', j, hj, hvalue'⟩
  have hsound := hpaxos.sound slot
    (fun i => i < deployment.config.size ∧ ∃ value, Opened (final.nodes i).log slot value)
    (fun i => i < deployment.config.size ∧ ∃ value, OpenedFirst (final.nodes i).log slot value)
    ⟨fun i hi value hopened => ⟨hi, value, hopened⟩,
      fun i hi value hopened => ⟨hi, value, hopened⟩⟩
    (fun _ node hfirst lower hlt hopener =>
      hlease slot node hfirst.1 lower hlt hfirst.2 hopener.2)
  have hid : value.id = value'.id :=
    hsound.agreement deployment.config.intersecting_quorum hchosen hchosen'
  exact ⟨hid, fun hids => hids i hi j hj value value' hvalue hvalue' hid⟩

theorem acceptedByQuorum_agree_twoNodes :
    ∃ final, Deployment.run { config := twoNodes .multi }
        (.call 0 (.commit { id := 65536 } none) :: List.replicate 2 (.deliver 0 [] {})) =
          some final ∧
      AcceptedByQuorum (twoNodes .multi) final.nodes 1 65536 { id := 65536 } ∧
      ∀ ballot value, AcceptedByQuorum (twoNodes .multi) final.nodes 1 ballot value →
        65536 = value.id := by
  have hfinal : (Deployment.run { config := twoNodes .multi }
      (.call 0 (.commit { id := 65536 } none) :: List.replicate 2 (.deliver 0 [] {}))).map
        (fun final => ([0, 1].all fun i => (final.nodes i).log.contains
          (.note (.accepted 1 65536 { id := 65536 })), openedSlots (final.nodes 1).log)) =
      some (true, []) := by
    decide
  rcases Option.map_eq_some_iff.mp hfinal with ⟨final, hrun, hfinal⟩
  rw [Prod.mk.injEq] at hfinal
  have haccepted : AcceptedByQuorum (twoNodes .multi) final.nodes 1 65536 { id := 65536 } := by
    refine ⟨_, (twoNodes .multi).quorum_range, ?_⟩
    intro i hi
    have hlt : i < 2 := Finset.mem_range.mp hi
    have hmem : i ∈ [0, 1] := by
      interval_cases i <;> simp
    exact List.contains_iff_mem.mp (List.all_eq_true.mp hfinal.1 i hmem)
  have hlease : LeaseRespected (twoNodes .multi) final.nodes := by
    rintro slot node hnode lower hlt ⟨value, name, hmem⟩ _
    have hone : node = 1 := by
      have hsize : node < 2 := hnode
      omega
    have hopened : slot ∈ openedSlots (final.nodes 1).log :=
      List.mem_filterMap.mpr ⟨_, hone ▸ hmem, rfl⟩
    simp [hfinal.2] at hopened
  refine ⟨final, hrun, haccepted, ?_⟩
  intro ballot value haccepted'
  exact (acceptedByQuorum_agree { config := twoNodes .multi } rfl _ final hrun hlease 1 _ _ _ _
    haccepted haccepted').1

/-- The nodes 3 and 4 are outside the fixed quorum, and node 3 is the first master. -/
def fiveNodes : Config where
  mode := .multi
  hosts := ["node0", "node1", "node2", "node3", "node4"]
  masterId := 3
  length := 4
  hosts_pos := by decide
  hosts_le := by decide

/-- Node 4 commits after the ACCEPT messages of node 3 have been handled. -/
def twoMasters : List Action :=
  .call 3 (.commit { id := 65539 } none) :: deliveries [] [0, 0, 0] ++
    .call 4 (.commit { id := 65540 } none) :: deliveries [] [3, 3, 3]

/-- Two nodes that both commit skip Phase I for their first slot, and the higher
of the two ballots is accepted after the lower one has been chosen. -/
theorem acceptedByQuorum_twoMasters_counterexample :
    ∃ final, Deployment.run { config := fiveNodes } twoMasters = some final ∧
      Deployment.RunByCommo { config := fiveNodes } twoMasters ∧
      AcceptedByQuorum fiveNodes final.nodes 1 65539 { id := 65539 } ∧
      AcceptedByQuorum fiveNodes final.nodes 1 65540 { id := 65540 } := by
  have hfinal : (Deployment.run { config := fiveNodes } twoMasters).map
      (fun final => [0, 1, 2].all fun i => [65539, 65540].all fun ballot =>
        (final.nodes i).log.contains (.note (.accepted 1 ballot { id := ballot }))) =
      some true := by
    decide
  rcases Option.map_eq_some_iff.mp hfinal with ⟨final, hrun, hfinal⟩
  have haccepted : ∀ i < 3, ∀ ballot ∈ [65539, 65540],
      Output.note (.accepted 1 ballot { id := ballot }) ∈ (final.nodes i).log := by
    intro i hi ballot hballot
    have hmem : i ∈ [0, 1, 2] := by
      interval_cases i <;> simp
    exact List.contains_iff_mem.mp (List.all_eq_true.mp (List.all_eq_true.mp hfinal i hmem)
      ballot hballot)
  have hquorum : fiveNodes.Quorum (Finset.range 3) :=
    ⟨Finset.range_mono (by decide), by decide⟩
  refine ⟨final, hrun, by decide, ⟨_, hquorum, ?_⟩, ⟨_, hquorum, ?_⟩⟩
  · exact fun i hi => haccepted i (Finset.mem_range.mp hi) 65539 (by simp)
  · exact fun i hi => haccepted i (Finset.mem_range.mp hi) 65540 (by simp)

end NDNPaxos
