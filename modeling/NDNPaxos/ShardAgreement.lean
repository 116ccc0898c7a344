import NDNPaxos.Agreement
import Mathlib.Tactic

/-!
# Agreement of the Reed-Solomon build

A proposer of this build waits for `qr` PROMISE and for `qw` ACCEPTED messages,
and an ACCEPT carries a shard under the id of the value.  Whatever becomes of
the shards, the ids agree as long as every `qr` nodes meet every `qw` nodes.
-/

namespace NDNPaxos

/-- Sets of at least so many nodes. -/
def Config.AtLeast (config : Config) (count : ℕ) (members : Finset ℕ) : Prop :=
  members ⊆ Finset.range config.size ∧ count ≤ members.card

theorem Config.crossing_atLeast (config : Config) {write read : ℕ}
    (hsize : config.size < write + read) :
    Voting.Crossing (config.AtLeast write) (config.AtLeast read) := by
  apply Voting.crossing_of_card_lt
  rwa [Finset.card_range]

/-! ## Sizes of the quorums -/

namespace Captain

/-- The proposers wait for as many answers as the configuration says. -/
def SizedQuorums (rs : RSParams) (captain : Captain) : Prop :=
  ∀ (slot : ℕ) info, captain.proposers[slot]? = some info →
    info.currProposer.qr = rs.qr ∧ info.currProposer.qw = rs.qw

variable {rs : RSParams} {setting : Setting} {captain final : Captain} {outs : List Output}

theorem promise_sizes {info : ProposerInfo} {view : View} {msg : MsgAckPrepare} {ack : AckType}
    {proposer : Proposer}
    (hack : info.currProposer.handleMsgPromise view msg = some (ack, proposer)) :
    proposer.qr = info.currProposer.qr ∧ proposer.qw = info.currProposer.qw := by
  cases Proposer.handleMsgPromise_step hack with
  | drops hold => exact ⟨rfl, rfl⟩
  | waits hballot hvalue hfew => exact ⟨rfl, rfl⟩
  | restarts hballot hvalue => exact ⟨rfl, rfl⟩
  | continues hballot hvalue htrue hafter => exact ⟨hafter.qr, hafter.qw⟩

theorem accepted_sizes {info : ProposerInfo} {msg : MsgAckAccept} {ack : AckType}
    {proposer : Proposer} (hack : info.currProposer.handleMsgAccepted msg = (ack, proposer)) :
    proposer.qr = info.currProposer.qr ∧ proposer.qw = info.currProposer.qw := by
  cases Proposer.handleMsgAccepted_step hack <;> exact ⟨rfl, rfl⟩

theorem SizedQuorums.proposerMove (hsized : SizedQuorums rs captain)
    (hmove : ProposerMove setting captain outs final) : SizedQuorums rs final := by
  have hinsert : ∀ {slot : ℕ} {before after : ProposerInfo},
      captain.proposers[slot]? = some before →
      after.currProposer.qr = before.currProposer.qr ∧
        after.currProposer.qw = before.currProposer.qw →
      SizedQuorums rs (captain.setProposer slot after) := by
    rintro slot before after hbefore ⟨hqr, hqw⟩
    refine OrderedMap.forall_insert hsized ?_
    rw [hqr, hqw]
    exact hsized slot before hbefore
  cases hmove with
  | promised hmsg hinfo hstatus hack hstays => exact hinsert hinfo (promise_sizes hack)
  | promiseRestart hmsg hinfo hstatus hack =>
      have hsizes := promise_sizes hack
      rw [restart_eq]
      exact hinsert hinfo hsizes
  | @continued msg info proposer outs final hmsg hinfo hstatus hack henter =>
      cases Proposer.handleMsgPromise_step hack with
      | @continues value _ hballot hnone htrue hafter =>
          have hcurr : { info with currProposer := proposer }.currProposer.currValue =
            some value := hafter.currValue
          rcases (enterPhaseII_spec hcurr henter).1 with ⟨rsValues, rsEncoder, rfl⟩
          have hsizes := promise_sizes hack
          exact hinsert hinfo hsizes
  | acked hmsg hinfo hstatus hack hstays => exact hinsert hinfo (accepted_sizes hack)
  | ackRestart hmsg hinfo hstatus hack =>
      have hsizes := accepted_sizes hack
      rw [restart_eq]
      exact hinsert hinfo hsizes
  | chosen hmsg hinfo hstatus hack => exact hinsert hinfo (accepted_sizes hack)

theorem SizedQuorums.slotMove (hsized : SizedQuorums rs captain) (hshape : LogShape captain)
    (hmode : captain.mode = .rs) (hrs : captain.view.config.rsParams = rs)
    (hmove : SlotMove setting captain outs final) : SizedQuorums rs final := by
  rcases hmove.proposer_cases hshape with hproposer |
    ⟨value, name, tryTime, skipPhaseI, hskip, rfl, rfl⟩ | ⟨⟨slot, rfl⟩, _⟩ | ⟨hsame, _⟩
  · exact hsized.proposerMove hproposer
  · rw [openSlot_eq]
    refine OrderedMap.forall_insert hsized ?_
    have hview : captain.view.mode = .rs := hmode
    cases skipPhaseI <;>
      simp [newProposer, Proposer.genNextBallot, Proposer.initCurrValue, Proposer.new, hview, hrs]
  · exact OrderedMap.forall_erase hsized
  · rw [SizedQuorums, hsame]
    exact hsized

end Captain

theorem sizedQuorums_preserved {deployment : Deployment} (condition : StepCondition)
    (hmode : deployment.config.mode = .rs) :
    PreservedBySlotMoves deployment condition fun nodes => ∀ i < deployment.config.size,
      (nodes i).captain.SizedQuorums deployment.config.rsParams := by
  intro nodes i setting outs final hi hkeeps _ hsized hmove
  refine forall_actOn (fun _ captain _ => captain.SizedQuorums deployment.config.rsParams)
    hsized ?_
  refine (hsized i hi).slotMove (hkeeps.wellKept i hi).shape ?_ ?_ hmove
  · rw [hkeeps.mode hi, hmode]
  · rw [hkeeps.config i hi]

/-! ## Safe proposals -/

/-- What holds of all nodes in every run of the Reed-Solomon build. -/
structure RsPaxos (config : Config) (nodes : ℕ → Node) : Prop where
  histories : Histories config.size nodes
  sized : ∀ i < config.size, (nodes i).captain.SizedQuorums config.rsParams
  sound : ∀ slot, (votingAt config.size nodes slot).Sound (config.AtLeast config.rsParams.qr)
    (2 ^ 16 ≤ ·)
  opened : ∀ slot ballot id, (votingAt config.size nodes slot).proposed ballot id →
    ∃ i < config.size, ∃ value, Opened (nodes i).log slot value ∧ value.id = id

theorem not_proposed_initial {deployment : Deployment} {slot ballot id : ℕ} :
    ¬ (votingAt deployment.config.size deployment.node slot).proposed ballot id := by
  rintro ⟨i, hi, dst, msg, hsends, _⟩
  exact Captain.not_sends_nil hsends

theorem rsPaxos_initial (deployment : Deployment) :
    RsPaxos deployment.config deployment.node where
  histories := histories_initial deployment
  sized := by
    intro i _ slot info hinfo
    simp [Deployment.node, Captain.new] at hinfo
  sound := by
    intro slot
    constructor
    · rintro node ballot id ⟨_, hvoted⟩
      exact absurd hvoted Captain.not_voted_nil
    · exact fun ballot id id' hproposed => absurd hproposed not_proposed_initial
    · exact fun ballot id hproposed => absurd hproposed not_proposed_initial
    · exact fun ballot id hproposed => absurd hproposed not_proposed_initial
  opened := fun slot ballot id hproposed => absurd hproposed not_proposed_initial

theorem proposed_cases {size : ℕ} {nodes : ℕ → Node} {i : ℕ} {final : Captain}
    {outs : List Output} {slot ballot id : ℕ}
    (hproposed : (votingAt size (actOn nodes i (final, outs)) slot).proposed ballot id) :
    (votingAt size nodes slot).proposed ballot id ∨ Proposed outs slot ballot id := by
  rcases hproposed with ⟨j, hj, dst, msg, ⟨packet, hmem, hdst, hmsg⟩, hrest⟩
  rcases mem_log_actOn.mp hmem with hold | ⟨rfl, hnew⟩
  · exact .inl ⟨j, hj, dst, msg, ⟨packet, hold, hdst, hmsg⟩, hrest⟩
  · exact .inr ⟨dst, msg, ⟨packet, hnew, hdst, hmsg⟩, hrest⟩

section Proposals

variable {deployment : Deployment} {nodes : ℕ → Node} {i : ℕ} {setting : Captain.Setting}
  {final : Captain} {outs : List Output} {condition : StepCondition}
  (hmode : deployment.config.mode = .rs) (hi : i < deployment.config.size)
  (hkeeps : deployment.Keeps nodes)
  (hallows : condition.Allows deployment.config.size nodes i setting)
  (hpaxos : RsPaxos deployment.config nodes)
  (hmove : Captain.SlotMove setting (nodes i).captain outs final)

include hmode hi hkeeps hallows hpaxos hmove

/-- A new proposal is safe, and its id comes from a value that some node has opened. -/
theorem new_proposal {slot ballot id : ℕ} (hproposed : Proposed outs slot ballot id) :
    (2 ^ 16 ≤ ballot ∧ (votingAt deployment.config.size nodes slot).SafeAt
        (deployment.config.AtLeast deployment.config.rsParams.qr) (2 ^ 16 ≤ ·) ballot id) ∧
      ∃ j < deployment.config.size, ∃ value, Opened (nodes j).log slot value ∧ value.id = id := by
  cases hmove.newProposal (hkeeps.wellKept i hi).shape hproposed with
  | @continues promise info value proposer hreceived hinfo hstatus hballot htrue hcontinues =>
      have hmsg := hallows.received _ hreceived
      have hlive := (hpaxos.histories.proposers i hi).live _ info hinfo
      have hquorum := (hpaxos.sized i hi _ info hinfo).1
      refine ⟨⟨hlive.ballot.round, ?_⟩, ?_⟩
      · refine safeAt_of_promises hkeeps hpaxos.histories hi ?_ ?_ (hpaxos.sound _) hmsg hinfo
          hballot htrue hcontinues
        · exact fun members hsub hcard => ⟨hsub, hquorum ▸ hcard⟩
        · intro lower hround
          omega
      · have hreported := hlive.adoptTally_reported hmsg rfl hballot
        cases hmax : (info.currProposer.recordPrepare promise).adoptTally.maxValue with
        | none =>
            rw [(hcontinues.free hmax).1]
            exact ⟨i, hi, _, hlive.opened, rfl⟩
        | some highest =>
            rw [(hcontinues.bound highest hmax).1]
            exact hpaxos.opened _ _ _
              (reported_proposed hpaxos.histories hkeeps hreported hmax)
  | skips hmulti hnote =>
      rw [hkeeps.mode hi, hmode] at hmulti
      simp at hmulti

end Proposals

theorem rsPaxos_preserved {deployment : Deployment} (condition : StepCondition)
    (hmode : deployment.config.mode = .rs) :
    PreservedBySlotMoves deployment condition (RsPaxos deployment.config) := by
  intro nodes i setting outs final hi hkeeps hallows hpaxos hmove
  have hadvances := hmove.advances (hkeeps.wellKept i hi).shape
  have hafter := histories_preserved deployment condition nodes i setting outs final hi hkeeps
    hallows hpaxos.histories hmove
  have hsized := sizedQuorums_preserved condition hmode nodes i setting outs final hi hkeeps
    hallows hpaxos.sized hmove
  have hkeepsAfter := hkeeps.slotMove hi hmove
  refine ⟨hafter, hsized, ?_, ?_⟩
  · intro slot
    refine (hpaxos.sound slot).extend (extends_actOn hadvances slot) ?_ ?_ ?_
    · rintro node ballot id ⟨hnode, hvoted⟩
      exact proposed_of_voted hafter hnode hvoted
    · rintro ballot id id' ⟨j, hj, hproposed⟩ ⟨k, hk, hproposed'⟩
      exact (proposed_unique hkeepsAfter hafter hj hk hproposed hproposed').2
    · intro ballot id hproposed
      rcases proposed_cases hproposed with hold | hnew
      · exact .inl hold
      · exact .inr (new_proposal hmode hi hkeeps hallows hpaxos hmove hnew).1
  · intro slot ballot id hproposed
    have hsource : ∃ j < deployment.config.size, ∃ value,
        Opened (nodes j).log slot value ∧ value.id = id := by
      rcases proposed_cases hproposed with hold | hnew
      · exact hpaxos.opened slot ballot id hold
      · exact (new_proposal hmode hi hkeeps hallows hpaxos hmove hnew).2
    rcases hsource with ⟨j, hj, value, ⟨name, tryTime, hmem⟩, hid⟩
    exact ⟨j, hj, value, ⟨name, tryTime, mem_log_actOn.mpr (.inl hmem)⟩, hid⟩

/-! ## Ids that are learned -/

/-- So many nodes have accepted a shard under the id that it is decided. -/
def WrittenId (config : Config) (nodes : ℕ → Node) (slot id : ℕ) : Prop :=
  ∃ ballot, (votingAt config.size nodes slot).ChosenAt (config.AtLeast config.rsParams.qw) ballot id

/-- What a node of this build knows about values: nothing but their ids. -/
def anyValue : ℕ → PropValue → Prop := fun _ _ => True

def LearnedIds (config : Config) (nodes : ℕ → Node) : Prop :=
  ∀ i < config.size,
    Captain.LearnedFrom anyValue (WrittenId config nodes) (nodes i).captain (nodes i).log

theorem valuesKnown_any (captain : Captain) (log : List Output) :
    Captain.ValuesKnown anyValue captain log where
  proposers := fun _ _ _ =>
    ⟨trivial, fun _ _ => trivial, fun _ _ => trivial, fun _ _ _ _ _ => trivial⟩
  acceptors := fun _ _ _ => trivial
  accepted := fun _ _ _ _ => trivial
  sent := by
    intro dst msg _
    cases msg with
    | promise msg => exact fun _ _ => trivial
    | _ => trivial

theorem learnedIds_initial (deployment : Deployment) :
    LearnedIds deployment.config deployment.node := by
  intro i _
  constructor
  · intro slot info value hinfo
    simp [Deployment.node, Captain.new] at hinfo
  · intro slot value hvalue
    cases slot <;> simp [Deployment.node, Captain.new, Captain.chosenAt] at hvalue
  · intro slot value init hmem
    simp [Deployment.node] at hmem
  · exact fun dst msg hsends => absurd hsends Captain.not_sends_nil

/-- A proposer that gets CHOOSE holds the id of what enough nodes have accepted. -/
theorem writtenId_of_choose {deployment : Deployment} {nodes : ℕ → Node} {i : ℕ}
    (hkeeps : deployment.Keeps nodes) (hpaxos : RsPaxos deployment.config nodes)
    (hi : i < deployment.config.size) {msg : MsgAckAccept} {info : ProposerInfo}
    {proposer : Proposer} {value : PropValue}
    (hreceived : Received deployment.config.size nodes i (.accepted msg))
    (hinfo : (nodes i).captain.proposers[msg.msgHeader.slotId]? = some info)
    (hstatus : info.proposerStatus = .phaseII)
    (hack : info.currProposer.handleMsgAccepted msg = (.choose, proposer))
    (hvalue : proposer.currValue = some value) :
    WrittenId deployment.config nodes msg.msgHeader.slotId value.id := by
  have hhistory := hpaxos.histories.proposers i hi
  have hlive := hhistory.live _ info hinfo
  cases Proposer.handleMsgAccepted_step hack with
  | chooses hballot hsome htrue =>
      rcases hlive.accepting (.inl hstatus) with ⟨current, hcurrent, honly⟩
      have heq : current = value := Option.some.inj (hcurrent.symm.trans hvalue)
      subst heq
      rw [(hpaxos.sized i hi _ info hinfo).2] at htrue
      have hlive' := hlive.recordAccept hreceived rfl hballot
      exact ⟨_, voted_of_accepteds hkeeps hpaxos.histories hi hlive' honly
        (hhistory.below hinfo) htrue⟩

theorem learnedIds_preserved {deployment : Deployment} (condition : StepCondition)
    (hmode : deployment.config.mode = .rs) :
    PreservedBySlotMoves deployment condition fun nodes =>
      RsPaxos deployment.config nodes ∧ LearnedIds deployment.config nodes := by
  refine (rsPaxos_preserved condition hmode).and ?_
  intro nodes i setting outs final hi hkeeps hallows hpaxos _ hlearned hmove
  have hshape := (hkeeps.wellKept i hi).shape
  have hreports : ∀ msg, setting.received msg →
      msg.Reports anyValue (WrittenId deployment.config nodes) := by
    intro msg hmsg
    rcases hallows.received msg hmsg with ⟨j, hj, hsends⟩
    exact (hlearned j hj).sent i msg hsends
  have hgrow : ∀ slot id, WrittenId deployment.config nodes slot id →
      WrittenId deployment.config (actOn nodes i (final, outs)) slot id := by
    rintro slot id ⟨ballot, hchosen⟩
    exact ⟨ballot, (extends_actOn (hmove.advances hshape) slot).chosenAt hchosen⟩
  have hmoved : Captain.LearnedFrom anyValue (WrittenId deployment.config nodes) final
      ((nodes i).log ++ outs) := by
    rcases (hlearned i hi).learning_of (valuesKnown_any _ _) hshape (fun _ _ _ => trivial)
      hreports hmove with ⟨hstored, hsent⟩
    constructor
    · intro slot info value hinfo hstatus hvalue
      rcases hmove.chosen_cases hshape hinfo hstatus with hold |
        ⟨msg, before, proposer, hmsg, rfl, hbefore, hphase, hack, rfl⟩
      · exact (hlearned i hi).proposers slot info value hold hstatus hvalue
      · exact writtenId_of_choose hkeeps hpaxos hi (hallows.received _ hmsg) hbefore hphase hack
          hvalue
    · exact hstored
    · intro slot value init hmem
      rcases List.mem_append.mp hmem with hold | hnew
      · exact (hlearned i hi).chose slot value init hold
      · rcases hmove.chose_of_mem hshape hnew with ⟨info, hinfo, hstatus, hvalue, _⟩
        exact ⟨trivial, (hlearned i hi).proposers slot info value hinfo hstatus hvalue⟩
    · intro dst msg hsends
      rcases sends_append.mp hsends with hold | hnew
      · exact (hlearned i hi).sent dst msg hold
      · exact hsent dst msg hnew
  exact forall_actOn (fun _ captain log => Captain.LearnedFrom anyValue _ captain log)
    (fun j hj => (hlearned j hj).mono hgrow) (hmoved.mono hgrow)

/-! ## Agreement -/

/-- Every set of `qr` nodes meets every set of `qw` nodes, and none is empty. -/
structure RSParams.Meet (rs : RSParams) (size : ℕ) : Prop where
  larger : size < rs.qr + rs.qw
  some_qw : 0 < rs.qw

theorem RSParams.Meet.nonempty {config : Config} (hmeet : config.rsParams.Meet config.size)
    (members : Finset ℕ) (hmembers : config.AtLeast config.rsParams.qw members) :
    members.Nonempty :=
  Finset.card_pos.mp (hmeet.some_qw.trans_le hmembers.2)

theorem Config.meet_defaultRS {size : ℕ} (hsize : 0 < size) : (defaultRS size).Meet size := by
  constructor
  · simp only [defaultRS]
    split_ifs <;> omega
  · simp only [defaultRS]
    split_ifs <;> omega

section Written

variable {deployment : Deployment} (hmode : deployment.config.mode = .rs)
  {actions : List Action} {final : Cluster} (hrun : deployment.run actions = some final)
  {slot : ℕ}

include hmode hrun

theorem writtenId_of_decided {value : PropValue}
    (hdecided : Decided deployment.config.size final.nodes slot value) :
    RsPaxos deployment.config final.nodes ∧
      WrittenId deployment.config final.nodes slot value.id := by
  have hreaches := reaches_of_run (learnedIds_preserved {} hmode).moves
    ⟨rsPaxos_initial deployment, learnedIds_initial deployment⟩
    (runMeets_anything deployment actions) hrun
  rcases hreaches.invariant with ⟨hpaxos, hlearned⟩
  refine ⟨hpaxos, ?_⟩
  rcases hdecided with ⟨i, hi, ⟨init, hmem⟩ | hstored⟩
  · exact ((hlearned i hi).chose slot value init hmem).2
  · exact ((hlearned i hi).stored slot value hstored).2

theorem decided_ids_eq (hmeet : deployment.config.rsParams.Meet deployment.config.size)
    {value value' : PropValue} (hdecided : Decided deployment.config.size final.nodes slot value)
    (hdecided' : Decided deployment.config.size final.nodes slot value') :
    value.id = value'.id := by
  rcases writtenId_of_decided hmode hrun hdecided with ⟨hpaxos, ballot, hchosen⟩
  rcases writtenId_of_decided hmode hrun hdecided' with ⟨_, ballot', hchosen'⟩
  have hcross : Voting.Crossing (deployment.config.AtLeast deployment.config.rsParams.qw)
      (deployment.config.AtLeast deployment.config.rsParams.qr) := by
    apply deployment.config.crossing_atLeast
    have hlarger := hmeet.larger
    omega
  exact (hpaxos.sound slot).agreement_of_crossing hcross hmeet.nonempty hchosen hchosen'

end Written

/-- Whatever the nodes of the Reed-Solomon build decide or learn for a slot has
one id, and a value with this id was handed to some node. -/
theorem rs_decided_agree (deployment : Deployment) (hmode : deployment.config.mode = .rs)
    (hmeet : deployment.config.rsParams.Meet deployment.config.size) (actions : List Action)
    (final : Cluster) (hrun : deployment.run actions = some final) (slot : ℕ)
    (value value' : PropValue) (hdecided : Decided deployment.config.size final.nodes slot value)
    (hdecided' : Decided deployment.config.size final.nodes slot value') :
    value.id = value'.id ∧ ∃ i < deployment.config.size, ∃ given,
      Given (final.nodes i).log given ∧ given.id = value.id := by
  have hgiven := (reaches_of_run GivenValues.preserved.moves
    (fun i _ => givenValues_initial deployment i) (runMeets_anything deployment actions)
    hrun).invariant
  refine ⟨decided_ids_eq hmode hrun hmeet hdecided hdecided', ?_⟩
  rcases writtenId_of_decided hmode hrun hdecided with ⟨hpaxos, ballot, hchosen⟩
  rcases hpaxos.opened slot ballot _ (hchosen.proposed (hpaxos.sound slot) hmeet.nonempty) with
    ⟨i, hi, given, hopened, hid⟩
  exact ⟨i, hi, given, (hgiven i hi).opened slot given hopened, hid⟩

theorem rs_decided_agree_twoNodes :
    ∃ final, Deployment.run { config := twoNodes .rs }
        (.call 1 (.commit { id := 65537 } (some [[1]])) :: List.replicate 10 (.deliver 0 [] {})) =
          some final ∧
      (final.nodes 0).captain.chosenAt 1 = some { id := 65537 } ∧
      ∀ value, Decided 2 final.nodes 1 value → 65537 = value.id := by
  have hfinal : (Deployment.run { config := twoNodes .rs }
      (.call 1 (.commit { id := 65537 } (some [[1]])) :: List.replicate 10 (.deliver 0 [] {}))).map
        (fun final => (final.nodes 0).captain.chosenAt 1) = some (some { id := 65537 }) := by
    decide
  rcases Option.map_eq_some_iff.mp hfinal with ⟨final, hrun, hstored⟩
  refine ⟨final, hrun, hstored, ?_⟩
  intro value hdecided
  exact (rs_decided_agree { config := twoNodes .rs } rfl (Config.meet_defaultRS (by decide)) _ final
    hrun 1 _ value ⟨0, by decide, .inr hstored⟩ hdecided).1

end NDNPaxos
