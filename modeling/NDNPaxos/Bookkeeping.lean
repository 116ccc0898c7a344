import NDNPaxos.SingleDelivery
import Mathlib.Tactic

/-!
# The bookkeeping of proposers

Status, value and acknowledgements of a proposer are set by different branches
of the captain.  In every run they stay consistent: the acknowledgements answer
the current ballot, the value is there exactly in Phase II, and a slot is
chosen once.
-/

namespace NDNPaxos

namespace Captain

/-! ## What a move does to one proposer -/

/-- A proposer's move puts back the proposer of one slot, which was running. -/
theorem ProposerMove.inserts {setting : Setting} {captain final : Captain} {outs : List Output}
    (hmove : ProposerMove setting captain outs final) :
    ∃ slot info info', captain.proposers[slot]? = some info ∧ info.proposerStatus ≠ .chosen ∧
      final = captain.setProposer slot info' ∧
      ((info.Preparing → info.currProposer.msgAckAccept = {}) →
        info'.Preparing → info'.currProposer.msgAckAccept = {}) := by
  have hrunning : ∀ {info : ProposerInfo}, info.Preparing → info.proposerStatus ≠ .chosen := by
    intro info hpreparing
    rcases hpreparing with hstatus | hstatus <;> simp [hstatus]
  have hphaseII : ∀ {info : ProposerInfo}, info.proposerStatus = .phaseII → ¬ info.Preparing := by
    intro info hstatus hpreparing
    rcases hpreparing with hother | hother <;> simp [hstatus] at hother
  cases hmove with
  | promised hmsg hinfo hstatus hack hstays =>
      refine ⟨_, _, _, hinfo, hrunning hstatus, rfl, ?_⟩
      intro hempty _
      cases Proposer.handleMsgPromise_step hack with
      | drops hold => exact hempty hstatus
      | waits hballot hvalue hfew => exact hempty hstatus
      | restarts hballot hvalue => exact absurd rfl hstays.2
      | continues hballot hvalue htrue hafter => exact absurd rfl hstays.1
  | promiseRestart hmsg hinfo hstatus hack =>
      rw [restart_eq]
      exact ⟨_, _, _, hinfo, hrunning hstatus, rfl, fun _ _ => rfl⟩
  | @continued msg info proposer outs final hmsg hinfo hstatus hack henter =>
      cases Proposer.handleMsgPromise_step hack with
      | @continues value _ hballot hvalue htrue hafter =>
          have hcurr : { info with currProposer := proposer }.currProposer.currValue =
            some value := hafter.currValue
          rcases enterPhaseII_spec hcurr henter with ⟨⟨rsValues, rsEncoder, rfl⟩, _⟩
          exact ⟨_, _, _, hinfo, hrunning hstatus, rfl,
            fun _ hpreparing => absurd hpreparing (hphaseII rfl)⟩
  | acked hmsg hinfo hstatus hack hstays =>
      refine ⟨_, _, _, hinfo, by simp [hstatus], rfl, ?_⟩
      exact fun _ hpreparing => absurd hpreparing (hphaseII hstatus)
  | ackRestart hmsg hinfo hstatus hack =>
      rw [restart_eq]
      exact ⟨_, _, _, hinfo, by simp [hstatus], rfl, fun _ _ => rfl⟩
  | chosen hmsg hinfo hstatus hack =>
      refine ⟨_, _, _, hinfo, by simp [hstatus], rfl, ?_⟩
      intro _ hpreparing
      rcases hpreparing with hother | hother <;> simp at hother

/-! ## Acknowledgements of ACCEPT before Phase II -/

/-- A proposer that is still preparing holds no acknowledgement of an ACCEPT. -/
def NoneAccepted (captain : Captain) : Prop :=
  ∀ (slot : ℕ) info, captain.proposers[slot]? = some info → info.Preparing →
    info.currProposer.msgAckAccept = {}

theorem NoneAccepted.setProposer {captain : Captain} {slot : ℕ} {info : ProposerInfo}
    (hbefore : captain.NoneAccepted)
    (hinfo : info.Preparing → info.currProposer.msgAckAccept = {}) :
    (captain.setProposer slot info).NoneAccepted := by
  intro other found hfound
  rcases OrderedMap.insert_cases hfound with ⟨_, rfl⟩ | ⟨_, hold⟩
  · exact hinfo
  · exact hbefore other found hold

theorem SlotMove.noneAccepted {setting : Setting} {captain final : Captain} {outs : List Output}
    (hshape : LogShape captain) (hbefore : captain.NoneAccepted)
    (hmove : SlotMove setting captain outs final) : final.NoneAccepted := by
  rcases hmove.proposer_cases hshape with hproposer |
    ⟨value, name, tryTime, skipPhaseI, _, rfl, _⟩ | ⟨⟨slot, rfl⟩, _⟩ | ⟨hproposers, _, _⟩
  · rcases hproposer.inserts with ⟨slot, info, info', hinfo, _, rfl, hkeeps⟩
    exact hbefore.setProposer (hkeeps (hbefore slot info hinfo))
  · rw [openSlot_eq]
    have hempty : (captain.newProposer value name tryTime skipPhaseI).currProposer.msgAckAccept =
        {} := by
      cases skipPhaseI <;> rfl
    exact @NoneAccepted.setProposer captain _ _ hbefore fun _ => hempty
  · exact fun other info hinfo => hbefore other info (OrderedMap.of_erase hinfo)
  · intro other info hinfo
    rw [hproposers] at hinfo
    exact hbefore other info hinfo

/-! ## A slot that is done -/

def Retired (captain : Captain) (slot : ℕ) : Prop :=
  slot ≤ captain.maxSlot ∧
    ∀ info, captain.proposers[slot]? = some info → info.proposerStatus = .chosen

theorem SlotMove.retired {setting : Setting} {captain final : Captain} {outs : List Output}
    {slot : ℕ} (hshape : LogShape captain) (hretired : captain.Retired slot)
    (hmove : SlotMove setting captain outs final) : final.Retired slot := by
  rcases hmove.proposer_cases hshape with hproposer |
    ⟨value, name, tryTime, skipPhaseI, _, rfl, _⟩ | ⟨⟨other, rfl⟩, _⟩ |
    ⟨hproposers, hmaxSlot, _⟩
  · rcases hproposer.inserts with ⟨other, found, info', hfound, hrunning, rfl, _⟩
    refine ⟨hretired.1, ?_⟩
    intro info hinfo
    rcases OrderedMap.insert_cases hinfo with ⟨rfl, _⟩ | ⟨_, hold⟩
    · exact absurd (hretired.2 found hfound) hrunning
    · exact hretired.2 info hold
  · rw [openSlot_eq]
    refine ⟨hretired.1.trans (Nat.le_succ _), ?_⟩
    intro info hinfo
    rcases OrderedMap.insert_cases hinfo with ⟨rfl, _⟩ | ⟨_, hold⟩
    · exact absurd hretired.1 (by omega)
    · exact hretired.2 info hold
  · exact ⟨hretired.1, fun info hinfo => hretired.2 info (OrderedMap.of_erase hinfo)⟩
  · unfold Retired
    rw [hproposers, hmaxSlot]
    exact hretired

theorem Retired.chain {setting : Setting} {captain final : Captain} {outs : List Output}
    {slot : ℕ} (hretired : captain.Retired slot) (hkept : captain.WellKept)
    (hchain : OutputChain (SlotMove setting) captain outs final) : final.Retired slot := by
  have hboth := hchain.preserves (fun captain => captain.WellKept ∧ captain.Retired slot)
    (fun _ _ _ hbefore hmove =>
      ⟨hmove.wellKept hbefore.1, hmove.retired hbefore.1.shape hbefore.2⟩) ⟨hkept, hretired⟩
  exact hboth.2

theorem Retired.returned {captain : Captain} {msg : Message} {ack : AckType}
    (hretired : captain.Retired msg.msgHeader.slotId) : captain.returned msg ≠ some ack := by
  intro hreturned
  rcases found_of_returned hreturned with ⟨info, hinfo, hrunning⟩
  exact hrunning (hretired.2 info hinfo)

theorem FirstMove.retired {captain mid : Captain} {msg : Message} {first : List Output}
    (hkept : captain.WellKept) (hfirst : FirstMove captain msg first mid)
    (hreturned : captain.returned msg = some .choose) : mid.Retired msg.msgHeader.slotId := by
  cases hfirst with
  | acceptor hmove =>
      have hnone : captain.returned msg = none := by
        cases hmove with
        | prepare hmsg hupdate => exact hmsg ▸ rfl
        | accept hmsg hupdate => exact hmsg ▸ rfl
      simp [hnone] at hreturned
  | idle hidle =>
      rw [returned_of_ignores hidle] at hreturned
      simp at hreturned
  | proposer hwork hmove =>
      have hpromise : ∀ {promise : MsgAckPrepare} {info : ProposerInfo} {ack : AckType}
          {proposer : Proposer}, Message.promise promise = msg →
          captain.proposers[promise.msgHeader.slotId]? = some info → info.Preparing →
          info.currProposer.handleMsgPromise captain.view promise = some (ack, proposer) →
            False := by
        intro promise info ack proposer hmsg hinfo hstatus hack
        rw [← hmsg, returned_promise hwork hinfo hstatus hack, Option.some.injEq] at hreturned
        subst hreturned
        nomatch Proposer.handleMsgPromise_step hack
      have haccepted : ∀ {accepted : MsgAckAccept} {info : ProposerInfo} {ack : AckType}
          {proposer : Proposer}, Message.accepted accepted = msg →
          captain.proposers[accepted.msgHeader.slotId]? = some info →
          info.proposerStatus = .phaseII →
          info.currProposer.handleMsgAccepted accepted = (ack, proposer) → ack = .choose := by
        intro accepted info ack proposer hmsg hinfo hstatus hack
        rw [← hmsg, returned_accepted hwork hinfo hstatus, hack, Option.some.injEq] at hreturned
        exact hreturned
      cases hmove with
      | promised hmsg hinfo hstatus hack hstays => exact (hpromise hmsg hinfo hstatus hack).elim
      | promiseRestart hmsg hinfo hstatus hack => exact (hpromise hmsg hinfo hstatus hack).elim
      | continued hmsg hinfo hstatus hack henter => exact (hpromise hmsg hinfo hstatus hack).elim
      | acked hmsg hinfo hstatus hack hstays =>
          have hchoose := haccepted hmsg hinfo hstatus hack
          rcases hstays with rfl | rfl <;> simp at hchoose
      | ackRestart hmsg hinfo hstatus hack =>
          have hchoose := haccepted hmsg hinfo hstatus hack
          simp at hchoose
      | @chosen accepted info proposer hmsg hinfo hstatus hack =>
          rw [← hmsg]
          refine ⟨(hkept.keys _ info hinfo).2, ?_⟩
          intro found hfound
          rcases OrderedMap.insert_cases hfound with ⟨_, rfl⟩ | ⟨hne, _⟩
          · rfl
          · exact absurd rfl hne

end Captain

/-! ## Acknowledgements and the current ballot -/

/-- The acknowledgements that a proposer of node `i` holds, and its value. -/
structure Booked (size : ℕ) (nodes : ℕ → Node) (i slot : ℕ) (info : ProposerInfo) : Prop where
  promises : ∀ (key : ℕ) ack, info.currProposer.msgAckPrepare[key]? = some ack →
    ack.ballotId = info.currProposer.currBallot ∧ ack.msgHeader.slotId = slot ∧
      ack.msgHeader.nodeId = key ∧ key < size ∧ Sends (nodes key).log i (.promise ack)
  accepteds : ∀ (key : ℕ) ack, info.currProposer.msgAckAccept[key]? = some ack →
    ack.ballotId = info.currProposer.currBallot ∧ ack.msgHeader.slotId = slot ∧
      ack.msgHeader.nodeId = key ∧ key < size ∧ Sends (nodes key).log i (.accepted ack)
  preparing_iff : info.Preparing ↔ info.currProposer.currValue = none
  noneAccepted : info.Preparing → info.currProposer.msgAckAccept = {}
  accepting_iff : info.Accepting ↔ info.currProposer.currValue.isSome

def Elects (size : ℕ) (nodes : ℕ → Node) (i slot : ℕ) (info : ProposerInfo) : Prop :=
  ∃ voters : Finset ℕ, info.currProposer.qw ≤ voters.card ∧ ∀ j ∈ voters, j < size ∧
    ∃ ack : MsgAckAccept, Sends (nodes j).log i (.accepted ack) ∧ ack.msgHeader.nodeId = j ∧
      ack.msgHeader.slotId = slot ∧ ack.ballotId = info.currProposer.currBallot ∧
      ack.reply = true

section Current

variable {deployment : Deployment} {nodes : ℕ → Node} {i slot : ℕ} {info : ProposerInfo}
  (hkeeps : deployment.Keeps nodes) (hhistories : Histories deployment.config.size nodes)
  (hi : i < deployment.config.size) (hinfo : (nodes i).captain.proposers[slot]? = some info)

include hkeeps hhistories hi hinfo

/-- No acceptor was asked for more than the current ballot. -/
theorem le_current_of_request {j : ℕ} {msg : Message} {header : MsgHeader} {ballot : ℕ}
    (hrequest : Received deployment.config.size nodes j msg)
    (hissue : msg.issue? = some (header, ballot)) (hdst : toNodeId header.nodeId = i)
    (hslot : header.slotId = slot) : ballot ≤ info.currProposer.currBallot := by
  rcases issued_of_received hkeeps hhistories hrequest hissue with ⟨hsender, hissued⟩
  have hsize := deployment.config.size_le
  rw [toNodeId_of_lt (by omega)] at hdst
  rw [hdst] at hissued
  exact ((hhistories.proposers i hi).issued header ballot hissued).2.2.2 info (hslot ▸ hinfo)

/-- An answer that counts is one to the current ballot, and from the node it is
recorded under. -/
theorem answer_current {j key ballot : ℕ} {answer header : MsgHeader} {request : Message}
    (hj : j < deployment.config.size) (hnode : answer.nodeId = (nodes j).captain.whoami)
    (hkey : toNodeId answer.nodeId = key) (hslot : answer.slotId = slot)
    (hle : info.currProposer.currBallot ≤ ballot)
    (hrequest : Received deployment.config.size nodes j request)
    (hissue : request.issue? = some (header, ballot)) (hdst : toNodeId header.nodeId = i)
    (hsame : header.slotId = answer.slotId) :
    ballot = info.currProposer.currBallot ∧ answer.nodeId = key ∧ j = key := by
  have hcurrent := le_current_of_request hkeeps hhistories hi hinfo hrequest hissue hdst
    (hsame.trans hslot)
  have hsize := deployment.config.size_le
  rw [hkeeps.whoami hj] at hnode
  rw [hnode, toNodeId_of_lt (by omega)] at hkey
  exact ⟨le_antisymm hcurrent hle, hnode.trans hkey, hkey⟩

theorem promise_current {key : ℕ} {ack : MsgAckPrepare}
    (hack : Received deployment.config.size nodes i (.promise ack) ∧
      toNodeId ack.msgHeader.nodeId = key ∧ ack.msgHeader.slotId = slot ∧
      info.currProposer.currBallot ≤ ack.ballotId) :
    ack.ballotId = info.currProposer.currBallot ∧ ack.msgHeader.slotId = slot ∧
      ack.msgHeader.nodeId = key ∧ key < deployment.config.size ∧
      Sends (nodes key).log i (.promise ack) := by
  rcases hack with ⟨⟨j, hj, hsends⟩, hkey, hslot, hle⟩
  rcases (hhistories.acceptors j hj).promise i ack hsends with
    ⟨hnode, ⟨request, hrequest, hdst, hsame, hballot⟩, _⟩
  rw [← hballot] at hle ⊢
  rcases answer_current hkeeps hhistories hi hinfo hj hnode hkey hslot hle hrequest rfl hdst hsame
    with ⟨hcurrent, hsender, rfl⟩
  exact ⟨hcurrent, hslot, hsender, hj, hsends⟩

theorem accepted_current {key : ℕ} {ack : MsgAckAccept}
    (hack : Received deployment.config.size nodes i (.accepted ack) ∧
      toNodeId ack.msgHeader.nodeId = key ∧ ack.msgHeader.slotId = slot ∧
      info.currProposer.currBallot ≤ ack.ballotId) :
    ack.ballotId = info.currProposer.currBallot ∧ ack.msgHeader.slotId = slot ∧
      ack.msgHeader.nodeId = key ∧ key < deployment.config.size ∧
      Sends (nodes key).log i (.accepted ack) := by
  rcases hack with ⟨⟨j, hj, hsends⟩, hkey, hslot, hle⟩
  rcases (hhistories.acceptors j hj).accepted i ack hsends with
    ⟨hnode, ⟨request, hrequest, hdst, hsame, hballot⟩, _⟩
  rw [← hballot] at hle ⊢
  rcases answer_current hkeeps hhistories hi hinfo hj hnode hkey hslot hle hrequest rfl hdst hsame
    with ⟨hcurrent, hsender, rfl⟩
  exact ⟨hcurrent, hslot, hsender, hj, hsends⟩

theorem booked_of_histories (hnone : (nodes i).captain.NoneAccepted) :
    Booked deployment.config.size nodes i slot info := by
  have hlive := (hhistories.proposers i hi).live slot info hinfo
  constructor
  · exact fun key ack hack =>
      promise_current hkeeps hhistories hi hinfo (hlive.promises key ack hack)
  · exact fun key ack hack =>
      accepted_current hkeeps hhistories hi hinfo (hlive.accepteds key ack hack)
  · constructor
    · exact fun hpreparing => (hlive.preparing hpreparing).1
    · intro hvalue
      rcases hlive.phase with ⟨hpreparing, _⟩ | ⟨_, value, hsome, _⟩
      · exact hpreparing
      · simp [hvalue] at hsome
  · exact hnone slot info hinfo
  · constructor
    · intro haccepting
      rcases hlive.accepting haccepting with ⟨value, hvalue, _⟩
      rw [hvalue]
      rfl
    · intro hvalue
      rcases hlive.phase with ⟨_, hnoValue, _⟩ | ⟨haccepting, _⟩
      · simp [hnoValue] at hvalue
      · exact haccepting

/-- CHOOSE is returned on a quorum of positive answers to the current ballot. -/
theorem elects_of_choose {msg : MsgAckAccept} {proposer : Proposer}
    (hreceived : Received deployment.config.size nodes i (.accepted msg))
    (hslot : msg.msgHeader.slotId = slot)
    (hack : info.currProposer.handleMsgAccepted msg = (.choose, proposer)) :
    Elects deployment.config.size nodes i slot info := by
  have hlive := (hhistories.proposers i hi).live slot info hinfo
  cases Proposer.handleMsgAccepted_step hack with
  | chooses hballot hvalue htrue =>
      let recorded := (info.currProposer.recordAccept msg).msgAckAccept
      refine ⟨(OrderedMap.keysWhere MsgAckAccept.reply recorded).toFinset, ?_, ?_⟩
      · rw [OrderedMap.card_keysWhere]
        exact htrue
      · intro j hmem
        rcases OrderedMap.mem_keysWhere.mp (List.mem_toFinset.mp hmem) with ⟨ack, hget, hreply⟩
        rcases accepted_current hkeeps hhistories hi hinfo
          (hlive.recordAccept_accepteds hreceived hslot hballot j ack hget) with
            ⟨hcurrent, hackSlot, hnode, hj, hsends⟩
        exact ⟨hj, ack, hsends, hnode, hackSlot, hcurrent, hreply⟩

end Current

/-! ## Runs -/

section Runs

variable {deployment : Deployment} {invariant : (ℕ → Node) → Prop} {cluster next : Cluster}
  {action : Action} {p slot : ℕ}

theorem Captain.Retired.step (hretired : (cluster.captains p).Retired slot)
    (hreaches : Reaches deployment invariant cluster)
    (hstep : cluster.step deployment action = some next) : (next.captains p).Retired slot := by
  unfold Cluster.captains at hretired ⊢
  rcases Cluster.step_cases hreaches.keeps hreaches.sent hstep with ⟨_, hcases⟩
  cases hcases with
  | network hnodes => rwa [hnodes]
  | @node i setting outs final hi hsetting hchain hnodes =>
      rw [hnodes]
      by_cases heq : p = i
      · subst heq
        have hslots := hchain.bind fun _ _ _ hmove => hmove.slotMoves
        rw [actOn_self]
        exact hretired.chain (hreaches.keeps.wellKept p hi) hslots
      · rwa [actOn_ne _ heq]

theorem retired_of_returns (hreaches : Reaches deployment invariant cluster)
    (hreturns : returns .choose p slot (cluster, action) = true)
    (hstep : cluster.step deployment action = some next) : (next.captains p).Retired slot := by
  cases action with
  | call i made => simp [returns, Cluster.handled?] at hreturns
  | lose index => simp [returns, Cluster.handled?] at hreturns
  | duplicate index => simp [returns, Cluster.handled?] at hreturns
  | deliver index dataName app =>
      rcases Cluster.step_deliver hstep with ⟨packet, hpacket, hi, final, outs, hhandle, rfl⟩
      simp only [returns, handled?_deliver hpacket] at hreturns
      split at hreturns
      next hown =>
        rcases hown with ⟨rfl, rfl⟩
        have hkept := hreaches.keeps.wellKept packet.dst hi
        rcases Captain.handleMsg_first hkept hhandle with
          ⟨first, mid, rest, hfirst, hrest, rfl⟩
        have hmid := hfirst.slotMoves.preserves Captain.WellKept
          (fun _ _ _ hwell hmove => hmove.wellKept hwell) hkept
        have hretired := hfirst.retired hkept (of_decide_eq_true hreturns)
        rw [Cluster.captains_act, Function.update_self]
        exact hretired.chain hmid hrest
      next => simp at hreturns

theorem returns_of_retired {ack : AckType} (hretired : (cluster.captains p).Retired slot) :
    returns ack p slot (cluster, action) = false := by
  cases action with
  | call i made => rfl
  | lose index => rfl
  | duplicate index => rfl
  | deliver index dataName app =>
      cases hpacket : cluster.net[index]? with
      | none => simp [returns, Cluster.handled?, hpacket]
      | some packet =>
          simp only [returns, handled?_deliver hpacket]
          split
          next hown =>
            rw [← hown.2] at hretired
            exact decide_eq_false hretired.returned
          next => rfl

/-- CHOOSE has been returned at most once, and then the slot is retired. -/
def ChosenOnce (p slot : ℕ) (past : List (Cluster × Action)) (cluster : Cluster) : Prop :=
  past.countP (returns .choose p slot) = 0 ∨
    (past.countP (returns .choose p slot) = 1 ∧ (cluster.captains p).Retired slot)

theorem ChosenOnce.step {past : List (Cluster × Action)} (honce : ChosenOnce p slot past cluster)
    (hreaches : Reaches deployment invariant cluster)
    (hstep : cluster.step deployment action = some next) :
    ChosenOnce p slot (past ++ [(cluster, action)]) next := by
  unfold ChosenOnce
  rw [List.countP_append, List.countP_singleton]
  rcases honce with hnone | ⟨hone, hretired⟩
  · cases hreturns : returns .choose p slot (cluster, action) with
    | false => exact .inl (by simp [hnone])
    | true => exact .inr ⟨by simp [hnone], retired_of_returns hreaches hreturns hstep⟩
  · right
    rw [returns_of_retired hretired]
    exact ⟨by simp [hone], hretired.step hreaches hstep⟩

theorem histories_noneAccepted_preserved (deployment : Deployment) (condition : StepCondition) :
    PreservedBySlotMoves deployment condition fun nodes =>
      Histories deployment.config.size nodes ∧
        ∀ i < deployment.config.size, (nodes i).captain.NoneAccepted := by
  apply (histories_preserved deployment condition).and
  intro nodes i setting outs final hi hkeeps hallows _ _ hnone hmove
  refine forall_actOn (fun _ captain _ => captain.NoneAccepted) hnone ?_
  exact hmove.noneAccepted (hkeeps.wellKept i hi).shape (hnone i hi)

end Runs

/-- In every run of every build the proposers' books are in order, CHOOSE is
returned at most once for a slot of a node, and only on a quorum of positive
answers to the current ballot. -/
theorem proposers_booked (deployment : Deployment) (actions : List Action) (final : Cluster)
    (hrun : deployment.run actions = some final) (i : ℕ) (hi : i < deployment.config.size)
    (slot : ℕ) :
    (∀ info, (final.captains i).proposers[slot]? = some info →
        Booked deployment.config.size final.nodes i slot info) ∧
      (deployment.machine.steps deployment.initial actions).countP
        (returns .choose i slot) ≤ 1 ∧
      ∀ packet ∈ final.net, packet.dst = i → packet.msg.msgHeader.slotId = slot →
        (final.captains i).returned packet.msg = some .choose →
          ∃ info, (final.captains i).proposers[slot]? = some info ∧
            Elects deployment.config.size final.nodes i slot info := by
  let holds (nodes : ℕ → Node) : Prop := Histories deployment.config.size nodes ∧
    ∀ i < deployment.config.size, (nodes i).captain.NoneAccepted
  have hpreserved := (histories_noneAccepted_preserved deployment {}).moves
  have hstart : Reaches deployment holds deployment.initial := by
    refine ⟨deployment.keeps_initial, fun packet hmem => absurd hmem List.not_mem_nil,
      histories_initial deployment, ?_⟩
    intro j _ other info hinfo
    simp [Deployment.initial, Deployment.node, Captain.new] at hinfo
  have hreached := PartialMachine.invariant_of_steps
    (fun past cluster => Reaches deployment holds cluster ∧ ChosenOnce i slot past cluster)
    (fun past cluster action next _ hbefore hstep =>
      ⟨hbefore.1.step hpreserved (holds_anything cluster action) hstep,
        hbefore.2.step hbefore.1 hstep⟩)
    ⟨hstart, .inl rfl⟩ (PartialMachine.runMeets_of_forall (fun _ _ _ => trivial) _) hrun
  rcases hreached with ⟨⟨hkeeps, hsent, hhistories, hnone⟩, honce⟩
  refine ⟨?_, ?_, ?_⟩
  · exact fun info hinfo => booked_of_histories hkeeps hhistories hi hinfo (hnone i hi)
  · rcases honce with hzero | ⟨hone, _⟩
    · exact hzero.le.trans (Nat.zero_le 1)
    · exact hone.le
  · intro packet hmem hdst hslot hreturned
    cases hmsg : packet.msg with
    | accepted msg =>
        rw [hmsg] at hslot hreturned
        change msg.msgHeader.slotId = slot at hslot
        simp only [Captain.returned, Option.bind_eq_bind, Option.bind_eq_some_iff] at hreturned
        rcases hreturned with ⟨info, hinfo, hreturned⟩
        rw [hslot] at hinfo
        split at hreturned
        next hphase =>
          rw [Option.some.injEq] at hreturned
          rcases hsent packet hmem with ⟨j, hj, hlog⟩
          have hreceived : Received deployment.config.size final.nodes i (.accepted msg) :=
            ⟨j, hj, packet, hlog, hdst, hmsg⟩
          refine ⟨info, hinfo, ?_⟩
          exact elects_of_choose hkeeps hhistories hi hinfo hreceived hslot
            (Prod.ext hreturned rfl)
        next => simp at hreturned
    | promise msg =>
        rw [hmsg] at hreturned
        simp only [Captain.returned, Option.bind_eq_bind, Option.bind_eq_some_iff] at hreturned
        rcases hreturned with ⟨info, hinfo, hreturned⟩
        split at hreturned
        next =>
          simp only [Option.map_eq_some_iff, Prod.exists] at hreturned
          rcases hreturned with ⟨ack, proposer, hack, rfl⟩
          cases Proposer.handleMsgPromise_step hack
        next => simp at hreturned
    | _ => simp [hmsg, Captain.returned] at hreturned

/-- A PREPARE is duplicated, and the last ACCEPTED is about to be handled. -/
theorem proposers_booked_twoNodes :
    ∃ final info, Deployment.run { config := twoNodes .basic }
        (.call 0 (.commit { id := 65536 } none) :: .duplicate 0 ::
          List.replicate 9 (.deliver 0 [] {})) = some final ∧
      (final.captains 0).proposers[1]? = some info ∧ Booked 2 final.nodes 0 1 info ∧
      Elects 2 final.nodes 0 1 info := by
  have hfinal : (Deployment.run { config := twoNodes .basic }
      (.call 0 (.commit { id := 65536 } none) :: .duplicate 0 ::
        List.replicate 9 (.deliver 0 [] {}))).map (fun final => final.net.map fun packet =>
          (packet.dst, packet.msg.msgHeader.slotId, (final.captains 0).returned packet.msg)) =
      some [(0, 1, some .choose)] := by
    decide
  rcases Option.map_eq_some_iff.mp hfinal with ⟨final, hrun, hnet⟩
  rcases List.map_eq_singleton_iff.mp hnet with ⟨packet, hpacket, hfacts⟩
  rw [Prod.mk.injEq, Prod.mk.injEq] at hfacts
  rcases hfacts with ⟨hdst, hslot, hreturned⟩
  have hmem : packet ∈ final.net := by simp [hpacket]
  have hbooked := proposers_booked { config := twoNodes .basic } _ final hrun 0 (by decide) 1
  rcases hbooked.2.2 packet hmem hdst hslot hreturned with ⟨info, hinfo, helects⟩
  exact ⟨final, info, hrun, hinfo, hbooked.1 info hinfo, helects⟩

end NDNPaxos
