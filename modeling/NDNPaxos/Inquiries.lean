import NDNPaxos.AcceptShards
import NDNPaxos.Bookkeeping
import NDNPaxos.Learning
import NDNPaxos.ProposerRounds
import Mathlib.Tactic

/-!
# Inquiries

In each phase of each ballot a proposer puts a question to a number of nodes.
Every acceptor answers, and the proposer records the answer or has moved on by
then.  Without losses and crashes, each node that was asked has therefore
answered, or the question or the answer is in flight.
-/

namespace NDNPaxos

/-! ## Inquiries -/

/-- What a proposer asks the nodes in one phase of one ballot. -/
structure Inquiry where
  nodeId : ℕ
  slotId : ℕ
  accepting : Bool
  ballotId : ℕ

/-- The packet puts the question to node `j` or brings its answer back. -/
def Packet.Serves (packet : Packet) (inquiry : Inquiry) (j : ℕ) : Prop :=
  match packet.msg with
  | .prepare msg => inquiry.accepting = false ∧ packet.dst = j ∧
      msg.msgHeader = { nodeId := inquiry.nodeId, slotId := inquiry.slotId } ∧
      msg.ballotId = inquiry.ballotId
  | .promise msg => inquiry.accepting = false ∧ packet.dst = inquiry.nodeId ∧
      msg.msgHeader = { nodeId := j, slotId := inquiry.slotId } ∧
      msg.ballotId = inquiry.ballotId
  | .accept msg => inquiry.accepting = true ∧ packet.dst = j ∧
      msg.msgHeader = { nodeId := inquiry.nodeId, slotId := inquiry.slotId } ∧
      msg.ballotId = inquiry.ballotId
  | .accepted msg => inquiry.accepting = true ∧ packet.dst = inquiry.nodeId ∧
      msg.msgHeader = { nodeId := j, slotId := inquiry.slotId } ∧
      msg.ballotId = inquiry.ballotId
  | _ => False

def Asks (outs : List Output) (inquiry : Inquiry) (j : ℕ) : Prop :=
  ∃ packet, .send packet ∈ outs ∧ packet.Serves inquiry j

theorem Asks.append_left {outs : List Output} {inquiry : Inquiry} {j : ℕ}
    (hasks : Asks outs inquiry j) (more : List Output) : Asks (more ++ outs) inquiry j := by
  rcases hasks with ⟨packet, hmem, hserves⟩
  exact ⟨packet, List.mem_append_right _ hmem, hserves⟩

theorem Asks.append_right {outs : List Output} {inquiry : Inquiry} {j : ℕ}
    (hasks : Asks outs inquiry j) (more : List Output) : Asks (outs ++ more) inquiry j := by
  rcases hasks with ⟨packet, hmem, hserves⟩
  exact ⟨packet, List.mem_append_left _ hmem, hserves⟩

namespace ProposerInfo

/-- In Phase I or in Phase II, not at its end. -/
def Running (info : ProposerInfo) : Prop := info.Preparing ∨ info.proposerStatus = .phaseII

def inquiry (info : ProposerInfo) (nodeId slotId : ℕ) : Inquiry where
  nodeId := nodeId
  slotId := slotId
  accepting := info.accepting
  ballotId := info.currProposer.currBallot

/-- The proposer has recorded an answer of node `j` in its phase. -/
def AnsweredBy (info : ProposerInfo) (j : ℕ) : Prop :=
  if info.accepting then (info.currProposer.msgAckAccept[j]?).isSome
  else (info.currProposer.msgAckPrepare[j]?).isSome

theorem accepting_of_phaseII {info : ProposerInfo} (hstatus : info.proposerStatus = .phaseII) :
    info.accepting = true := by
  simp [accepting, hstatus]

theorem AnsweredBy.recordPrepare {info : ProposerInfo} (hpreparing : info.Preparing)
    (msg : MsgAckPrepare) {j : ℕ}
    (hanswered : info.AnsweredBy j ∨ toNodeId msg.msgHeader.nodeId = j) :
    AnsweredBy { info with
      currProposer := info.currProposer.recordPrepare msg, proposerStatus := .phaseI } j := by
  unfold AnsweredBy at hanswered ⊢
  rw [hpreparing.accepting, if_neg (by simp)] at hanswered
  change ((info.currProposer.msgAckPrepare.insert (toNodeId msg.msgHeader.nodeId) msg)[j]?).isSome
  rw [Std.TreeMap.getElem?_insert]
  split
  · rfl
  next hne => exact hanswered.resolve_right fun heq => hne (by simp [heq])

theorem AnsweredBy.recordAccept {info : ProposerInfo} (hstatus : info.proposerStatus = .phaseII)
    (msg : MsgAckAccept) {j : ℕ}
    (hanswered : info.AnsweredBy j ∨ toNodeId msg.msgHeader.nodeId = j) :
    AnsweredBy { info with currProposer := info.currProposer.recordAccept msg } j := by
  have haccepting := accepting_of_phaseII hstatus
  unfold AnsweredBy at hanswered ⊢
  rw [haccepting, if_pos rfl] at hanswered
  change if info.accepting then
    ((info.currProposer.msgAckAccept.insert (toNodeId msg.msgHeader.nodeId) msg)[j]?).isSome
    else _
  rw [haccepting, if_pos rfl, Std.TreeMap.getElem?_insert]
  split
  · rfl
  next hne => exact hanswered.resolve_right fun heq => hne (by simp [heq])

end ProposerInfo

/-- PREPARE and ACCEPT go to so many nodes, the first ones. -/
def Config.contacted (config : Config) : ℕ :=
  if config.mode = .multi ∨ config.mode = .quorum then config.quorumSize else config.size

theorem Config.contacted_le (config : Config) : config.contacted ≤ config.size := by
  unfold contacted
  split
  · exact config.quorumSize_le
  · exact le_rfl

namespace Captain

variable {captain final : Captain} {setting : Setting} {outs : List Output}

theorem broadcastMsg_contacts (hwhoami : captain.whoami < captain.view.nodesSize)
    (msg : Message) (hkind : msg.kind = .proposer) {j : ℕ}
    (hj : j < captain.view.config.contacted) :
    ∃ packet, .send packet ∈ captain.broadcastMsg msg ∧ packet.dst = j ∧ packet.msg = msg := by
  have hrange : broadcastRange captain.view msg = (0, captain.view.config.contacted) := by
    unfold broadcastRange Config.contacted View.mode
    cases msg with
    | teach msg => simp [Message.kind] at hkind
    | _ => split <;> rfl
  have hle : captain.view.config.contacted ≤ captain.view.nodesSize :=
    captain.view.config.contacted_le
  exact broadcastMsg_covers msg (by omega) hrange (Nat.zero_le j) hj

def AsksAll (captain : Captain) (outs : List Output) (inquiry : Inquiry) : Prop :=
  ∀ j < captain.view.config.contacted, Asks outs inquiry j

section Asking

variable (hwhoami : captain.whoami < captain.view.nodesSize) {slot : ℕ} {info : ProposerInfo}

include hwhoami

theorem openSlot_asks (value : PropValue) (name : Name) (tryTime : ℕ) (skipPhaseI : Bool) :
    captain.AsksAll (captain.openSlot value name tryTime skipPhaseI).2
      ((captain.newProposer value name tryTime skipPhaseI).inquiry captain.whoami
        (captain.maxSlot + 1)) := by
  intro j hj
  have hkind : (captain.openingMsg value skipPhaseI).kind = .proposer := by
    cases skipPhaseI <;> rfl
  rcases broadcastMsg_contacts hwhoami _ hkind hj with ⟨packet, hmem, hdst, hmsg⟩
  rw [openSlot_eq]
  refine ⟨packet, List.mem_cons_of_mem _ hmem, ?_⟩
  rw [Packet.Serves, hmsg]
  cases skipPhaseI <;>
    simp [openingMsg, ProposerInfo.inquiry, ProposerInfo.accepting, hdst]

theorem restart_asks :
    ∃ info', (captain.restart slot info).1 = captain.setProposer slot info' ∧
      info.currProposer.currBallot < info'.currProposer.currBallot ∧
      captain.AsksAll (captain.restart slot info).2 (info'.inquiry captain.whoami slot) := by
  rw [restart_eq]
  refine ⟨_, rfl, currBallot_lt_genNextBallot _ _, ?_⟩
  intro j hj
  rcases broadcastMsg_contacts hwhoami (.prepare _) rfl hj with
    ⟨packet, hmem, hdst, hmsg⟩
  refine ⟨packet, hmem, ?_⟩
  rw [Packet.Serves, hmsg]
  exact ⟨rfl, hdst, rfl, rfl⟩

theorem enterPhaseII_asks {value : PropValue} (hvalue : info.currProposer.currValue = some value)
    (henter : captain.enterPhaseII slot info = some (final, outs)) :
    ∃ info', final = captain.setProposer slot info' ∧ info'.accepting = true ∧
      captain.AsksAll outs (info'.inquiry captain.whoami slot) := by
  have hspec := enterPhaseII_spec hvalue henter
  rcases hspec.1 with ⟨rsValues, rsEncoder, hfinal⟩
  refine ⟨_, hfinal, rfl, ?_⟩
  intro j hj
  have hserves : ∀ packet, .send packet ∈ outs → packet.dst = j → packet.Serves
      { nodeId := captain.whoami, slotId := slot, accepting := true,
        ballotId := info.currProposer.currBallot } j := by
    intro packet hmem hdst
    rcases hspec.2 _ hmem with ⟨sent, msg, heq, hmsg, hheader, hballot, _⟩
    rw [Output.send.injEq] at heq
    rw [Packet.Serves, heq, hmsg]
    exact ⟨rfl, heq ▸ hdst, hheader, hballot⟩
  suffices hsent : ∃ packet, .send packet ∈ outs ∧ packet.dst = j by
    rcases hsent with ⟨packet, hmem, hdst⟩
    exact ⟨packet, hmem, hserves packet hmem hdst⟩
  unfold enterPhaseII at henter
  split at henter
  next hmode =>
    simp only [Option.bind_eq_bind, Option.bind_eq_some_iff, Prod.exists, pure,
      Option.some.injEq, Prod.mk.injEq] at henter
    rcases henter with ⟨msgs, proposer, haccept, _, rfl⟩
    have hlength := (Proposer.rsMsgAccept_cache haccept).2.1
    have hlt : j < msgs.length := by
      rw [hlength]
      exact hj.trans_le captain.view.config.contacted_le
    have hmem : (msgs[j], j) ∈ msgs.zipIdx := by
      rw [List.mk_mem_zipIdx_iff_getElem?, List.getElem?_eq_getElem hlt]
    exact ⟨_, List.mem_map_of_mem hmem, rfl⟩
  next =>
    rw [Option.some.injEq, Prod.mk.injEq] at henter
    rcases henter with ⟨_, rfl⟩
    rcases broadcastMsg_contacts hwhoami (.accept _) rfl hj with
      ⟨packet, hmem, hdst, _⟩
    exact ⟨packet, hmem, hdst⟩

end Asking

/-! ## What moves do to an inquiry -/

/-- A proposer goes on with its inquiry and its answers, or puts a new one to the nodes. -/
inductive InquiryStep (captain : Captain) (outs : List Output) (slot : ℕ)
    (info' : ProposerInfo) : Prop where
  | kept {info : ProposerInfo} (hinfo : captain.proposers[slot]? = some info)
      (hrunning : info.Running)
      (hsame : info'.inquiry captain.whoami slot = info.inquiry captain.whoami slot)
      (hgrow : ∀ j, info.AnsweredBy j → info'.AnsweredBy j) :
      InquiryStep captain outs slot info'
  | asked (hasks : captain.AsksAll outs (info'.inquiry captain.whoami slot)) :
      InquiryStep captain outs slot info'

theorem InquiryStep.unchanged {slot : ℕ} {info : ProposerInfo}
    (hinfo : captain.proposers[slot]? = some info) (hrunning : info.Running) :
    InquiryStep captain outs slot info :=
  .kept hinfo hrunning rfl fun _ hanswered => hanswered

theorem ProposerMove.inquiryStep (hwhoami : captain.whoami < captain.view.nodesSize)
    (hmove : ProposerMove setting captain outs final) {slot : ℕ} {info' : ProposerInfo}
    (hinfo' : final.proposers[slot]? = some info') (hrunning : info'.Running) :
    InquiryStep captain outs slot info' := by
  have hinsert : ∀ {key : ℕ} {new : ProposerInfo}, final = captain.setProposer key new →
      (slot = key → info' = new → InquiryStep captain outs slot info') →
        InquiryStep captain outs slot info' := by
    intro key new hfinal hnew
    rw [hfinal] at hinfo'
    rcases OrderedMap.insert_cases hinfo' with ⟨hslot, heq⟩ | ⟨_, hold⟩
    · exact hnew hslot heq
    · exact .unchanged hold hrunning
  cases hmove with
  | @promised msg info ack proposer hmsg hinfo hpreparing hack hstays =>
      refine hinsert rfl ?_
      rintro rfl rfl
      cases Proposer.handleMsgPromise_step hack with
      | drops hold =>
          refine .kept hinfo (.inl hpreparing) ?_ ?_
          · rw [ProposerInfo.inquiry, ProposerInfo.inquiry, hpreparing.accepting]
            rfl
          · intro j hanswered
            rw [ProposerInfo.AnsweredBy, hpreparing.accepting] at hanswered
            exact hanswered
      | waits hballot hvalue hfew =>
          refine .kept hinfo (.inl hpreparing) ?_ ?_
          · rw [ProposerInfo.inquiry, ProposerInfo.inquiry, hpreparing.accepting]
            rfl
          · exact fun j hanswered =>
              ProposerInfo.AnsweredBy.recordPrepare hpreparing msg (.inl hanswered)
      | restarts hballot hvalue => exact absurd rfl hstays.2
      | continues hballot hvalue htrue hafter => exact absurd rfl hstays.1
  | @promiseRestart msg info proposer hmsg hinfo hpreparing hack =>
      rcases restart_asks hwhoami with ⟨new, hnew, _, hasks⟩
      refine hinsert hnew ?_
      rintro rfl rfl
      exact .asked hasks
  | @continued msg info proposer outs final hmsg hinfo hpreparing hack henter =>
      cases Proposer.handleMsgPromise_step hack with
      | @continues value _ hballot hnone htrue hafter =>
          have hcurr : { info with currProposer := proposer }.currProposer.currValue =
            some value := hafter.currValue
          rcases enterPhaseII_asks hwhoami hcurr henter with ⟨new, hnew, _, hasks⟩
          refine hinsert hnew ?_
          rintro rfl rfl
          exact .asked hasks
  | @acked msg info ack proposer hmsg hinfo hstatus hack hstays =>
      refine hinsert rfl ?_
      rintro rfl rfl
      cases Proposer.handleMsgAccepted_step hack with
      | drops hold => exact .kept hinfo (.inr hstatus) rfl fun j hanswered => hanswered
      | waits hballot hvalue =>
          exact .kept hinfo (.inr hstatus) rfl fun j hanswered =>
            ProposerInfo.AnsweredBy.recordAccept hstatus msg (.inl hanswered)
      | restarts hballot hvalue => simp at hstays
      | chooses hballot hvalue htrue => simp at hstays
  | @ackRestart msg info proposer hmsg hinfo hstatus hack =>
      rcases restart_asks hwhoami with ⟨new, hnew, _, hasks⟩
      refine hinsert hnew ?_
      rintro rfl rfl
      exact .asked hasks
  | chosen hmsg hinfo hstatus hack =>
      refine hinsert rfl ?_
      rintro rfl rfl
      simp [ProposerInfo.Running, ProposerInfo.Preparing] at hrunning

theorem SlotMove.inquiryStep (hkept : captain.WellKept)
    (hwhoami : captain.whoami < captain.view.nodesSize)
    (hmove : SlotMove setting captain outs final) {slot : ℕ} {info' : ProposerInfo}
    (hinfo' : final.proposers[slot]? = some info') (hrunning : info'.Running) :
    InquiryStep captain outs slot info' := by
  rcases hmove.proposer_cases hkept.shape with hproposer |
    ⟨value, name, tryTime, skipPhaseI, _, rfl, rfl⟩ | ⟨⟨closed, rfl⟩, _⟩ | ⟨hproposers, _, _⟩
  · exact hproposer.inquiryStep hwhoami hinfo' hrunning
  · have hasks := openSlot_asks hwhoami value name tryTime skipPhaseI
    rw [openSlot_eq] at hinfo'
    rcases OrderedMap.insert_cases hinfo' with ⟨rfl, rfl⟩ | ⟨_, hold⟩
    · exact .asked hasks
    · exact .unchanged hold hrunning
  · exact .unchanged (OrderedMap.of_erase hinfo') hrunning
  · rw [hproposers] at hinfo'
    exact .unchanged hinfo' hrunning

theorem inquiryStep_of_chain (hkept : captain.WellKept)
    (hwhoami : captain.whoami < captain.view.nodesSize)
    (hchain : OutputChain (SlotMove setting) captain outs final) {slot : ℕ} {info' : ProposerInfo}
    (hinfo' : final.proposers[slot]? = some info') (hrunning : info'.Running) :
    InquiryStep captain outs slot info' := by
  induction hchain with
  | nil captain => exact .unchanged hinfo' hrunning
  | @cons captain next final outs outs' hmove hrest ih =>
      have hsame := hmove.sameNode hkept.shape
      have hconfig : next.view.config = captain.view.config := hsame.config
      have hnode : next.whoami = captain.whoami := hsame.nodeId
      have hsize : next.view.nodesSize = captain.view.nodesSize := congrArg Config.size hconfig
      cases ih (hmove.wellKept hkept) (by rwa [hnode, hsize]) hinfo' with
      | asked hasks =>
          rw [AsksAll, hconfig, hnode] at hasks
          exact .asked fun j hj => (hasks j hj).append_left outs
      | @kept info hinfo hlive hsameInquiry hgrow =>
          rw [hnode] at hsameInquiry
          cases hmove.inquiryStep hkept hwhoami hinfo hlive with
          | asked hasks =>
              rw [← hsameInquiry] at hasks
              exact .asked fun j hj => (hasks j hj).append_right outs'
          | kept hold hrunning' hsame' hgrow' =>
              exact .kept hold hrunning' (hsameInquiry.trans hsame') fun j hanswered =>
                hgrow j (hgrow' j hanswered)

/-! ## Questions are answered and answers recorded -/

theorem answer_reaches (captain : Captain) {nodeId : ℕ} (hnode : nodeId < 2 ^ 16)
    (msg : Message) :
    ∃ packet, .send packet ∈ captain.answer nodeId msg ∧ packet.dst = nodeId ∧
      packet.msg = msg := by
  unfold answer sendData
  split
  next hself => exact ⟨_, List.mem_singleton_self _, hself.symm, rfl⟩
  next => exact ⟨_, List.mem_singleton_self _, toNodeId_of_lt hnode, rfl⟩

/-- An acceptor answers every question, be it with a refusal. -/
theorem handleMsg_question {packet : Packet} {inquiry : Inquiry} {j : ℕ} {dataName : Name}
    {app : AppCalls} (hwork : captain.work = true) (hdst : packet.dst = captain.whoami)
    (hnode : inquiry.nodeId < 2 ^ 16) (hserves : packet.Serves inquiry j)
    (hkind : packet.msg.kind = .proposer)
    (hhandle : captain.handleMsg packet.msg dataName app = some (final, outs)) :
    Asks outs inquiry j := by
  simp only [handleMsg, hwork, Bool.true_eq_false, if_false] at hhandle
  rw [Packet.Serves] at hserves
  cases hmsg : packet.msg with
  | prepare msg =>
      simp only [hmsg] at hhandle hserves
      rcases hserves with ⟨hphase, rfl, hheader, hballot⟩
      cases @handlePrepare_move { received := fun sent => sent = .prepare msg } _ _ _ _ rfl
        hhandle with
      | @prepare msg' acceptors hreceived hupdate =>
          have heq : msg' = msg := Message.prepare.inj hreceived
          subst heq
          rcases captain.answer_reaches
            (show msg'.msgHeader.nodeId < 2 ^ 16 by rwa [hheader])
            (.promise (captain.prepareAnswer msg')) with
            ⟨reply, hmem, hreply, hpromise⟩
          refine ⟨reply, hmem, ?_⟩
          rw [Packet.Serves, hpromise]
          refine ⟨hphase, by rw [hreply, hheader], ?_, ?_⟩
          · rw [prepareAnswer_msgHeader, hheader, hdst]
          · rw [prepareAnswer_ballotId, hballot]
      | accept hreceived hupdate => exact Message.noConfusion hreceived
  | accept msg =>
      simp only [hmsg] at hhandle hserves
      rcases hserves with ⟨hphase, rfl, hheader, hballot⟩
      cases @handleAccept_move { received := fun sent => sent = .accept msg } _ _ _ _ rfl
        hhandle with
      | @accept msg' acceptors hreceived hupdate =>
          have heq : msg' = msg := Message.accept.inj hreceived
          subst heq
          rcases captain.answer_reaches
            (show msg'.msgHeader.nodeId < 2 ^ 16 by rwa [hheader])
            (.accepted (captain.acceptAnswer msg')) with
            ⟨reply, hmem, hreply, haccepted⟩
          refine ⟨reply, List.mem_append_right _ hmem, ?_⟩
          rw [Packet.Serves, haccepted]
          refine ⟨hphase, by rw [hreply, hheader], ?_, ?_⟩
          · rw [acceptAnswer_msgHeader, hheader, hdst]
          · rw [acceptAnswer_ballotId, hballot]
      | prepare hreceived hupdate => exact Message.noConfusion hreceived
  | _ => simp [hmsg, Message.kind] at hkind

/-- The proposer waits for answers to the inquiry. -/
structure Inquires (captain : Captain) (inquiry : Inquiry) (info : ProposerInfo) : Prop where
  found : captain.proposers[inquiry.slotId]? = some info
  running : info.Running
  same : info.inquiry inquiry.nodeId inquiry.slotId = inquiry

theorem Inquires.preparing {inquiry : Inquiry} {info : ProposerInfo}
    (hinquires : captain.Inquires inquiry info) (hphase : inquiry.accepting = false) :
    info.Preparing := by
  have haccepting : info.accepting = false := by
    rw [← hphase, ← hinquires.same]
    rfl
  refine hinquires.running.resolve_right fun hstatus => ?_
  rw [ProposerInfo.accepting_of_phaseII hstatus] at haccepting
  simp at haccepting

theorem Inquires.phaseII {inquiry : Inquiry} {info : ProposerInfo}
    (hinquires : captain.Inquires inquiry info) (hphase : inquiry.accepting = true) :
    info.proposerStatus = .phaseII := by
  have haccepting : info.accepting = true := by
    rw [← hphase, ← hinquires.same]
    rfl
  simpa [ProposerInfo.accepting] using haccepting

/-- With CHOOSE the slot of the proposer is done. -/
theorem ended_of_choose {msg : MsgAckAccept} {info : ProposerInfo} {proposer : Proposer}
    (hkept : captain.WellKept) (hinfo : captain.proposers[msg.msgHeader.slotId]? = some info)
    (hstatus : info.proposerStatus = .phaseII)
    (hack : info.currProposer.handleMsgAccepted msg = (.choose, proposer)) :
    (captain.setProposer msg.msgHeader.slotId
      { info with currProposer := proposer, proposerStatus := .chosen }).Retired
        msg.msgHeader.slotId ∧
    (captain.setProposer msg.msgHeader.slotId
      { info with currProposer := proposer, proposerStatus := .chosen }).WellKept := by
  constructor
  · exact ⟨(hkept.keys _ _ hinfo).2, by simp [setProposer]⟩
  · have hmove : SlotMove {} captain [] _ := .base (.proposer (.chosen trivial hinfo hstatus hack))
    exact hmove.wellKept hkept

section Answers

variable {received : Message → Prop} {log : List Output} {inquiry : Inquiry} {j : ℕ}
  {info info' : ProposerInfo} (hwhoami : captain.whoami < captain.view.nodesSize)
  (hnode : j < 2 ^ 16) (hinquires : captain.Inquires inquiry info)
  (hlive : LiveProposer received captain.view log inquiry.slotId info)
  (hafter : final.Inquires inquiry info')

include hwhoami hnode hinquires hlive hafter

/-- A proposer that stays in its inquiry has recorded the answer. -/
theorem handlePromise_answer {msg : MsgAckPrepare} (hphase : inquiry.accepting = false)
    (hheader : msg.msgHeader = { nodeId := j, slotId := inquiry.slotId })
    (hballot : msg.ballotId = inquiry.ballotId)
    (hhandle : captain.handlePromise msg = some (final, outs)) : info'.AnsweredBy j := by
  have hslot : msg.msgHeader.slotId = inquiry.slotId := by rw [hheader]
  have hfound : captain.proposers[msg.msgHeader.slotId]? = some info := hslot ▸ hinquires.found
  have hpreparing := hinquires.preparing hphase
  have hcurrent : info.currProposer.currBallot = inquiry.ballotId :=
    congrArg Inquiry.ballotId hinquires.same
  have hnow : ∀ {key : ℕ} {new : ProposerInfo}, key = inquiry.slotId →
      final = captain.setProposer key new → info' = new := by
    rintro key new rfl rfl
    simpa [setProposer, eq_comm] using hafter.found
  rcases @handlePromise_move { received := fun sent => sent = .promise msg } _ _ _ _ rfl hhandle
    with hmove | ⟨_, _, hignores⟩
  · cases hmove with
    | @promised msg' found ack proposer hreceived hinfo hstatus hack hstays =>
        have heq : msg' = msg := Message.promise.inj hreceived
        subst heq
        have hfoundEq : found = info := Option.some.inj (hinfo.symm.trans hfound)
        subst hfoundEq
        rw [hnow hslot rfl]
        cases Proposer.handleMsgPromise_step hack with
        | drops hold => simp [hcurrent, hballot, (hlive.preparing hpreparing).1] at hold
        | waits hballot' hvalue hfew =>
            refine ProposerInfo.AnsweredBy.recordPrepare hpreparing msg' (.inr ?_)
            rw [hheader, toNodeId_of_lt hnode]
        | restarts hballot' hvalue => exact absurd rfl hstays.2
        | continues hballot' hvalue htrue hcontinues => exact absurd rfl hstays.1
    | @promiseRestart msg' found proposer hreceived hinfo hstatus hack =>
        have heq : msg' = msg := Message.promise.inj hreceived
        subst heq
        have hfoundEq : found = info := Option.some.inj (hinfo.symm.trans hfound)
        subst hfoundEq
        rcases restart_asks hwhoami with ⟨new, hnew, hlater, _⟩
        have hballot' := congrArg Inquiry.ballotId hafter.same
        rw [hnow hslot hnew] at hballot'
        cases Proposer.handleMsgPromise_step hack with
        | restarts hold hvalue => exact absurd (hballot'.trans hcurrent.symm) hlater.ne'
    | @continued msg' found proposer outs final hreceived hinfo hstatus hack henter =>
        have heq : msg' = msg := Message.promise.inj hreceived
        subst heq
        cases Proposer.handleMsgPromise_step hack with
        | @continues value _ hold hnone htrue hcontinues =>
            have hcurr : { found with currProposer := proposer }.currProposer.currValue =
              some value := hcontinues.currValue
            rcases enterPhaseII_asks hwhoami hcurr henter with ⟨new, hnew, haccepting, _⟩
            have hphase' := congrArg Inquiry.accepting hafter.same
            rw [hnow hslot hnew] at hphase'
            exact absurd (haccepting.symm.trans (hphase'.trans hphase)) (by simp)
    | acked hreceived => exact Message.noConfusion hreceived
    | ackRestart hreceived => exact Message.noConfusion hreceived
    | chosen hreceived => exact Message.noConfusion hreceived
  · exact absurd hpreparing (hignores info hfound)

theorem handleAccepted_answer {msg : MsgAckAccept} {dataName : Name} {app : AppCalls}
    (hkept : captain.WellKept) (hphase : inquiry.accepting = true)
    (hheader : msg.msgHeader = { nodeId := j, slotId := inquiry.slotId })
    (hballot : msg.ballotId = inquiry.ballotId)
    (hhandle : captain.handleAccepted msg dataName app = some (final, outs)) :
    info'.AnsweredBy j := by
  have hrunning := hafter.running
  have hslot : msg.msgHeader.slotId = inquiry.slotId := by rw [hheader]
  have hfound : captain.proposers[msg.msgHeader.slotId]? = some info := hslot ▸ hinquires.found
  have hstatus := hinquires.phaseII hphase
  have hcurrent : info.currProposer.currBallot = inquiry.ballotId :=
    congrArg Inquiry.ballotId hinquires.same
  have hnow : ∀ {key : ℕ} {new : ProposerInfo}, key = inquiry.slotId →
      final = captain.setProposer key new → info' = new := by
    rintro key new rfl rfl
    simpa [setProposer, eq_comm] using hafter.found
  have hretired : ¬ final.Retired inquiry.slotId := by
    intro hretired
    have hchosen := hretired.2 info' hafter.found
    simp [ProposerInfo.Running, ProposerInfo.Preparing, hchosen] at hrunning
  rcases @handleAccepted_move { received := fun sent => sent = .accepted msg } _ _ _ _ _ _ rfl
    hhandle with hmove | ⟨found, proposer, chosen, hinfo, hfoundStatus, hack, hvalue, hchoose⟩ |
      ⟨_, _, hignores⟩
  · cases hmove with
    | @acked msg' found ack proposer hreceived hinfo hfoundStatus hack hstays =>
        have heq : msg' = msg := Message.accepted.inj hreceived
        subst heq
        have hfoundEq : found = info := Option.some.inj (hinfo.symm.trans hfound)
        subst hfoundEq
        rw [hnow hslot rfl]
        cases Proposer.handleMsgAccepted_step hack with
        | drops hold =>
            rcases hlive.accepting (.inl hstatus) with ⟨value, hvalue, _⟩
            simp [hcurrent, hballot, hvalue] at hold
        | waits hballot' hvalue =>
            refine ProposerInfo.AnsweredBy.recordAccept hstatus msg' (.inr ?_)
            rw [hheader, toNodeId_of_lt hnode]
        | restarts hballot' hvalue => simp at hstays
        | chooses hballot' hvalue htrue => simp at hstays
    | @ackRestart msg' found proposer hreceived hinfo hfoundStatus hack =>
        have heq : msg' = msg := Message.accepted.inj hreceived
        subst heq
        have hfoundEq : found = info := Option.some.inj (hinfo.symm.trans hfound)
        subst hfoundEq
        rcases restart_asks hwhoami with ⟨new, hnew, hlater, _⟩
        have hballot' := congrArg Inquiry.ballotId hafter.same
        rw [hnow hslot hnew] at hballot'
        cases Proposer.handleMsgAccepted_step hack with
        | restarts hold hvalue => exact absurd (hballot'.trans hcurrent.symm) hlater.ne'
    | @chosen msg' found proposer hreceived hinfo hfoundStatus hack =>
        have heq : msg' = msg := Message.accepted.inj hreceived
        subst heq
        rw [hnow hslot rfl] at hrunning
        simp [ProposerInfo.Running, ProposerInfo.Preparing] at hrunning
    | promised hreceived => exact Message.noConfusion hreceived
    | promiseRestart hreceived => exact Message.noConfusion hreceived
    | continued hreceived => exact Message.noConfusion hreceived
  · rcases ended_of_choose hkept hinfo hfoundStatus hack with ⟨hended, hkept₁⟩
    have hchain : OutputChain (Move (quietSetting dataName)) _ outs final :=
      choose_moves hkept.shape (hkept.keys _ _ hinfo).2 hvalue trivial (fun _ _ => trivial) hchoose
    have hslots := hchain.bind fun _ _ _ hmove => hmove.slotMoves
    exact absurd (hslot ▸ hended.chain hkept₁ hslots) hretired
  · exact absurd hstatus (hignores info hfound)

/-- The answer that serves an inquiry is recorded, or the proposer goes on. -/
theorem handleMsg_answer {packet : Packet} {dataName : Name} {app : AppCalls}
    (hkept : captain.WellKept) (hwork : captain.work = true) (hserves : packet.Serves inquiry j)
    (hkind : packet.msg.kind = .acceptor)
    (hhandle : captain.handleMsg packet.msg dataName app = some (final, outs)) :
    info'.AnsweredBy j := by
  simp only [handleMsg, hwork, Bool.true_eq_false, if_false] at hhandle
  rw [Packet.Serves] at hserves
  cases hmsg : packet.msg with
  | promise msg =>
      simp only [hmsg] at hhandle hserves
      rcases hserves with ⟨hphase, _, hheader, hballot⟩
      exact handlePromise_answer hwhoami hnode hinquires hlive hafter hphase hheader hballot hhandle
  | accepted msg =>
      simp only [hmsg] at hhandle hserves
      rcases hserves with ⟨hphase, _, hheader, hballot⟩
      exact handleAccepted_answer hwhoami hnode hinquires hlive hafter hkept hphase hheader hballot
        hhandle
  | _ => simp [hmsg, Message.kind] at hkind

end Answers

end Captain

/-! ## Running proposers are served -/

theorem Packet.Serves.cases {packet : Packet} {inquiry : Inquiry} {j : ℕ}
    (hserves : packet.Serves inquiry j) :
    packet.msg.kind = .proposer ∨
      packet.msg.kind = .acceptor ∧ packet.dst = inquiry.nodeId := by
  rw [Packet.Serves] at hserves
  cases hmsg : packet.msg with
  | prepare msg => exact .inl rfl
  | accept msg => exact .inl rfl
  | promise msg =>
      simp only [hmsg] at hserves
      exact .inr ⟨rfl, hserves.2.1⟩
  | accepted msg =>
      simp only [hmsg] at hserves
      exact .inr ⟨rfl, hserves.2.1⟩
  | _ => simp [hmsg] at hserves

/-- Each node that a running proposer has asked has answered, or a packet in flight
asks it or brings its answer. -/
def Awaited (config : Config) (cluster : Cluster) : Prop :=
  ∀ i < config.size, ∀ (slot : ℕ) info, (cluster.nodes i).captain.proposers[slot]? = some info →
    info.Running → ∀ j < config.contacted,
      info.AnsweredBy j ∨ ∃ packet ∈ cluster.net, packet.Serves (info.inquiry i slot) j

theorem Awaited.act {config : Config} {cluster : Cluster} (hawaited : Awaited config cluster)
    {i : ℕ} {net : List Packet} {final : Captain} {outs : List Output}
    (hconfig : (cluster.nodes i).captain.view.config = config)
    (hwhoami : (cluster.nodes i).captain.whoami = i)
    (hsteps : ∀ (slot : ℕ) info, final.proposers[slot]? = some info → info.Running →
      Captain.InquiryStep (cluster.nodes i).captain outs slot info)
    (hused : ∀ packet ∈ cluster.net, packet ∈ net ∨
      ∀ inquiry, inquiry.nodeId < config.size → ∀ j < config.contacted,
        packet.Serves inquiry j → Asks outs inquiry j ∨ inquiry.nodeId = i ∧ ∀ info info',
          (cluster.nodes i).captain.Inquires inquiry info → final.Inquires inquiry info' →
            info'.AnsweredBy j) :
    Awaited config (cluster.act i net (final, outs)) := by
  have hasked : ∀ {inquiry : Inquiry} {j : ℕ}, Asks outs inquiry j →
      ∃ packet ∈ (cluster.act i net (final, outs)).net, packet.Serves inquiry j := by
    rintro inquiry j ⟨packet, hmem, hserves⟩
    exact ⟨packet, List.mem_append_right _ (mem_packetsOf.mpr hmem), hserves⟩
  intro k hk slot info' hinfo' hrunning' j hj
  by_cases hself : k = i
  · subst hself
    simp only [Cluster.act, Function.update_self, Node.after] at hinfo'
    have hstep := hsteps slot info' hinfo' hrunning'
    cases hstep with
    | asked hasks =>
        rw [Captain.AsksAll, hconfig, hwhoami] at hasks
        exact .inr (hasked (hasks j hj))
    | @kept info hinfo hrunning hsame hgrow =>
        rw [hwhoami] at hsame
        rw [hsame]
        rcases hawaited k hk slot info hinfo hrunning j hj with
          hanswered | ⟨packet, hpacket, hserves⟩
        · exact .inl (hgrow j hanswered)
        rcases hused packet hpacket with hkept | hhandled
        · exact .inr ⟨packet, List.mem_append_left _ hkept, hserves⟩
        rcases hhandled _ hk j hj hserves with hasks | ⟨_, hrecorded⟩
        · exact .inr (hasked hasks)
        · exact .inl (hrecorded info info' ⟨hinfo, hrunning, rfl⟩ ⟨hinfo', hrunning', hsame⟩)
  · simp only [Cluster.act, Function.update_of_ne hself] at hinfo'
    rcases hawaited k hk slot info' hinfo' hrunning' j hj with
      hanswered | ⟨packet, hpacket, hserves⟩
    · exact .inl hanswered
    rcases hused packet hpacket with hkept | hhandled
    · exact .inr ⟨packet, List.mem_append_left _ hkept, hserves⟩
    rcases hhandled _ hk j hj hserves with hasks | ⟨howner, _⟩
    · exact .inr (hasked hasks)
    · exact absurd howner hself

/-- What holds of all nodes in every run without crashes. -/
structure Attentive (size : ℕ) (nodes : ℕ → Node) : Prop where
  histories : Histories size nodes
  work : ∀ i < size, (nodes i).captain.work = true

theorem attentive_initial (deployment : Deployment) :
    Attentive deployment.config.size deployment.node where
  histories := histories_initial deployment
  work := fun _ _ => rfl

theorem attentive_preserved {deployment : Deployment} :
    PreservedBySlotMoves deployment .noCrash (Attentive deployment.config.size) := by
  intro nodes i setting outs final hi hkeeps hallows hattentive hmove
  constructor
  · exact histories_preserved deployment _ nodes i setting outs final hi hkeeps hallows
      hattentive.histories hmove
  · refine forall_actOn (fun _ captain _ => captain.work = true) hattentive.work ?_
    have hcalls : ¬ setting.calls .crash := fun hcall => hallows.calls _ hcall rfl
    exact (hmove.work hcalls (hkeeps.wellKept i hi).shape).trans (hattentive.work i hi)

theorem awaited_step {deployment : Deployment} {cluster next : Cluster} {action : Action}
    (hlossless : ∀ index, action ≠ .lose index)
    (hreaches : Reaches deployment (Attentive deployment.config.size) cluster)
    (hawaited : Awaited deployment.config cluster)
    (hstep : cluster.step deployment action = some next) : Awaited deployment.config next := by
  rcases hreaches with ⟨hkeeps, hsent, hattentive⟩
  have hsteps : ∀ {i : ℕ}, i < deployment.config.size → ∀ {setting : Captain.Setting}
      {outs : List Output} {final : Captain},
      OutputChain (Captain.Move setting) (cluster.nodes i).captain outs final →
      ∀ (slot : ℕ) info, final.proposers[slot]? = some info → info.Running →
        Captain.InquiryStep (cluster.nodes i).captain outs slot info := by
    intro i hi setting outs final hchain slot info hinfo hrunning
    have hslots := hchain.bind fun _ _ _ hmove => hmove.slotMoves
    have hsize : (cluster.nodes i).captain.view.nodesSize = deployment.config.size :=
      congrArg Config.size (hkeeps.config i hi)
    exact Captain.inquiryStep_of_chain (hkeeps.wellKept i hi)
      (by rwa [hkeeps.whoami hi, hsize]) hslots hinfo hrunning
  cases action with
  | call i call =>
      rcases Cluster.step_call hstep with ⟨hi, final, outs, hcall, rfl⟩
      have hchain : OutputChain (Captain.Move {}) _ outs final :=
        Captain.call_moves trivial hcall
      exact hawaited.act (hkeeps.config i hi) (hkeeps.whoami hi) (hsteps hi hchain)
        fun packet hmem => .inl hmem
  | deliver index dataName app =>
      rcases Cluster.step_deliver hstep with ⟨packet, hpacket, hi, final, outs, hhandle, rfl⟩
      let setting : Captain.Setting :=
        { dataName := Cluster.arrivalName (cluster.nodes packet.dst).captain packet dataName }
      have hkept := hkeeps.wellKept packet.dst hi
      have hwhoami := hkeeps.whoami hi
      have hchain : OutputChain (Captain.Move setting) _ outs final :=
        Captain.handleMsg_moves hkept trivial (fun _ _ _ => trivial) (fun _ _ => trivial) hhandle
      refine hawaited.act (hkeeps.config _ hi) hwhoami (hsteps hi hchain) ?_
      intro other hmem
      rcases eq_or_mem_eraseIdx hmem hpacket with rfl | hrest
      · right
        intro inquiry hnode j hj hserves
        have hsize := deployment.config.size_le
        have hcontacted := deployment.config.contacted_le
        have hwork := hattentive.work other.dst hi
        rcases hserves.cases with hquestion | ⟨hanswer, howner⟩
        · exact .inl (Captain.handleMsg_question hwork hwhoami.symm (by omega) hserves hquestion
            hhandle)
        · refine .inr ⟨howner.symm, fun info info' hinquires hafter => ?_⟩
          have hlive := (hattentive.histories.proposers other.dst hi).live _ info hinquires.found
          refine Captain.handleMsg_answer ?_ (by omega) hinquires hlive hafter hkept hwork hserves
            hanswer hhandle
          rw [hwhoami]
          exact hi.trans_eq (congrArg Config.size (hkeeps.config _ hi)).symm
      · exact .inl hrest
  | lose index => exact absurd rfl (hlossless index)
  | duplicate index =>
      rcases Cluster.step_duplicate hstep with ⟨packet, _, rfl⟩
      intro i hi slot info hinfo hrunning j hj
      rcases hawaited i hi slot info hinfo hrunning j hj with
        hanswered | ⟨other, hother, hserves⟩
      · exact .inl hanswered
      · exact .inr ⟨other, List.mem_append_left _ hother, hserves⟩

end NDNPaxos
