import NDNPaxos.ClusterMoves
import Mathlib.Tactic

/-!
# What an acceptor has promised and accepted

The log of a node shows every value its acceptors have accepted and every
answer they gave.  The state of an acceptor summarises this history: it
remembers the highest ballot and a value accepted in it, and its promises hold
for good.
-/

namespace NDNPaxos

def Voted (log : List Output) (slot ballot id : ℕ) : Prop :=
  ∃ value : PropValue, .note (.accepted slot ballot value) ∈ log ∧ value.id = id

theorem voted_append {log outs : List Output} {slot ballot id : ℕ} :
    Voted (log ++ outs) slot ballot id ↔
      Voted log slot ballot id ∨ Voted outs slot ballot id := by
  simp only [Voted, List.mem_append, or_and_right, exists_or]

namespace Captain

theorem sends_broadcastMsg {captain : Captain} {msg msg' : Message} {dst : ℕ}
    (hsends : Sends (captain.broadcastMsg msg) dst msg') : msg' = msg := by
  rcases hsends with ⟨packet, hmem, _, rfl⟩
  rcases mem_broadcastMsg hmem with ⟨packet', heq, hmsg⟩
  rw [Output.send.injEq] at heq
  rw [heq, hmsg]

theorem sends_answer {captain : Captain} {nodeId : ℕ} {msg msg' : Message} {dst : ℕ}
    (hwhoami : captain.whoami < 2 ^ 16) (hsends : Sends (captain.answer nodeId msg) dst msg') :
    msg' = msg ∧ toNodeId nodeId = dst := by
  rcases hsends with ⟨packet, hmem, rfl, rfl⟩
  unfold answer sendData at hmem
  split at hmem
  next hself =>
    rw [List.mem_singleton, Output.send.injEq] at hmem
    subst hmem
    exact ⟨rfl, by rw [hself, toNodeId_of_lt hwhoami]⟩
  next =>
    rw [List.mem_singleton, Output.send.injEq] at hmem
    subst hmem
    exact ⟨rfl, rfl⟩

/-! ## Promises only rise and votes respect them -/

structure Advances (before : Captain) (outs : List Output) (after : Captain) : Prop where
  promised : ∀ slot, (before.acceptorOf slot).maxProposedBallot ≤
    (after.acceptorOf slot).maxProposedBallot
  late : ∀ slot ballot id, Voted outs slot ballot id →
    (before.acceptorOf slot).maxProposedBallot ≤ ballot

theorem voted_acceptAnswer {captain : Captain} {msg : MsgAccept} {slot ballot id : ℕ}
    (hvoted : Voted ((if (captain.acceptAnswer msg).reply then
        [.note (.accepted msg.msgHeader.slotId msg.ballotId msg.propValue)] else []) ++
      captain.answer msg.msgHeader.nodeId (.accepted (captain.acceptAnswer msg)))
      slot ballot id) :
    (captain.acceptAnswer msg).reply = true ∧ slot = msg.msgHeader.slotId ∧
      ballot = msg.ballotId ∧ id = msg.propValue.id := by
  rcases hvoted with ⟨value, hmem, rfl⟩
  rcases List.mem_append.mp hmem with hnote | hsent
  · split at hnote
    next hreply =>
      rw [List.mem_singleton, Output.note.injEq, Event.accepted.injEq] at hnote
      rcases hnote with ⟨rfl, rfl, rfl⟩
      exact ⟨hreply, rfl, rfl, rfl⟩
    next => simp at hnote
  · unfold answer sendData at hsent
    split at hsent <;> simp at hsent

theorem not_voted_answer {captain : Captain} {nodeId slot ballot id : ℕ} {msg : Message} :
    ¬ Voted (captain.answer nodeId msg) slot ballot id := by
  rintro ⟨value, hmem, _⟩
  unfold answer sendData at hmem
  split at hmem <;> simp at hmem

theorem AcceptorMove.advances {setting : Setting} {captain final : Captain}
    {outs : List Output} (hmove : AcceptorMove setting captain outs final) :
    Advances captain outs final := by
  cases hmove with
  | @prepare msg acceptors hreceived hupdate =>
      constructor
      · intro slot
        rw [hupdate slot]
        split
        next heq =>
          subst heq
          rcases Acceptor.handleMsgPrepare_cases (captain.acceptorOf msg.msgHeader.slotId)
            captain.view msg with ⟨hlt, hafter, _⟩ | ⟨_, hafter, _⟩
          · rw [hafter]
            exact hlt.le
          · rw [hafter]
        next => exact le_rfl
      · intro slot ballot id hvoted
        exact absurd hvoted not_voted_answer
  | @accept msg acceptors hreceived hupdate =>
      constructor
      · intro slot
        rw [hupdate slot]
        split
        next heq =>
          subst heq
          rcases Acceptor.handleMsgAccept_cases (captain.acceptorOf msg.msgHeader.slotId)
            captain.view msg with ⟨hle, hafter, _⟩ | ⟨_, hafter, _⟩
          · rw [hafter]
            exact hle
          · rw [hafter]
        next => exact le_rfl
      · intro slot ballot id hvoted
        rcases voted_acceptAnswer hvoted with ⟨hreply, rfl, rfl, rfl⟩
        rcases Acceptor.handleMsgAccept_cases (captain.acceptorOf msg.msgHeader.slotId)
          captain.view msg with ⟨hle, _, _⟩ | ⟨_, _, hno⟩
        · exact hle
        · rw [acceptAnswer, hno] at hreply
          simp at hreply

theorem SlotMove.acceptor_cases {setting : Setting} {captain final : Captain}
    {outs : List Output} (hshape : LogShape captain)
    (hmove : SlotMove setting captain outs final) :
    AcceptorMove setting captain outs final ∨
      (final.acceptors = captain.acceptors ∧ ∀ out ∈ outs, out.kind ≠ .acceptor) := by
  cases hmove with
  | base hmove =>
      cases hmove with
      | forwarding hmove =>
          refine .inr ⟨by rw [hmove.spec.1], ?_⟩
          intro out hmem
          simp [hmove.spec.2 out hmem]
      | acceptor hmove => exact .inl hmove
      | proposer hmove =>
          refine .inr ⟨by rw [hmove.spec.1], ?_⟩
          intro out hmem
          simp [hmove.spec.2.2 out hmem]
      | learner hmove =>
          refine .inr ⟨by rw [(hmove.spec hshape).1], ?_⟩
          intro out hmem
          rcases (hmove.spec hshape).2.2 out hmem with hkind | hkind <;> simp [hkind]
  | queue hframe hkind =>
      refine .inr ⟨by rw [hframe], ?_⟩
      intro out hmem
      simp [hkind out hmem]
  | opens value name tryTime hskip =>
      rw [openSlot_eq]
      refine .inr ⟨rfl, ?_⟩
      intro out hmem
      rcases List.mem_cons.mp hmem with rfl | hsent
      · simp [Output.kind, Event.kind]
      · simp [kinds_opening captain value _ hsent]
  | announce hinfo hstatus hvalue hstored hretires =>
      refine .inr ⟨rfl, ?_⟩
      intro out hmem
      simp [kind_of_mem_announce hmem]
  | close hinfo hstatus hvalue => exact .inr ⟨rfl, by simp [Output.kind, Event.kind]⟩

theorem acceptorOf_congr {captain final : Captain}
    (hacceptors : final.acceptors = captain.acceptors) (slot : ℕ) :
    final.acceptorOf slot = captain.acceptorOf slot := by
  rw [acceptorOf, acceptorAt, hacceptors]
  rfl

theorem not_voted_of_kind {outs : List Output}
    (hkinds : ∀ out ∈ outs, out.kind ≠ .acceptor) {slot ballot id : ℕ} :
    ¬ Voted outs slot ballot id := by
  rintro ⟨value, hmem, _⟩
  exact hkinds _ hmem rfl

/-- An acceptor holds what it held before or what an ACCEPT has brought. -/
theorem AcceptorMove.maxValue_cases {setting : Setting} {captain final : Captain}
    {outs : List Output} (hmove : AcceptorMove setting captain outs final) {slot : ℕ}
    {value : PropValue} (hvalue : (final.acceptorOf slot).maxValue = some value) :
    (captain.acceptorOf slot).maxValue = some value ∨
      ∃ msg : MsgAccept, setting.received (.accept msg) ∧ msg.msgHeader.slotId = slot ∧
        msg.propValue = value := by
  cases hmove with
  | @prepare msg acceptors hreceived hupdate =>
      left
      rw [hupdate slot] at hvalue
      split at hvalue
      next heq =>
        subst heq
        rcases Acceptor.handleMsgPrepare_cases (captain.acceptorOf msg.msgHeader.slotId)
          captain.view msg with ⟨_, hafter, _⟩ | ⟨_, hafter, _⟩ <;> rw [hafter] at hvalue <;>
          exact hvalue
      next => exact hvalue
  | @accept msg acceptors hreceived hupdate =>
      rw [hupdate slot] at hvalue
      split at hvalue
      next heq =>
        subst heq
        rcases Acceptor.handleMsgAccept_cases (captain.acceptorOf msg.msgHeader.slotId)
          captain.view msg with ⟨_, hafter, _⟩ | ⟨_, hafter, _⟩
        · rw [hafter] at hvalue
          change Acceptor.storeValue _ _ = _ at hvalue
          rcases (captain.acceptorOf msg.msgHeader.slotId).storeValue_eq msg.propValue with
            hnew | hold
          · rw [hnew, Option.some.injEq] at hvalue
            exact .inr ⟨msg, hreceived, rfl, hvalue⟩
          · exact .inl (hold.symm.trans hvalue)
        · rw [hafter] at hvalue
          exact .inl hvalue
      next => exact .inl hvalue

theorem SlotMove.advances {setting : Setting} {captain final : Captain} {outs : List Output}
    (hshape : LogShape captain) (hmove : SlotMove setting captain outs final) :
    Advances captain outs final := by
  rcases hmove.acceptor_cases hshape with hmove | ⟨hacceptors, hkinds⟩
  · exact hmove.advances
  · constructor
    · intro slot
      rw [acceptorOf_congr hacceptors]
    · intro slot ballot id hvoted
      exact absurd hvoted (not_voted_of_kind hkinds)

/-! ## The history behind the state -/

/-- What a positive PROMISE says about the acceptor, for good. -/
structure PromiseKept (captain : Captain) (log : List Output) (msg : MsgAckPrepare) :
    Prop where
  ballot_le : msg.ballotId ≤ (captain.acceptorOf msg.msgHeader.slotId).maxProposedBallot
  highest : ∀ ballot id, Voted log msg.msgHeader.slotId ballot id →
    ballot < msg.ballotId → ballot ≤ msg.maxBallotId
  unvoted : msg.maxPropValue = none → msg.maxBallotId = 0
  voted : ∀ value, msg.maxPropValue = some value →
    Voted log msg.msgHeader.slotId msg.maxBallotId value.id

theorem PromiseKept.advance {captain final : Captain} {log outs : List Output}
    {msg : MsgAckPrepare} (hkept : PromiseKept captain log msg)
    (hadvances : Advances captain outs final) : PromiseKept final (log ++ outs) msg where
  ballot_le := hkept.ballot_le.trans (hadvances.promised _)
  highest := by
    intro ballot id hvoted hlt
    rcases voted_append.mp hvoted with hold | hnew
    · exact hkept.highest ballot id hold hlt
    · have hlate := hadvances.late _ ballot id hnew
      have hballot := hkept.ballot_le
      omega
  unvoted := hkept.unvoted
  voted := fun value hvalue => voted_append.mpr (.inl (hkept.voted value hvalue))

/-- The acceptors of a node against its log and the messages sent to it. -/
structure AcceptorHistory (received : Message → Prop) (captain : Captain)
    (log : List Output) : Prop where
  accepted_le : ∀ slot, (captain.acceptorOf slot).maxAcceptedBallot ≤
    (captain.acceptorOf slot).maxProposedBallot
  voted_le : ∀ slot ballot id, Voted log slot ballot id →
    ballot ≤ (captain.acceptorOf slot).maxAcceptedBallot
  unvoted : ∀ slot, (captain.acceptorOf slot).maxValue = none →
    (captain.acceptorOf slot).maxAcceptedBallot = 0
  stored : ∀ slot value, (captain.acceptorOf slot).maxValue = some value →
    Voted log slot (captain.acceptorOf slot).maxAcceptedBallot value.id
  received_of_voted : ∀ slot ballot id, Voted log slot ballot id →
    ∃ msg : MsgAccept, received (.accept msg) ∧ msg.msgHeader.slotId = slot ∧
      msg.ballotId = ballot ∧ msg.propValue.id = id
  promise : ∀ dst msg, Sends log dst (.promise msg) →
    msg.msgHeader.nodeId = captain.whoami ∧
      (∃ request : MsgPrepare, received (.prepare request) ∧
        toNodeId request.msgHeader.nodeId = dst ∧
        request.msgHeader.slotId = msg.msgHeader.slotId ∧
        request.ballotId = msg.ballotId) ∧
      (msg.reply = true → PromiseKept captain log msg)
  accepted : ∀ dst msg, Sends log dst (.accepted msg) →
    msg.msgHeader.nodeId = captain.whoami ∧
      (∃ request : MsgAccept, received (.accept request) ∧
        toNodeId request.msgHeader.nodeId = dst ∧
        request.msgHeader.slotId = msg.msgHeader.slotId ∧
        request.ballotId = msg.ballotId) ∧
      (msg.reply = true → ∃ id, Voted log msg.msgHeader.slotId msg.ballotId id)

theorem not_voted_nil {slot ballot id : ℕ} : ¬ Voted [] slot ballot id := by
  rintro ⟨value, hmem, _⟩
  simp at hmem

theorem not_sends_nil {dst : ℕ} {msg : Message} : ¬ Sends [] dst msg := by
  rintro ⟨packet, hmem, _⟩
  simp at hmem

theorem new_acceptorOf (config : Config) (i windowSize slot : ℕ) :
    ((Captain.new config i windowSize).acceptorOf slot).maxAcceptedBallot = 0 ∧
      ((Captain.new config i windowSize).acceptorOf slot).maxValue = none := by
  unfold acceptorOf acceptorAt Captain.new
  cases slot with
  | zero => exact ⟨rfl, rfl⟩
  | succ slot =>
      simp only [List.getElem?_cons_succ]
      split
      next =>
        rw [List.getElem?_replicate]
        split <;> exact ⟨rfl, rfl⟩
      next => exact ⟨rfl, rfl⟩

theorem AcceptorHistory.initial (received : Message → Prop) (deployment : Deployment)
    (i : ℕ) : AcceptorHistory received (deployment.node i).captain [] := by
  have hnew : ∀ slot, ((deployment.node i).captain.acceptorOf slot).maxAcceptedBallot = 0 ∧
      ((deployment.node i).captain.acceptorOf slot).maxValue = none :=
    new_acceptorOf deployment.config i (deployment.windowSize i)
  constructor
  · intro slot
    rw [(hnew slot).1]
    exact Nat.zero_le _
  · exact fun slot ballot id hvoted => absurd hvoted not_voted_nil
  · exact fun slot _ => (hnew slot).1
  · intro slot value hvalue
    rw [(hnew slot).2] at hvalue
    simp at hvalue
  · exact fun slot ballot id hvoted => absurd hvoted not_voted_nil
  · exact fun dst msg hsends => absurd hsends not_sends_nil
  · exact fun dst msg hsends => absurd hsends not_sends_nil

theorem AcceptorHistory.mono {received received' : Message → Prop} {captain : Captain}
    {log : List Output} (hgrow : ∀ msg, received msg → received' msg)
    (hhistory : AcceptorHistory received captain log) :
    AcceptorHistory received' captain log where
  accepted_le := hhistory.accepted_le
  voted_le := hhistory.voted_le
  unvoted := hhistory.unvoted
  stored := hhistory.stored
  received_of_voted := by
    intro slot ballot id hvoted
    rcases hhistory.received_of_voted slot ballot id hvoted with ⟨msg, hreceived, hmsg⟩
    exact ⟨msg, hgrow _ hreceived, hmsg⟩
  promise := by
    intro dst msg hsends
    rcases hhistory.promise dst msg hsends with ⟨hnode, ⟨request, hreceived, hrequest⟩, hkept⟩
    exact ⟨hnode, ⟨request, hgrow _ hreceived, hrequest⟩, hkept⟩
  accepted := by
    intro dst msg hsends
    rcases hhistory.accepted dst msg hsends with ⟨hnode, ⟨request, hreceived, hrequest⟩, hvoted⟩
    exact ⟨hnode, ⟨request, hgrow _ hreceived, hrequest⟩, hvoted⟩

/-- A step keeps the history when it explains its own votes, its own answers
and the new states. -/
theorem AcceptorHistory.extend {received : Message → Prop} {captain final : Captain}
    {log outs : List Output} (hhistory : AcceptorHistory received captain log)
    (hadvances : Advances captain outs final) (hwhoami : final.whoami = captain.whoami)
    (haccepted_le : ∀ slot, (final.acceptorOf slot).maxAcceptedBallot ≤
      (final.acceptorOf slot).maxProposedBallot)
    (hvoted_le : ∀ slot ballot id, Voted (log ++ outs) slot ballot id →
      ballot ≤ (final.acceptorOf slot).maxAcceptedBallot)
    (hunvoted : ∀ slot, (final.acceptorOf slot).maxValue = none →
      (final.acceptorOf slot).maxAcceptedBallot = 0)
    (hstored : ∀ slot value, (final.acceptorOf slot).maxValue = some value →
      Voted (log ++ outs) slot (final.acceptorOf slot).maxAcceptedBallot value.id)
    (hreceived : ∀ slot ballot id, Voted outs slot ballot id →
      ∃ msg : MsgAccept, received (.accept msg) ∧ msg.msgHeader.slotId = slot ∧
        msg.ballotId = ballot ∧ msg.propValue.id = id)
    (hpromise : ∀ dst msg, Sends outs dst (.promise msg) →
      msg.msgHeader.nodeId = captain.whoami ∧
        (∃ request : MsgPrepare, received (.prepare request) ∧
          toNodeId request.msgHeader.nodeId = dst ∧
          request.msgHeader.slotId = msg.msgHeader.slotId ∧
          request.ballotId = msg.ballotId) ∧
        (msg.reply = true → PromiseKept final (log ++ outs) msg))
    (haccepted : ∀ dst msg, Sends outs dst (.accepted msg) →
      msg.msgHeader.nodeId = captain.whoami ∧
        (∃ request : MsgAccept, received (.accept request) ∧
          toNodeId request.msgHeader.nodeId = dst ∧
          request.msgHeader.slotId = msg.msgHeader.slotId ∧
          request.ballotId = msg.ballotId) ∧
        (msg.reply = true → ∃ id, Voted outs msg.msgHeader.slotId msg.ballotId id)) :
    AcceptorHistory received final (log ++ outs) where
  accepted_le := haccepted_le
  voted_le := hvoted_le
  unvoted := hunvoted
  stored := hstored
  received_of_voted := by
    intro slot ballot id hvoted
    rcases voted_append.mp hvoted with hold | hnew
    · exact hhistory.received_of_voted slot ballot id hold
    · exact hreceived slot ballot id hnew
  promise := by
    intro dst msg hsends
    rw [hwhoami]
    rcases sends_append.mp hsends with hold | hnew
    · rcases hhistory.promise dst msg hold with ⟨hnode, hrequest, hkept⟩
      exact ⟨hnode, hrequest, fun hreply => (hkept hreply).advance hadvances⟩
    · exact hpromise dst msg hnew
  accepted := by
    intro dst msg hsends
    rw [hwhoami]
    rcases sends_append.mp hsends with hold | hnew
    · rcases hhistory.accepted dst msg hold with ⟨hnode, hrequest, hvoted⟩
      refine ⟨hnode, hrequest, ?_⟩
      intro hreply
      rcases hvoted hreply with ⟨id, hvote⟩
      exact ⟨id, voted_append.mpr (.inl hvote)⟩
    · rcases haccepted dst msg hnew with ⟨hnode, hrequest, hvoted⟩
      refine ⟨hnode, hrequest, ?_⟩
      intro hreply
      rcases hvoted hreply with ⟨id, hvote⟩
      exact ⟨id, voted_append.mpr (.inr hvote)⟩

/-- A granted PREPARE reports the summary of the slot. -/
theorem AcceptorHistory.promiseKept {received : Message → Prop} {captain final : Captain}
    {log outs : List Output} (hhistory : AcceptorHistory received captain log)
    {msg : MsgPrepare} (hreply : (captain.prepareAnswer msg).reply = true)
    (hafter : final.acceptorOf msg.msgHeader.slotId =
      ((captain.acceptorOf msg.msgHeader.slotId).handleMsgPrepare captain.view msg).2)
    (hvotes : ∀ slot ballot id, Voted (log ++ outs) slot ballot id → Voted log slot ballot id) :
    PromiseKept final (log ++ outs) (captain.prepareAnswer msg) := by
  have hheader := captain.prepareAnswer_msgHeader msg
  rcases Acceptor.handleMsgPrepare_cases (captain.acceptorOf msg.msgHeader.slotId)
    captain.view msg with ⟨_, hpromised, hmaxBallot, hmaxValue⟩ | ⟨_, _, hno⟩
  · change (captain.prepareAnswer msg).maxBallotId = _ at hmaxBallot
    change (captain.prepareAnswer msg).maxPropValue = _ at hmaxValue
    constructor
    · rw [hheader, captain.prepareAnswer_ballotId, hafter, hpromised]
    · intro ballot id hvoted _
      rw [hheader] at hvoted
      rw [hmaxBallot]
      exact hhistory.voted_le _ ballot id (hvotes _ ballot id hvoted)
    · intro hnone
      rw [hmaxValue] at hnone
      rw [hmaxBallot]
      exact hhistory.unvoted _ hnone
    · intro value hvalue
      rw [hmaxValue] at hvalue
      rw [hheader, hmaxBallot]
      exact voted_append.mpr (.inl (hhistory.stored _ value hvalue))
  · rw [prepareAnswer, hno] at hreply
    simp at hreply

theorem AcceptorHistory.prepare {received : Message → Prop} {captain : Captain}
    {log : List Output} (hhistory : AcceptorHistory received captain log)
    (hwhoami : captain.whoami < 2 ^ 16) {msg : MsgPrepare} {acceptors : List (Option Acceptor)}
    (hreceived : received (.prepare msg))
    (hupdate : captain.AcceptorUpdate msg.msgHeader.slotId
      ((captain.acceptorOf msg.msgHeader.slotId).handleMsgPrepare captain.view msg).2 acceptors)
    (hadvances : Advances captain
      (captain.answer msg.msgHeader.nodeId (.promise (captain.prepareAnswer msg)))
      { captain with acceptors }) :
    AcceptorHistory received { captain with acceptors }
      (log ++ captain.answer msg.msgHeader.nodeId (.promise (captain.prepareAnswer msg))) := by
  have hsame : ∀ slot,
      (({ captain with acceptors } : Captain).acceptorOf slot).maxAcceptedBallot =
          (captain.acceptorOf slot).maxAcceptedBallot ∧
        (({ captain with acceptors } : Captain).acceptorOf slot).maxValue =
          (captain.acceptorOf slot).maxValue := by
    intro slot
    rw [hupdate slot]
    split
    next heq =>
      subst heq
      rcases Acceptor.handleMsgPrepare_cases (captain.acceptorOf msg.msgHeader.slotId)
        captain.view msg with ⟨_, hafter, _⟩ | ⟨_, hafter, _⟩ <;> rw [hafter] <;>
          exact ⟨rfl, rfl⟩
    next => exact ⟨rfl, rfl⟩
  have hvotes : ∀ slot ballot id,
      Voted (log ++ captain.answer msg.msgHeader.nodeId (.promise (captain.prepareAnswer msg)))
        slot ballot id → Voted log slot ballot id := by
    intro slot ballot id hvoted
    rcases voted_append.mp hvoted with hold | hnew
    · exact hold
    · exact absurd hnew not_voted_answer
  refine hhistory.extend hadvances rfl ?_ ?_ ?_ ?_ ?_ ?_ ?_
  · intro slot
    rw [(hsame slot).1]
    exact (hhistory.accepted_le slot).trans (hadvances.promised slot)
  · intro slot ballot id hvoted
    rw [(hsame slot).1]
    exact hhistory.voted_le slot ballot id (hvotes slot ballot id hvoted)
  · intro slot hnone
    rw [(hsame slot).2] at hnone
    rw [(hsame slot).1]
    exact hhistory.unvoted slot hnone
  · intro slot value hvalue
    rw [(hsame slot).2] at hvalue
    rw [(hsame slot).1]
    exact voted_append.mpr (.inl (hhistory.stored slot value hvalue))
  · exact fun slot ballot id hvoted => absurd hvoted not_voted_answer
  · intro dst ack hsends
    rcases sends_answer hwhoami hsends with ⟨heq, hdst⟩
    rw [Message.promise.injEq] at heq
    subst heq
    have hheader := captain.prepareAnswer_msgHeader msg
    refine ⟨by rw [hheader], ⟨msg, hreceived, hdst, by rw [hheader],
      (captain.prepareAnswer_ballotId msg).symm⟩, ?_⟩
    intro hreply
    exact hhistory.promiseKept hreply (by rw [hupdate, if_pos rfl]) hvotes
  · intro dst ack hsends
    rcases sends_answer hwhoami hsends with ⟨heq, _⟩
    simp at heq

/-- Either the vote is cast and becomes the summary of its slot, or nothing changes. -/
theorem AcceptorUpdate.accept_cases {captain : Captain} {msg : MsgAccept}
    {acceptors : List (Option Acceptor)}
    (hupdate : captain.AcceptorUpdate msg.msgHeader.slotId
      ((captain.acceptorOf msg.msgHeader.slotId).handleMsgAccept captain.view msg).2 acceptors)
    (slot : ℕ) :
    ({ captain with acceptors } : Captain).acceptorOf slot = captain.acceptorOf slot ∧
        (slot = msg.msgHeader.slotId → (captain.acceptAnswer msg).reply = false) ∨
      (slot = msg.msgHeader.slotId ∧ (captain.acceptAnswer msg).reply = true ∧
        (captain.acceptorOf slot).maxProposedBallot ≤ msg.ballotId ∧
        ({ captain with acceptors } : Captain).acceptorOf slot =
          { maxProposedBallot := msg.ballotId
            maxAcceptedBallot := msg.ballotId
            maxValue := (captain.acceptorOf slot).storeValue msg.propValue }) := by
  rw [hupdate slot]
  by_cases heq : slot = msg.msgHeader.slotId
  · subst heq
    rcases Acceptor.handleMsgAccept_cases (captain.acceptorOf msg.msgHeader.slotId)
      captain.view msg with ⟨hle, hafter, hreply⟩ | ⟨_, hafter, hno⟩
    · exact .inr ⟨rfl, hreply, hle, by rw [if_pos rfl, hafter]⟩
    · exact .inl ⟨by rw [if_pos rfl, hafter], fun _ => hno⟩
  · exact .inl ⟨by rw [if_neg heq], fun hsame => absurd hsame heq⟩

theorem AcceptorHistory.accept {received : Message → Prop} {captain : Captain}
    {log : List Output} (hhistory : AcceptorHistory received captain log)
    (hwhoami : captain.whoami < 2 ^ 16) {msg : MsgAccept} {acceptors : List (Option Acceptor)}
    (hreceived : received (.accept msg))
    (hupdate : captain.AcceptorUpdate msg.msgHeader.slotId
      ((captain.acceptorOf msg.msgHeader.slotId).handleMsgAccept captain.view msg).2 acceptors)
    {outs : List Output}
    (houts : outs = (if (captain.acceptAnswer msg).reply then
        [.note (.accepted msg.msgHeader.slotId msg.ballotId msg.propValue)] else []) ++
      captain.answer msg.msgHeader.nodeId (.accepted (captain.acceptAnswer msg)))
    (hadvances : Advances captain outs { captain with acceptors }) :
    AcceptorHistory received { captain with acceptors } (log ++ outs) := by
  have hvotes : ∀ slot ballot id, Voted outs slot ballot id →
      (captain.acceptAnswer msg).reply = true ∧ slot = msg.msgHeader.slotId ∧
        ballot = msg.ballotId ∧ id = msg.propValue.id := by
    intro slot ballot id hvoted
    rw [houts] at hvoted
    exact voted_acceptAnswer hvoted
  have hvote : (captain.acceptAnswer msg).reply = true →
      Voted outs msg.msgHeader.slotId msg.ballotId msg.propValue.id := by
    intro hreply
    refine ⟨msg.propValue, ?_, rfl⟩
    rw [houts, if_pos hreply]
    exact List.mem_append_left _ (List.mem_singleton_self _)
  have hanswers : ∀ dst ack, Sends outs dst ack →
      ack = .accepted (captain.acceptAnswer msg) ∧ toNodeId msg.msgHeader.nodeId = dst := by
    intro dst ack hsends
    rw [houts] at hsends
    rcases sends_append.mp hsends with ⟨packet, hmem, _⟩ | hsent
    · split at hmem <;> simp at hmem
    · exact sends_answer hwhoami hsent
  have hstate := AcceptorUpdate.accept_cases hupdate
  refine hhistory.extend hadvances rfl ?_ ?_ ?_ ?_ ?_ ?_ ?_
  · intro slot
    rcases hstate slot with ⟨hsame, _⟩ | ⟨_, _, _, hafter⟩
    · rw [hsame]
      exact hhistory.accepted_le slot
    · rw [hafter]
  · intro slot ballot id hvoted
    rcases hstate slot with ⟨hsame, hquiet⟩ | ⟨_, _, hle, hafter⟩
    · rw [hsame]
      rcases voted_append.mp hvoted with hold | hnew
      · exact hhistory.voted_le slot ballot id hold
      · rcases hvotes slot ballot id hnew with ⟨hreply, heq, _⟩
        rw [hquiet heq] at hreply
        simp at hreply
    · rw [hafter]
      rcases voted_append.mp hvoted with hold | hnew
      · have hold_le := hhistory.voted_le slot ballot id hold
        exact (hold_le.trans (hhistory.accepted_le slot)).trans hle
      · exact (hvotes slot ballot id hnew).2.2.1.le
  · intro slot hnone
    rcases hstate slot with ⟨hsame, _⟩ | ⟨_, _, _, hafter⟩
    · rw [hsame] at hnone ⊢
      exact hhistory.unvoted slot hnone
    · rcases (captain.acceptorOf slot).storeValue_id msg.propValue with ⟨stored, hstored, _⟩
      rw [hafter, hstored] at hnone
      simp at hnone
  · intro slot value hvalue
    rcases hstate slot with ⟨hsame, _⟩ | ⟨hslot, hreply, _, hafter⟩
    · rw [hsame] at hvalue ⊢
      exact voted_append.mpr (.inl (hhistory.stored slot value hvalue))
    · rcases (captain.acceptorOf slot).storeValue_id msg.propValue with ⟨stored, hstored, hid⟩
      rw [hafter, hstored, Option.some.injEq] at hvalue
      rw [hafter, ← hvalue, hid, hslot]
      exact voted_append.mpr (.inr (hvote hreply))
  · intro slot ballot id hvoted
    rcases hvotes slot ballot id hvoted with ⟨_, rfl, rfl, rfl⟩
    exact ⟨msg, hreceived, rfl, rfl, rfl⟩
  · intro dst ack hsends
    have heq := (hanswers dst _ hsends).1
    simp at heq
  · intro dst ack hsends
    rcases hanswers dst _ hsends with ⟨heq, hdst⟩
    rw [Message.accepted.injEq] at heq
    subst heq
    have hheader := captain.acceptAnswer_msgHeader msg
    have hballot := captain.acceptAnswer_ballotId msg
    refine ⟨by rw [hheader], ⟨msg, hreceived, hdst, by rw [hheader], hballot.symm⟩, ?_⟩
    intro hreply
    rw [hheader, hballot]
    exact ⟨msg.propValue.id, hvote hreply⟩

theorem acceptorHistory_preserved : PreservedLocally AcceptorHistory := by
  intro received setting captain log outs final hkept hwhoami hreceived hhistory hmove
  have hadvances := hmove.advances hkept.shape
  have hsame := hmove.sameNode hkept.shape
  rcases hmove.acceptor_cases hkept.shape with hmove | ⟨hacceptors, hkinds⟩
  · cases hmove with
    | prepare hmsg hupdate =>
        exact hhistory.prepare hwhoami (hreceived _ hmsg) hupdate hadvances
    | accept hmsg hupdate =>
        exact hhistory.accept hwhoami (hreceived _ hmsg) hupdate rfl hadvances
  · have hof := acceptorOf_congr hacceptors
    have hvotes : ∀ slot ballot id, Voted (log ++ outs) slot ballot id →
        Voted log slot ballot id := by
      intro slot ballot id hvoted
      rcases voted_append.mp hvoted with hold | hnew
      · exact hold
      · exact absurd hnew (not_voted_of_kind hkinds)
    refine hhistory.extend hadvances hsame.nodeId ?_ ?_ ?_ ?_ ?_ ?_ ?_
    · intro slot
      rw [hof]
      exact hhistory.accepted_le slot
    · intro slot ballot id hvoted
      rw [hof]
      exact hhistory.voted_le slot ballot id (hvotes slot ballot id hvoted)
    · intro slot
      rw [hof]
      exact hhistory.unvoted slot
    · intro slot value hvalue
      rw [hof] at hvalue ⊢
      exact voted_append.mpr (.inl (hhistory.stored slot value hvalue))
    · exact fun slot ballot id hvoted => absurd hvoted (not_voted_of_kind hkinds)
    · exact fun dst msg hsends => absurd hsends (not_sends_of_kind hkinds)
    · exact fun dst msg hsends => absurd hsends (not_sends_of_kind hkinds)

end Captain

end NDNPaxos
