import NDNPaxos.SafeProposals
import Mathlib.Tactic

/-!
# What one delivery does

The message that a captain handles serves at most one move of an acceptor or of
a proposer.  The moves that follow it at the end of CHOOSE, and those of the
other messages and of calls, leave the acceptors alone and touch the proposers
only by opening and closing slots.
-/

namespace NDNPaxos

namespace Captain

/-- What `handle_msg_promise` or `handle_msg_accepted` returns when the captain
hands the message to the proposer of its slot. -/
def returned (captain : Captain) : Message → Option AckType
  | .promise msg => do
      let info ← captain.proposers[msg.msgHeader.slotId]?
      if captain.work = true ∧ (info.proposerStatus = .init ∨ info.proposerStatus = .phaseI) then
        (info.currProposer.handleMsgPromise captain.view msg).map Prod.fst
      else none
  | .accepted msg => do
      let info ← captain.proposers[msg.msgHeader.slotId]?
      if captain.work = true ∧ info.proposerStatus = .phaseII then
        some (info.currProposer.handleMsgAccepted msg).1
      else none
  | _ => none

def Ignores (captain : Captain) : Message → Prop
  | .promise msg => ∀ info, captain.proposers[msg.msgHeader.slotId]? = some info →
      ¬ info.Preparing
  | .accepted msg => ∀ info, captain.proposers[msg.msgHeader.slotId]? = some info →
      info.proposerStatus ≠ .phaseII
  | _ => True

def Quiet (msg : Message) : Prop := msg.kind ≠ .proposer ∧ msg.kind ≠ .acceptor

theorem returned_of_ignores {captain : Captain} {msg : Message}
    (hidle : captain.work = false ∨ captain.Ignores msg) : captain.returned msg = none := by
  cases msg with
  | promise msg =>
      simp only [returned, Option.bind_eq_bind, Option.bind_eq_none_iff]
      intro info hinfo
      apply if_neg
      rintro ⟨hwork, hstatus⟩
      rcases hidle with hdead | hignores
      · simp [hwork] at hdead
      · exact hignores info hinfo hstatus
  | accepted msg =>
      simp only [returned, Option.bind_eq_bind, Option.bind_eq_none_iff]
      intro info hinfo
      apply if_neg
      rintro ⟨hwork, hstatus⟩
      rcases hidle with hdead | hignores
      · simp [hwork] at hdead
      · exact hignores info hinfo hstatus
  | _ => rfl

section Returned

variable {captain : Captain} {info : ProposerInfo}

theorem returned_promise {msg : MsgAckPrepare} {ack : AckType} {proposer : Proposer}
    (hwork : captain.work = true) (hinfo : captain.proposers[msg.msgHeader.slotId]? = some info)
    (hstatus : info.Preparing)
    (hack : info.currProposer.handleMsgPromise captain.view msg = some (ack, proposer)) :
    captain.returned (.promise msg) = some ack := by
  have hcondition : captain.work = true ∧
      (info.proposerStatus = .init ∨ info.proposerStatus = .phaseI) := ⟨hwork, hstatus⟩
  simp only [returned, hinfo, Option.bind_eq_bind, Option.bind_some]
  rw [if_pos hcondition, hack, Option.map_some]

theorem returned_accepted {msg : MsgAckAccept}
    (hwork : captain.work = true) (hinfo : captain.proposers[msg.msgHeader.slotId]? = some info)
    (hstatus : info.proposerStatus = .phaseII) :
    captain.returned (.accepted msg) = some (info.currProposer.handleMsgAccepted msg).1 := by
  simp only [returned, hinfo, Option.bind_eq_bind, Option.bind_some]
  rw [if_pos ⟨hwork, hstatus⟩]

/-- Only a proposer that is still running returns anything. -/
theorem found_of_returned {msg : Message} {ack : AckType}
    (hreturned : captain.returned msg = some ack) :
    ∃ info, captain.proposers[msg.msgHeader.slotId]? = some info ∧
      info.proposerStatus ≠ .chosen := by
  cases msg with
  | promise msg =>
      simp only [returned, Option.bind_eq_bind, Option.bind_eq_some_iff] at hreturned
      rcases hreturned with ⟨info, hinfo, hreturned⟩
      split at hreturned
      next hphase =>
        refine ⟨info, hinfo, ?_⟩
        rcases hphase.2 with hstatus | hstatus <;> simp [hstatus]
      next => simp at hreturned
  | accepted msg =>
      simp only [returned, Option.bind_eq_bind, Option.bind_eq_some_iff] at hreturned
      rcases hreturned with ⟨info, hinfo, hreturned⟩
      split at hreturned
      next hphase => exact ⟨info, hinfo, by simp [hphase.2]⟩
      next => simp at hreturned
  | _ => simp [returned] at hreturned

end Returned

/-- What the message itself does. -/
inductive FirstMove (captain : Captain) (msg : Message) : List Output → Captain → Prop where
  | acceptor {outs : List Output} {mid : Captain}
      (hmove : AcceptorMove { received := fun handled => handled = msg } captain outs mid) :
      FirstMove captain msg outs mid
  | proposer {outs : List Output} {mid : Captain} (hwork : captain.work = true)
      (hmove : ProposerMove { received := fun handled => handled = msg } captain outs mid) :
      FirstMove captain msg outs mid
  | idle (hidle : captain.work = false ∨ captain.Ignores msg) :
      FirstMove captain msg [] captain

theorem FirstMove.slotMoves {captain mid : Captain} {msg : Message} {first : List Output}
    (hfirst : FirstMove captain msg first mid) :
    OutputChain (SlotMove { received := fun handled => handled = msg }) captain first
      mid := by
  cases hfirst with
  | acceptor hmove => exact .single (.base (.acceptor hmove))
  | proposer hwork hmove => exact .single (.base (.proposer hmove))
  | idle hidle => exact .nil captain

/-- The setting of the moves that do not depend on the message, or depend on one
that neither an acceptor nor a proposer handles. -/
def quietSetting (dataName : Name) : Setting := { received := Quiet, dataName }

section Quiet

variable {setting : Setting} {captain final : Captain} {outs : List Output}
  (hquiet : ∀ msg, setting.received msg → Quiet msg)

include hquiet

theorem not_acceptorMove_of_quiet : ¬ AcceptorMove setting captain outs final := by
  intro hmove
  cases hmove with
  | prepare hreceived hupdate => exact (hquiet _ hreceived).1 rfl
  | accept hreceived hupdate => exact (hquiet _ hreceived).1 rfl

theorem not_proposerMove_of_quiet : ¬ ProposerMove setting captain outs final := by
  intro hmove
  cases hmove with
  | promised hreceived hinfo hstatus hack hstays => exact (hquiet _ hreceived).2 rfl
  | promiseRestart hreceived hinfo hstatus hack => exact (hquiet _ hreceived).2 rfl
  | continued hreceived hinfo hstatus hack henter => exact (hquiet _ hreceived).2 rfl
  | acked hreceived hinfo hstatus hack hstays => exact (hquiet _ hreceived).2 rfl
  | ackRestart hreceived hinfo hstatus hack => exact (hquiet _ hreceived).2 rfl
  | chosen hreceived hinfo hstatus hack => exact (hquiet _ hreceived).2 rfl

theorem SlotMove.acceptors_of_quiet (hshape : LogShape captain)
    (hmove : SlotMove setting captain outs final) :
    final.acceptors = captain.acceptors ∧ ∀ out ∈ outs, out.kind ≠ .acceptor := by
  rcases hmove.acceptor_cases hshape with hacceptor | hsame
  · exact absurd hacceptor (not_acceptorMove_of_quiet hquiet)
  · exact hsame

theorem acceptors_of_quiet_chain (hkept : captain.WellKept)
    (hchain : OutputChain (SlotMove setting) captain outs final) :
    final.acceptors = captain.acceptors ∧ ∀ out ∈ outs, out.kind ≠ .acceptor := by
  let unchanged (next : Captain) (log : List Output) : Prop :=
    next.WellKept ∧ next.acceptors = captain.acceptors ∧ ∀ out ∈ log, out.kind ≠ .acceptor
  have hstart : unchanged captain [] := ⟨hkept, rfl, by simp⟩
  have hpreserved : ∀ next log outs last, unchanged next log →
      SlotMove setting next outs last → unchanged last (log ++ outs) := by
    intro next log outs last hbefore hmove
    rcases hbefore with ⟨hnext, hacceptors, hkinds⟩
    rcases hmove.acceptors_of_quiet hquiet hnext.shape with ⟨hsame, hnew⟩
    refine ⟨hmove.wellKept hnext, hsame.trans hacceptors, ?_⟩
    intro out hmem
    rcases List.mem_append.mp hmem with hold | hout
    · exact hkinds out hold
    · exact hnew out hout
  exact (hchain.invariant unchanged hpreserved hstart).2

end Quiet

/-- Handling a message is one move for the message, and others after it. -/
theorem handleMsg_first {captain final : Captain} {msg : Message} {dataName : Name}
    {app : AppCalls} {outs : List Output} (hkept : captain.WellKept)
    (hhandle : captain.handleMsg msg dataName app = some (final, outs)) :
    ∃ first mid rest, FirstMove captain msg first mid ∧
      OutputChain (SlotMove (quietSetting dataName)) mid rest final ∧ outs = first ++ rest := by
  have hquiet : Quiet msg → FirstMove captain msg [] captain →
      ∃ first mid rest, FirstMove captain msg first mid ∧
        OutputChain (SlotMove (quietSetting dataName)) mid rest final ∧
          outs = first ++ rest := by
    intro hmsg hidle
    have hchain : OutputChain (Move (quietSetting dataName)) captain outs final :=
      handleMsg_moves hkept hmsg (fun _ _ _ => trivial) (fun _ _ => trivial) hhandle
    exact ⟨[], captain, outs, hidle, hchain.bind fun _ _ _ hmove => hmove.slotMoves, rfl⟩
  have hsingle : FirstMove captain msg outs final →
      ∃ first mid rest, FirstMove captain msg first mid ∧
        OutputChain (SlotMove (quietSetting dataName)) mid rest final ∧
          outs = first ++ rest :=
    fun hfirst => ⟨outs, final, [], hfirst, .nil final, (List.append_nil outs).symm⟩
  have hhandled := hhandle
  unfold handleMsg at hhandle
  cases hwork : captain.work with
  | false =>
      rw [hwork, if_pos rfl, Option.some.injEq, Prod.mk.injEq] at hhandle
      rcases hhandle with ⟨rfl, rfl⟩
      exact hsingle (.idle (.inl hwork))
  | true =>
      rw [hwork, if_neg (by simp)] at hhandle
      cases msg with
      | prepare msg => exact hsingle (.acceptor (handlePrepare_move rfl hhandle))
      | promise msg =>
          rcases @handlePromise_move { received := fun handled => handled = .promise msg }
            _ _ _ _ rfl hhandle with hmove | ⟨rfl, rfl, hignores⟩
          · exact hsingle (.proposer hwork hmove)
          · exact hsingle (.idle (.inr hignores))
      | accept msg => exact hsingle (.acceptor (handleAccept_move rfl hhandle))
      | accepted msg =>
          rcases @handleAccepted_move { received := fun handled => handled = .accepted msg }
            _ _ _ _ _ _ rfl hhandle with hmove |
              ⟨info, proposer, chosen, hinfo, hstatus, hack, hvalue, hchoose⟩ |
              ⟨rfl, rfl, hignores⟩
          · exact hsingle (.proposer hwork hmove)
          · have hchain : OutputChain (Move (quietSetting dataName)) _ outs final :=
              choose_moves hkept.shape (hkept.keys _ _ hinfo).2 hvalue trivial
                (fun _ _ => trivial) hchoose
            exact ⟨[], _, outs, .proposer hwork (.chosen rfl hinfo hstatus hack),
              hchain.bind fun _ _ _ hmove => hmove.slotMoves, rfl⟩
          · exact hsingle (.idle (.inr hignores))
      | decide msg =>
          exact hquiet ⟨by simp [Message.kind], by simp [Message.kind]⟩ (.idle (.inr trivial))
      | learn msg =>
          exact hquiet ⟨by simp [Message.kind], by simp [Message.kind]⟩ (.idle (.inr trivial))
      | teach msg =>
          exact hquiet ⟨by simp [Message.kind], by simp [Message.kind]⟩ (.idle (.inr trivial))
      | commit msg =>
          exact hquiet ⟨by simp [Message.kind], by simp [Message.kind]⟩ (.idle (.inr trivial))
      | command msg =>
          exact hquiet ⟨by simp [Message.kind], by simp [Message.kind]⟩ (.idle (.inr trivial))

end Captain

/-! ## Deliveries of a run -/

def Cluster.captains (cluster : Cluster) (i : ℕ) : Captain := (cluster.nodes i).captain

@[simp] theorem Cluster.captains_act (cluster : Cluster) (i : ℕ) (net : List Packet)
    (final : Captain) (outs : List Output) :
    (cluster.act i net (final, outs)).captains = Function.update cluster.captains i final := by
  funext j
  by_cases heq : j = i
  · subst heq
    simp [Cluster.captains, Cluster.act, Node.after]
  · simp [Cluster.captains, Cluster.act, heq]

/-- The message for the slot that node `p` handles in the step. -/
def Cluster.handled? (cluster : Cluster) (p slot : ℕ) : Action → Option Message
  | .deliver index _ _ => do
      let packet ← cluster.net[index]?
      if packet.dst = p ∧ packet.msg.msgHeader.slotId = slot then some packet.msg else none
  | .call _ _ => none
  | .lose _ => none
  | .duplicate _ => none

/-- In the step the proposer of the slot at node `p` returns the type. -/
def returns (ack : AckType) (p slot : ℕ) (step : Cluster × Action) : Bool :=
  (step.1.handled? p slot step.2).bind (step.1.captains p).returned = some ack

theorem returns_of_none {ack : AckType} {p slot : ℕ} {cluster : Cluster} {action : Action}
    (hnone : cluster.handled? p slot action = none) :
    returns ack p slot (cluster, action) = false := by
  simp [returns, hnone]

theorem handled?_deliver {cluster : Cluster} {p slot index : ℕ} {dataName : Name}
    {app : AppCalls} {packet : Packet} (hpacket : cluster.net[index]? = some packet) :
    cluster.handled? p slot (.deliver index dataName app) =
      if packet.dst = p ∧ packet.msg.msgHeader.slotId = slot then some packet.msg else none := by
  rw [Cluster.handled?, hpacket]
  rfl

end NDNPaxos
