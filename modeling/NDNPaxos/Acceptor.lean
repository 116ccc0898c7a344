import NDNPaxos.View

/-!
# Acceptor

One acceptor per slot.  It answers a PREPARE that is strictly above every
ballot it has promised and an ACCEPT that is at least as high.
-/

namespace NDNPaxos

structure Acceptor where
  maxProposedBallot : ℕ := 0
  maxAcceptedBallot : ℕ := 0
  maxValue : Option PropValue := none
deriving DecidableEq, Repr

namespace Acceptor

def handleMsgPrepare (acceptor : Acceptor) (view : View) (msg : MsgPrepare) :
    MsgAckPrepare × Acceptor :=
  let ack : MsgAckPrepare := {
    msgHeader := { nodeId := view.whoami, slotId := msg.msgHeader.slotId }
    ballotId := msg.ballotId
    reply := false
    maxBallotId := acceptor.maxAcceptedBallot
    maxPropValue := none }
  if acceptor.maxProposedBallot < msg.ballotId then
    ({ ack with reply := true, maxPropValue := acceptor.maxValue },
      { acceptor with maxProposedBallot := msg.ballotId })
  else
    (ack, acceptor)

/-- The stored value is replaced only by a value with another id. -/
def storeValue (acceptor : Acceptor) (value : PropValue) : Option PropValue :=
  match acceptor.maxValue with
  | none => some value
  | some old => if old.id = value.id then some old else some value

def handleMsgAccept (acceptor : Acceptor) (view : View) (msg : MsgAccept) :
    MsgAckAccept × Acceptor :=
  let ack : MsgAckAccept := {
    msgHeader := { nodeId := view.whoami, slotId := msg.msgHeader.slotId }
    ballotId := msg.ballotId
    reply := false }
  if acceptor.maxProposedBallot ≤ msg.ballotId then
    ({ ack with reply := true },
      { maxProposedBallot := msg.ballotId
        maxAcceptedBallot := msg.ballotId
        maxValue := acceptor.storeValue msg.propValue })
  else
    (ack, acceptor)

def updateMaxProposed (acceptor : Acceptor) (ballotId : ℕ) : Acceptor :=
  { acceptor with maxProposedBallot := ballotId }

theorem handleMsgPrepare_cases (acceptor : Acceptor) (view : View) (msg : MsgPrepare) :
    (acceptor.maxProposedBallot < msg.ballotId ∧
      (acceptor.handleMsgPrepare view msg).2 =
        { acceptor with maxProposedBallot := msg.ballotId } ∧
      (acceptor.handleMsgPrepare view msg).1.maxBallotId = acceptor.maxAcceptedBallot ∧
      (acceptor.handleMsgPrepare view msg).1.maxPropValue = acceptor.maxValue) ∨
    (msg.ballotId ≤ acceptor.maxProposedBallot ∧
      (acceptor.handleMsgPrepare view msg).2 = acceptor ∧
      (acceptor.handleMsgPrepare view msg).1.reply = false) := by
  unfold handleMsgPrepare
  by_cases hhigher : acceptor.maxProposedBallot < msg.ballotId
  · simp [hhigher]
  · simp [hhigher, Nat.le_of_not_lt hhigher]

theorem handleMsgAccept_cases (acceptor : Acceptor) (view : View) (msg : MsgAccept) :
    (acceptor.maxProposedBallot ≤ msg.ballotId ∧
      (acceptor.handleMsgAccept view msg).2 =
        { maxProposedBallot := msg.ballotId
          maxAcceptedBallot := msg.ballotId
          maxValue := acceptor.storeValue msg.propValue } ∧
      (acceptor.handleMsgAccept view msg).1.reply = true) ∨
    (msg.ballotId < acceptor.maxProposedBallot ∧
      (acceptor.handleMsgAccept view msg).2 = acceptor ∧
      (acceptor.handleMsgAccept view msg).1.reply = false) := by
  unfold handleMsgAccept
  by_cases hhigh : acceptor.maxProposedBallot ≤ msg.ballotId
  · simp [hhigh]
  · simp [hhigh, Nat.lt_of_not_le hhigh]

@[simp] theorem handleMsgPrepare_ballotId (acceptor : Acceptor) (view : View)
    (msg : MsgPrepare) :
    (acceptor.handleMsgPrepare view msg).1.ballotId = msg.ballotId := by
  unfold handleMsgPrepare
  split <;> rfl

@[simp] theorem handleMsgPrepare_msgHeader (acceptor : Acceptor) (view : View)
    (msg : MsgPrepare) :
    (acceptor.handleMsgPrepare view msg).1.msgHeader =
      { nodeId := view.whoami, slotId := msg.msgHeader.slotId } := by
  unfold handleMsgPrepare
  split <;> rfl

@[simp] theorem handleMsgAccept_ballotId (acceptor : Acceptor) (view : View)
    (msg : MsgAccept) :
    (acceptor.handleMsgAccept view msg).1.ballotId = msg.ballotId := by
  unfold handleMsgAccept
  split <;> rfl

@[simp] theorem handleMsgAccept_msgHeader (acceptor : Acceptor) (view : View)
    (msg : MsgAccept) :
    (acceptor.handleMsgAccept view msg).1.msgHeader =
      { nodeId := view.whoami, slotId := msg.msgHeader.slotId } := by
  unfold handleMsgAccept
  split <;> rfl

theorem storeValue_id (acceptor : Acceptor) (value : PropValue) :
    ∃ stored, acceptor.storeValue value = some stored ∧ stored.id = value.id := by
  unfold storeValue
  cases acceptor.maxValue with
  | none => exact ⟨value, rfl, rfl⟩
  | some old =>
      by_cases hid : old.id = value.id
      · exact ⟨old, by simp [hid], hid⟩
      · exact ⟨value, by simp [hid], rfl⟩

theorem storeValue_eq (acceptor : Acceptor) (value : PropValue) :
    acceptor.storeValue value = some value ∨
      acceptor.storeValue value = acceptor.maxValue := by
  unfold storeValue
  cases acceptor.maxValue with
  | none => exact .inl rfl
  | some old =>
      by_cases hid : old.id = value.id
      · exact .inr (by simp [hid])
      · exact .inl (by simp [hid])

end Acceptor

end NDNPaxos
