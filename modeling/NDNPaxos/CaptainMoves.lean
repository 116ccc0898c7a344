import NDNPaxos.ChosenLog
import NDNPaxos.Library.OutputChain
import Mathlib.Tactic

/-!
# Moves of a captain

A handler does several things in a row, and the callbacks may call the captain
again in between.  This file cuts the calls and the handlers into moves, each
with everything it changes and puts out: opening a slot and queueing a value
belong to `commit` and to the end of CHOOSE, the other moves leave the queues
and the set of open slots alone.
-/

namespace NDNPaxos

/-- In Phase I, before or after the first PROMISE. -/
def ProposerInfo.Preparing (info : ProposerInfo) : Prop :=
  info.proposerStatus = .init ∨ info.proposerStatus = .phaseI

namespace Captain

/-- The acceptor of a slot; one that has not been created is still new. -/
def acceptorOf (captain : Captain) (slot : ℕ) : Acceptor :=
  (captain.acceptorAt slot).getD {}

/-! ## Opening a slot -/

def newProposer (captain : Captain) (value : PropValue) (name : Name) (tryTime : ℕ)
    (skipPhaseI : Bool) : ProposerInfo :=
  let proposer := (Proposer.new captain.view value).genNextBallot captain.view
  if skipPhaseI then
    { tryTime, clientName := name, currProposer := proposer.initCurrValue,
      proposerStatus := .phaseII }
  else
    { tryTime, clientName := name, currProposer := proposer, proposerStatus := .init }

def openingMsg (captain : Captain) (value : PropValue) (skipPhaseI : Bool) : Message :=
  let msgHeader : MsgHeader := { nodeId := captain.whoami, slotId := captain.maxSlot + 1 }
  let ballotId := 2 ^ 16 + captain.whoami
  if skipPhaseI then .accept { msgHeader, ballotId, propValue := value }
  else .prepare { msgHeader, ballotId }

theorem openSlot_eq (captain : Captain) (value : PropValue) (name : Name) (tryTime : ℕ)
    (skipPhaseI : Bool) :
    captain.openSlot value name tryTime skipPhaseI =
      ({ captain with
          maxSlot := captain.maxSlot + 1
          proposers := captain.proposers.insert (captain.maxSlot + 1)
            (captain.newProposer value name tryTime skipPhaseI) },
        .note (.propose (captain.maxSlot + 1) value name tryTime) ::
          captain.broadcastMsg (captain.openingMsg value skipPhaseI)) := by
  cases skipPhaseI with
  | true => simp [openSlot, newProposer, openingMsg, setProposer, Proposer.msgAccept,
      Proposer.genNextBallot, Proposer.initCurrValue, Proposer.new, whoami]
  | false => simp [openSlot, newProposer, openingMsg, setProposer, Proposer.msgPrepare,
      Proposer.genNextBallot, Proposer.new, whoami]

section NewProposer

variable (captain : Captain) (value : PropValue) (name : Name) (tryTime : ℕ)
  (skipPhaseI : Bool)

@[simp] theorem newProposer_tryTime :
    (captain.newProposer value name tryTime skipPhaseI).tryTime = tryTime := by
  cases skipPhaseI <;> rfl

@[simp] theorem newProposer_clientName :
    (captain.newProposer value name tryTime skipPhaseI).clientName = name := by
  cases skipPhaseI <;> rfl

@[simp] theorem newProposer_status :
    (captain.newProposer value name tryTime skipPhaseI).proposerStatus =
      if skipPhaseI then .phaseII else .init := by
  cases skipPhaseI <;> rfl

@[simp] theorem newProposer_initValue :
    (captain.newProposer value name tryTime skipPhaseI).currProposer.initValue = value := by
  cases skipPhaseI <;> rfl

@[simp] theorem newProposer_currBallot :
    (captain.newProposer value name tryTime skipPhaseI).currProposer.currBallot =
      2 ^ 16 + captain.whoami := by
  cases skipPhaseI <;>
    simp [newProposer, Proposer.genNextBallot, Proposer.new, Proposer.initCurrValue, whoami]

@[simp] theorem newProposer_maxBallot :
    (captain.newProposer value name tryTime skipPhaseI).currProposer.maxBallot = 0 := by
  cases skipPhaseI <;> rfl

@[simp] theorem newProposer_maxValue :
    (captain.newProposer value name tryTime skipPhaseI).currProposer.maxValue = none := by
  cases skipPhaseI <;> rfl

@[simp] theorem newProposer_msgAckPrepare :
    (captain.newProposer value name tryTime skipPhaseI).currProposer.msgAckPrepare = {} := by
  cases skipPhaseI <;> rfl

@[simp] theorem newProposer_msgAckAccept :
    (captain.newProposer value name tryTime skipPhaseI).currProposer.msgAckAccept = {} := by
  cases skipPhaseI <;> rfl

end NewProposer

/-! ## The branches of commit and of the end of CHOOSE -/

inductive CommitStep (captain : Captain) (value : PropValue) (dataName : Name) :
    Captain → List Output → Name → Prop where
  | dropped (hfull : captain.windowSize < captain.proposers.size) :
      CommitStep captain value dataName captain [.note (.commit value dataName)] dataName
  | waits (hfull : captain.proposers.size = captain.windowSize) :
      CommitStep captain value dataName (captain.pushBack value dataName)
        [.note (.commit value dataName)] dataName
  | opens (hroom : captain.proposers.size < captain.windowSize)
      (hempty : captain.tocommitValues = []) :
      CommitStep captain value dataName
        (captain.openSlot value dataName 1 (captain.mode = .multi)).1
        (.note (.commit value dataName) ::
          (captain.openSlot value dataName 1 (captain.mode = .multi)).2) dataName
  | passes {front : PropValue} {frontName : Name} {popped : Captain}
      (hroom : captain.proposers.size < captain.windowSize)
      (hwaiting : captain.tocommitValues ≠ [])
      (hpop : (captain.pushBack value dataName).popFront = some (front, frontName, popped)) :
      CommitStep captain value dataName
        (popped.openSlot front frontName 1 (popped.mode = .multi)).1
        (.note (.commit value dataName) ::
          (popped.openSlot front frontName 1 (popped.mode = .multi)).2) frontName

theorem popFront_eq_some {captain popped : Captain} {front : PropValue} {frontName : Name}
    (hpop : captain.popFront = some (front, frontName, popped)) :
    ∃ values names, captain.tocommitValues = front :: values ∧
      captain.tocommitClients = frontName :: names ∧
      popped = { captain with tocommitValues := values, tocommitClients := names } := by
  unfold popFront at hpop
  split at hpop
  next value values name names hvalues hnames =>
    simp only [Option.some.injEq, Prod.mk.injEq] at hpop
    obtain ⟨rfl, rfl, rfl⟩ := hpop
    exact ⟨values, names, hvalues, hnames, rfl⟩
  next => simp at hpop

theorem commit_step {captain final : Captain} {value : PropValue} {dataName ref : Name}
    {outs : List Output} (hcommit : captain.commit value dataName = some (final, outs, ref)) :
    CommitStep captain value dataName final outs ref := by
  simp only [commit] at hcommit
  by_cases hover : captain.windowSize < captain.proposers.size
  · simp only [hover, if_true, Option.some.injEq, Prod.mk.injEq] at hcommit
    obtain ⟨rfl, rfl, rfl⟩ := hcommit
    exact .dropped hover
  by_cases hfull : captain.proposers.size = captain.windowSize
  · rw [if_neg hover, if_pos hfull, Option.some.injEq, Prod.mk.injEq, Prod.mk.injEq] at hcommit
    obtain ⟨rfl, rfl, rfl⟩ := hcommit
    exact .waits hfull
  have hroom : captain.proposers.size < captain.windowSize := by omega
  by_cases hwaiting : captain.tocommitValues = []
  · simp only [hover, hfull, hwaiting, if_false, List.length_nil, lt_irrefl,
      Option.some.injEq, Prod.mk.injEq] at hcommit
    obtain ⟨rfl, rfl, rfl⟩ := hcommit
    exact .opens hroom hwaiting
  · have hpos : 0 < captain.tocommitValues.length := List.length_pos_iff.mpr hwaiting
    simp only [hover, hfull, hpos, if_false, if_true, Option.bind_eq_bind,
      Option.bind_eq_some_iff, Prod.exists, pure, Option.some.injEq, Prod.mk.injEq] at hcommit
    obtain ⟨front, frontName, popped, hpop, rfl, rfl, rfl⟩ := hcommit
    exact .passes hroom hwaiting hpop

/-- The name that a commit hands on. -/
def supplied (captain : Captain) (name : Option Name) : Name := name.getD captain.dumName

theorem commitRef_step {captain final : Captain} {value : PropValue} {name : Option Name}
    {outs : List Output} (hcommit : captain.commitRef value name = some (final, outs)) :
    ∃ next ref, CommitStep captain value (captain.supplied name) next outs ref ∧
      final = { next with dumName := if name.isNone then ref else next.dumName } := by
  cases name with
  | none =>
      simp only [commitRef, Option.bind_eq_bind, Option.bind_eq_some_iff, Prod.exists, pure,
        Option.some.injEq, Prod.mk.injEq] at hcommit
      obtain ⟨next, outs', ref, hnext, rfl, rfl⟩ := hcommit
      exact ⟨next, ref, commit_step hnext, rfl⟩
  | some name =>
      simp only [commitRef, Option.bind_eq_bind, Option.bind_eq_some_iff, Prod.exists, pure,
        Option.some.injEq, Prod.mk.injEq] at hcommit
      obtain ⟨next, outs', ref, hnext, rfl, rfl⟩ := hcommit
      exact ⟨next, ref, commit_step hnext, rfl⟩

def withoutProposer (captain : Captain) (slot : ℕ) : Captain :=
  { captain with proposers := captain.proposers.erase slot }

inductive FinishStep (captain : Captain) (slot : ℕ) (info : ProposerInfo)
    (chosen : PropValue) (dataName : Name) : Captain → List Output → Prop where
  | idle (hown : chosen.id = info.currProposer.initValue.id)
      (hempty : captain.tocommitValues = []) :
      FinishStep captain slot info chosen dataName (captain.withoutProposer slot)
        [.note (.chose slot chosen info.currProposer.initValue)]
  | next {front : PropValue} {frontName : Name} {popped : Captain}
      (hown : chosen.id = info.currProposer.initValue.id)
      (hpop : (captain.withoutProposer slot).popFront = some (front, frontName, popped)) :
      FinishStep captain slot info chosen dataName
        (popped.openSlot front frontName 1 (popped.mode = .multi)).1
        (.note (.chose slot chosen info.currProposer.initValue) ::
          (popped.openSlot front frontName 1 (popped.mode = .multi)).2)
  | recommit (hforeign : chosen.id ≠ info.currProposer.initValue.id) :
      FinishStep captain slot info chosen dataName
        ((captain.withoutProposer slot).openSlot info.currProposer.initValue dataName
          (info.tryTime + 1) false).1
        (.note (.chose slot chosen info.currProposer.initValue) ::
          ((captain.withoutProposer slot).openSlot info.currProposer.initValue dataName
            (info.tryTime + 1) false).2)

theorem finishChoose_step {captain final : Captain} {slot : ℕ} {info : ProposerInfo}
    {chosen : PropValue} {dataName : Name} {outs : List Output}
    (hfinish : captain.finishChoose slot info chosen dataName = some (final, outs)) :
    FinishStep captain slot info chosen dataName final outs := by
  simp only [finishChoose, Proposer.getInitValue] at hfinish
  by_cases hown : chosen.id = info.currProposer.initValue.id
  · by_cases hempty : captain.tocommitValues = []
    · have hisEmpty : captain.tocommitValues.isEmpty = true := by simp [hempty]
      simp only [hown, hisEmpty, if_true, Option.some.injEq, Prod.mk.injEq] at hfinish
      obtain ⟨rfl, rfl⟩ := hfinish
      exact .idle hown hempty
    · have hwaiting : captain.tocommitValues.isEmpty = false := by simpa using hempty
      simp only [hown, hwaiting, if_true, Bool.false_eq_true, if_false, Option.bind_eq_bind,
        Option.bind_eq_some_iff, Prod.exists, pure, Option.some.injEq,
        Prod.mk.injEq] at hfinish
      obtain ⟨front, frontName, popped, hpop, rfl, rfl⟩ := hfinish
      exact .next hown hpop
  · simp only [hown, if_false, Option.some.injEq, Prod.mk.injEq] at hfinish
    obtain ⟨rfl, rfl⟩ := hfinish
    exact .recommit hown

/-! ## The moves -/

/-- What a move may rely on: the messages that can have been received, the
calls the application makes, the proposers that may retire, and the name under
which the handled message arrived. -/
structure Setting where
  received : Message → Prop := fun _ => True
  calls : Call → Prop := fun _ => True
  retires : ℕ → ProposerInfo → Prop := fun _ _ => True
  dataName : Name := []

inductive Learnable (setting : Setting) (captain : Captain) (slot : ℕ)
    (value : PropValue) : Prop where
  | own {info : ProposerInfo} (hinfo : captain.proposers[slot]? = some info)
      (hstatus : info.proposerStatus = .chosen)
      (hvalue : info.currProposer.currValue = some value)
      (hretires : setting.retires slot info)
  | decided {msg : MsgDecide} (hreceived : setting.received (.decide msg))
      (hslot : msg.msgHeader.slotId = slot)
      (hvalue : (captain.acceptorOf slot).maxValue = some value)
      (hid : value.id = msg.valueId)
  | taught {msg : MsgTeach} (hreceived : setting.received (.teach msg))
      (hslot : msg.msgHeader.slotId = slot) (hvalue : msg.propValue = value)

def AcceptorUpdate (captain : Captain) (slot : ℕ) (acceptor : Acceptor)
    (acceptors : List (Option Acceptor)) : Prop :=
  ∀ other, ({ captain with acceptors } : Captain).acceptorOf other =
    if other = slot then acceptor else captain.acceptorOf other

def acceptAnswer (captain : Captain) (msg : MsgAccept) : MsgAckAccept :=
  ((captain.acceptorOf msg.msgHeader.slotId).handleMsgAccept captain.view msg).1

def prepareAnswer (captain : Captain) (msg : MsgPrepare) : MsgAckPrepare :=
  ((captain.acceptorOf msg.msgHeader.slotId).handleMsgPrepare captain.view msg).1

theorem acceptAnswer_msgHeader (captain : Captain) (msg : MsgAccept) :
    (captain.acceptAnswer msg).msgHeader =
      { nodeId := captain.whoami, slotId := msg.msgHeader.slotId } :=
  Acceptor.handleMsgAccept_msgHeader _ _ _

theorem acceptAnswer_ballotId (captain : Captain) (msg : MsgAccept) :
    (captain.acceptAnswer msg).ballotId = msg.ballotId :=
  Acceptor.handleMsgAccept_ballotId _ _ _

theorem prepareAnswer_msgHeader (captain : Captain) (msg : MsgPrepare) :
    (captain.prepareAnswer msg).msgHeader =
      { nodeId := captain.whoami, slotId := msg.msgHeader.slotId } :=
  Acceptor.handleMsgPrepare_msgHeader _ _ _

theorem prepareAnswer_ballotId (captain : Captain) (msg : MsgPrepare) :
    (captain.prepareAnswer msg).ballotId = msg.ballotId :=
  Acceptor.handleMsgPrepare_ballotId _ _ _

inductive ForwardMove (setting : Setting) (captain : Captain) :
    List Output → Captain → Prop where
  | crash (hcall : setting.calls .crash) :
      ForwardMove setting captain [] { captain with work := false }
  | forward {value : PropValue} {name : Option Name} {outs : List Output}
      (hcall : setting.calls (.commitData value.data name))
      (hmaster : captain.view.ifMaster = false) (hid : value.id = captain.valueId + 2 ^ 16)
      (hsend : captain.sendInterest captain.view.masterId
        (.commit { msgHeader := { nodeId := captain.whoami, slotId := 0 },
                   propValue := value }) = some outs) :
      ForwardMove setting captain (.note (.forward value) :: outs)
        { captain with valueId := captain.valueId + 2 ^ 16, commitOk := false }
  | echo {msg : MsgCommit} (hreceived : setting.received (.commit msg))
      (hmaster : captain.view.ifMaster = true) :
      ForwardMove setting captain
        (sendData msg.msgHeader.nodeId (.commit msg) ++ [.note (.request msg.propValue)])
        captain
  | reply {msg : MsgCommit} (hreceived : setting.received (.commit msg))
      (hmaster : captain.view.ifMaster = false) :
      ForwardMove setting captain [.note (.reply msg.propValue)] { captain with commitOk := true }

inductive AcceptorMove (setting : Setting) (captain : Captain) :
    List Output → Captain → Prop where
  | prepare {msg : MsgPrepare} {acceptors : List (Option Acceptor)}
      (hreceived : setting.received (.prepare msg))
      (hupdate : captain.AcceptorUpdate msg.msgHeader.slotId
        ((captain.acceptorOf msg.msgHeader.slotId).handleMsgPrepare captain.view msg).2
        acceptors) :
      AcceptorMove setting captain
        (captain.answer msg.msgHeader.nodeId (.promise (captain.prepareAnswer msg)))
        { captain with acceptors }
  | accept {msg : MsgAccept} {acceptors : List (Option Acceptor)}
      (hreceived : setting.received (.accept msg))
      (hupdate : captain.AcceptorUpdate msg.msgHeader.slotId
        ((captain.acceptorOf msg.msgHeader.slotId).handleMsgAccept captain.view msg).2
        acceptors) :
      AcceptorMove setting captain
        ((if (captain.acceptAnswer msg).reply then
            [.note (.accepted msg.msgHeader.slotId msg.ballotId msg.propValue)] else []) ++
          captain.answer msg.msgHeader.nodeId (.accepted (captain.acceptAnswer msg)))
        { captain with acceptors }

inductive ProposerMove (setting : Setting) (captain : Captain) :
    List Output → Captain → Prop where
  | promised {msg : MsgAckPrepare} {info : ProposerInfo} {ack : AckType} {proposer : Proposer}
      (hreceived : setting.received (.promise msg))
      (hinfo : captain.proposers[msg.msgHeader.slotId]? = some info)
      (hstatus : info.Preparing)
      (hack : info.currProposer.handleMsgPromise captain.view msg = some (ack, proposer))
      (hstays : ack ≠ .continuePhase ∧ ack ≠ .restart) :
      ProposerMove setting captain []
        (captain.setProposer msg.msgHeader.slotId
          { info with currProposer := proposer, proposerStatus := .phaseI })
  | promiseRestart {msg : MsgAckPrepare} {info : ProposerInfo} {proposer : Proposer}
      (hreceived : setting.received (.promise msg))
      (hinfo : captain.proposers[msg.msgHeader.slotId]? = some info)
      (hstatus : info.Preparing)
      (hack : info.currProposer.handleMsgPromise captain.view msg = some (.restart, proposer)) :
      ProposerMove setting captain
        (captain.restart msg.msgHeader.slotId { info with currProposer := proposer }).2
        (captain.restart msg.msgHeader.slotId { info with currProposer := proposer }).1
  | continued {msg : MsgAckPrepare} {info : ProposerInfo} {proposer : Proposer}
      {outs : List Output} {final : Captain}
      (hreceived : setting.received (.promise msg))
      (hinfo : captain.proposers[msg.msgHeader.slotId]? = some info)
      (hstatus : info.Preparing)
      (hack : info.currProposer.handleMsgPromise captain.view msg =
        some (.continuePhase, proposer))
      (henter : captain.enterPhaseII msg.msgHeader.slotId
        { info with currProposer := proposer } = some (final, outs)) :
      ProposerMove setting captain outs final
  | acked {msg : MsgAckAccept} {info : ProposerInfo} {ack : AckType} {proposer : Proposer}
      (hreceived : setting.received (.accepted msg))
      (hinfo : captain.proposers[msg.msgHeader.slotId]? = some info)
      (hstatus : info.proposerStatus = .phaseII)
      (hack : info.currProposer.handleMsgAccepted msg = (ack, proposer))
      (hstays : ack = .drop ∨ ack = .notEnough) :
      ProposerMove setting captain []
        (captain.setProposer msg.msgHeader.slotId { info with currProposer := proposer })
  | ackRestart {msg : MsgAckAccept} {info : ProposerInfo} {proposer : Proposer}
      (hreceived : setting.received (.accepted msg))
      (hinfo : captain.proposers[msg.msgHeader.slotId]? = some info)
      (hstatus : info.proposerStatus = .phaseII)
      (hack : info.currProposer.handleMsgAccepted msg = (.restart, proposer)) :
      ProposerMove setting captain
        (captain.restart msg.msgHeader.slotId { info with currProposer := proposer }).2
        (captain.restart msg.msgHeader.slotId { info with currProposer := proposer }).1
  | chosen {msg : MsgAckAccept} {info : ProposerInfo} {proposer : Proposer}
      (hreceived : setting.received (.accepted msg))
      (hinfo : captain.proposers[msg.msgHeader.slotId]? = some info)
      (hstatus : info.proposerStatus = .phaseII)
      (hack : info.currProposer.handleMsgAccepted msg = (.choose, proposer)) :
      ProposerMove setting captain []
        (captain.setProposer msg.msgHeader.slotId
          { info with currProposer := proposer, proposerStatus := .chosen })

inductive LearnerMove (setting : Setting) (captain : Captain) :
    List Output → Captain → Prop where
  | tell {slot : ℕ} {info : ProposerInfo} {value : PropValue}
      (hinfo : captain.proposers[slot]? = some info)
      (hstatus : info.proposerStatus = .chosen)
      (hvalue : info.currProposer.currValue = some value)
      (hown : value.id = info.currProposer.initValue.id)
      (hretires : setting.retires slot info) :
      LearnerMove setting captain
        (.note (.informClient slot info.tryTime info.clientName) ::
          if captain.callbackLatency then
            [.note (.callbackLatency slot value info.tryTime)] else [])
        captain
  | learn {slot : ℕ} {value : PropValue} {outs : List Output} {final : Captain}
      (hlearn : Learnable setting captain slot value)
      (hadd : captain.addChosenValue slot value = some (final, outs)) :
      LearnerMove setting captain outs final
  | teach {msg : MsgLearn} {stored : PropValue} {teach : Message} {outs : List Output}
      (hreceived : setting.received (.learn msg))
      (hstored : captain.chosenAt msg.msgHeader.slotId = some stored)
      (hteach : captain.answerLearn msg.msgHeader.slotId (toNodeId msg.msgHeader.nodeId) =
        some teach)
      (hsend : captain.sendInterest msg.msgHeader.nodeId teach = some outs) :
      LearnerMove setting captain outs captain
  | inquire {msg : MsgDecide} (hreceived : setting.received (.decide msg)) :
      LearnerMove setting captain
        (sendData msg.msgHeader.nodeId
          (.learn { msgHeader := { nodeId := captain.whoami,
                                   slotId := msg.msgHeader.slotId } }))
        captain

/-- The moves that neither touch the queues nor open or close a slot. -/
inductive BaseMove (setting : Setting) (captain : Captain) (outs : List Output)
    (final : Captain) : Prop where
  | forwarding (hmove : ForwardMove setting captain outs final)
  | acceptor (hmove : AcceptorMove setting captain outs final)
  | proposer (hmove : ProposerMove setting captain outs final)
  | learner (hmove : LearnerMove setting captain outs final)

inductive CommitSource (setting : Setting) (captain : Captain) (value : PropValue) :
    ℕ → Prop where
  | called {name : Option Name} (hcall : setting.calls (.commit value name)) :
      CommitSource setting captain value captain.valueId
  | changed (hcall : setting.calls (.masterChange value)) :
      CommitSource setting captain value captain.valueId
  | numbered {name : Option Name} (hcall : setting.calls (.commitData value.data name))
      (hid : value.id = captain.valueId + 2 ^ 16) :
      CommitSource setting captain value (captain.valueId + 2 ^ 16)
  | requested {msg : MsgCommit} (hreceived : setting.received (.commit msg))
      (hvalue : msg.propValue = value) : CommitSource setting captain value captain.valueId

inductive Move (setting : Setting) (captain : Captain) :
    List Output → Captain → Prop where
  | base {outs : List Output} {final : Captain}
      (hmove : BaseMove setting captain outs final) : Move setting captain outs final
  | commit {value : PropValue} {name : Option Name} {valueId : ℕ} {next : Captain}
      {ref : Name} {outs : List Output} (hsource : CommitSource setting captain value valueId)
      (hstep : CommitStep captain value (captain.supplied name) next outs ref) :
      Move setting captain outs
        { next with valueId, dumName := if name.isNone then ref else next.dumName }
  | command {value command : PropValue} (hcall : setting.calls (.masterChange value))
      (hmaster : captain.view.ifMaster = false)
      (hid : command.id = captain.valueId + 2 ^ 16) :
      Move setting captain [.note (.command command)]
        { captain with
          valueId := captain.valueId + 2 ^ 16
          tocommitValues := captain.tocommitValues ++ [command] }
  | finish {slot : ℕ} {info : ProposerInfo} {value stored : PropValue}
      {outs : List Output} {final : Captain}
      (hinfo : captain.proposers[slot]? = some info)
      (hstatus : info.proposerStatus = .chosen)
      (hvalue : info.currProposer.currValue = some value)
      (hstored : captain.chosenAt slot = some stored)
      (hretires : setting.retires slot info)
      (hstep : FinishStep captain slot info value setting.dataName final outs) :
      Move setting captain (captain.announce slot value ++ outs) final

/-! ## Calls as chains of moves -/

theorem openSlot_renumber (captain : Captain) (valueId : ℕ) (value : PropValue) (name : Name)
    (tryTime : ℕ) (skipPhaseI : Bool) :
    { captain with valueId }.openSlot value name tryTime skipPhaseI =
      ({ (captain.openSlot value name tryTime skipPhaseI).1 with valueId },
        (captain.openSlot value name tryTime skipPhaseI).2) := by
  cases skipPhaseI <;> rfl

theorem CommitStep.renumber {captain next : Captain} {valueId : ℕ} {value : PropValue}
    {dataName ref : Name} {outs : List Output}
    (hstep : CommitStep { captain with valueId } value dataName next outs ref) :
    ∃ next', CommitStep captain value dataName next' outs ref ∧
      next = { next' with valueId } := by
  cases hstep with
  | dropped hfull => exact ⟨captain, .dropped hfull, rfl⟩
  | waits hfull => exact ⟨captain.pushBack value dataName, .waits hfull, rfl⟩
  | opens hroom hempty =>
      rw [openSlot_renumber]
      exact ⟨_, .opens hroom hempty, rfl⟩
  | @passes front frontName popped hroom hwaiting hpop =>
      obtain ⟨values, names, hvalues, hnames, rfl⟩ := popFront_eq_some hpop
      let popped : Captain := { captain.pushBack value dataName with
        tocommitValues := values, tocommitClients := names }
      have hpop' : (captain.pushBack value dataName).popFront = some (front, ref, popped) := by
        change captain.tocommitValues ++ [value] = front :: values at hvalues
        change captain.tocommitClients ++ [dataName] = ref :: names at hnames
        simp [popped, popFront, pushBack, hvalues, hnames]
      have hpasses :=
        @CommitStep.passes captain value dataName front ref popped hroom hwaiting hpop'
      have hopened := openSlot_renumber popped valueId front ref 1 (popped.mode = .multi)
      have houts := congrArg (fun opened : Captain × List Output => CommitStep captain value
        dataName (popped.openSlot front ref 1 (popped.mode = .multi)).1
          (.note (.commit value dataName) :: opened.2) ref) hopened
      exact ⟨_, houts.mpr hpasses, congrArg Prod.fst hopened⟩

theorem commitRef_moves {setting : Setting} {captain final : Captain} {value : PropValue}
    {name : Option Name} {valueId : ℕ} {outs : List Output}
    (hsource : CommitSource setting captain value valueId)
    (hcommit : { captain with valueId }.commitRef value name = some (final, outs)) :
    OutputChain (Move setting) captain outs final := by
  obtain ⟨next, ref, hstep, rfl⟩ := commitRef_step hcommit
  obtain ⟨next', hstep', rfl⟩ := hstep.renumber
  have hmove : Move setting captain outs
      { next' with valueId, dumName := if name.isNone then ref else next'.dumName } :=
    .commit hsource hstep'
  exact .single hmove

theorem commitData_moves {setting : Setting} {captain final : Captain} {data : Bytes}
    {name : Option Name} {outs : List Output}
    (hallowed : setting.calls (.commitData data name))
    (hcommit : captain.commitData data name = some (final, outs)) :
    OutputChain (Move setting) captain outs final := by
  simp only [commitData] at hcommit
  cases hmaster : captain.view.ifMaster with
  | true =>
      simp only [hmaster, if_true] at hcommit
      exact commitRef_moves (.numbered hallowed rfl) hcommit
  | false =>
      simp only [hmaster, Bool.false_eq_true, if_false, Option.bind_eq_bind,
        Option.bind_eq_some_iff, pure, Option.some.injEq, Prod.mk.injEq] at hcommit
      obtain ⟨sent, hsend, rfl, rfl⟩ := hcommit
      exact .single (.base (.forwarding (.forward hallowed hmaster rfl hsend)))

theorem masterChange_moves {setting : Setting} {captain final : Captain} {value : PropValue}
    {outs : List Output} (hallowed : setting.calls (.masterChange value))
    (hchange : captain.masterChange value = some (final, outs)) :
    OutputChain (Move setting) captain outs final := by
  simp only [masterChange] at hchange
  cases hmaster : captain.view.ifMaster with
  | true =>
      simp only [hmaster, if_true] at hchange
      exact commitRef_moves (.changed hallowed) hchange
  | false =>
      simp only [hmaster, Bool.false_eq_true, if_false, Option.bind_eq_bind,
        Option.bind_eq_some_iff, Prod.exists, pure, Option.some.injEq,
        Prod.mk.injEq] at hchange
      obtain ⟨next, outs', hcommit, rfl, rfl⟩ := hchange
      exact .cons (.command hallowed hmaster rfl) (commitRef_moves (.changed hallowed) hcommit)

theorem call_moves {setting : Setting} {captain final : Captain} {call : Call}
    {outs : List Output} (hallowed : setting.calls call)
    (hcall : captain.call call = some (final, outs)) :
    OutputChain (Move setting) captain outs final := by
  cases call with
  | commit value name => exact commitRef_moves (.called hallowed) hcall
  | commitData data name => exact commitData_moves hallowed hcall
  | masterChange value => exact masterChange_moves hallowed hcall
  | crash =>
      simp only [Captain.call, Option.some.injEq, Prod.mk.injEq] at hcall
      obtain ⟨rfl, rfl⟩ := hcall
      exact .single (.base (.forwarding (.crash hallowed)))

theorem runCalls_moves {setting : Setting} {captain final : Captain} {calls : List Call}
    {outs : List Output} (hallowed : ∀ call ∈ calls, setting.calls call)
    (hrun : captain.runCalls calls = some (final, outs)) :
    OutputChain (Move setting) captain outs final := by
  induction calls generalizing captain outs with
  | nil =>
      simp only [runCalls, Option.some.injEq, Prod.mk.injEq] at hrun
      obtain ⟨rfl, rfl⟩ := hrun
      exact .nil captain
  | cons call rest ih =>
      simp only [runCalls, Option.bind_eq_bind, Option.bind_eq_some_iff, Prod.exists, pure,
        Option.some.injEq, Prod.mk.injEq] at hrun
      obtain ⟨next, first, hcall, last, others, hrest, rfl, rfl⟩ := hrun
      have hfirst := call_moves (hallowed call (List.mem_cons_self ..)) hcall
      exact hfirst.append (ih (fun call hmem => hallowed call (List.mem_cons_of_mem _ hmem)) hrest)

structure CallFrame (before after : Captain) : Prop where
  view : after.view = before.view
  chosenValues : after.chosenValues = before.chosenValues
  maxChosen : after.maxChosen = before.maxChosen
  maxChosenWithoutHole : after.maxChosenWithoutHole = before.maxChosenWithoutHole
  maxSlot : before.maxSlot ≤ after.maxSlot
  proposers : ∀ slot ≤ before.maxSlot, after.proposers[slot]? = before.proposers[slot]?

theorem CallFrame.refl (captain : Captain) : CallFrame captain captain where
  view := rfl
  chosenValues := rfl
  maxChosen := rfl
  maxChosenWithoutHole := rfl
  maxSlot := le_rfl
  proposers := fun _ _ => rfl

theorem CallFrame.trans {first second third : Captain} (h₁ : CallFrame first second)
    (h₂ : CallFrame second third) : CallFrame first third where
  view := h₂.view.trans h₁.view
  chosenValues := h₂.chosenValues.trans h₁.chosenValues
  maxChosen := h₂.maxChosen.trans h₁.maxChosen
  maxChosenWithoutHole := h₂.maxChosenWithoutHole.trans h₁.maxChosenWithoutHole
  maxSlot := h₁.maxSlot.trans h₂.maxSlot
  proposers := by
    intro slot hle
    rw [h₂.proposers slot (hle.trans h₁.maxSlot), h₁.proposers slot hle]

theorem CallFrame.logShape {before after : Captain} (hframe : CallFrame before after)
    (hshape : LogShape before) : LogShape after where
  length := by rw [hframe.chosenValues, hframe.maxChosen, hshape.length]
  hole_le := by
    rw [hframe.maxChosenWithoutHole, hframe.maxChosen]
    exact hshape.hole_le

theorem openSlot_callFrame (captain : Captain) (value : PropValue) (name : Name)
    (tryTime : ℕ) (skipPhaseI : Bool) :
    CallFrame captain (captain.openSlot value name tryTime skipPhaseI).1 := by
  rw [openSlot_eq]
  refine ⟨rfl, rfl, rfl, rfl, Nat.le_succ _, ?_⟩
  intro slot hle
  have hne : captain.maxSlot + 1 ≠ slot := by omega
  simp [Std.TreeMap.getElem?_insert, hne]

theorem CommitStep.callFrame {captain final : Captain} {value : PropValue}
    {dataName ref : Name} {outs : List Output}
    (hstep : CommitStep captain value dataName final outs ref) : CallFrame captain final := by
  cases hstep with
  | dropped hfull => exact .refl captain
  | waits hfull => exact ⟨rfl, rfl, rfl, rfl, le_rfl, fun _ _ => rfl⟩
  | opens hroom hempty => exact openSlot_callFrame ..
  | passes hroom hwaiting hpop =>
      obtain ⟨values, names, _, _, rfl⟩ := popFront_eq_some hpop
      have hpopped : CallFrame captain { captain.pushBack value dataName with
          tocommitValues := values, tocommitClients := names } :=
        ⟨rfl, rfl, rfl, rfl, le_rfl, fun _ _ => rfl⟩
      exact hpopped.trans (openSlot_callFrame ..)

theorem commitRef_callFrame {captain final : Captain} {value : PropValue}
    {name : Option Name} {outs : List Output}
    (hcommit : captain.commitRef value name = some (final, outs)) :
    CallFrame captain final := by
  obtain ⟨next, ref, hstep, rfl⟩ := commitRef_step hcommit
  have hnext := hstep.callFrame
  exact { hnext with }

theorem call_callFrame {captain final : Captain} {call : Call} {outs : List Output}
    (hcall : captain.call call = some (final, outs)) : CallFrame captain final := by
  cases call with
  | commit value name => exact commitRef_callFrame hcall
  | commitData data name =>
      simp only [Captain.call, commitData] at hcall
      split at hcall
      next =>
        have hframe := commitRef_callFrame hcall
        exact { hframe with }
      next =>
        simp only [Option.bind_eq_bind, Option.bind_eq_some_iff, pure, Option.some.injEq,
          Prod.mk.injEq] at hcall
        obtain ⟨sent, _, rfl, _⟩ := hcall
        exact ⟨rfl, rfl, rfl, rfl, le_rfl, fun _ _ => rfl⟩
  | masterChange value =>
      simp only [Captain.call, masterChange] at hcall
      split at hcall
      next => exact commitRef_callFrame hcall
      next =>
        simp only [Option.bind_eq_bind, Option.bind_eq_some_iff, Prod.exists, pure,
          Option.some.injEq, Prod.mk.injEq] at hcall
        obtain ⟨next, outs', hcommit, rfl, _⟩ := hcall
        have hframe := commitRef_callFrame hcommit
        exact { hframe with }
  | crash =>
      simp only [Captain.call, Option.some.injEq, Prod.mk.injEq] at hcall
      obtain ⟨rfl, _⟩ := hcall
      exact ⟨rfl, rfl, rfl, rfl, le_rfl, fun _ _ => rfl⟩

theorem runCalls_callFrame {captain final : Captain} {calls : List Call}
    {outs : List Output} (hrun : captain.runCalls calls = some (final, outs)) :
    CallFrame captain final := by
  induction calls generalizing captain outs with
  | nil =>
      simp only [runCalls, Option.some.injEq, Prod.mk.injEq] at hrun
      obtain ⟨rfl, _⟩ := hrun
      exact .refl captain
  | cons call rest ih =>
      simp only [runCalls, Option.bind_eq_bind, Option.bind_eq_some_iff, Prod.exists, pure,
        Option.some.injEq, Prod.mk.injEq] at hrun
      obtain ⟨next, first, hcall, last, others, hrest, rfl, _⟩ := hrun
      exact (call_callFrame hcall).trans (ih hrest)

/-! ## Handlers as chains of moves -/

theorem growAcceptors_spec {captain grown : Captain} {slot : ℕ}
    (hgrow : captain.growAcceptors slot = some grown) :
    grown = { captain with acceptors := grown.acceptors } ∧
      slot < grown.acceptors.length ∧
      ∀ other, grown.acceptorOf other = captain.acceptorOf other := by
  unfold growAcceptors at hgrow
  split at hgrow
  next hlt =>
    rw [Option.some.injEq] at hgrow
    subst hgrow
    exact ⟨rfl, hlt, fun _ => rfl⟩
  next hge =>
    split at hgrow
    next =>
      rw [Option.some.injEq] at hgrow
      subst hgrow
      refine ⟨rfl, ?_, ?_⟩
      · simp only [List.length_append, List.length_replicate]
        omega
      · intro other
        simp only [acceptorOf, acceptorAt]
        by_cases hold : other < captain.acceptors.length
        · rw [List.getElem?_append_left hold]
        · have hnew : captain.acceptors[other]? = none := List.getElem?_eq_none (by omega)
          rw [List.getElem?_append_right (by omega), hnew, List.getElem?_replicate]
          split <;> rfl
    next => simp at hgrow

theorem grown_acceptorAt {captain grown : Captain} {slot : ℕ} {acceptor : Acceptor}
    (hgrow : captain.growAcceptors slot = some grown)
    (hacceptor : grown.acceptorAt slot = some acceptor) :
    grown.view = captain.view ∧ grown.answer = captain.answer ∧
      acceptor = captain.acceptorOf slot := by
  obtain ⟨hframe, _, hsame⟩ := growAcceptors_spec hgrow
  refine ⟨?_, ?_, ?_⟩
  · rw [hframe]
  · rw [hframe]
    rfl
  · rw [← hsame, acceptorOf, hacceptor]
    rfl

theorem setAcceptor_update {captain grown : Captain} {slot : ℕ} (acceptor : Acceptor)
    (hgrow : captain.growAcceptors slot = some grown) :
    grown.setAcceptor slot acceptor =
        { captain with acceptors := (grown.setAcceptor slot acceptor).acceptors } ∧
      captain.AcceptorUpdate slot acceptor (grown.setAcceptor slot acceptor).acceptors := by
  obtain ⟨hframe, hlt, hsame⟩ := growAcceptors_spec hgrow
  refine ⟨?_, ?_⟩
  · rw [setAcceptor, hframe]
  · intro other
    rw [← hsame other]
    simp only [setAcceptor, acceptorOf, acceptorAt]
    by_cases heq : other = slot
    · subst heq
      rw [if_pos rfl, List.getElem?_set_self hlt]
      rfl
    · rw [if_neg heq, List.getElem?_set_ne (Ne.symm heq)]

theorem handlePrepare_move {setting : Setting} {captain final : Captain} {msg : MsgPrepare}
    {outs : List Output} (hreceived : setting.received (.prepare msg))
    (hhandle : captain.handlePrepare msg = some (final, outs)) :
    AcceptorMove setting captain outs final := by
  simp only [handlePrepare, Option.bind_eq_bind, Option.bind_eq_some_iff, pure,
    Option.some.injEq, Prod.mk.injEq] at hhandle
  obtain ⟨grown, hgrow, acceptor, hacceptor, rfl, rfl⟩ := hhandle
  obtain ⟨hview, hanswer, rfl⟩ := grown_acceptorAt hgrow hacceptor
  obtain ⟨hset, hupdate⟩ := setAcceptor_update
    ((captain.acceptorOf msg.msgHeader.slotId).handleMsgPrepare captain.view msg).2 hgrow
  rw [hview, hanswer, hset]
  exact .prepare hreceived hupdate

theorem handleAccept_move {setting : Setting} {captain final : Captain} {msg : MsgAccept}
    {outs : List Output} (hreceived : setting.received (.accept msg))
    (hhandle : captain.handleAccept msg = some (final, outs)) :
    AcceptorMove setting captain outs final := by
  simp only [handleAccept, Option.bind_eq_bind, Option.bind_eq_some_iff, pure,
    Option.some.injEq, Prod.mk.injEq] at hhandle
  obtain ⟨grown, hgrow, acceptor, hacceptor, rfl, rfl⟩ := hhandle
  obtain ⟨hview, hanswer, rfl⟩ := grown_acceptorAt hgrow hacceptor
  obtain ⟨hset, hupdate⟩ := setAcceptor_update
    ((captain.acceptorOf msg.msgHeader.slotId).handleMsgAccept captain.view msg).2 hgrow
  rw [hview, hanswer, hset]
  exact .accept hreceived hupdate

/-- A PROMISE goes to a proposer in Phase I or is ignored. -/
theorem handlePromise_move {setting : Setting} {captain final : Captain}
    {msg : MsgAckPrepare} {outs : List Output} (hreceived : setting.received (.promise msg))
    (hhandle : captain.handlePromise msg = some (final, outs)) :
    ProposerMove setting captain outs final ∨ (final = captain ∧ outs = [] ∧
      ∀ info, captain.proposers[msg.msgHeader.slotId]? = some info → ¬ info.Preparing) := by
  simp only [handlePromise] at hhandle
  cases hinfo : captain.proposers[msg.msgHeader.slotId]? with
  | none =>
      simp only [hinfo, Option.some.injEq, Prod.mk.injEq] at hhandle
      obtain ⟨rfl, rfl⟩ := hhandle
      exact .inr ⟨rfl, rfl, by simp⟩
  | some info =>
      simp only [hinfo] at hhandle
      by_cases hstatus : info.Preparing
      · left
        have hcondition : info.proposerStatus = .init ∨ info.proposerStatus = .phaseI := hstatus
        simp only [hcondition, if_true, Option.bind_eq_bind, Option.bind_eq_some_iff,
          Prod.exists] at hhandle
        obtain ⟨ack, proposer, hack, hrest⟩ := hhandle
        split at hrest
        next => exact .continued hreceived hinfo hstatus hack hrest
        next =>
          simp only [Option.some.injEq] at hrest
          have hmove := ProposerMove.promiseRestart hreceived hinfo hstatus hack
          have hfinal : captain.restart msg.msgHeader.slotId
              { info with currProposer := proposer } = (final, outs) := hrest
          rwa [hfinal] at hmove
        next hcontinue hrestart =>
          simp only [Option.some.injEq, Prod.mk.injEq] at hrest
          obtain ⟨rfl, rfl⟩ := hrest
          exact .promised hreceived hinfo hstatus hack
            ⟨fun heq => hcontinue heq, fun heq => hrestart heq⟩
      · have hcondition : ¬ (info.proposerStatus = .init ∨ info.proposerStatus = .phaseI) :=
          hstatus
        simp only [hcondition, if_false, Option.some.injEq, Prod.mk.injEq] at hhandle
        obtain ⟨rfl, rfl⟩ := hhandle
        refine .inr ⟨rfl, rfl, ?_⟩
        intro other hother
        rw [Option.some.injEq] at hother
        exact hother ▸ hstatus

theorem notifyOwn_moves {setting : Setting} {captain final : Captain} {slot : ℕ}
    {info : ProposerInfo} {chosen : PropValue} {calls : List Call} {outs : List Output}
    (hinfo : captain.proposers[slot]? = some info) (hstatus : info.proposerStatus = .chosen)
    (hvalue : info.currProposer.currValue = some chosen)
    (hretires : setting.retires slot info)
    (hallowed : ∀ call ∈ calls, setting.calls call)
    (hnotify : captain.notifyOwn slot info chosen calls = some (final, outs)) :
    OutputChain (Move setting) captain outs final ∧ CallFrame captain final := by
  simp only [notifyOwn, Proposer.getInitValue] at hnotify
  by_cases hown : chosen.id = info.currProposer.initValue.id
  · have htell : LearnerMove setting captain _ captain := .tell hinfo hstatus hvalue hown hretires
    cases hlatency : captain.callbackLatency with
    | true =>
        simp only [hown, hlatency, if_true, Option.bind_eq_bind, Option.bind_eq_some_iff,
          Prod.exists, pure, Option.some.injEq, Prod.mk.injEq] at hnotify
        obtain ⟨next, outs', hrun, rfl, rfl⟩ := hnotify
        rw [hlatency, if_pos rfl] at htell
        exact ⟨.cons (.base (.learner htell)) (runCalls_moves hallowed hrun),
          runCalls_callFrame hrun⟩
    | false =>
        simp only [hown, hlatency, if_true, Bool.false_eq_true, if_false, Option.some.injEq,
          Prod.mk.injEq] at hnotify
        obtain ⟨rfl, rfl⟩ := hnotify
        rw [hlatency, if_neg (by simp)] at htell
        exact ⟨.single (.base (.learner htell)), .refl captain⟩
  · simp only [hown, if_false, Option.some.injEq, Prod.mk.injEq] at hnotify
    obtain ⟨rfl, rfl⟩ := hnotify
    exact ⟨.nil captain, .refl captain⟩

theorem choose_moves {setting : Setting} {captain final : Captain} {slot : ℕ}
    {info : ProposerInfo} {chosen : PropValue} {app : AppCalls} {outs : List Output}
    (hshape : LogShape captain) (hslot : slot ≤ captain.maxSlot)
    (hvalue : info.currProposer.currValue = some chosen)
    (hretires : setting.retires slot { info with proposerStatus := .chosen })
    (hallowed : ∀ call ∈ app.latency ++ app.apply, setting.calls call)
    (hchoose : captain.choose slot info chosen setting.dataName app = some (final, outs)) :
    OutputChain (Move setting)
      (captain.setProposer slot { info with proposerStatus := .chosen }) outs final := by
  simp only [choose, Option.bind_eq_bind, Option.bind_eq_some_iff, Prod.exists, pure,
    Option.some.injEq, Prod.mk.injEq] at hchoose
  obtain ⟨c₂, told, hnotify, c₃, applied, hadd, c₄, called, hcalls, c₅, finished, hfinish,
    rfl, rfl⟩ := hchoose
  have hinfo₁ : (captain.setProposer slot
      { info with proposerStatus := .chosen }).proposers[slot]? =
        some { info with proposerStatus := .chosen } := by
    simp [setProposer]
  obtain ⟨hchain₂, hframe₂⟩ := notifyOwn_moves hinfo₁ rfl hvalue hretires
    (fun call hmem => hallowed call (List.mem_append_left _ hmem)) hnotify
  have hinfo₂ := (hframe₂.proposers slot hslot).trans hinfo₁
  have hshape₂ : LogShape c₂ := hframe₂.logShape ⟨hshape.length, hshape.hole_le⟩
  obtain ⟨hframe₃, hshape₃, hchosen₃, _⟩ := addChosenValue_learned hshape₂ hadd
  have hlearn : LearnerMove setting c₂ applied c₃ := .learn (.own hinfo₂ rfl hvalue hretires) hadd
  have hproposers₃ : c₃.proposers = c₂.proposers := by rw [hframe₃]
  have hmaxSlot₃ : c₃.maxSlot = c₂.maxSlot := by rw [hframe₃]
  have hallowed₄ : ∀ call ∈ (if applied.isEmpty then [] else app.apply),
      setting.calls call := by
    intro call hmem
    split at hmem
    · simp at hmem
    · exact hallowed call (List.mem_append_right _ hmem)
  have hframe₄ := runCalls_callFrame hcalls
  have hinfo₄ : c₄.proposers[slot]? = some { info with proposerStatus := .chosen } := by
    rw [hframe₄.proposers slot (by rw [hmaxSlot₃]; exact hslot.trans hframe₂.maxSlot),
      hproposers₃, hinfo₂]
  obtain ⟨stored, hstored⟩ : ∃ stored, c₃.chosenAt slot = some stored := by
    rw [hchosen₃ slot, if_pos rfl]
    cases c₂.chosenAt slot with
    | none => exact ⟨chosen, rfl⟩
    | some old => exact ⟨old, rfl⟩
  have hstored₄ : c₄.chosenAt slot = some stored := by
    rw [← hstored, chosenAt, hframe₄.chosenValues]
    rfl
  have hfinal : Move setting c₄ _ c₅ :=
    .finish hinfo₄ rfl hvalue hstored₄ hretires (finishChoose_step hfinish)
  have hchain := (((hchain₂.append (.single (.base (.learner hlearn)))).append
    (runCalls_moves hallowed₄ hcalls)).append (.single hfinal))
  simpa only [List.append_assoc] using hchain

/-- The proposer that gets CHOOSE when the message is handled. -/
def chooses (captain : Captain) : Message → Option (ℕ × ProposerInfo)
  | .accepted msg =>
      match captain.proposers[msg.msgHeader.slotId]? with
      | some info =>
          if captain.work = true ∧ info.proposerStatus = .phaseII ∧
              (info.currProposer.handleMsgAccepted msg).1 = .choose then
            some (msg.msgHeader.slotId,
              { info with
                currProposer := (info.currProposer.handleMsgAccepted msg).2
                proposerStatus := .chosen })
          else none
      | none => none
  | _ => none

/-- An ACCEPTED goes to a proposer in Phase II, which may be at its end then, or
is ignored. -/
theorem handleAccepted_move {setting : Setting} {captain final : Captain}
    {msg : MsgAckAccept} {dataName : Name} {app : AppCalls} {outs : List Output}
    (hreceived : setting.received (.accepted msg))
    (hhandle : captain.handleAccepted msg dataName app = some (final, outs)) :
    ProposerMove setting captain outs final ∨
      (∃ info proposer chosen, captain.proposers[msg.msgHeader.slotId]? = some info ∧
        info.proposerStatus = .phaseII ∧
        info.currProposer.handleMsgAccepted msg = (.choose, proposer) ∧
        proposer.currValue = some chosen ∧
        captain.choose msg.msgHeader.slotId { info with currProposer := proposer } chosen
          dataName app = some (final, outs)) ∨
      (final = captain ∧ outs = [] ∧
        ∀ info, captain.proposers[msg.msgHeader.slotId]? = some info →
          info.proposerStatus ≠ .phaseII) := by
  simp only [handleAccepted] at hhandle
  cases hinfo : captain.proposers[msg.msgHeader.slotId]? with
  | none =>
      simp only [hinfo, Option.some.injEq, Prod.mk.injEq] at hhandle
      obtain ⟨rfl, rfl⟩ := hhandle
      exact .inr (.inr ⟨rfl, rfl, by simp⟩)
  | some info =>
      simp only [hinfo] at hhandle
      by_cases hstatus : info.proposerStatus = .phaseII
      · rw [if_pos hstatus] at hhandle
        obtain ⟨ack, proposer, hack⟩ : ∃ ack proposer,
            info.currProposer.handleMsgAccepted msg = (ack, proposer) := ⟨_, _, rfl⟩
        have hstep := Proposer.handleMsgAccepted_step hack
        simp only [hack] at hhandle
        cases hstep with
        | drops hold =>
            simp only [Option.some.injEq, Prod.mk.injEq] at hhandle
            obtain ⟨rfl, rfl⟩ := hhandle
            exact .inl (.acked hreceived hinfo hstatus hack (.inl rfl))
        | waits hballot hvalue =>
            simp only [Option.some.injEq, Prod.mk.injEq] at hhandle
            obtain ⟨rfl, rfl⟩ := hhandle
            exact .inl (.acked hreceived hinfo hstatus hack (.inr rfl))
        | restarts hballot hvalue =>
            simp only [Option.some.injEq] at hhandle
            have hmove := ProposerMove.ackRestart hreceived hinfo hstatus hack
            rw [hhandle] at hmove
            exact .inl hmove
        | chooses hballot hvalue htrue =>
            obtain ⟨chosen, hchosen⟩ := Option.isSome_iff_exists.mp hvalue
            have hcurr : (info.currProposer.recordAccept msg).currValue = some chosen := hchosen
            have hget : (info.currProposer.recordAccept msg).getChosenValue.getD {} = chosen := by
              rw [Proposer.getChosenValue, hcurr, Option.getD_some]
            simp only [hget] at hhandle
            exact .inr (.inl ⟨info, _, chosen, rfl, hstatus, hack, hcurr, hhandle⟩)
      · rw [if_neg hstatus, Option.some.injEq, Prod.mk.injEq] at hhandle
        obtain ⟨rfl, rfl⟩ := hhandle
        refine .inr (.inr ⟨rfl, rfl, ?_⟩)
        intro other hother
        rw [Option.some.injEq] at hother
        exact hother ▸ hstatus

theorem handleAccepted_moves {setting : Setting} {captain final : Captain}
    {msg : MsgAckAccept} {app : AppCalls} {outs : List Output}
    (hreceived : setting.received (.accepted msg)) (hwork : captain.work = true)
    (hshape : LogShape captain)
    (hkeys : ∀ slot info, captain.proposers[slot]? = some info → slot ≤ captain.maxSlot)
    (hretires : ∀ slot info, captain.chooses (.accepted msg) = some (slot, info) →
      setting.retires slot info)
    (hallowed : ∀ call ∈ app.latency ++ app.apply, setting.calls call)
    (hhandle : captain.handleAccepted msg setting.dataName app = some (final, outs)) :
    OutputChain (Move setting) captain outs final := by
  rcases handleAccepted_move hreceived hhandle with hmove |
    ⟨info, proposer, chosen, hinfo, hstatus, hack, hcurr, hchoose⟩ | ⟨rfl, rfl, _⟩
  · exact .single (.base (.proposer hmove))
  · have hchooses : captain.chooses (.accepted msg) =
        some (msg.msgHeader.slotId,
          { info with currProposer := proposer, proposerStatus := .chosen }) := by
      simp [chooses, hinfo, hwork, hstatus, hack]
    have hmove := ProposerMove.chosen hreceived hinfo hstatus hack
    exact .cons (.base (.proposer hmove)) (choose_moves hshape (hkeys _ _ hinfo) hcurr
      (hretires _ _ hchooses) hallowed hchoose)
  · exact .nil _

theorem storedValue_eq_some {captain : Captain} {slot valueId : ℕ} {value : PropValue}
    (hstored : captain.storedValue slot valueId = some (some value)) :
    (captain.acceptorOf slot).maxValue = some value ∧ value.id = valueId := by
  unfold storedValue at hstored
  split at hstored
  next => simp at hstored
  next => simp at hstored
  next acceptor hacceptor =>
    have hof : captain.acceptorOf slot = acceptor := by
      simp [acceptorOf, acceptorAt, hacceptor]
    split at hstored
    next stored hmax =>
      by_cases hid : stored.id = valueId
      · simp only [hid, if_true, Option.some.injEq] at hstored
        subst hstored
        exact ⟨hof ▸ hmax, hid⟩
      · simp [hid] at hstored
    next => simp at hstored

theorem handleDecide_moves {setting : Setting} {captain final : Captain} {msg : MsgDecide}
    {outs : List Output} (hreceived : setting.received (.decide msg))
    (hhandle : captain.handleDecide msg = some (final, outs)) :
    OutputChain (Move setting) captain outs final := by
  simp only [handleDecide] at hhandle
  split at hhandle
  next =>
    rw [Option.some.injEq, Prod.mk.injEq] at hhandle
    obtain ⟨rfl, rfl⟩ := hhandle
    exact .nil captain
  next =>
    simp only [Option.bind_eq_bind, Option.bind_eq_some_iff] at hhandle
    obtain ⟨stored, hstored, hrest⟩ := hhandle
    cases stored with
    | some value =>
        obtain ⟨hvalue, hid⟩ := storedValue_eq_some hstored
        exact .single (.base (.learner (.learn (.decided hreceived rfl hvalue hid) hrest)))
    | none =>
        simp only [pure, Option.some.injEq, Prod.mk.injEq] at hrest
        obtain ⟨rfl, rfl⟩ := hrest
        exact .single (.base (.learner (.inquire hreceived)))

theorem handleLearn_moves {setting : Setting} {captain final : Captain} {msg : MsgLearn}
    {outs : List Output} (hreceived : setting.received (.learn msg))
    (hhandle : captain.handleLearn msg = some (final, outs)) :
    OutputChain (Move setting) captain outs final := by
  simp only [handleLearn] at hhandle
  split at hhandle
  next =>
    rw [Option.some.injEq, Prod.mk.injEq] at hhandle
    obtain ⟨rfl, rfl⟩ := hhandle
    exact .nil captain
  next hknown =>
    rw [not_or, Option.isNone_iff_eq_none] at hknown
    obtain ⟨stored, hstored⟩ := Option.ne_none_iff_exists'.mp hknown.2
    simp only [Option.bind_eq_bind, Option.bind_eq_some_iff, pure, Option.some.injEq,
      Prod.mk.injEq] at hhandle
    obtain ⟨teach, hteach, sent, hsend, rfl, rfl⟩ := hhandle
    exact .single (.base (.learner (.teach hreceived hstored hteach hsend)))

theorem handleTeach_moves {setting : Setting} {captain final : Captain} {msg : MsgTeach}
    {outs : List Output} (hreceived : setting.received (.teach msg))
    (hhandle : captain.handleTeach msg = some (final, outs)) :
    OutputChain (Move setting) captain outs final := by
  simp only [handleTeach] at hhandle
  split at hhandle
  next =>
    rw [Option.some.injEq, Prod.mk.injEq] at hhandle
    obtain ⟨rfl, rfl⟩ := hhandle
    exact .nil captain
  next => exact .single (.base (.learner (.learn (.taught hreceived rfl rfl) hhandle)))

theorem handleCommit_moves {setting : Setting} {captain final : Captain} {msg : MsgCommit}
    {outs : List Output} (hreceived : setting.received (.commit msg))
    (hhandle : captain.handleCommit msg = some (final, outs)) :
    OutputChain (Move setting) captain outs final := by
  simp only [handleCommit] at hhandle
  cases hmaster : captain.view.ifMaster with
  | true =>
      simp only [hmaster, if_true, Option.bind_eq_bind, Option.bind_eq_some_iff, Prod.exists,
        pure, Option.some.injEq, Prod.mk.injEq] at hhandle
      obtain ⟨next, outs', hcommit, rfl, rfl⟩ := hhandle
      have hecho : OutputChain (Move setting) captain _ captain :=
        .single (.base (.forwarding (.echo hreceived hmaster)))
      have hchain := hecho.append (commitRef_moves (.requested hreceived rfl) hcommit)
      simpa only [List.append_assoc, List.singleton_append] using hchain
  | false =>
      simp only [hmaster, Bool.false_eq_true, if_false, Option.some.injEq,
        Prod.mk.injEq] at hhandle
      obtain ⟨rfl, rfl⟩ := hhandle
      exact .single (.base (.forwarding (.reply hreceived hmaster)))

/-- What a captain keeps up whatever it handles. -/
structure WellKept (captain : Captain) : Prop where
  shape : LogShape captain
  keys : ∀ slot info, captain.proposers[slot]? = some info →
    0 < slot ∧ slot ≤ captain.maxSlot

/-- Handling a message is a chain of moves. -/
theorem handleMsg_moves {setting : Setting} {captain final : Captain} {msg : Message}
    {app : AppCalls} {outs : List Output} (hkept : captain.WellKept)
    (hreceived : setting.received msg)
    (hretires : ∀ slot info, captain.chooses msg = some (slot, info) →
      setting.retires slot info)
    (hallowed : ∀ call ∈ app.latency ++ app.apply, setting.calls call)
    (hhandle : captain.handleMsg msg setting.dataName app = some (final, outs)) :
    OutputChain (Move setting) captain outs final := by
  unfold handleMsg at hhandle
  cases hwork : captain.work with
  | false =>
      rw [hwork, if_pos rfl, Option.some.injEq, Prod.mk.injEq] at hhandle
      obtain ⟨rfl, rfl⟩ := hhandle
      exact .nil captain
  | true =>
      rw [hwork, if_neg (by simp)] at hhandle
      cases msg with
      | prepare msg => exact .single (.base (.acceptor (handlePrepare_move hreceived hhandle)))
      | promise msg =>
          rcases handlePromise_move hreceived hhandle with hmove | ⟨rfl, rfl, _⟩
          · exact .single (.base (.proposer hmove))
          · exact .nil _
      | accept msg => exact .single (.base (.acceptor (handleAccept_move hreceived hhandle)))
      | accepted msg =>
          exact handleAccepted_moves hreceived hwork hkept.shape
            (fun slot info hinfo => (hkept.keys slot info hinfo).2) hretires hallowed hhandle
      | decide msg => exact handleDecide_moves hreceived hhandle
      | learn msg => exact handleLearn_moves hreceived hhandle
      | teach msg => exact handleTeach_moves hreceived hhandle
      | commit msg => exact handleCommit_moves hreceived hhandle
      | command msg =>
          simp only [Option.some.injEq, Prod.mk.injEq] at hhandle
          obtain ⟨rfl, rfl⟩ := hhandle
          exact .nil captain

end Captain

end NDNPaxos
