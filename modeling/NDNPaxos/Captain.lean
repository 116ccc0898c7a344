import NDNPaxos.Acceptor
import NDNPaxos.Proposer

/-!
# Captain

The captain of a node owns its acceptors, proposers, chosen values and waiting
queues and handles every message.  A handler returns the new state and what it
did towards the outside: the packets it sent and the events worth observing.
The result `none` stands for undefined behaviour of the source, such as a NULL
dereference, an index past the end of a vector or `front()` of an empty queue.

`Commo` sends in three ways.  A message for the node itself is a direct call
of `handle_msg` (through a pool when the cluster has one node), a message to
another node is an Interest, and an answer is a Data packet under the name of
the Interest.  A message to itself is recorded like the others, so handling it
before anything else is one of the possible runs.
-/

namespace NDNPaxos

/-- How `Commo` hands over a message. -/
inductive Route where
  | self
  | interest
  | data
deriving DecidableEq, Repr

structure Packet where
  route : Route
  dst : ℕ
  msg : Message
deriving DecidableEq, Repr

inductive Event where
  /-- `commit(PropValue*, Name&)` is called. -/
  | commit (value : PropValue) (name : Name)
  /-- `master_change` queues a SET_MASTER command. -/
  | command (value : PropValue)
  /-- A new proposer is put into `proposers_[slot]`. -/
  | propose (slot : ℕ) (value : PropValue) (name : Name) (tryTime : ℕ)
  /-- The acceptor of the slot answers an ACCEPT with true. -/
  | accepted (slot : ℕ) (ballot : ℕ) (value : PropValue)
  /-- `handle_msg_accepted` returned CHOOSE and the proposer was erased. -/
  | chose (slot : ℕ) (chosen init : PropValue)
  | informClient (slot : ℕ) (tryTime : ℕ) (name : Name)
  | callbackLatency (slot : ℕ) (value : PropValue) (tryTime : ℕ)
  | callbackFull (slot : ℕ) (value : PropValue) (nodeId : ℕ)
  | callback (slot : ℕ) (data : Bytes)
  /-- A value is forwarded to the master. -/
  | forward (value : PropValue)
  /-- A COMMIT message is handled as a request. -/
  | request (value : PropValue)
  /-- A COMMIT message is handled as a reply. -/
  | reply (value : PropValue)
deriving DecidableEq, Repr

inductive Output where
  | send (packet : Packet)
  | note (event : Event)
deriving DecidableEq, Repr

structure ProposerInfo where
  tryTime : ℕ
  clientName : Name
  currProposer : Proposer
  proposerStatus : ProposerStatus

/-- The members of `Captain`; `dumName` is the static `dumName_` of its
process, and the three flags say which callbacks are set. -/
structure Captain where
  view : View
  windowSize : ℕ
  acceptors : List (Option Acceptor) := [none]
  proposers : Std.TreeMap ℕ ProposerInfo := {}
  chosenValues : List (Option PropValue) := [none]
  tocommitValues : List PropValue := []
  tocommitClients : List Name := []
  maxChosen : ℕ := 0
  maxChosenWithoutHole : ℕ := 0
  maxSlot : ℕ := 0
  valueId : ℕ
  callback : Bool := false
  callbackFull : Bool := false
  callbackLatency : Bool := false
  work : Bool := true
  commitOk : Bool := false
  dumName : Name := []

/-- What the application calls on a captain. -/
inductive Call where
  /-- `commit(PropValue*, Name&)`; without a name, with `dumName_`. -/
  | commit (value : PropValue) (name : Option Name)
  /-- `commit(std::string&, Name&)`. -/
  | commitData (data : Bytes) (name : Option Name)
  | masterChange (value : PropValue)
  | crash
deriving DecidableEq, Repr

/-- The calls that the callbacks make while a chosen value is being handled:
those of `callback_latency_` and those of `callback_full_` and `callback_`. -/
structure AppCalls where
  latency : List Call := []
  apply : List Call := []
deriving DecidableEq, Repr

namespace Captain

/-- The ballot with which the Multi-Paxos build primes the acceptors. -/
def leaseBallot (config : Config) : ℕ := 2 ^ 16 + config.masterId

def new (config : Config) (nodeId : ℕ) (windowSize : ℕ) : Captain :=
  let view := View.new config nodeId
  { view
    windowSize
    acceptors :=
      none :: if config.mode = .multi then
        List.replicate config.length
          (some (({} : Acceptor).updateMaxProposed (leaseBallot config)))
      else []
    valueId := view.whoami }

def mode (captain : Captain) : ModeType := captain.view.mode

def whoami (captain : Captain) : ℕ := captain.view.whoami

/-! ## Sending -/

/-- The node range of `broadcast_msg`: everybody, or with a fixed quorum the
quorum, and for TEACH the nodes outside it. -/
def broadcastRange (view : View) (msg : Message) : ℕ × ℕ :=
  if view.mode = .multi ∨ view.mode = .quorum then
    match msg with
    | .teach _ => (view.quorumSize, view.nodesSize)
    | _ => (0, view.quorumSize)
  else (0, view.nodesSize)

def broadcastMsg (captain : Captain) (msg : Message) : List Output :=
  if captain.view.nodesSize = 1 then
    [.send { route := .self, dst := captain.whoami, msg }]
  else
    let (start, stop) := broadcastRange captain.view msg
    (List.range' start (stop - start)).map fun i =>
      .send { route := if i = captain.whoami then .self else .interest, dst := i, msg }

/-- `send_one_msg(msg, type, node_id)`; `none` is an index past the end of
`consumer_names_`. -/
def sendInterest (captain : Captain) (nodeId : ℕ) (msg : Message) : Option (List Output) :=
  if toNodeId nodeId < captain.view.nodesSize then
    some [.send { route := .interest, dst := toNodeId nodeId, msg }]
  else none

/-- `send_one_msg(msg, type, node_id, dataName)`. -/
def sendData (nodeId : ℕ) (msg : Message) : List Output :=
  [.send { route := .data, dst := toNodeId nodeId, msg }]

/-- The answer of an acceptor: a direct call when the request is our own. -/
def answer (captain : Captain) (nodeId : ℕ) (msg : Message) : List Output :=
  if nodeId = captain.whoami then
    [.send { route := .self, dst := captain.whoami, msg }]
  else sendData nodeId msg

/-! ## The log of chosen values -/

/-- `acceptors_[slot]`; `none` also stands for the NULL of slot 0. -/
def acceptorAt (captain : Captain) (slot : ℕ) : Option Acceptor :=
  (captain.acceptors[slot]?).join

/-- `chosen_values_[slot]`, NULL past the end. -/
def chosenAt (captain : Captain) (slot : ℕ) : Option PropValue :=
  (captain.chosenValues[slot]?).join

/-- The effect of a value at the end of the gap-free prefix on the view. -/
def applyCommand (captain : Captain) (value : PropValue) : Captain :=
  if value.cmdType = some .setMaster then
    let nodeId := toNodeId value.id
    { captain with
      view := captain.view.setMaster nodeId
      commitOk := if nodeId = captain.whoami then true else captain.commitOk }
  else captain

def applyEvents (captain : Captain) (slot : ℕ) (value : PropValue) : List Output :=
  (if captain.callbackFull then
    [.note (.callbackFull slot value (toNodeId value.id))] else []) ++
  (if captain.callback then [.note (.callback slot value.data)] else [])

/-- The loop of `add_callback`, run while `max_chosen_without_hole_` is below
`max_chosen_` and the next value is there. -/
def addCallbackLoop : (remaining : ℕ) → Captain → Option (Captain × List Output)
  | 0, captain => some (captain, [])
  | remaining + 1, captain =>
      let slot := captain.maxChosenWithoutHole + 1
      match captain.chosenValues[slot]? with
      | none => none
      | some none => some (captain, [])
      | some (some value) => do
          let captain := { captain with maxChosenWithoutHole := slot }
          let captain := captain.applyCommand value
          let (final, outs) ← addCallbackLoop remaining captain
          return (final, captain.applyEvents slot value ++ outs)

def addCallback (captain : Captain) : Option (Captain × List Output) :=
  addCallbackLoop (captain.maxChosen - captain.maxChosenWithoutHole) captain

/-- A hole is filled, a repeat ignored, and a later slot padded with NULLs.
The padding is counted by an `int`, which slots from `2 ^ 31` on overflow. -/
def addChosenValue (captain : Captain) (slot : ℕ) (value : PropValue) :
    Option (Captain × List Output) :=
  if slot ≤ captain.maxChosen then
    match captain.chosenValues[slot]? with
    | none => none
    | some none =>
        { captain with chosenValues := captain.chosenValues.set slot (some value) }.addCallback
    | some (some _) => captain.addCallback
  else if slot < 2 ^ 31 then
    { captain with
      chosenValues :=
        captain.chosenValues ++ List.replicate (slot - (captain.maxChosen + 1)) none ++
          [some value]
      maxChosen := slot }.addCallback
  else none

/-! ## Committing values -/

def setProposer (captain : Captain) (slot : ℕ) (info : ProposerInfo) : Captain :=
  { captain with proposers := captain.proposers.insert slot info }

/-- A new proposer for the next slot, which starts with Phase I or, when the
lease stands for it, directly with Phase II. -/
def openSlot (captain : Captain) (value : PropValue) (name : Name) (tryTime : ℕ)
    (skipPhaseI : Bool) : Captain × List Output :=
  let slot := captain.maxSlot + 1
  let proposer := Proposer.new captain.view value
  if skipPhaseI then
    let proposer := (proposer.genNextBallot captain.view).initCurrValue
    let msg := { proposer.msgAccept captain.view with
      msgHeader := { nodeId := captain.whoami, slotId := slot } }
    ({ captain with maxSlot := slot }.setProposer slot
        { tryTime, clientName := name, currProposer := proposer, proposerStatus := .phaseII },
      .note (.propose slot value name tryTime) :: captain.broadcastMsg (.accept msg))
  else
    let (msg, proposer) := proposer.msgPrepare captain.view
    let msg := { msg with msgHeader := { nodeId := captain.whoami, slotId := slot } }
    ({ captain with maxSlot := slot }.setProposer slot
        { tryTime, clientName := name, currProposer := proposer, proposerStatus := .init },
      .note (.propose slot value name tryTime) :: captain.broadcastMsg (.prepare msg))

def pushBack (captain : Captain) (value : PropValue) (name : Name) : Captain :=
  { captain with
    tocommitValues := captain.tocommitValues ++ [value]
    tocommitClients := captain.tocommitClients ++ [name] }

/-- `front()` and `pop()` of both queues, undefined on an empty one. -/
def popFront (captain : Captain) : Option (PropValue × Name × Captain) :=
  match captain.tocommitValues, captain.tocommitClients with
  | value :: values, name :: names =>
      some (value, name, { captain with tocommitValues := values, tocommitClients := names })
  | _, _ => none

/-- `commit(PropValue*, Name &dataName)`.  The last component is what the
reference `dataName` refers to afterwards. -/
def commit (captain : Captain) (value : PropValue) (dataName : Name) :
    Option (Captain × List Output × Name) :=
  let called : Output := .note (.commit value dataName)
  if captain.windowSize < captain.proposers.size then
    some (captain, [called], dataName)
  else if captain.proposers.size = captain.windowSize then
    some (captain.pushBack value dataName, [called], dataName)
  else if 0 < captain.tocommitValues.length then do
    let (front, frontName, captain) ← (captain.pushBack value dataName).popFront
    let (captain, outs) := captain.openSlot front frontName 1 (captain.mode = .multi)
    return (captain, called :: outs, frontName)
  else
    let (captain, outs) := captain.openSlot value dataName 1 (captain.mode = .multi)
    some (captain, called :: outs, dataName)

/-- `commit` with a name of the caller's, or with `dumName_` by default. -/
def commitRef (captain : Captain) (value : PropValue) (name : Option Name) :
    Option (Captain × List Output) :=
  match name with
  | some name => do
      let (captain, outs, _) ← captain.commit value name
      return (captain, outs)
  | none => do
      let (captain, outs, dumName) ← captain.commit value captain.dumName
      return ({ captain with dumName }, outs)

/-- `commit(std::string&, Name&)` up to the point where a node that is not the
master has reset `commit_ok_` and waits for the reply. -/
def commitData (captain : Captain) (data : Bytes) (name : Option Name) :
    Option (Captain × List Output) :=
  let id := captain.valueId + 2 ^ 16
  let captain := { captain with valueId := id }
  let value : PropValue := { id, data }
  if captain.view.ifMaster then
    captain.commitRef value name
  else do
    let outs ← captain.sendInterest captain.view.masterId
      (.commit { msgHeader := { nodeId := captain.whoami, slotId := 0 }, propValue := value })
    return ({ captain with commitOk := false }, .note (.forward value) :: outs)

def masterChange (captain : Captain) (value : PropValue) : Option (Captain × List Output) :=
  if captain.view.ifMaster then
    captain.commitRef value none
  else do
    let id := captain.valueId + 2 ^ 16
    let text := "set_master Time_" ++ toString (id / 2 ^ 16) ++ " from " ++ captain.view.hostname
    let command : PropValue := { id, data := bytesOf text, cmdType := some .setMaster }
    let captain := { captain with
      valueId := id, tocommitValues := captain.tocommitValues ++ [command] }
    let (captain, outs) ← captain.commitRef value none
    return (captain, .note (.command command) :: outs)

def call (captain : Captain) : Call → Option (Captain × List Output)
  | .commit value name => captain.commitRef value name
  | .commitData data name => captain.commitData data name
  | .masterChange value => captain.masterChange value
  | .crash => some ({ captain with work := false }, [])

def runCalls (captain : Captain) : List Call → Option (Captain × List Output)
  | [] => some (captain, [])
  | first :: rest => do
      let (captain, outs) ← captain.call first
      let (captain, outs') ← captain.runCalls rest
      return (captain, outs ++ outs')

/-! ## Handlers of the acceptor's messages -/

/-- Acceptors are created up to the slot of the message, counted by an `int`. -/
def growAcceptors (captain : Captain) (slot : ℕ) : Option Captain :=
  if slot < captain.acceptors.length then some captain
  else if slot < 2 ^ 31 - 1 then
    some { captain with
      acceptors := captain.acceptors ++
        List.replicate (slot + 1 - captain.acceptors.length) (some {}) }
  else none

def setAcceptor (captain : Captain) (slot : ℕ) (acceptor : Acceptor) : Captain :=
  { captain with acceptors := captain.acceptors.set slot (some acceptor) }

def handlePrepare (captain : Captain) (msg : MsgPrepare) : Option (Captain × List Output) := do
  let slot := msg.msgHeader.slotId
  let captain ← captain.growAcceptors slot
  let acceptor ← captain.acceptorAt slot
  let (ack, acceptor) := acceptor.handleMsgPrepare captain.view msg
  return (captain.setAcceptor slot acceptor,
    captain.answer msg.msgHeader.nodeId (.promise ack))

def handleAccept (captain : Captain) (msg : MsgAccept) : Option (Captain × List Output) := do
  let slot := msg.msgHeader.slotId
  let captain ← captain.growAcceptors slot
  let acceptor ← captain.acceptorAt slot
  let (ack, acceptor) := acceptor.handleMsgAccept captain.view msg
  let observed : List Output :=
    if ack.reply then [.note (.accepted slot msg.ballotId msg.propValue)] else []
  return (captain.setAcceptor slot acceptor,
    observed ++ captain.answer msg.msgHeader.nodeId (.accepted ack))

/-! ## Handlers of the proposer's messages -/

/-- `restart_msg_prepare` and its broadcast. -/
def restart (captain : Captain) (slot : ℕ) (info : ProposerInfo) :
    Captain × List Output :=
  let (msg, proposer) := info.currProposer.restartMsgPrepare captain.view
  let msg := { msg with msgHeader := { nodeId := captain.whoami, slotId := slot } }
  (captain.setProposer slot
      { info with currProposer := proposer, proposerStatus := .init },
    captain.broadcastMsg (.prepare msg))

/-- The ACCEPT messages after CONTINUE. -/
def enterPhaseII (captain : Captain) (slot : ℕ) (info : ProposerInfo) :
    Option (Captain × List Output) :=
  let msgHeader : MsgHeader := { nodeId := captain.whoami, slotId := slot }
  if captain.mode = .rs then do
    let (msgs, proposer) ← info.currProposer.rsMsgAccept captain.view
    return (captain.setProposer slot
        { info with currProposer := proposer, proposerStatus := .phaseII },
      msgs.zipIdx.map fun (msg, i) =>
        .send {
          route := if i = captain.whoami then .self else .interest
          dst := i
          msg := .accept { msg with msgHeader } })
  else
    let msg := { info.currProposer.msgAccept captain.view with msgHeader }
    some (captain.setProposer slot { info with proposerStatus := .phaseII },
      captain.broadcastMsg (.accept msg))

def handlePromise (captain : Captain) (msg : MsgAckPrepare) :
    Option (Captain × List Output) :=
  let slot := msg.msgHeader.slotId
  match captain.proposers[slot]? with
  | none => some (captain, [])
  | some info =>
      if info.proposerStatus = .init ∨ info.proposerStatus = .phaseI then do
        let (ack, proposer) ← info.currProposer.handleMsgPromise captain.view msg
        let info := { info with currProposer := proposer, proposerStatus := .phaseI }
        match ack with
        | .continuePhase => captain.enterPhaseII slot info
        | .restart => some (captain.restart slot info)
        | _ => some (captain.setProposer slot info, [])
      else some (captain, [])

def msgDecide (captain : Captain) (slot : ℕ) (valueId : ℕ) : Message :=
  .decide { msgHeader := { nodeId := captain.whoami, slotId := slot }, valueId }

def msgTeach (captain : Captain) (slot : ℕ) : Message :=
  .teach {
    msgHeader := { nodeId := captain.whoami, slotId := slot }
    propValue := (captain.chosenAt slot).getD {} }

/-- The TEACH of the Reed-Solomon build carries the receiver's shard of what
is stored. -/
def rsMsgTeach (captain : Captain) (slot : ℕ) (nodeId : ℕ) : Option Message := do
  let rs := captain.view.config.rsParams
  let stored := (captain.chosenAt slot).getD {}
  let (blocks, _) ← (RSEncoder.new rs.x rs.n).rsEncode captain.view.config.fec stored.data
  let shard ← blocks[nodeId]?
  return .teach {
    msgHeader := { nodeId := captain.whoami, slotId := slot }
    propValue := { id := stored.id, data := shard } }

def answerLearn (captain : Captain) (slot : ℕ) (nodeId : ℕ) : Option Message :=
  if captain.mode = .rs then captain.rsMsgTeach slot nodeId
  else some (captain.msgTeach slot)

/-- The DECIDE and, with a fixed quorum, the TEACH after CHOOSE. -/
def announce (captain : Captain) (slot : ℕ) (chosen : PropValue) : List Output :=
  captain.broadcastMsg (captain.msgDecide slot chosen.id) ++
    if captain.mode = .multi ∨ captain.mode = .quorum then
      captain.broadcastMsg (captain.msgTeach slot)
    else []

/-- The client is informed and the latency callback runs, for our own value. -/
def notifyOwn (captain : Captain) (slot : ℕ) (info : ProposerInfo)
    (chosen : PropValue) (calls : List Call) : Option (Captain × List Output) :=
  if chosen.id = info.currProposer.getInitValue.id then
    let informed : Output := .note (.informClient slot info.tryTime info.clientName)
    if captain.callbackLatency then do
      let (captain, outs) ← captain.runCalls calls
      return (captain,
        informed :: .note (.callbackLatency slot chosen info.tryTime) :: outs)
    else some (captain, [informed])
  else some (captain, [])

/-- The end of CHOOSE: the proposer goes, and either the next waiting value or
the same value again gets a proposer.  `dataName` is the name under which the
handled message arrived. -/
def finishChoose (captain : Captain) (slot : ℕ) (info : ProposerInfo)
    (chosen : PropValue) (dataName : Name) : Option (Captain × List Output) :=
  let init := info.currProposer.getInitValue
  let captain := { captain with proposers := captain.proposers.erase slot }
  let done : Output := .note (.chose slot chosen init)
  if chosen.id = init.id then
    if captain.tocommitValues.isEmpty then some (captain, [done])
    else do
      let (value, name, captain) ← captain.popFront
      let (captain, outs) := captain.openSlot value name 1 (captain.mode = .multi)
      return (captain, done :: outs)
  else
    let (captain, outs) := captain.openSlot init dataName (info.tryTime + 1) false
    some (captain, done :: outs)

def choose (captain : Captain) (slot : ℕ) (info : ProposerInfo) (chosen : PropValue)
    (dataName : Name) (app : AppCalls) : Option (Captain × List Output) := do
  let info := { info with proposerStatus := .chosen }
  let captain := captain.setProposer slot info
  let (captain, told) ← captain.notifyOwn slot info chosen app.latency
  let (captain, applied) ← captain.addChosenValue slot chosen
  let (captain, outs) ← captain.runCalls (if applied.isEmpty then [] else app.apply)
  let announced := captain.announce slot chosen
  let (captain, finished) ← captain.finishChoose slot info chosen dataName
  return (captain, told ++ applied ++ outs ++ announced ++ finished)

def handleAccepted (captain : Captain) (msg : MsgAckAccept) (dataName : Name)
    (app : AppCalls) : Option (Captain × List Output) :=
  let slot := msg.msgHeader.slotId
  match captain.proposers[slot]? with
  | none => some (captain, [])
  | some info =>
      if info.proposerStatus = .phaseII then
        let (ack, proposer) := info.currProposer.handleMsgAccepted msg
        let info := { info with currProposer := proposer }
        match ack with
        | .drop => some (captain.setProposer slot info, [])
        | .notEnough => some (captain.setProposer slot info, [])
        | .choose =>
            captain.choose slot info (proposer.getChosenValue.getD {}) dataName app
        | _ => some (captain.restart slot info)
      else some (captain, [])

/-! ## Handlers of the captain's own messages -/

/-- `acceptors_[slot]` holds the decided value.  `none` is the NULL of slot 0. -/
def storedValue (captain : Captain) (slot : ℕ) (valueId : ℕ) :
    Option (Option PropValue) :=
  match captain.acceptors[slot]? with
  | none => some none
  | some none => none
  | some (some acceptor) =>
      match acceptor.maxValue with
      | some value => some (if value.id = valueId then some value else none)
      | none => some none

def handleDecide (captain : Captain) (msg : MsgDecide) : Option (Captain × List Output) :=
  let slot := msg.msgHeader.slotId
  if slot ≤ captain.maxChosen ∧ (captain.chosenAt slot).isSome then some (captain, [])
  else do
    match ← captain.storedValue slot msg.valueId with
    | some value => captain.addChosenValue slot value
    | none =>
        return (captain, sendData msg.msgHeader.nodeId
          (.learn { msgHeader := { nodeId := captain.whoami, slotId := slot } }))

def handleLearn (captain : Captain) (msg : MsgLearn) : Option (Captain × List Output) :=
  let slot := msg.msgHeader.slotId
  if captain.maxChosen < slot ∨ (captain.chosenAt slot).isNone then some (captain, [])
  else do
    let teach ← captain.answerLearn slot (toNodeId msg.msgHeader.nodeId)
    let outs ← captain.sendInterest msg.msgHeader.nodeId teach
    return (captain, outs)

def handleTeach (captain : Captain) (msg : MsgTeach) : Option (Captain × List Output) :=
  let slot := msg.msgHeader.slotId
  if slot ≤ captain.maxChosen ∧ (captain.chosenAt slot).isSome then some (captain, [])
  else captain.addChosenValue slot msg.propValue

/-- The master echoes a COMMIT and commits its value; any other node takes the
message for the reply to its own COMMIT. -/
def handleCommit (captain : Captain) (msg : MsgCommit) : Option (Captain × List Output) :=
  if captain.view.ifMaster then do
    let (final, outs) ← captain.commitRef msg.propValue none
    return (final, sendData msg.msgHeader.nodeId (.commit msg) ++
      .note (.request msg.propValue) :: outs)
  else some ({ captain with commitOk := true }, [.note (.reply msg.propValue)])

def handleMsg (captain : Captain) (msg : Message) (dataName : Name) (app : AppCalls) :
    Option (Captain × List Output) :=
  if captain.work = false then some (captain, [])
  else
    match msg with
    | .prepare msg => captain.handlePrepare msg
    | .promise msg => captain.handlePromise msg
    | .accept msg => captain.handleAccept msg
    | .accepted msg => captain.handleAccepted msg dataName app
    | .decide msg => captain.handleDecide msg
    | .learn msg => captain.handleLearn msg
    | .teach msg => captain.handleTeach msg
    | .commit msg => captain.handleCommit msg
    | .command _ => some (captain, [])

end Captain

end NDNPaxos
