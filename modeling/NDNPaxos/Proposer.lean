import NDNPaxos.View
import Mathlib.Order.Nat

/-!
# Proposer

A proposer owns one slot.  It runs Phase I and Phase II and starts over with a
higher ballot when a quorum of answers is not a quorum of consent.  What it
has learned about accepted values (`maxBallot`, `maxValue`) survives a
restart, its acknowledgements and the value it proposes do not.
-/

namespace NDNPaxos

structure Proposer where
  initValue : PropValue
  currBallot : ℕ := 0
  currValue : Option PropValue := none
  maxBallot : ℕ := 0
  maxValue : Option PropValue := none
  msgAckPrepare : Std.TreeMap ℕ MsgAckPrepare := {}
  msgAckAccept : Std.TreeMap ℕ MsgAckAccept := {}
  qr : ℕ
  qw : ℕ
  rsEncoder : RSEncoder
  rsDecoder : RSDecoder
  rsValues : List Bytes := []

namespace Proposer

def new (view : View) (value : PropValue) : Proposer :=
  let rs := view.config.rsParams
  { initValue := value
    qr := if view.mode = .rs then rs.qr else view.quorumSize
    qw := if view.mode = .rs then rs.qw else view.quorumSize
    rsEncoder := RSEncoder.new rs.x rs.n
    rsDecoder := RSDecoder.new rs.x rs.n }

/-- The high bits count the rounds of the proposer, the low 16 are the node id. -/
def genNextBallot (proposer : Proposer) (view : View) : Proposer :=
  { proposer with
    currBallot :=
      if proposer.currBallot = 0 then proposer.currBallot + 2 ^ 16 + view.whoami
      else proposer.currBallot + 2 ^ 16 }

def msgPrepare (proposer : Proposer) (view : View) : MsgPrepare × Proposer :=
  let proposer := proposer.genNextBallot view
  ({ msgHeader := { nodeId := view.whoami, slotId := 0 }
     ballotId := proposer.currBallot }, proposer)

def restartMsgPrepare (proposer : Proposer) (view : View) : MsgPrepare × Proposer :=
  { proposer with currValue := none, msgAckPrepare := {}, msgAckAccept := {} }.msgPrepare view

def msgAccept (proposer : Proposer) (view : View) : MsgAccept :=
  { msgHeader := { nodeId := view.whoami, slotId := 0 }
    ballotId := proposer.currBallot
    propValue := proposer.currValue.getD {} }

/-- `rs_values_` is filled when it is still empty. -/
def fillShards (proposer : Proposer) (view : View) : Option Proposer :=
  if proposer.rsValues.isEmpty then do
    let data := (proposer.currValue.getD {}).data
    let (blocks, encoder) ← proposer.rsEncoder.rsEncode view.config.fec data
    return { proposer with rsValues := blocks, rsEncoder := encoder }
  else some proposer

/-- One ACCEPT for each node, with that node's shard.  `none` is the exception
of the encoder or an index past the end of `rs_values_`. -/
def rsMsgAccept (proposer : Proposer) (view : View) :
    Option (List MsgAccept × Proposer) := do
  let value := proposer.currValue.getD {}
  let proposer ← proposer.fillShards view
  let msgs ← (List.range view.nodesSize).mapM fun i => do
    let shard ← proposer.rsValues[i]?
    some ({ msgHeader := { nodeId := view.whoami, slotId := 0 }
            ballotId := proposer.currBallot
            propValue := { id := value.id, data := shard } } : MsgAccept)
  return (msgs, proposer)

def getChosenValue (proposer : Proposer) : Option PropValue := proposer.currValue

def getInitValue (proposer : Proposer) : PropValue := proposer.initValue

def initCurrValue (proposer : Proposer) : Proposer :=
  { proposer with currValue := some proposer.initValue }

/-! ## Acknowledgements of PREPARE -/

/-- The running maximum and the number of true replies of one pass over
`msg_ack_prepare_`. -/
structure Tally where
  maxBallot : ℕ
  maxValue : Option PropValue
  trueCounter : ℕ := 0

/-- One iteration of that pass.  A value that the reply does not carry is read
through `mutable_max_prop_value()`, hence as the default value. -/
def Tally.add (tally : Tally) (ack : MsgAckPrepare) : Tally :=
  if ack.reply then
    if tally.maxBallot < ack.maxBallotId then
      { maxBallot := ack.maxBallotId
        maxValue := some (ack.maxPropValue.getD {})
        trueCounter := tally.trueCounter + 1 }
    else { tally with trueCounter := tally.trueCounter + 1 }
  else tally

def tally (proposer : Proposer) : Tally :=
  (proposer.msgAckPrepare.toList.map Prod.snd).foldl Tally.add
    { maxBallot := proposer.maxBallot, maxValue := proposer.maxValue }

/-- The tally starts from what earlier rounds have left and ends at the highest
ballot that a true reply reports. -/
structure TallySpec (start : Tally) (acks : List MsgAckPrepare) (final : Tally) : Prop where
  start_le : start.maxBallot ≤ final.maxBallot
  reported_le : ∀ ack ∈ acks, ack.reply = true → ack.maxBallotId ≤ final.maxBallot
  source : (final.maxBallot = start.maxBallot ∧ final.maxValue = start.maxValue) ∨
    ∃ ack ∈ acks, ack.reply = true ∧ start.maxBallot < ack.maxBallotId ∧
      final.maxBallot = ack.maxBallotId ∧ final.maxValue = some (ack.maxPropValue.getD {})
  trueCounter : final.trueCounter = start.trueCounter + acks.countP MsgAckPrepare.reply

theorem foldl_add_spec (acks : List MsgAckPrepare) (start : Tally) :
    TallySpec start acks (acks.foldl Tally.add start) := by
  induction acks generalizing start with
  | nil => exact ⟨le_rfl, by simp, .inl ⟨rfl, rfl⟩, rfl⟩
  | cons ack rest ih =>
      have hrest := ih (start.add ack)
      rw [List.foldl_cons]
      cases hreply : ack.reply with
      | false =>
          have hsame : start.add ack = start := by simp [Tally.add, hreply]
          rw [hsame] at hrest ⊢
          constructor
          · exact hrest.start_le
          · intro other hmem htrue
            rcases List.mem_cons.mp hmem with rfl | hother
            · simp [hreply] at htrue
            · exact hrest.reported_le other hother htrue
          · rcases hrest.source with hold | ⟨other, hother, hsource⟩
            · exact .inl hold
            · exact .inr ⟨other, List.mem_cons_of_mem _ hother, hsource⟩
          · simp [hrest.trueCounter, hreply]
      | true =>
          have hbound : start.maxBallot ≤ (start.add ack).maxBallot ∧
              ack.maxBallotId ≤ (start.add ack).maxBallot := by
            unfold Tally.add
            rw [hreply, if_pos rfl]
            split
            next hlt => exact ⟨hlt.le, le_rfl⟩
            next hle => exact ⟨le_rfl, Nat.le_of_not_lt hle⟩
          constructor
          · exact hbound.1.trans hrest.start_le
          · intro other hmem htrue
            rcases List.mem_cons.mp hmem with rfl | hother
            · exact hbound.2.trans hrest.start_le
            · exact hrest.reported_le other hother htrue
          · rcases hrest.source with ⟨hballot, hvalue⟩ | ⟨other, hother, htrue, hlt, hsource⟩
            · rw [hballot, hvalue]
              unfold Tally.add
              rw [hreply, if_pos rfl]
              split
              next hlt => exact .inr ⟨ack, List.mem_cons_self .., hreply, hlt, rfl, rfl⟩
              next => exact .inl ⟨rfl, rfl⟩
            · exact .inr ⟨other, List.mem_cons_of_mem _ hother, htrue,
                lt_of_le_of_lt hbound.1 hlt, hsource⟩
          · have hcount : (start.add ack).trueCounter = start.trueCounter + 1 := by
              unfold Tally.add
              rw [hreply, if_pos rfl]
              split <;> rfl
            rw [hrest.trueCounter, hcount, List.countP_cons_of_pos hreply]
            omega

theorem tally_spec (proposer : Proposer) :
    TallySpec { maxBallot := proposer.maxBallot, maxValue := proposer.maxValue }
      (proposer.msgAckPrepare.toList.map Prod.snd) proposer.tally :=
  foldl_add_spec _ _

/-- Shards and presence flags of the acknowledgements that report the value
with the given id.  `none` is an index past the end of the two vectors. -/
def collectShards (valueId : ℕ) :
    List (ℕ × MsgAckPrepare) → List Bytes × List Bool × ℕ →
      Option (List Bytes × List Bool × ℕ)
  | [], found => some found
  | (node, ack) :: rest, (blocks, index, lost) =>
      let value := ack.maxPropValue.getD {}
      if ack.reply ∧ valueId = value.id then
        if node < blocks.length then
          collectShards valueId rest
            (blocks.set node value.data, index.set node true, lost - 1)
        else none
      else collectShards valueId rest (blocks, index, lost)

/-- The value with the highest ballot rebuilt from its shards. -/
def recoverValue (proposer : Proposer) (view : View) (maxValue : PropValue) :
    Option (AckType × Proposer) := do
  let rs := view.config.rsParams
  let (blocks, index, lost) ←
    collectShards maxValue.id proposer.msgAckPrepare.toList
      (List.replicate rs.n [], List.replicate rs.n false, rs.n)
  if rs.f < lost then
    return (.restart, proposer)
  else
    let (data, decoder) ← proposer.rsDecoder.rsDecode view.config.fec blocks index lost
    let value : PropValue := { id := maxValue.id, data }
    let (shards, encoder) ← proposer.rsEncoder.rsEncode view.config.fec data
    return (.continuePhase,
      { proposer with
        currValue := some value
        maxValue := some value
        rsValues := shards
        rsEncoder := encoder
        rsDecoder := decoder })

def chooseValue (proposer : Proposer) (view : View) : Option (AckType × Proposer) :=
  match proposer.maxValue with
  | none => some (.continuePhase, { proposer with currValue := some proposer.initValue })
  | some maxValue =>
      if view.mode = .rs then proposer.recoverValue view maxValue
      else some (.continuePhase, { proposer with currValue := some maxValue })

def handleMsgPromise (proposer : Proposer) (view : View) (msg : MsgAckPrepare) :
    Option (AckType × Proposer) :=
  if msg.ballotId < proposer.currBallot ∨ proposer.currValue.isSome then
    some (.drop, proposer)
  else
    let proposer := { proposer with
      msgAckPrepare := proposer.msgAckPrepare.insert (toNodeId msg.msgHeader.nodeId) msg }
    if proposer.msgAckPrepare.size < proposer.qr then
      some (.notEnough, proposer)
    else
      let tally := proposer.tally
      let proposer := { proposer with
        maxBallot := tally.maxBallot, maxValue := tally.maxValue }
      if proposer.qr ≤ tally.trueCounter then
        proposer.chooseValue view
      else
        some (.restart, proposer)

/-! ## Acknowledgements of ACCEPT -/

def trueAccepts (proposer : Proposer) : ℕ :=
  (proposer.msgAckAccept.toList.map Prod.snd).countP MsgAckAccept.reply

def handleMsgAccepted (proposer : Proposer) (msg : MsgAckAccept) : AckType × Proposer :=
  if msg.ballotId < proposer.currBallot ∨ proposer.currValue.isNone then
    (.drop, proposer)
  else
    let proposer := { proposer with
      msgAckAccept := proposer.msgAckAccept.insert (toNodeId msg.msgHeader.nodeId) msg }
    if proposer.msgAckAccept.size < proposer.qw then
      (.notEnough, proposer)
    else if proposer.qw ≤ proposer.trueAccepts then
      (.choose, proposer)
    else
      (.restart, proposer)

/-! ## Branches of the two handlers -/

def recordPrepare (proposer : Proposer) (msg : MsgAckPrepare) : Proposer :=
  { proposer with
    msgAckPrepare := proposer.msgAckPrepare.insert (toNodeId msg.msgHeader.nodeId) msg }

def recordAccept (proposer : Proposer) (msg : MsgAckAccept) : Proposer :=
  { proposer with
    msgAckAccept := proposer.msgAckAccept.insert (toNodeId msg.msgHeader.nodeId) msg }

/-- The highest accepted value among the acknowledgements is taken over. -/
def adoptTally (proposer : Proposer) : Proposer :=
  { proposer with maxBallot := proposer.tally.maxBallot, maxValue := proposer.tally.maxValue }

/-- What CONTINUE adds to a proposer: the value it proposes from now on, which
is its own or has the id of the highest accepted one. -/
structure Continues (view : View) (before : Proposer) (value : PropValue)
    (after : Proposer) : Prop where
  initValue : after.initValue = before.initValue
  currBallot : after.currBallot = before.currBallot
  msgAckPrepare : after.msgAckPrepare = before.msgAckPrepare
  msgAckAccept : after.msgAckAccept = before.msgAckAccept
  maxBallot : after.maxBallot = before.maxBallot
  qr : after.qr = before.qr
  qw : after.qw = before.qw
  currValue : after.currValue = some value
  free : before.maxValue = none → value = before.initValue ∧ after.maxValue = none
  bound : ∀ highest, before.maxValue = some highest →
    value.id = highest.id ∧ after.maxValue = some value ∧ (view.mode ≠ .rs → value = highest)

inductive PromiseStep (proposer : Proposer) (view : View) (msg : MsgAckPrepare) :
    AckType → Proposer → Prop where
  | drops (hold : msg.ballotId < proposer.currBallot ∨ proposer.currValue.isSome) :
      PromiseStep proposer view msg .drop proposer
  | waits (hballot : proposer.currBallot ≤ msg.ballotId) (hvalue : proposer.currValue = none)
      (hfew : (proposer.recordPrepare msg).msgAckPrepare.size < proposer.qr) :
      PromiseStep proposer view msg .notEnough (proposer.recordPrepare msg)
  | restarts (hballot : proposer.currBallot ≤ msg.ballotId)
      (hvalue : proposer.currValue = none) :
      PromiseStep proposer view msg .restart (proposer.recordPrepare msg).adoptTally
  | continues {value : PropValue} {after : Proposer}
      (hballot : proposer.currBallot ≤ msg.ballotId) (hvalue : proposer.currValue = none)
      (htrue : proposer.qr ≤ (proposer.recordPrepare msg).tally.trueCounter)
      (hafter : Continues view (proposer.recordPrepare msg).adoptTally value after) :
      PromiseStep proposer view msg .continuePhase after

theorem recoverValue_cases {proposer after : Proposer} {view : View} {highest : PropValue}
    {ack : AckType} (hmax : proposer.maxValue = some highest) (hmode : view.mode = .rs)
    (hrecover : proposer.recoverValue view highest = some (ack, after)) :
    (ack = .restart ∧ after = proposer) ∨
      (ack = .continuePhase ∧ ∃ value, Continues view proposer value after) := by
  simp only [recoverValue, Option.bind_eq_bind, Option.bind_eq_some_iff, Prod.exists] at hrecover
  obtain ⟨blocks, index, lost, _, hrest⟩ := hrecover
  split at hrest
  next =>
    simp only [pure, Option.some.injEq, Prod.mk.injEq] at hrest
    obtain ⟨rfl, rfl⟩ := hrest
    exact .inl ⟨rfl, rfl⟩
  next =>
    simp only [Option.bind_eq_some_iff, Prod.exists, pure, Option.some.injEq,
      Prod.mk.injEq] at hrest
    obtain ⟨data, decoder, _, shards, encoder, _, rfl, rfl⟩ := hrest
    refine .inr ⟨rfl, { id := highest.id, data }, rfl, rfl, rfl, rfl, rfl, rfl, rfl, rfl, ?_, ?_⟩
    · intro hnone
      simp [hmax] at hnone
    · intro other hother
      rw [hmax, Option.some.injEq] at hother
      exact ⟨by rw [hother], rfl, fun hne => absurd hmode hne⟩

theorem chooseValue_cases {proposer after : Proposer} {view : View} {ack : AckType}
    (hchoose : proposer.chooseValue view = some (ack, after)) :
    (ack = .restart ∧ after = proposer) ∨
      (ack = .continuePhase ∧ ∃ value, Continues view proposer value after) := by
  unfold chooseValue at hchoose
  split at hchoose
  next hmax =>
    simp only [Option.some.injEq, Prod.mk.injEq] at hchoose
    obtain ⟨rfl, rfl⟩ := hchoose
    refine .inr ⟨rfl, proposer.initValue, rfl, rfl, rfl, rfl, rfl, rfl, rfl, rfl, ?_, ?_⟩
    · exact fun _ => ⟨rfl, hmax⟩
    · intro highest hsome
      simp [hmax] at hsome
  next highest hmax =>
    split at hchoose
    next hmode => exact recoverValue_cases hmax hmode hchoose
    next =>
      simp only [Option.some.injEq, Prod.mk.injEq] at hchoose
      obtain ⟨rfl, rfl⟩ := hchoose
      refine .inr ⟨rfl, highest, rfl, rfl, rfl, rfl, rfl, rfl, rfl, rfl, ?_, ?_⟩
      · intro hnone
        simp [hmax] at hnone
      · intro other hother
        rw [hmax, Option.some.injEq] at hother
        exact ⟨by rw [hother], hmax, fun _ => hother⟩

theorem handleMsgPromise_step {proposer after : Proposer} {view : View} {msg : MsgAckPrepare}
    {ack : AckType} (hhandle : proposer.handleMsgPromise view msg = some (ack, after)) :
    PromiseStep proposer view msg ack after := by
  unfold handleMsgPromise at hhandle
  by_cases hdrop : msg.ballotId < proposer.currBallot ∨ proposer.currValue.isSome
  · rw [if_pos hdrop, Option.some.injEq, Prod.mk.injEq] at hhandle
    obtain ⟨rfl, rfl⟩ := hhandle
    exact .drops hdrop
  rw [if_neg hdrop] at hhandle
  rw [not_or, Nat.not_lt, Bool.not_eq_true, Option.isSome_eq_false_iff,
    Option.isNone_iff_eq_none] at hdrop
  obtain ⟨hballot, hvalue⟩ := hdrop
  by_cases hfew : (proposer.recordPrepare msg).msgAckPrepare.size < proposer.qr
  · have hfew' := hfew
    unfold recordPrepare at hfew'
    simp only [hfew', if_true, Option.some.injEq, Prod.mk.injEq] at hhandle
    obtain ⟨rfl, rfl⟩ := hhandle
    exact .waits hballot hvalue hfew
  have hfew' := hfew
  unfold recordPrepare at hfew'
  simp only [hfew', if_false] at hhandle
  by_cases htrue : proposer.qr ≤ (proposer.recordPrepare msg).tally.trueCounter
  · have htrue' := htrue
    unfold recordPrepare at htrue'
    simp only [htrue', if_true] at hhandle
    rcases chooseValue_cases hhandle with ⟨rfl, rfl⟩ | ⟨rfl, value, hafter⟩
    · exact .restarts hballot hvalue
    · exact .continues hballot hvalue htrue hafter
  · have htrue' := htrue
    unfold recordPrepare at htrue'
    simp only [htrue', if_false, Option.some.injEq, Prod.mk.injEq] at hhandle
    obtain ⟨rfl, rfl⟩ := hhandle
    exact .restarts hballot hvalue

inductive AcceptedStep (proposer : Proposer) (msg : MsgAckAccept) :
    AckType → Proposer → Prop where
  | drops (hold : msg.ballotId < proposer.currBallot ∨ proposer.currValue.isNone) :
      AcceptedStep proposer msg .drop proposer
  | waits (hballot : proposer.currBallot ≤ msg.ballotId) (hvalue : proposer.currValue.isSome) :
      AcceptedStep proposer msg .notEnough (proposer.recordAccept msg)
  | restarts (hballot : proposer.currBallot ≤ msg.ballotId)
      (hvalue : proposer.currValue.isSome) :
      AcceptedStep proposer msg .restart (proposer.recordAccept msg)
  | chooses (hballot : proposer.currBallot ≤ msg.ballotId) (hvalue : proposer.currValue.isSome)
      (htrue : proposer.qw ≤ (proposer.recordAccept msg).trueAccepts) :
      AcceptedStep proposer msg .choose (proposer.recordAccept msg)

theorem handleMsgAccepted_step {proposer after : Proposer} {msg : MsgAckAccept}
    {ack : AckType} (hhandle : proposer.handleMsgAccepted msg = (ack, after)) :
    AcceptedStep proposer msg ack after := by
  unfold handleMsgAccepted at hhandle
  by_cases hdrop : msg.ballotId < proposer.currBallot ∨ proposer.currValue.isNone
  · rw [if_pos hdrop, Prod.mk.injEq] at hhandle
    obtain ⟨rfl, rfl⟩ := hhandle
    exact .drops hdrop
  rw [if_neg hdrop] at hhandle
  rw [not_or, Nat.not_lt, Bool.not_eq_true, Option.isNone_eq_false_iff] at hdrop
  obtain ⟨hballot, hvalue⟩ := hdrop
  simp only at hhandle
  split at hhandle
  next =>
    rw [Prod.mk.injEq] at hhandle
    obtain ⟨rfl, rfl⟩ := hhandle
    exact .waits hballot hvalue
  next =>
    split at hhandle
    next htrue =>
      rw [Prod.mk.injEq] at hhandle
      obtain ⟨rfl, rfl⟩ := hhandle
      exact .chooses hballot hvalue htrue
    next =>
      rw [Prod.mk.injEq] at hhandle
      obtain ⟨rfl, rfl⟩ := hhandle
      exact .restarts hballot hvalue

end Proposer

end NDNPaxos
