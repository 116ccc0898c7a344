import NDNPaxos.CaptainMoves
import NDNPaxos.Library.OrderedMap
import Mathlib.Tactic

/-!
# What each move leaves alone

Outputs are sorted by the part of the protocol they belong to.  For each part,
a move either is one of the few that concern it or leaves its members alone and
puts out nothing of its kind.  Invariants of one part are then proved from the
moves of that part only.
-/

namespace NDNPaxos

inductive OutputKind where
  | handed
  | opened
  | retired
  | acceptor
  | proposer
  | learner
  | client
  | forwarding
deriving DecidableEq, Repr

def Message.kind : Message → OutputKind
  | .prepare _ => .proposer
  | .promise _ => .acceptor
  | .accept _ => .proposer
  | .accepted _ => .acceptor
  | .decide _ => .learner
  | .learn _ => .learner
  | .teach _ => .learner
  | .commit _ => .forwarding
  | .command _ => .forwarding

def Event.kind : Event → OutputKind
  | .commit _ _ => .handed
  | .command _ => .handed
  | .propose _ _ _ _ => .opened
  | .accepted _ _ _ => .acceptor
  | .chose _ _ _ => .retired
  | .informClient _ _ _ => .client
  | .callbackLatency _ _ _ => .client
  | .callbackFull _ _ _ => .client
  | .callback _ _ => .client
  | .forward _ => .forwarding
  | .request _ => .forwarding
  | .reply _ => .forwarding

def Output.kind : Output → OutputKind
  | .send packet => packet.msg.kind
  | .note event => event.kind

namespace Captain

/-! ## What a broadcast, an answer and a delivery put out -/

theorem mem_broadcastMsg {captain : Captain} {msg : Message} {out : Output}
    (hmem : out ∈ captain.broadcastMsg msg) :
    ∃ packet, out = .send packet ∧ packet.msg = msg := by
  unfold broadcastMsg at hmem
  split at hmem
  · rw [List.mem_singleton] at hmem
    exact ⟨_, hmem, rfl⟩
  · obtain ⟨i, _, rfl⟩ := List.mem_map.mp hmem
    exact ⟨_, rfl, rfl⟩

theorem kind_of_mem_broadcastMsg {captain : Captain} {msg : Message} {out : Output}
    (hmem : out ∈ captain.broadcastMsg msg) : out.kind = msg.kind := by
  obtain ⟨packet, rfl, rfl⟩ := mem_broadcastMsg hmem
  rfl

theorem kinds_opening (captain : Captain) (value : PropValue) (skipPhaseI : Bool)
    {out : Output} (hmem : out ∈ captain.broadcastMsg (captain.openingMsg value skipPhaseI)) :
    out.kind = .proposer := by
  rw [kind_of_mem_broadcastMsg hmem]
  cases skipPhaseI <;> rfl

theorem kind_of_mem_openSlot {captain : Captain} {value : PropValue} {name : Name}
    {tryTime : ℕ} {skipPhaseI : Bool} {out : Output}
    (hmem : out ∈ (captain.openSlot value name tryTime skipPhaseI).2) :
    out.kind = .opened ∨ out.kind = .proposer := by
  rw [openSlot_eq] at hmem
  rcases List.mem_cons.mp hmem with rfl | hsent
  · exact .inl rfl
  · exact .inr (kinds_opening captain value skipPhaseI hsent)

theorem kind_of_mem_answer {captain : Captain} {nodeId : ℕ} {msg : Message} {out : Output}
    (hmem : out ∈ captain.answer nodeId msg) : out.kind = msg.kind := by
  unfold answer sendData at hmem
  split at hmem <;> rw [List.mem_singleton] at hmem <;> rw [hmem] <;> rfl

theorem kind_of_mem_sendData {nodeId : ℕ} {msg : Message} {out : Output}
    (hmem : out ∈ sendData nodeId msg) : out.kind = msg.kind := by
  rw [sendData, List.mem_singleton] at hmem
  rw [hmem]
  rfl

theorem sendInterest_eq_some {captain : Captain} {nodeId : ℕ} {msg : Message}
    {outs : List Output} (hsend : captain.sendInterest nodeId msg = some outs) :
    outs = [.send { route := .interest, dst := toNodeId nodeId, msg }] := by
  unfold sendInterest at hsend
  split at hsend
  · rw [Option.some.injEq] at hsend
    exact hsend.symm
  · simp at hsend

theorem kind_of_mem_sendInterest {captain : Captain} {nodeId : ℕ} {msg : Message}
    {outs : List Output} (hsend : captain.sendInterest nodeId msg = some outs)
    {out : Output} (hmem : out ∈ outs) : out.kind = msg.kind := by
  rw [sendInterest_eq_some hsend, List.mem_singleton] at hmem
  rw [hmem]
  rfl

theorem kind_of_mem_deliveryEvents {captain : Captain} {delivered : List (ℕ × PropValue)}
    {out : Output} (hmem : out ∈ captain.deliveryEvents delivered) : out.kind = .client := by
  rw [deliveryEvents, List.mem_flatMap] at hmem
  obtain ⟨entry, _, hout⟩ := hmem
  rw [List.mem_append] at hout
  rcases hout with hfull | hplain
  · split at hfull
    · rw [List.mem_singleton] at hfull
      rw [hfull]
      rfl
    · simp at hfull
  · split at hplain
    · rw [List.mem_singleton] at hplain
      rw [hplain]
      rfl
    · simp at hplain

theorem mem_announce {captain : Captain} {slot : ℕ} {chosen : PropValue} {out : Output}
    (hmem : out ∈ captain.announce slot chosen) :
    ∃ packet, out = .send packet ∧
      (packet.msg = captain.msgDecide slot chosen.id ∨ packet.msg = captain.msgTeach slot) := by
  unfold announce at hmem
  rw [List.mem_append] at hmem
  rcases hmem with hdecide | hteach
  · obtain ⟨packet, hout, hmsg⟩ := mem_broadcastMsg hdecide
    exact ⟨packet, hout, .inl hmsg⟩
  · split at hteach
    · obtain ⟨packet, hout, hmsg⟩ := mem_broadcastMsg hteach
      exact ⟨packet, hout, .inr hmsg⟩
    · simp at hteach

theorem kind_of_mem_announce {captain : Captain} {slot : ℕ} {chosen : PropValue}
    {out : Output} (hmem : out ∈ captain.announce slot chosen) : out.kind = .learner := by
  obtain ⟨packet, rfl, hmsg | hmsg⟩ := mem_announce hmem <;>
    rw [Output.kind, hmsg] <;> rfl

theorem answerLearn_msg {captain : Captain} {slot nodeId : ℕ} {teach : Message}
    (hteach : captain.answerLearn slot nodeId = some teach) :
    ∃ msg : MsgTeach, teach = .teach msg ∧
      msg.msgHeader = { nodeId := captain.whoami, slotId := slot } ∧
      msg.propValue.id = ((captain.chosenAt slot).getD {}).id ∧
      (captain.mode ≠ .rs → msg.propValue = (captain.chosenAt slot).getD {}) := by
  unfold answerLearn at hteach
  split at hteach
  next hmode =>
    simp only [rsMsgTeach, Option.bind_eq_bind, Option.bind_eq_some_iff, Prod.exists, pure,
      Option.some.injEq] at hteach
    obtain ⟨blocks, encoder, _, shard, _, rfl⟩ := hteach
    exact ⟨_, rfl, rfl, rfl, fun hne => absurd hmode hne⟩
  next =>
    rw [Option.some.injEq] at hteach
    exact ⟨_, hteach.symm, rfl, rfl, fun _ => rfl⟩

theorem mem_of_mapM_eq_some {α β : Type*} {f : α → Option β} {list : List α}
    {results : List β} (hmap : list.mapM f = some results) {result : β}
    (hmem : result ∈ results) : ∃ item ∈ list, f item = some result := by
  induction list generalizing results with
  | nil =>
      simp only [List.mapM_nil, pure, Option.some.injEq] at hmap
      subst hmap
      simp at hmem
  | cons head rest ih =>
      simp only [List.mapM_cons, Option.bind_eq_bind, Option.bind_eq_some_iff, pure,
        Option.some.injEq] at hmap
      obtain ⟨first, hfirst, others, hothers, rfl⟩ := hmap
      rcases List.mem_cons.mp hmem with rfl | hrest
      · exact ⟨head, List.mem_cons_self .., hfirst⟩
      · obtain ⟨item, hitem, heq⟩ := ih hothers hrest
        exact ⟨item, List.mem_cons_of_mem _ hitem, heq⟩

/-! ## The proposer's changes of phase -/

theorem fillShards_frame {proposer filled : Proposer} {view : View}
    (hfill : proposer.fillShards view = some filled) :
    filled = { proposer with rsValues := filled.rsValues, rsEncoder := filled.rsEncoder } := by
  unfold Proposer.fillShards at hfill
  split at hfill
  next =>
    simp only [Option.bind_eq_bind, Option.bind_eq_some_iff, Prod.exists, pure,
      Option.some.injEq] at hfill
    obtain ⟨blocks, encoder, _, rfl⟩ := hfill
    rfl
  next =>
    rw [Option.some.injEq] at hfill
    rw [hfill]

theorem rsMsgAccept_spec {proposer after : Proposer} {view : View} {msgs : List MsgAccept}
    (haccept : proposer.rsMsgAccept view = some (msgs, after)) :
    after = { proposer with rsValues := after.rsValues, rsEncoder := after.rsEncoder } ∧
      ∀ msg ∈ msgs, msg.ballotId = proposer.currBallot ∧
        msg.propValue.id = (proposer.currValue.getD {}).id := by
  simp only [Proposer.rsMsgAccept, Option.bind_eq_bind, Option.bind_eq_some_iff, pure,
    Option.some.injEq, Prod.mk.injEq] at haccept
  obtain ⟨filled, hfill, msgs', hmsgs, rfl, rfl⟩ := haccept
  have hfilled := fillShards_frame hfill
  refine ⟨hfilled, ?_⟩
  intro msg hmem
  obtain ⟨i, _, hmsg⟩ := mem_of_mapM_eq_some hmsgs hmem
  simp only [Option.bind_eq_some_iff, Option.some.injEq] at hmsg
  obtain ⟨shard, _, rfl⟩ := hmsg
  exact ⟨by rw [hfilled], rfl⟩

/-- The ACCEPT messages of Phase II: one ballot, one slot, one value id. -/
theorem enterPhaseII_spec {captain final : Captain} {slot : ℕ} {info : ProposerInfo}
    {value : PropValue} {outs : List Output}
    (hvalue : info.currProposer.currValue = some value)
    (henter : captain.enterPhaseII slot info = some (final, outs)) :
    (∃ rsValues rsEncoder, final = captain.setProposer slot
        { info with
          currProposer := { info.currProposer with rsValues, rsEncoder }
          proposerStatus := .phaseII }) ∧
      ∀ out ∈ outs, ∃ packet msg, out = .send packet ∧ packet.msg = .accept msg ∧
        msg.msgHeader = { nodeId := captain.whoami, slotId := slot } ∧
        msg.ballotId = info.currProposer.currBallot ∧ msg.propValue.id = value.id ∧
        (captain.mode ≠ .rs → msg.propValue = value) := by
  unfold enterPhaseII at henter
  split at henter
  next hmode =>
    simp only [Option.bind_eq_bind, Option.bind_eq_some_iff, Prod.exists, pure,
      Option.some.injEq, Prod.mk.injEq] at henter
    obtain ⟨msgs, proposer, haccept, rfl, rfl⟩ := henter
    obtain ⟨hframe, hmsgs⟩ := rsMsgAccept_spec haccept
    refine ⟨⟨proposer.rsValues, proposer.rsEncoder, ?_⟩, ?_⟩
    · rw [← hframe]
    · intro out hmem
      obtain ⟨⟨msg, i⟩, hzip, rfl⟩ := List.mem_map.mp hmem
      obtain ⟨hballot, hid⟩ := hmsgs msg (List.fst_mem_of_mem_zipIdx hzip)
      rw [hvalue, Option.getD_some] at hid
      exact ⟨_, _, rfl, rfl, rfl, hballot, hid, fun hne => absurd hmode hne⟩
  next =>
    rw [Option.some.injEq, Prod.mk.injEq] at henter
    obtain ⟨rfl, rfl⟩ := henter
    refine ⟨⟨info.currProposer.rsValues, info.currProposer.rsEncoder, rfl⟩, ?_⟩
    intro out hmem
    obtain ⟨packet, hout, hmsg⟩ := mem_broadcastMsg hmem
    refine ⟨packet, _, hout, hmsg, rfl, rfl, ?_, ?_⟩
    · simp [Proposer.msgAccept, hvalue]
    · intro _
      simp [Proposer.msgAccept, hvalue]

/-- A restart keeps what was learned about accepted values and takes the next
ballot of its own. -/
theorem restart_eq (captain : Captain) (slot : ℕ) (info : ProposerInfo) :
    captain.restart slot info =
      (captain.setProposer slot
          { info with
            currProposer :=
              { info.currProposer with
                currBallot := (info.currProposer.genNextBallot captain.view).currBallot
                currValue := none
                msgAckPrepare := {}
                msgAckAccept := {} }
            proposerStatus := .init },
        captain.broadcastMsg (.prepare
          { msgHeader := { nodeId := captain.whoami, slotId := slot }
            ballotId := (info.currProposer.genNextBallot captain.view).currBallot })) := rfl

theorem promiseStep_initValue {proposer after : Proposer} {view : View}
    {msg : MsgAckPrepare} {ack : AckType}
    (hack : proposer.handleMsgPromise view msg = some (ack, after)) :
    after.initValue = proposer.initValue := by
  cases Proposer.handleMsgPromise_step hack with
  | drops hold => rfl
  | waits hballot hvalue hfew => rfl
  | restarts hballot hvalue => rfl
  | continues hballot hvalue htrue hafter => exact hafter.initValue

theorem acceptedStep_initValue {proposer after : Proposer} {msg : MsgAckAccept}
    {ack : AckType} (hack : proposer.handleMsgAccepted msg = (ack, after)) :
    after.initValue = proposer.initValue := by
  cases Proposer.handleMsgAccepted_step hack with
  | drops hold => rfl
  | waits hballot hvalue => rfl
  | restarts hballot hvalue => rfl
  | chooses hballot hvalue htrue => rfl

end Captain

def ProposerInfo.entry (info : ProposerInfo) : ℕ × Name × PropValue :=
  (info.tryTime, info.clientName, info.currProposer.initValue)

namespace Captain

/-! ## Frames -/

structure BaseFrame (before after : Captain) : Prop where
  config : after.view.config = before.view.config
  nodeId : after.view.nodeId = before.view.nodeId
  windowSize : after.windowSize = before.windowSize
  tocommitValues : after.tocommitValues = before.tocommitValues
  tocommitClients : after.tocommitClients = before.tocommitClients
  dumName : after.dumName = before.dumName
  maxSlot : after.maxSlot = before.maxSlot
  entries : ∀ slot : ℕ, (after.proposers[slot]?).map ProposerInfo.entry =
    (before.proposers[slot]?).map ProposerInfo.entry

theorem setProposer_entries {captain : Captain} {slot : ℕ} {info info' : ProposerInfo}
    (hinfo : captain.proposers[slot]? = some info) (hentry : info'.entry = info.entry)
    (other : ℕ) :
    ((captain.setProposer slot info').proposers[other]?).map ProposerInfo.entry =
      (captain.proposers[other]?).map ProposerInfo.entry := by
  rw [setProposer, Std.TreeMap.getElem?_insert]
  by_cases heq : slot = other
  · subst heq
    simp [hinfo, hentry]
  · simp [heq]

theorem entry_eq {info : ProposerInfo} {proposer : Proposer} {status : ProposerStatus}
    (hinit : proposer.initValue = info.currProposer.initValue) :
    ({ info with currProposer := proposer, proposerStatus := status } : ProposerInfo).entry =
      info.entry := by
  simp [ProposerInfo.entry, hinit]

theorem ForwardMove.spec {setting : Setting} {captain final : Captain} {outs : List Output}
    (hmove : ForwardMove setting captain outs final) :
    final = { captain with
        valueId := final.valueId, work := final.work, commitOk := final.commitOk } ∧
      ∀ out ∈ outs, out.kind = .forwarding := by
  cases hmove with
  | crash hcall => exact ⟨rfl, by simp⟩
  | forward hcall hmaster hid hsend =>
      refine ⟨rfl, ?_⟩
      intro out hmem
      rcases List.mem_cons.mp hmem with rfl | hsent
      · rfl
      · exact kind_of_mem_sendInterest hsend hsent
  | echo hreceived hmaster =>
      refine ⟨rfl, ?_⟩
      intro out hmem
      rcases List.mem_append.mp hmem with hsent | hnote
      · exact kind_of_mem_sendData hsent
      · rw [List.mem_singleton.mp hnote]
        rfl
  | reply hreceived hmaster =>
      refine ⟨rfl, ?_⟩
      intro out hmem
      rw [List.mem_singleton.mp hmem]
      rfl

theorem AcceptorMove.spec {setting : Setting} {captain final : Captain} {outs : List Output}
    (hmove : AcceptorMove setting captain outs final) :
    final = { captain with acceptors := final.acceptors } ∧
      ∀ out ∈ outs, out.kind = .acceptor := by
  cases hmove with
  | prepare hreceived hupdate => exact ⟨rfl, fun out hmem => kind_of_mem_answer hmem⟩
  | accept hreceived hupdate =>
      refine ⟨rfl, ?_⟩
      intro out hmem
      rcases List.mem_append.mp hmem with hnote | hsent
      · split at hnote
        · rw [List.mem_singleton.mp hnote]
          rfl
        · simp at hnote
      · exact kind_of_mem_answer hsent

theorem ProposerMove.spec {setting : Setting} {captain final : Captain} {outs : List Output}
    (hmove : ProposerMove setting captain outs final) :
    final = { captain with proposers := final.proposers } ∧
      (∀ slot : ℕ, (final.proposers[slot]?).map ProposerInfo.entry =
        (captain.proposers[slot]?).map ProposerInfo.entry) ∧
      ∀ out ∈ outs, out.kind = .proposer := by
  cases hmove with
  | promised hreceived hinfo hstatus hack hstays =>
      exact ⟨rfl, setProposer_entries hinfo (entry_eq (promiseStep_initValue hack)), by simp⟩
  | promiseRestart hreceived hinfo hstatus hack =>
      refine ⟨rfl, setProposer_entries hinfo (entry_eq (promiseStep_initValue hack)), ?_⟩
      exact fun out hmem => kind_of_mem_broadcastMsg hmem
  | @continued msg info proposer outs final hreceived hinfo hstatus hack henter =>
      cases Proposer.handleMsgPromise_step hack with
      | continues hballot hvalue htrue hafter =>
          have hcurr : { info with currProposer := proposer }.currProposer.currValue =
            some _ := hafter.currValue
          obtain ⟨⟨rsValues, rsEncoder, rfl⟩, houts⟩ := enterPhaseII_spec hcurr henter
          refine ⟨rfl, setProposer_entries hinfo (entry_eq (promiseStep_initValue hack)), ?_⟩
          intro out hmem
          obtain ⟨packet, accept, rfl, hmsg, _⟩ := houts out hmem
          rw [Output.kind, hmsg]
          rfl
  | acked hreceived hinfo hstatus hack hstays =>
      exact ⟨rfl, setProposer_entries hinfo (entry_eq (acceptedStep_initValue hack)), by simp⟩
  | ackRestart hreceived hinfo hstatus hack =>
      refine ⟨rfl, setProposer_entries hinfo (entry_eq (acceptedStep_initValue hack)), ?_⟩
      exact fun out hmem => kind_of_mem_broadcastMsg hmem
  | chosen hreceived hinfo hstatus hack =>
      exact ⟨rfl, setProposer_entries hinfo (entry_eq (acceptedStep_initValue hack)), by simp⟩

theorem LearnerMove.spec {setting : Setting} {captain final : Captain} {outs : List Output}
    (hshape : LogShape captain) (hmove : LearnerMove setting captain outs final) :
    LogFrame captain final ∧ LogShape final ∧
      ∀ out ∈ outs, out.kind = .learner ∨ out.kind = .client := by
  cases hmove with
  | tell hinfo hstatus hvalue hown hretires =>
      refine ⟨rfl, hshape, ?_⟩
      intro out hmem
      rcases List.mem_cons.mp hmem with rfl | hlatency
      · exact .inr rfl
      · split at hlatency
        · rw [List.mem_singleton.mp hlatency]
          exact .inr rfl
        · simp at hlatency
  | learn hlearn hadd =>
      obtain ⟨hframe, hshape', _, delivered, rfl⟩ := addChosenValue_learned hshape hadd
      exact ⟨hframe, hshape', fun out hmem => .inr (kind_of_mem_deliveryEvents hmem)⟩
  | teach hreceived hstored hteach hsend =>
      refine ⟨rfl, hshape, ?_⟩
      intro out hmem
      obtain ⟨msg, rfl, _⟩ := answerLearn_msg hteach
      exact .inl (kind_of_mem_sendInterest hsend hmem)
  | inquire hreceived =>
      exact ⟨rfl, hshape, fun out hmem => .inl (kind_of_mem_sendData hmem)⟩

theorem BaseMove.frame {setting : Setting} {captain final : Captain} {outs : List Output}
    (hshape : LogShape captain) (hmove : BaseMove setting captain outs final) :
    BaseFrame captain final := by
  cases hmove with
  | forwarding hmove =>
      rw [hmove.spec.1]
      exact ⟨rfl, rfl, rfl, rfl, rfl, rfl, rfl, fun _ => rfl⟩
  | acceptor hmove =>
      rw [hmove.spec.1]
      exact ⟨rfl, rfl, rfl, rfl, rfl, rfl, rfl, fun _ => rfl⟩
  | proposer hmove =>
      obtain ⟨hframe, hentries, _⟩ := hmove.spec
      rw [hframe]
      exact ⟨rfl, rfl, rfl, rfl, rfl, rfl, rfl, hentries⟩
  | learner hmove =>
      rw [(hmove.spec hshape).1]
      exact ⟨rfl, rfl, rfl, rfl, rfl, rfl, rfl, fun _ => rfl⟩

theorem BaseMove.logShape {setting : Setting} {captain final : Captain} {outs : List Output}
    (hshape : LogShape captain) (hmove : BaseMove setting captain outs final) :
    LogShape final := by
  cases hmove with
  | forwarding hmove =>
      rw [hmove.spec.1]
      exact ⟨hshape.length, hshape.hole_le⟩
  | acceptor hmove =>
      rw [hmove.spec.1]
      exact ⟨hshape.length, hshape.hole_le⟩
  | proposer hmove =>
      rw [hmove.spec.1]
      exact ⟨hshape.length, hshape.hole_le⟩
  | learner hmove => exact (hmove.spec hshape).2.1

theorem BaseMove.kinds {setting : Setting} {captain final : Captain} {outs : List Output}
    (hshape : LogShape captain) (hmove : BaseMove setting captain outs final) {out : Output}
    (hmem : out ∈ outs) :
    out.kind ≠ .handed ∧ out.kind ≠ .opened ∧ out.kind ≠ .retired := by
  cases hmove with
  | forwarding hmove => simp [hmove.spec.2 out hmem]
  | acceptor hmove => simp [hmove.spec.2 out hmem]
  | proposer hmove => simp [hmove.spec.2.2 out hmem]
  | learner hmove =>
      rcases (hmove.spec hshape).2.2 out hmem with hkind | hkind <;> simp [hkind]

/-! ## Commits and ends of CHOOSE -/

theorem CommitStep.kinds {captain final : Captain} {value : PropValue} {dataName ref : Name}
    {outs : List Output} (hstep : CommitStep captain value dataName final outs ref) :
    ∃ sent, outs = .note (.commit value dataName) :: sent ∧
      ∀ out ∈ sent, out.kind = .opened ∨ out.kind = .proposer := by
  cases hstep with
  | dropped hfull => exact ⟨[], rfl, by simp⟩
  | waits hfull => exact ⟨[], rfl, by simp⟩
  | opens hroom hempty => exact ⟨_, rfl, fun out hmem => kind_of_mem_openSlot hmem⟩
  | passes hroom hwaiting hpop => exact ⟨_, rfl, fun out hmem => kind_of_mem_openSlot hmem⟩

theorem FinishStep.kinds {captain final : Captain} {slot : ℕ} {info : ProposerInfo}
    {chosen : PropValue} {dataName : Name} {outs : List Output}
    (hstep : FinishStep captain slot info chosen dataName final outs) :
    ∃ sent, outs = .note (.chose slot chosen info.currProposer.initValue) :: sent ∧
      ∀ out ∈ sent, out.kind = .opened ∨ out.kind = .proposer := by
  cases hstep with
  | idle hown hempty => exact ⟨[], rfl, by simp⟩
  | next hown hpop => exact ⟨_, rfl, fun out hmem => kind_of_mem_openSlot hmem⟩
  | recommit hforeign => exact ⟨_, rfl, fun out hmem => kind_of_mem_openSlot hmem⟩

/-- A move concerns the forwarding of values or puts out nothing of its kind. -/
theorem Move.forwarding_cases {setting : Setting} {captain final : Captain}
    {outs : List Output} (hshape : LogShape captain)
    (hmove : Move setting captain outs final) :
    ForwardMove setting captain outs final ∨ ∀ out ∈ outs, out.kind ≠ .forwarding := by
  cases hmove with
  | base hmove =>
      cases hmove with
      | forwarding hmove => exact .inl hmove
      | acceptor hmove => exact .inr fun out hmem => by simp [hmove.spec.2 out hmem]
      | proposer hmove => exact .inr fun out hmem => by simp [hmove.spec.2.2 out hmem]
      | learner hmove =>
          right
          intro out hmem
          rcases (hmove.spec hshape).2.2 out hmem with hkind | hkind <;> simp [hkind]
  | commit hsource hstep =>
      right
      intro out hmem
      rcases hstep.kinds with ⟨sent, rfl, hsent⟩
      rcases List.mem_cons.mp hmem with rfl | hmem
      · simp [Output.kind, Event.kind]
      · rcases hsent out hmem with hkind | hkind <;> simp [hkind]
  | command hcall hmaster hid =>
      right
      intro out hmem
      simp [List.mem_singleton.mp hmem, Output.kind, Event.kind]
  | finish hinfo hstatus hvalue hstored hretires hstep =>
      right
      intro out hmem
      rcases List.mem_append.mp hmem with hannounced | hfinish
      · simp [kind_of_mem_announce hannounced]
      · rcases hstep.kinds with ⟨sent, rfl, hsent⟩
        rcases List.mem_cons.mp hfinish with rfl | hfinish
        · simp [Output.kind, Event.kind]
        · rcases hsent out hfinish with hkind | hkind <;> simp [hkind]

/-! ## Commits and ends of CHOOSE as slot moves -/

/-- Moves fine enough for everything that does not look at the queues. -/
inductive SlotMove (setting : Setting) (captain : Captain) :
    List Output → Captain → Prop where
  | base {outs : List Output} {final : Captain}
      (hmove : BaseMove setting captain outs final) : SlotMove setting captain outs final
  | queue {outs : List Output} {final : Captain}
      (hframe : final = { captain with
        tocommitValues := final.tocommitValues
        tocommitClients := final.tocommitClients
        valueId := final.valueId
        dumName := final.dumName })
      (hkind : ∀ out ∈ outs, out.kind = .handed) : SlotMove setting captain outs final
  | opens (value : PropValue) (name : Name) (tryTime : ℕ) {skipPhaseI : Bool}
      (hskip : skipPhaseI = true → captain.mode = .multi ∧ tryTime = 1) :
      SlotMove setting captain (captain.openSlot value name tryTime skipPhaseI).2
        (captain.openSlot value name tryTime skipPhaseI).1
  | announce {slot : ℕ} {info : ProposerInfo} {value stored : PropValue}
      (hinfo : captain.proposers[slot]? = some info)
      (hstatus : info.proposerStatus = .chosen)
      (hvalue : info.currProposer.currValue = some value)
      (hstored : captain.chosenAt slot = some stored)
      (hretires : setting.retires slot info) :
      SlotMove setting captain (captain.announce slot value) captain
  | close {slot : ℕ} {info : ProposerInfo} {value : PropValue}
      (hinfo : captain.proposers[slot]? = some info)
      (hstatus : info.proposerStatus = .chosen)
      (hvalue : info.currProposer.currValue = some value) :
      SlotMove setting captain [.note (.chose slot value info.currProposer.initValue)]
        (captain.withoutProposer slot)

theorem SlotMove.single {setting : Setting} {captain final : Captain} {outs : List Output}
    (hmove : SlotMove setting captain outs final) :
    OutputChain (SlotMove setting) captain outs final := OutputChain.single hmove

theorem popFront_frame {captain popped : Captain} {front : PropValue} {frontName : Name}
    (hpop : captain.popFront = some (front, frontName, popped)) :
    popped = { captain with
      tocommitValues := popped.tocommitValues
      tocommitClients := popped.tocommitClients } := by
  obtain ⟨values, names, _, _, rfl⟩ := popFront_eq_some hpop
  rfl

theorem CommitStep.slotMoves {setting : Setting} {captain final : Captain}
    {value : PropValue} {dataName ref : Name} {outs : List Output}
    (hstep : CommitStep captain value dataName final outs ref) :
    OutputChain (SlotMove setting) captain outs final := by
  have hnote : ∀ out ∈ [Output.note (.commit value dataName)], out.kind = .handed := by
    intro out hmem
    rw [List.mem_singleton.mp hmem]
    rfl
  cases hstep with
  | dropped hfull => exact .single (.queue rfl hnote)
  | waits hfull => exact .single (.queue rfl hnote)
  | opens hroom hempty =>
      have hqueue : SlotMove setting captain _ captain := .queue rfl hnote
      exact hqueue.single.append (SlotMove.opens value dataName 1 (by simp)).single
  | @passes front frontName popped hroom hwaiting hpop =>
      have hqueue : SlotMove setting captain _ popped :=
        .queue (by rw [popFront_frame hpop]; rfl) hnote
      exact hqueue.single.append (SlotMove.opens front ref 1 (by simp)).single

theorem FinishStep.slotMoves {setting : Setting} {captain final : Captain} {slot : ℕ}
    {info : ProposerInfo} {value : PropValue} {dataName : Name} {outs : List Output}
    (hinfo : captain.proposers[slot]? = some info) (hstatus : info.proposerStatus = .chosen)
    (hvalue : info.currProposer.currValue = some value)
    (hstep : FinishStep captain slot info value dataName final outs) :
    OutputChain (SlotMove setting) captain outs final := by
  have hclose : SlotMove setting captain _ (captain.withoutProposer slot) :=
    .close hinfo hstatus hvalue
  cases hstep with
  | idle hown hempty => exact .single hclose
  | @next front frontName popped hown hpop =>
      have hqueue : SlotMove setting (captain.withoutProposer slot) [] popped :=
        .queue (by rw [popFront_frame hpop]) (by simp)
      exact (hclose.single.append hqueue.single).append
        (SlotMove.opens front frontName 1 (by simp)).single
  | recommit hforeign => exact hclose.single.append (SlotMove.opens _ _ _ (by simp)).single

theorem Move.slotMoves {setting : Setting} {captain final : Captain} {outs : List Output}
    (hmove : Move setting captain outs final) :
    OutputChain (SlotMove setting) captain outs final := by
  cases hmove with
  | base hmove => exact .single (.base hmove)
  | @commit value name valueId next ref outs hsource hstep =>
      have hname : SlotMove setting next []
          { next with valueId, dumName := if name.isNone then ref else next.dumName } :=
        .queue rfl (by simp)
      simpa only [List.append_nil] using hstep.slotMoves.append hname.single
  | command hcall hmaster hid =>
      refine .single (.queue rfl ?_)
      intro out hmem
      rw [List.mem_singleton.mp hmem]
      rfl
  | finish hinfo hstatus hvalue hstored hretires hstep =>
      exact (SlotMove.announce hinfo hstatus hvalue hstored hretires).single.append
        (hstep.slotMoves hinfo hstatus hvalue)

structure SameNode (before after : Captain) : Prop where
  config : after.view.config = before.view.config
  nodeId : after.view.nodeId = before.view.nodeId
  windowSize : after.windowSize = before.windowSize

theorem SlotMove.sameNode {setting : Setting} {captain final : Captain} {outs : List Output}
    (hshape : LogShape captain) (hmove : SlotMove setting captain outs final) :
    SameNode captain final := by
  cases hmove with
  | base hmove =>
      have hframe := hmove.frame hshape
      exact ⟨hframe.config, hframe.nodeId, hframe.windowSize⟩
  | queue hframe hkind =>
      rw [hframe]
      exact ⟨rfl, rfl, rfl⟩
  | opens value name tryTime hskip =>
      rw [openSlot_eq]
      exact ⟨rfl, rfl, rfl⟩
  | announce hinfo hstatus hvalue hstored hretires => exact ⟨rfl, rfl, rfl⟩
  | close hinfo hstatus hvalue => exact ⟨rfl, rfl, rfl⟩

theorem SlotMove.wellKept {setting : Setting} {captain final : Captain} {outs : List Output}
    (hkept : captain.WellKept) (hmove : SlotMove setting captain outs final) :
    final.WellKept := by
  obtain ⟨hshape, hkeys⟩ := hkept
  cases hmove with
  | base hmove =>
      have hframe := hmove.frame hshape
      refine ⟨hmove.logShape hshape, ?_⟩
      intro slot info hinfo
      have hentry := hframe.entries slot
      rw [hinfo, Option.map_some, eq_comm, Option.map_eq_some_iff] at hentry
      obtain ⟨old, hold, _⟩ := hentry
      rw [hframe.maxSlot]
      exact hkeys slot old hold
  | queue hframe hkind =>
      rw [hframe]
      exact ⟨⟨hshape.length, hshape.hole_le⟩, hkeys⟩
  | opens value name tryTime hskip =>
      rw [openSlot_eq]
      refine ⟨⟨hshape.length, hshape.hole_le⟩, ?_⟩
      intro slot info hinfo
      rcases OrderedMap.insert_cases hinfo with ⟨rfl, _⟩ | ⟨_, hold⟩
      · exact ⟨Nat.succ_pos _, le_rfl⟩
      · obtain ⟨hpos, hle⟩ := hkeys slot info hold
        exact ⟨hpos, Nat.le_succ_of_le hle⟩
  | announce hinfo hstatus hvalue hstored hretires => exact ⟨hshape, hkeys⟩
  | close hinfo hstatus hvalue =>
      exact ⟨⟨hshape.length, hshape.hole_le⟩, OrderedMap.forall_erase hkeys⟩

/-- Only `master_change` on a node that is not the master queues a command. -/
theorem Move.masterChange_of_command {setting : Setting} {captain final : Captain}
    {outs : List Output} (hshape : LogShape captain)
    (hmove : Move setting captain outs final) {command : PropValue}
    (hmem : .note (.command command) ∈ outs) :
    ∃ value, setting.calls (.masterChange value) ∧ captain.view.ifMaster = false := by
  have hopening : ∀ {sent : List Output},
      (∀ out ∈ sent, out.kind = .opened ∨ out.kind = .proposer) →
        .note (.command command) ∉ sent := by
    intro sent hsent hmem
    rcases hsent _ hmem with hkind | hkind <;> simp [Output.kind, Event.kind] at hkind
  cases hmove with
  | base hmove => exact absurd rfl (hmove.kinds hshape hmem).1
  | commit hsource hstep =>
      rcases hstep.kinds with ⟨sent, rfl, hsent⟩
      rcases List.mem_cons.mp hmem with heq | hmem
      · simp at heq
      · exact absurd hmem (hopening hsent)
  | @command value command hcall hmaster hid => exact ⟨value, hcall, hmaster⟩
  | finish hinfo hstatus hvalue hstored hretires hstep =>
      rcases List.mem_append.mp hmem with hsent | hfinish
      · have hkind := kind_of_mem_announce hsent
        simp [Output.kind, Event.kind] at hkind
      · rcases hstep.kinds with ⟨sent, rfl, hsent⟩
        rcases List.mem_cons.mp hfinish with heq | hmem
        · simp at heq
        · exact absurd hmem (hopening hsent)

end Captain

end NDNPaxos
