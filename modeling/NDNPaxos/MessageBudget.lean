import NDNPaxos.DatabaseAtRest
import NDNPaxos.StableLease
import Mathlib.Tactic

/-!
# A budget of messages

Under the lease of a stable master no proposer starts over.  What a packet, a proposer
or a waiting value can still lead to is then a fixed number of deliveries, each of which
uses up one of them.  The statements of a run therefore bound its deliveries, whatever is
lost or late, and a copy that the network makes costs no more than a statement.
-/

namespace NDNPaxos

/-! ## Prices -/

namespace Config

/-- A DECIDE with a LEARN and a TEACH for each node of the quorum, and a TEACH for each
other node; a node that is alone teaches itself. -/
def slotBudget (config : Config) : ℤ := 2 * config.quorumSize + config.size + 1

/-- An ACCEPT and an ACCEPTED for each node of the quorum, and the proposer. -/
def valueBudget (config : Config) : ℤ := 2 * config.quorumSize + config.slotBudget

/-- A COMMIT to the master, its reply, and the value. -/
def statementBudget (config : Config) : ℤ := config.valueBudget + 2

theorem slotBudget_nonneg (config : Config) : 0 ≤ config.slotBudget := by
  unfold slotBudget
  omega

theorem valueBudget_nonneg (config : Config) : 0 ≤ config.valueBudget := by
  have hslot := config.slotBudget_nonneg
  unfold valueBudget
  omega

end Config

/-- The deliveries that a packet still leads to, its own included. -/
def Packet.remaining (config : Config) (packet : Packet) : ℤ :=
  match packet.msg with
  | .prepare _ => 2
  | .promise _ => 1
  | .accept _ => 2
  | .accepted _ => 1
  | .decide _ => 3
  | .learn _ => 2
  | .teach _ => 1
  | .commit _ => if packet.dst = config.masterId then config.statementBudget else 1
  | .command _ => 1

/-- The deliveries that the proposers and the waiting values still lead to. -/
def Captain.remaining (config : Config) (captain : Captain) : ℤ :=
  config.valueBudget * captain.tocommitValues.length +
    config.slotBudget * captain.proposers.size

def outgoing (config : Config) (outs : List Output) : ℤ :=
  Ledger.worth (Packet.remaining config) (packetsOf outs)

section Outgoing

variable {config : Config}

theorem Packet.one_le_remaining (packet : Packet) : 1 ≤ packet.remaining config := by
  have hvalue := config.valueBudget_nonneg
  obtain ⟨route, dst, msg⟩ := packet
  cases msg with
  | commit msg =>
      change 1 ≤ if dst = config.masterId then config.statementBudget else 1
      unfold Config.statementBudget
      split <;> omega
  | _ => simp [remaining]

theorem Packet.remaining_le (packet : Packet) :
    packet.remaining config ≤ config.statementBudget := by
  have hbudget : 3 ≤ config.statementBudget := by
    unfold Config.statementBudget Config.valueBudget Config.slotBudget
    omega
  obtain ⟨route, dst, msg⟩ := packet
  cases msg with
  | commit msg =>
      change (if dst = config.masterId then config.statementBudget else 1) ≤ _
      split <;> omega
  | _ =>
      simp only [remaining]
      omega

@[simp] theorem outgoing_nil : outgoing config [] = 0 := rfl

@[simp] theorem outgoing_append (outs outs' : List Output) :
    outgoing config (outs ++ outs') = outgoing config outs + outgoing config outs' := by
  simp [outgoing]

@[simp] theorem outgoing_note (event : Event) (outs : List Output) :
    outgoing config (.note event :: outs) = outgoing config outs := rfl

@[simp] theorem outgoing_send (packet : Packet) (outs : List Output) :
    outgoing config (.send packet :: outs) = packet.remaining config + outgoing config outs := by
  simp [outgoing]

theorem outgoing_eq_zero {outs : List Output} (hkinds : ∀ out ∈ outs, out.kind = .client) :
    outgoing config outs = 0 := by
  rw [outgoing, packetsOf_eq_nil fun out hmem => .inl (hkinds out hmem), Ledger.worth_nil]

/-- Packets of one price. -/
theorem outgoing_sends {outs : List Output} {price : ℤ}
    (hsends : ∀ out ∈ outs, ∃ packet, out = .send packet ∧ packet.remaining config = price) :
    outgoing config outs = price * outs.length := by
  induction outs with
  | nil => simp
  | cons out rest ih =>
      rw [List.forall_mem_cons] at hsends
      obtain ⟨⟨packet, rfl, hprice⟩, hrest⟩ := hsends
      rw [outgoing_send, hprice, ih hrest, List.length_cons]
      push_cast
      ring

end Outgoing

namespace Captain

variable {config : Config} {captain final : Captain} {setting : Setting} {outs : List Output}

/-! ## Broadcasts -/

theorem length_broadcastMsg_range {msg : Message} {start stop : ℕ}
    (hrange : broadcastRange captain.view msg = (start, stop)) :
    (captain.broadcastMsg msg).length ≤ max 1 (stop - start) := by
  unfold broadcastMsg
  split
  · exact le_max_left _ _
  · rw [hrange, List.length_map, List.length_range']
    exact le_max_right _ _

section Broadcast

variable (hconfig : captain.view.config = config) (hmode : config.mode = .multi)

include hconfig hmode

theorem outgoing_quorum {msg : Message} {price : ℤ} (hprice : 0 ≤ price)
    (hmsg : ∀ packet : Packet, packet.msg = msg → packet.remaining config = price)
    (hteach : ∀ teach, msg ≠ .teach teach) :
    outgoing config (captain.broadcastMsg msg) ≤ price * config.quorumSize := by
  have hrange : broadcastRange captain.view msg = (0, config.quorumSize) := by
    unfold broadcastRange View.mode View.quorumSize
    rw [hconfig, if_pos (.inl hmode)]
    cases msg with
    | teach msg => exact absurd rfl (hteach msg)
    | _ => rfl
  have hlength := length_broadcastMsg_range hrange
  have hpos : 1 ≤ config.quorumSize := by
    have := config.size_pos
    unfold Config.quorumSize
    omega
  rw [outgoing_sends fun out hmem => by
    obtain ⟨packet, rfl, hpacket⟩ := mem_broadcastMsg hmem
    exact ⟨packet, rfl, hmsg packet hpacket⟩]
  have hle : (captain.broadcastMsg msg).length ≤ config.quorumSize := by omega
  gcongr

theorem outgoing_teach (msg : MsgTeach) :
    outgoing config (captain.broadcastMsg (.teach msg)) ≤
      config.size - config.quorumSize + 1 := by
  have hrange : broadcastRange captain.view (.teach msg) = (config.quorumSize, config.size) := by
    unfold broadcastRange View.mode View.quorumSize View.nodesSize
    rw [hconfig, if_pos (.inl hmode)]
  have hlength := length_broadcastMsg_range hrange
  have hle := config.quorumSize_le
  have hprice : ∀ out ∈ captain.broadcastMsg (.teach msg),
      ∃ packet, out = .send packet ∧ packet.remaining config = 1 := by
    intro out hmem
    obtain ⟨packet, rfl, hpacket⟩ := mem_broadcastMsg hmem
    exact ⟨packet, rfl, by rw [Packet.remaining, hpacket]⟩
  rw [outgoing_sends hprice]
  omega

/-- What a decision is announced with is what its proposer was good for. -/
theorem outgoing_announce (slot : ℕ) (chosen : PropValue) :
    outgoing config (captain.announce slot chosen) ≤ config.slotBudget := by
  have hdecide : outgoing config (captain.broadcastMsg (captain.msgDecide slot chosen.id)) ≤
      3 * config.quorumSize := by
    apply outgoing_quorum hconfig hmode (by omega)
    · intro packet hpacket
      rw [Packet.remaining, hpacket, msgDecide]
    · simp [msgDecide]
  have hteach := outgoing_teach hconfig hmode
    { msgHeader := { nodeId := captain.whoami, slotId := slot }
      propValue := (captain.chosenAt slot).getD {} }
  have hmulti : captain.mode = .multi := by
    rw [Captain.mode, View.mode, hconfig]
    exact hmode
  rw [announce, if_pos (.inl hmulti), outgoing_append, Config.slotBudget, msgTeach]
  omega

/-! ## Slots and commits -/

omit hconfig hmode in
theorem WellKept.fresh (hkept : captain.WellKept) :
    captain.proposers[captain.maxSlot + 1]? = none := by
  rw [Option.eq_none_iff_forall_ne_some]
  intro info hinfo
  have hkey := hkept.keys _ info hinfo
  omega

theorem remaining_openSlot (hfresh : captain.proposers[captain.maxSlot + 1]? = none)
    (value : PropValue) (name : Name) :
    (captain.openSlot value name 1 (captain.mode = .multi)).1.remaining config +
        outgoing config (captain.openSlot value name 1 (captain.mode = .multi)).2 ≤
      captain.remaining config + config.valueBudget := by
  have hmulti : captain.mode = .multi := by
    rw [Captain.mode, View.mode, hconfig]
    exact hmode
  have haccept : outgoing config (captain.broadcastMsg (captain.openingMsg value true)) ≤
      2 * config.quorumSize := by
    apply outgoing_quorum hconfig hmode (by omega)
    · intro packet hpacket
      rw [Packet.remaining, hpacket, openingMsg]
      rfl
    · simp [openingMsg]
  rw [hmulti, decide_eq_true rfl, openSlot_eq, outgoing_note, remaining, remaining,
    OrderedMap.size_insert hfresh, Config.valueBudget]
  push_cast
  linarith

theorem remaining_popFront (hfresh : captain.proposers[captain.maxSlot + 1]? = none)
    {popped : Captain} {front : PropValue} {frontName : Name}
    (hpop : captain.popFront = some (front, frontName, popped)) :
    (popped.openSlot front frontName 1 (popped.mode = .multi)).1.remaining config +
        outgoing config (popped.openSlot front frontName 1 (popped.mode = .multi)).2 ≤
      captain.remaining config := by
  obtain ⟨values, names, hvalues, hnames, rfl⟩ := popFront_eq_some hpop
  have hqueue : ({ captain with tocommitValues := values, tocommitClients := names } :
      Captain).remaining config + config.valueBudget = captain.remaining config := by
    rw [remaining, remaining, hvalues, List.length_cons]
    push_cast
    ring
  rw [← hqueue]
  refine remaining_openSlot ?_ hmode ?_ front frontName
  · exact hconfig
  · exact hfresh

theorem CommitStep.remaining {value : PropValue} {dataName ref : Name}
    (hfresh : captain.proposers[captain.maxSlot + 1]? = none)
    (hstep : CommitStep captain value dataName final outs ref) :
    final.remaining config + outgoing config outs ≤
      captain.remaining config + config.valueBudget := by
  have hbudget := config.valueBudget_nonneg
  have hpushed : (captain.pushBack value dataName).remaining config =
      captain.remaining config + config.valueBudget := by
    rw [Captain.remaining, Captain.remaining, pushBack, List.length_append, List.length_singleton]
    push_cast
    ring
  cases hstep with
  | dropped hfull =>
      rw [outgoing_note, outgoing_nil]
      omega
  | waits hfull => rw [hpushed, outgoing_note, outgoing_nil, add_zero]
  | opens hroom hempty =>
      rw [outgoing_note]
      exact remaining_openSlot hconfig hmode hfresh value dataName
  | passes hroom hwaiting hpop =>
      rw [outgoing_note, ← hpushed]
      refine remaining_popFront ?_ hmode ?_ hpop
      · exact hconfig
      · exact hfresh

omit hconfig hmode in
theorem fresh_withoutProposer (hfresh : captain.proposers[captain.maxSlot + 1]? = none)
    (slot : ℕ) : (captain.withoutProposer slot).proposers[captain.maxSlot + 1]? = none := by
  simp [withoutProposer, Std.TreeMap.getElem?_erase, hfresh]

theorem FinishStep.remaining {slot : ℕ} {info : ProposerInfo} {chosen : PropValue}
    {dataName : Name} (hfresh : captain.proposers[captain.maxSlot + 1]? = none)
    (hinfo : captain.proposers[slot]? = some info)
    (hown : chosen.id = info.currProposer.initValue.id)
    (hstep : FinishStep captain slot info chosen dataName final outs) :
    final.remaining config + outgoing config outs + config.slotBudget ≤
      captain.remaining config := by
  have hwithout : (captain.withoutProposer slot).remaining config + config.slotBudget =
      captain.remaining config := by
    rw [Captain.remaining, Captain.remaining, withoutProposer, OrderedMap.size_erase hinfo]
    push_cast
    ring
  cases hstep with
  | idle hid hempty =>
      rw [outgoing_note, outgoing_nil, add_zero, hwithout]
  | next hid hpop =>
      rw [outgoing_note, ← hwithout, add_le_add_iff_right]
      refine remaining_popFront ?_ hmode (fresh_withoutProposer hfresh slot) hpop
      exact hconfig
  | recommit hforeign => exact absurd hown hforeign

end Broadcast

/-! ## Answers of acceptors -/

section Accepted

variable (hreceived : ∀ msg, setting.received msg → ∃ ack, msg = .accepted ack)
  (hcalls : ∀ call, ¬ setting.calls call)

include hreceived hcalls

theorem BaseMove.outgoing_accepted (hleased : ∀ out ∈ outs, out.Leased config)
    (hshape : LogShape captain) (hmove : BaseMove setting captain outs final) :
    outgoing config outs = 0 := by
  have hother : ∀ msg, setting.received msg → msg.kind = .acceptor := by
    intro msg hmsg
    obtain ⟨ack, rfl⟩ := hreceived msg hmsg
    rfl
  cases hmove with
  | forwarding hmove =>
      cases hmove with
      | crash hcall => rfl
      | forward hcall hmaster hid hsend => exact absurd hcall (hcalls _)
      | echo hmsg hmaster => exact absurd (hother _ hmsg) (by simp [Message.kind])
      | reply hmsg hmaster => rfl
  | acceptor hmove =>
      cases hmove with
      | prepare hmsg hupdate => exact absurd (hother _ hmsg) (by simp [Message.kind])
      | accept hmsg hupdate => exact absurd (hother _ hmsg) (by simp [Message.kind])
  | proposer hmove =>
      cases hmove with
      | promised hmsg hinfo hstatus hack hstays => rfl
      | acked hmsg hinfo hstatus hack hstays => rfl
      | chosen hmsg hinfo hstatus hack => rfl
      | promiseRestart hmsg hinfo hstatus hack =>
          obtain ⟨ack, heq⟩ := hreceived _ hmsg
          simp at heq
      | continued hmsg hinfo hstatus hack henter =>
          obtain ⟨ack, heq⟩ := hreceived _ hmsg
          simp at heq
      | ackRestart hmsg hinfo hstatus hack =>
          -- A PREPARE would not be leased.
          suffices hnone : ∀ {out}, out ∉ (captain.restart _ _).2 by
            rw [List.eq_nil_iff_forall_not_mem.mpr fun out => hnone]
            rfl
          intro out hmem
          obtain ⟨packet, rfl, hpacket⟩ := mem_broadcastMsg hmem
          have hprepare := hleased _ hmem
          rw [Output.Leased, hpacket] at hprepare
          exact hprepare
  | learner hmove =>
      cases hmove with
      | tell hinfo hstatus hvalue hown hretires =>
          rw [outgoing_note]
          split <;> rfl
      | learn hlearn hadd =>
          obtain ⟨_, _, _, delivered, rfl⟩ := addChosenValue_learned hshape hadd
          exact outgoing_eq_zero fun out hmem => kind_of_mem_deliveryEvents hmem
      | teach hmsg hstored hteach hsend => exact absurd (hother _ hmsg) (by simp [Message.kind])
      | inquire hmsg => exact absurd (hother _ hmsg) (by simp [Message.kind])

variable (hmode : config.mode = .multi)

include hmode

/-- What an ACCEPTED leads to is paid for by the proposer. -/
theorem Move.remaining_accepted (hconfig : captain.view.config = config)
    (hkept : captain.WellKept) (hleased : ∀ out ∈ outs, out.Leased config)
    (hmove : Move setting captain outs final) :
    final.remaining config + outgoing config outs ≤ captain.remaining config := by
  cases hmove with
  | base hmove =>
      have hframe := hmove.frame hkept.shape
      rw [hmove.outgoing_accepted hreceived hcalls hleased hkept.shape, add_zero, remaining,
        remaining, hframe.tocommitValues, OrderedMap.size_eq hframe.entries]
  | commit hsource hstep =>
      cases hsource with
      | called hcall => exact absurd hcall (hcalls _)
      | changed hcall => exact absurd hcall (hcalls _)
      | numbered hcall hid => exact absurd hcall (hcalls _)
      | requested hmsg hvalue =>
          obtain ⟨ack, heq⟩ := hreceived _ hmsg
          simp at heq
  | command hcall hmaster hid => exact absurd hcall (hcalls _)
  | @finish slot info value stored outs final hinfo hstatus hvalue hstored hretires hstep =>
      have hannounce := outgoing_announce hconfig hmode slot value
      have hown : value = info.currProposer.initValue := by
        refine hleased (.note (.chose slot value info.currProposer.initValue)) ?_
        apply List.mem_append_right
        cases hstep <;> exact List.mem_cons_self ..
      have hfinish := hstep.remaining hconfig hmode hkept.fresh hinfo (congrArg PropValue.id hown)
      rw [outgoing_append]
      omega

theorem remaining_accepted (hconfig : captain.view.config = config) (hkept : captain.WellKept)
    (hleased : ∀ out ∈ outs, out.Leased config)
    (hchain : OutputChain (Move setting) captain outs final) :
    final.remaining config + outgoing config outs ≤ captain.remaining config := by
  induction hchain with
  | nil captain => rw [outgoing_nil, add_zero]
  | cons hmove _ ih =>
      rw [List.forall_mem_append] at hleased
      have hfirst := hmove.remaining_accepted hreceived hcalls hmode hconfig hkept hleased.1
      have hrest := ih ((hmove.sameNode hkept).config.trans hconfig) (hmove.wellKept hkept)
        hleased.2
      rw [outgoing_append]
      omega

end Accepted

/-! ## Messages -/

section Handlers

variable (config) in
theorem addChosenValue_remaining (hshape : LogShape captain) {slot : ℕ} {value : PropValue}
    (hadd : captain.addChosenValue slot value = some (final, outs)) :
    final.remaining config + outgoing config outs = captain.remaining config := by
  obtain ⟨hframe, _, _, delivered, rfl⟩ := addChosenValue_learned hshape hadd
  rw [outgoing_eq_zero fun out hmem => kind_of_mem_deliveryEvents hmem, hframe, add_zero]
  rfl

variable (config) in
theorem handleAccept_remaining {msg : MsgAccept}
    (hhandle : captain.handleAccept msg = some (final, outs)) :
    final.remaining config + outgoing config outs = captain.remaining config + 1 := by
  let setting : Setting := { received := (· = .accept msg) }
  have hmove : AcceptorMove setting captain outs final := handleAccept_move rfl hhandle
  cases hmove with
  | prepare hmsg hupdate => simp [setting] at hmsg
  | @accept other acceptors hmsg hupdate =>
      obtain ⟨route, dst, hanswer⟩ := packetsOf_answer captain other.msgHeader.nodeId
        (.accepted (captain.acceptAnswer other))
      have hsent : outgoing config (captain.answer other.msgHeader.nodeId
          (.accepted (captain.acceptAnswer other))) = 1 := by
        rw [outgoing, hanswer, Ledger.worth_cons, Ledger.worth_nil]
        rfl
      rw [outgoing_append, hsent]
      split <;> rfl

variable (config) in
theorem handleDecide_remaining (hshape : LogShape captain) {msg : MsgDecide}
    (hhandle : captain.handleDecide msg = some (final, outs)) :
    final.remaining config + outgoing config outs ≤ captain.remaining config + 2 := by
  simp only [handleDecide] at hhandle
  split at hhandle
  next =>
    rw [Option.some.injEq, Prod.mk.injEq] at hhandle
    obtain ⟨rfl, rfl⟩ := hhandle
    rw [outgoing_nil]
    omega
  next =>
    simp only [Option.bind_eq_bind, Option.bind_eq_some_iff] at hhandle
    obtain ⟨stored, _, hhandle⟩ := hhandle
    cases stored with
    | some value =>
        have hadd := addChosenValue_remaining config hshape hhandle
        omega
    | none =>
        simp only [pure, Option.some.injEq, Prod.mk.injEq] at hhandle
        obtain ⟨rfl, rfl⟩ := hhandle
        rw [sendData, outgoing_send, outgoing_nil]
        rfl

variable (config) in
theorem handleLearn_remaining {msg : MsgLearn}
    (hhandle : captain.handleLearn msg = some (final, outs)) :
    final.remaining config + outgoing config outs ≤ captain.remaining config + 1 := by
  simp only [handleLearn] at hhandle
  split at hhandle
  next =>
    rw [Option.some.injEq, Prod.mk.injEq] at hhandle
    obtain ⟨rfl, rfl⟩ := hhandle
    rw [outgoing_nil]
    omega
  next =>
    simp only [Option.bind_eq_bind, Option.bind_eq_some_iff, pure, Option.some.injEq,
      Prod.mk.injEq] at hhandle
    obtain ⟨teach, hteach, sent, hsend, rfl, rfl⟩ := hhandle
    obtain ⟨taught, rfl, _⟩ := answerLearn_msg hteach
    rw [sendInterest_eq_some hsend, outgoing_send, outgoing_nil]
    rfl

variable (config) in
theorem handleTeach_remaining (hshape : LogShape captain) {msg : MsgTeach}
    (hhandle : captain.handleTeach msg = some (final, outs)) :
    final.remaining config + outgoing config outs = captain.remaining config := by
  simp only [handleTeach] at hhandle
  split at hhandle
  next =>
    rw [Option.some.injEq, Prod.mk.injEq] at hhandle
    obtain ⟨rfl, rfl⟩ := hhandle
    rw [outgoing_nil, add_zero]
  next => exact addChosenValue_remaining config hshape hhandle

variable (hconfig : captain.view.config = config) (hmode : config.mode = .multi)
  (hkept : captain.WellKept)

include hconfig hmode hkept

theorem commitRef_remaining {value : PropValue} {name : Option Name}
    (hcommit : captain.commitRef value name = some (final, outs)) :
    final.remaining config + outgoing config outs ≤
      captain.remaining config + config.valueBudget := by
  obtain ⟨next, ref, hstep, rfl⟩ := commitRef_step hcommit
  have hnext := hstep.remaining hconfig hmode hkept.fresh
  exact hnext

theorem commitData_remaining {data : Bytes} {name : Option Name}
    (hcall : captain.commitData data name = some (final, outs)) :
    final.remaining config + outgoing config outs ≤
      captain.remaining config + config.statementBudget := by
  unfold commitData at hcall
  cases hmaster : captain.view.ifMaster with
  | true =>
      simp only [hmaster, if_true] at hcall
      let numbered : Captain := { captain with valueId := captain.valueId + 2 ^ 16 }
      have hcommit : final.remaining config + outgoing config outs ≤
          numbered.remaining config + config.valueBudget :=
        commitRef_remaining hconfig hmode
          ⟨⟨hkept.shape.length, hkept.shape.hole_le⟩, hkept.keys⟩ hcall
      have hsame : numbered.remaining config = captain.remaining config := rfl
      unfold Config.statementBudget
      omega
  | false =>
      simp only [hmaster, Bool.false_eq_true, if_false, Option.bind_eq_bind,
        Option.bind_eq_some_iff, pure, Option.some.injEq, Prod.mk.injEq] at hcall
      obtain ⟨sent, hsend, rfl, rfl⟩ := hcall
      rw [sendInterest_eq_some hsend, outgoing_note, outgoing_send, outgoing_nil, add_zero]
      exact add_le_add_right (Packet.remaining_le _) _

/-- A COMMIT costs its value and, on the master, the reply. -/
theorem handleCommit_remaining {msg : MsgCommit}
    (hasked : toNodeId msg.msgHeader.nodeId ≠ config.masterId)
    (hhandle : captain.handleCommit msg = some (final, outs)) :
    final.remaining config + outgoing config outs ≤ captain.remaining config +
      if captain.view.ifMaster then config.valueBudget + 1 else 0 := by
  unfold handleCommit at hhandle
  cases hmaster : captain.view.ifMaster with
  | true =>
      simp only [hmaster, if_true, Option.bind_eq_bind, Option.bind_eq_some_iff, Prod.exists,
        pure, Option.some.injEq, Prod.mk.injEq] at hhandle
      obtain ⟨next, committed, hcommit, rfl, rfl⟩ := hhandle
      have hnext := commitRef_remaining hconfig hmode hkept hcommit
      have hecho : outgoing config (sendData msg.msgHeader.nodeId (.commit msg)) = 1 := by
        rw [sendData, outgoing_send, outgoing_nil, add_zero, Packet.remaining]
        exact if_neg hasked
      rw [outgoing_append, hecho, outgoing_note, if_pos rfl]
      omega
  | false =>
      simp only [hmaster, Bool.false_eq_true, if_false, Option.some.injEq, Prod.mk.injEq] at hhandle
      obtain ⟨rfl, rfl⟩ := hhandle
      simp [remaining]

/-- Whatever message a captain handles, it uses one delivery up. -/
theorem handleMsg_remaining {packet : Packet} {dataName : Name}
    (hmaster : captain.view.ifMaster = true ↔ packet.dst = config.masterId)
    (hasked : ∀ msg, packet.msg = .commit msg →
      toNodeId msg.msgHeader.nodeId ≠ config.masterId)
    (hmsg : packet.msg.Leased config) (hleased : ∀ out ∈ outs, out.Leased config)
    (hhandle : captain.handleMsg packet.msg dataName {} = some (final, outs)) :
    final.remaining config + outgoing config outs + 1 ≤
      captain.remaining config + packet.remaining config := by
  have hone : 1 ≤ packet.remaining config := packet.one_le_remaining
  cases hwork : captain.work with
  | false =>
      unfold handleMsg at hhandle
      rw [if_pos hwork, Option.some.injEq, Prod.mk.injEq] at hhandle
      obtain ⟨rfl, rfl⟩ := hhandle
      rw [outgoing_nil]
      omega
  | true =>
      obtain ⟨route, dst, msg⟩ := packet
      cases msg with
      | prepare msg => exact hmsg.elim
      | promise msg => exact hmsg.elim
      | accept msg =>
          rw [handleMsg, if_neg (by simp [hwork])] at hhandle
          have hhandled := handleAccept_remaining config hhandle
          change _ ≤ captain.remaining config + 2
          omega
      | accepted msg =>
          let setting : Setting :=
            { received := (· = .accepted msg), calls := fun _ => False, dataName }
          have hchain : OutputChain (Move setting) captain outs final :=
            handleMsg_moves hkept rfl (fun _ _ _ => trivial) (by simp) hhandle
          have hchained := remaining_accepted (fun other hother => ⟨msg, hother⟩)
            (fun _ => not_false) hmode hconfig hkept hleased hchain
          omega
      | decide msg =>
          rw [handleMsg, if_neg (by simp [hwork])] at hhandle
          have hhandled := handleDecide_remaining config hkept.shape hhandle
          change _ ≤ captain.remaining config + 3
          omega
      | learn msg =>
          rw [handleMsg, if_neg (by simp [hwork])] at hhandle
          have hhandled := handleLearn_remaining config hhandle
          change _ ≤ captain.remaining config + 2
          omega
      | teach msg =>
          rw [handleMsg, if_neg (by simp [hwork])] at hhandle
          have hhandled := handleTeach_remaining config hkept.shape hhandle
          omega
      | commit msg =>
          rw [handleMsg, if_neg (by simp [hwork])] at hhandle
          have hhandled := handleCommit_remaining hconfig hmode hkept (hasked msg rfl) hhandle
          change _ ≤ captain.remaining config +
            if dst = config.masterId then config.valueBudget + 2 else 1
          by_cases hdst : dst = config.masterId
          · have hself : captain.view.ifMaster = true := hmaster.mpr hdst
            rw [if_pos hself] at hhandled
            rw [if_pos hdst]
            omega
          · have hother : ¬ captain.view.ifMaster = true := fun hself => hdst (hmaster.mp hself)
            rw [if_neg hother] at hhandled
            rw [if_neg hdst]
            omega
      | command msg =>
          rw [handleMsg, if_neg (by simp [hwork]), Option.some.injEq, Prod.mk.injEq] at hhandle
          obtain ⟨rfl, rfl⟩ := hhandle
          rw [outgoing_nil]
          omega

end Handlers

end Captain

/-! ## Runs -/

/-- The deliveries that a cluster still leads to. -/
def Cluster.remaining (config : Config) (cluster : Cluster) : ℤ :=
  balance config.size (fun _ captain _ => captain.remaining config) (Packet.remaining config)
    cluster

/-- What an action adds to what remains. -/
def Action.gain (config : Config) : Action → ℤ
  | .call _ _ => config.statementBudget
  | .deliver _ _ _ => -1
  | .lose _ => 0
  | .duplicate _ => config.statementBudget

def Action.isDeliver : Action → Bool
  | .deliver _ _ _ => true
  | _ => false

def deliverCount (actions : List Action) : ℕ := actions.countP Action.isDeliver

theorem deliverCount_append (actions actions' : List Action) :
    deliverCount (actions ++ actions') = deliverCount actions + deliverCount actions' :=
  List.countP_append

theorem Action.gain_eq (config : Config) {action : Action} (haction : DBManager.Calls action) :
    action.gain config =
      config.statementBudget *
        ((DBManager.statementsOf [action]).length + duplicatesOf [action]) -
          deliverCount [action] := by
  rw [DBManager.statementsOf_singleton]
  cases action with
  | call i made =>
      obtain ⟨sql, rfl⟩ := haction
      simp [gain, duplicatesOf, deliverCount, isDuplicate, isDeliver, DBManager.sql?,
        DBManager.commit]
  | deliver | duplicate | lose =>
      simp [gain, duplicatesOf, deliverCount, isDuplicate, isDeliver, DBManager.sql?]

theorem sum_gain (config : Config) {actions : List Action}
    (hcalls : ∀ action ∈ actions, DBManager.Calls action) :
    (actions.map (Action.gain config)).sum =
      config.statementBudget *
        ((DBManager.statementsOf actions).length + duplicatesOf actions) -
          deliverCount actions := by
  induction actions with
  | nil => simp [duplicatesOf, deliverCount, DBManager.statementsOf]
  | cons action rest ih =>
      rw [List.forall_mem_cons] at hcalls
      have hsplit : action :: rest = [action] ++ rest := rfl
      rw [List.map_cons, List.sum_cons, ih hcalls.2, action.gain_eq config hcalls.1, hsplit,
        DBManager.statementsOf_append, duplicatesOf_append, deliverCount_append,
        List.length_append]
      push_cast
      ring

section Runs

theorem Cluster.remaining_initial (deployment : Deployment) (config : Config) :
    deployment.initial.remaining config = 0 := by
  simp [Cluster.remaining, balance, Ledger.total, Deployment.initial, Deployment.node,
    Captain.new, Captain.remaining]

theorem Captain.remaining_nonneg (config : Config) (captain : Captain) :
    0 ≤ captain.remaining config := by
  have hvalue := config.valueBudget_nonneg
  have hslot := config.slotBudget_nonneg
  unfold Captain.remaining
  positivity

theorem Cluster.length_le_remaining (config : Config) (cluster : Cluster) :
    (cluster.net.length : ℤ) ≤ cluster.remaining config :=
  (Ledger.length_le_worth (fun packet => packet.one_le_remaining) cluster.net).trans
    (Ledger.worth_le_total (fun _ _ => Captain.remaining_nonneg config _) _ _)

theorem Cluster.remaining_net (config : Config) (cluster : Cluster) (net : List Packet) :
    ({ cluster with net } : Cluster).remaining config = cluster.remaining config -
      Ledger.worth (Packet.remaining config) cluster.net +
        Ledger.worth (Packet.remaining config) net := by
  unfold Cluster.remaining balance Ledger.total
  ring

theorem Cluster.remaining_act {config : Config} {cluster : Cluster} {i : ℕ} {net : List Packet}
    {final : Captain} {outs : List Output} {amount : ℤ} (hi : i < config.size)
    (hpaid : final.remaining config + outgoing config outs +
        Ledger.worth (Packet.remaining config) net + amount ≤
      (cluster.nodes i).captain.remaining config +
        Ledger.worth (Packet.remaining config) cluster.net) :
    (cluster.act i net (final, outs)).remaining config + amount ≤ cluster.remaining config := by
  apply Ledger.total_add_le (Finset.mem_range.mpr hi)
  · intro other hne
    simp [Cluster.act, hne]
  · unfold outgoing at hpaid
    simp only [Cluster.act, Function.update_self, Node.after, Ledger.worth_append]
    omega

variable {deployment : Deployment} {actions : List Action} {mid next : Cluster}
  (hmode : deployment.config.mode = .multi) (hrun : deployment.run actions = some mid)
  (hcalls : ∀ action ∈ actions, DBManager.Calls action)

include hmode hrun hcalls

/-- Only the master opens slots for statements. -/
theorem leaseHeld_of_calls : LeaseHeld deployment.config mid.nodes := by
  have hshards : deployment.config.mode ≠ .rs := by simp [hmode]
  have hstatements : Statements deployment.config (fun _ => True) mid.nodes :=
    statements_of_run hshards hrun hcalls fun _ _ => trivial
  exact leaseHeld_of_run hmode hrun (opener_of_statements hrun hcalls hstatements hshards)

/-- Every delivery uses one up. -/
theorem Cluster.remaining_step {action : Action} (haction : DBManager.Calls action)
    (hstep : mid.step deployment action = some next) :
    next.remaining deployment.config ≤
      mid.remaining deployment.config + action.gain deployment.config := by
  have hshards : deployment.config.mode ≠ .rs := by simp [hmode]
  obtain ⟨hkeeps, _⟩ := knowledge_of_run hshards hrun
  cases action with
  | call i made =>
      obtain ⟨sql, rfl⟩ := haction
      obtain ⟨hi, final, outs, hcall, rfl⟩ := Cluster.step_call hstep
      have hpaid := Captain.commitData_remaining (hkeeps.config i hi) hmode
        (hkeeps.wellKept i hi) hcall
      have hact : (mid.act i mid.net (final, outs)).remaining deployment.config +
          -deployment.config.statementBudget ≤ mid.remaining deployment.config :=
        Cluster.remaining_act hi (by omega)
      rw [Action.gain]
      omega
  | deliver index dataName app =>
      obtain rfl : app = {} := haction
      have hnext : deployment.run (actions ++ [.deliver index dataName {}]) = some next :=
        PartialMachine.run_append_eq_some.mpr
          ⟨mid, hrun, (PartialMachine.run_singleton _ _).trans hstep⟩
      have hheld := leaseHeld_of_calls hmode hnext
        (List.forall_mem_append.mpr ⟨hcalls, List.forall_mem_singleton.mpr rfl⟩)
      obtain ⟨packet, hpacket, hi, final, outs, hhandle, rfl⟩ := Cluster.step_deliver hstep
      have hmem := List.mem_of_getElem? hpacket
      have hsize := deployment.config.size_le
      have hstatements : Statements deployment.config (fun _ => True) mid.nodes :=
        statements_of_run hshards hrun hcalls fun _ _ => trivial
      have hmsg : packet.msg.Leased deployment.config := by
        obtain ⟨j, hj, hlog⟩ := (lease_reaches hmode hrun).sent packet hmem
        exact (leaseHeld_of_calls hmode hrun hcalls j hj).2 _ hlog
      have hleased : ∀ out ∈ outs, out.Leased deployment.config :=
        fun out hout => (hheld packet.dst hi).2 out (mem_log_actOn.mpr (.inr ⟨rfl, hout⟩))
      have hasked : ∀ msg, packet.msg = .commit msg →
          toNodeId msg.msgHeader.nodeId ≠ deployment.config.masterId := by
        intro msg hcommit
        obtain ⟨hnode, hother⟩ := asked_of_run hshards hrun hcalls packet hmem msg hcommit
        rwa [toNodeId_of_lt (by omega)]
      have hpaid := Captain.handleMsg_remaining (hkeeps.config _ hi) hmode (hkeeps.wellKept _ hi)
        (ifMaster_iff hshards hrun hcalls hstatements hi) hasked hmsg hleased hhandle
      have hworth := Ledger.worth_eraseIdx (Packet.remaining deployment.config) hpacket
      have hact : (mid.act packet.dst (mid.net.eraseIdx index) (final, outs)).remaining
          deployment.config + 1 ≤ mid.remaining deployment.config :=
        Cluster.remaining_act hi (by omega)
      rw [Action.gain]
      omega
  | lose index =>
      obtain ⟨hlt, rfl⟩ := Cluster.step_lose hstep
      have hworth := Ledger.worth_eraseIdx (Packet.remaining deployment.config)
        (List.getElem?_eq_getElem hlt)
      have hone : 1 ≤ mid.net[index].remaining deployment.config := Packet.one_le_remaining _
      rw [Action.gain, Cluster.remaining_net]
      omega
  | duplicate index =>
      obtain ⟨packet, hpacket, rfl⟩ := Cluster.step_duplicate hstep
      have hle : packet.remaining deployment.config ≤ deployment.config.statementBudget :=
        packet.remaining_le
      rw [Action.gain, Cluster.remaining_net, Ledger.worth_append, Ledger.worth_cons,
        Ledger.worth_nil]
      omega

theorem remaining_of_run :
    mid.remaining deployment.config + deliverCount actions ≤
      deployment.config.statementBudget *
        ((DBManager.statementsOf actions).length + duplicatesOf actions) := by
  let reached (cluster : Cluster) : Prop := ∃ past : List Action,
    deployment.run past = some cluster ∧ ∀ action ∈ past, DBManager.Calls action
  have hstep : ∀ cluster action next, DBManager.Calls action → reached cluster →
      deployment.machine.step cluster action = some next →
        reached next ∧ next.remaining deployment.config ≤
          cluster.remaining deployment.config + action.gain deployment.config := by
    rintro cluster action next haction ⟨past, hpast, hall⟩ hnext
    refine ⟨⟨past ++ [action], ?_, ?_⟩, ?_⟩
    · rw [← PartialMachine.run_singleton] at hnext
      exact PartialMachine.run_append_eq_some.mpr ⟨cluster, hpast, hnext⟩
    · exact List.forall_mem_append.mpr ⟨hall, List.forall_mem_singleton.mpr haction⟩
    · exact Cluster.remaining_step hmode hpast hall haction hnext
  have hrank := PartialMachine.rank_le_of_run reached (Cluster.remaining deployment.config)
    (Action.gain deployment.config) hstep ⟨[], rfl, by simp⟩ hcalls hrun
  rw [Cluster.remaining_initial, sum_gain deployment.config hcalls] at hrank
  omega

theorem deliverCount_le :
    deliverCount actions + mid.net.length ≤
      (4 * deployment.config.quorumSize + deployment.config.size + 3) *
        ((DBManager.statementsOf actions).length + duplicatesOf actions) := by
  have hspent := remaining_of_run hmode hrun hcalls
  have hflight := mid.length_le_remaining deployment.config
  have hbudget : deployment.config.statementBudget =
      (4 * deployment.config.quorumSize + deployment.config.size + 3 : ℕ) := by
    unfold Config.statementBudget Config.valueBudget Config.slotBudget
    push_cast
    ring
  rw [hbudget] at hspent
  have htotal : (deliverCount actions + mid.net.length : ℤ) ≤
      (4 * deployment.config.quorumSize + deployment.config.size + 3 : ℕ) *
        ((DBManager.statementsOf actions).length + duplicatesOf actions) := by
    linarith
  exact_mod_cast htotal

end Runs

/-- Whatever the network does, the handlers run for at most so many packets: each
statement, and each copy that the network makes, is good for as many as it takes to
forward it, to have it accepted and to teach it to all nodes. -/
theorem deliveries_bounded (config : Config) (winSize : ℕ → ℕ) (hmode : config.mode = .multi)
    (actions : List Action) (final : Cluster)
    (hrun : (DBManager.deployment config winSize).run actions = some final)
    (hcalls : ∀ action ∈ actions, DBManager.Calls action) :
    deliverCount actions + final.net.length ≤
      (4 * config.quorumSize + config.size + 3) *
        ((DBManager.statementsOf actions).length + duplicatesOf actions) :=
  deliverCount_le (by exact hmode) hrun hcalls

/-- A forwarded statement; its COMMIT was duplicated, and one packet is lost. -/
theorem deliveries_bounded_twoNodes :
    ∃ final, (DBManager.deployment (twoNodes .multi) fun _ => 1).run
        (.call 1 (DBManager.commit [65]) :: .duplicate 0 ::
          List.replicate 8 (.deliver 0 [] {}) ++ [.lose 0]) = some final ∧
      8 + final.net.length ≤ 26 := by
  have hfinal : ((DBManager.deployment (twoNodes .multi) fun _ => 1).run
      (.call 1 (DBManager.commit [65]) :: .duplicate 0 ::
        List.replicate 8 (.deliver 0 [] {}) ++ [.lose 0])).isSome = true := by
    decide
  obtain ⟨final, hrun⟩ := Option.isSome_iff_exists.mp hfinal
  have hcalls : ∀ action ∈ (.call 1 (DBManager.commit [65]) :: .duplicate 0 ::
      List.replicate 8 (.deliver 0 [] {}) ++ [.lose 0] : List Action),
      DBManager.Calls action := by
    simp [DBManager.Calls]
  exact ⟨final, hrun, deliveries_bounded (twoNodes .multi) (fun _ => 1) rfl _ final hrun hcalls⟩

end NDNPaxos
