import NDNPaxos.SafeProposals
import Mathlib.Tactic

/-!
# Proposed and learned values

In the builds without shards a value travels unchanged.  Whatever a proposer,
an acceptor or a message holds for a slot has been put into a proposer of this
slot, and whatever a node has learned for a slot has moreover been accepted by
a quorum.
-/

namespace NDNPaxos

def Message.Carries (known : ℕ → PropValue → Prop) : Message → Prop
  | .promise msg => msg.reply = true → 0 < msg.maxBallotId →
      known msg.msgHeader.slotId (msg.maxPropValue.getD {})
  | .accept msg => known msg.msgHeader.slotId msg.propValue
  | _ => True

def Message.Reports (known : ℕ → PropValue → Prop) (chosen : ℕ → ℕ → Prop) :
    Message → Prop
  | .decide msg => chosen msg.msgHeader.slotId msg.valueId
  | .teach msg => known msg.msgHeader.slotId msg.propValue ∧
      chosen msg.msgHeader.slotId msg.propValue.id
  | _ => True

namespace Captain

/-! ## Values that are proposed and accepted -/

structure KnownProposer (known : ℕ → PropValue → Prop) (slot : ℕ) (proposer : Proposer) :
    Prop where
  initValue : known slot proposer.initValue
  currValue : ∀ value, proposer.currValue = some value → known slot value
  maxValue : ∀ value, proposer.maxValue = some value → known slot value
  promises : ∀ (key : ℕ) ack, proposer.msgAckPrepare[key]? = some ack → ack.reply = true →
    0 < ack.maxBallotId → known slot (ack.maxPropValue.getD {})

/-- The proposers and acceptors of a node and what it has sent hold known
values only. -/
structure ValuesKnown (known : ℕ → PropValue → Prop) (captain : Captain)
    (log : List Output) : Prop where
  proposers : ∀ (slot : ℕ) info, captain.proposers[slot]? = some info →
    KnownProposer known slot info.currProposer
  acceptors : ∀ slot value, (captain.acceptorOf slot).maxValue = some value → known slot value
  accepted : ∀ slot ballot value, .note (.accepted slot ballot value) ∈ log → known slot value
  sent : ∀ dst msg, Sends log dst msg → msg.Carries known

variable {known : ℕ → PropValue → Prop} {captain final : Captain} {log outs : List Output}
  {setting : Setting}

namespace KnownProposer

variable {slot : ℕ} {proposer : Proposer}

theorem recordPrepare (hknown : KnownProposer known slot proposer) {msg : MsgAckPrepare}
    (hslot : msg.msgHeader.slotId = slot) (hcarries : (Message.promise msg).Carries known) :
    KnownProposer known slot (proposer.recordPrepare msg) where
  initValue := hknown.initValue
  currValue := hknown.currValue
  maxValue := hknown.maxValue
  promises := by
    intro key ack hget hreply hpos
    rcases OrderedMap.insert_cases hget with ⟨_, rfl⟩ | ⟨_, hold⟩
    · rw [← hslot]
      exact hcarries hreply hpos
    · exact hknown.promises key ack hold hreply hpos

theorem adoptTally (hknown : KnownProposer known slot proposer) :
    KnownProposer known slot proposer.adoptTally where
  initValue := hknown.initValue
  currValue := hknown.currValue
  maxValue := by
    intro value hvalue
    rcases proposer.tally_spec.source with ⟨_, hsame⟩ | ⟨ack, hmem, hreply, hlt, _, hsome⟩
    · exact hknown.maxValue value (hsame.symm.trans hvalue)
    · rcases List.mem_map.mp hmem with ⟨⟨key, found⟩, hentry, rfl⟩
      have hget := Std.TreeMap.mem_toList_iff_getElem?_eq_some.mp hentry
      have heq := hsome.symm.trans hvalue
      rw [Option.some.injEq] at heq
      rw [← heq]
      exact hknown.promises key found hget hreply (Nat.zero_lt_of_lt hlt)
  promises := hknown.promises

theorem continues (hknown : KnownProposer known slot proposer) {view : View}
    {value : PropValue} {after : Proposer} (hmode : view.mode ≠ .rs)
    (hafter : Proposer.Continues view proposer value after) :
    known slot value ∧ KnownProposer known slot after := by
  have hvalue : known slot value ∧ ∀ other, after.maxValue = some other → known slot other := by
    cases hmax : proposer.maxValue with
    | none =>
        rcases hafter.free hmax with ⟨rfl, hnone⟩
        exact ⟨hknown.initValue, by simp [hnone]⟩
    | some highest =>
        rcases hafter.bound highest hmax with ⟨_, hsome, hsame⟩
        have hhighest := hknown.maxValue highest hmax
        rw [hsame hmode] at hsome ⊢
        refine ⟨hhighest, ?_⟩
        intro other hother
        rw [hsome, Option.some.injEq] at hother
        rwa [← hother]
  refine ⟨hvalue.1, ?_, ?_, hvalue.2, ?_⟩
  · rw [hafter.initValue]
    exact hknown.initValue
  · intro other hother
    rw [hafter.currValue, Option.some.injEq] at hother
    rw [← hother]
    exact hvalue.1
  · rw [hafter.msgAckPrepare]
    exact hknown.promises

end KnownProposer

theorem ValuesKnown.proposerMove (hvalues : ValuesKnown known captain log)
    (hmode : captain.mode ≠ .rs) (hreceived : ∀ msg, setting.received msg → msg.Carries known)
    (hmove : ProposerMove setting captain outs final) :
    (∀ (slot : ℕ) info, final.proposers[slot]? = some info →
        KnownProposer known slot info.currProposer) ∧
      ∀ dst msg, Sends outs dst msg → msg.Carries known := by
  have hnothing : ∀ dst msg, Sends [] dst msg → msg.Carries known :=
    fun dst msg hsends => absurd hsends not_sends_nil
  have hprepare : ∀ prepare dst msg,
      Sends (captain.broadcastMsg (.prepare prepare)) dst msg → msg.Carries known := by
    intro prepare dst msg hsends
    rw [sends_broadcastMsg hsends]
    trivial
  cases hmove with
  | @promised msg info ack proposer hmsg hinfo hstatus hack hstays =>
      have hknown := hvalues.proposers _ info hinfo
      refine ⟨OrderedMap.forall_insert hvalues.proposers ?_, hnothing⟩
      cases Proposer.handleMsgPromise_step hack with
      | drops hold => exact hknown
      | waits hballot hvalue hfew => exact hknown.recordPrepare rfl (hreceived _ hmsg)
      | restarts hballot hvalue => exact absurd rfl hstays.2
      | continues hballot hvalue htrue hafter => exact absurd rfl hstays.1
  | @promiseRestart msg info proposer hmsg hinfo hstatus hack =>
      have hknown := hvalues.proposers _ info hinfo
      rw [restart_eq]
      refine ⟨OrderedMap.forall_insert hvalues.proposers ?_, hprepare _⟩
      cases Proposer.handleMsgPromise_step hack with
      | restarts hballot hvalue =>
          have hadopted := (hknown.recordPrepare rfl (hreceived _ hmsg)).adoptTally
          exact ⟨hadopted.initValue, by simp, hadopted.maxValue, by simp⟩
  | @continued msg info proposer outs final hmsg hinfo hstatus hack henter =>
      have hknown := hvalues.proposers _ info hinfo
      cases Proposer.handleMsgPromise_step hack with
      | @continues value _ hballot hnone htrue hafter =>
          have hadopted := (hknown.recordPrepare rfl (hreceived _ hmsg)).adoptTally
          rcases hadopted.continues hmode hafter with ⟨hvalue, hproposer⟩
          have hcurr : { info with currProposer := proposer }.currProposer.currValue =
            some value := hafter.currValue
          rcases enterPhaseII_spec hcurr henter with ⟨⟨rsValues, rsEncoder, rfl⟩, houts⟩
          refine ⟨OrderedMap.forall_insert hvalues.proposers ?_, ?_⟩
          · exact ⟨hproposer.initValue, hproposer.currValue, hproposer.maxValue,
              hproposer.promises⟩
          · rintro dst sent ⟨packet, hmem, _, rfl⟩
            rcases houts _ hmem with ⟨packet', accept, heq, haccept, hheader, _, _, hsame⟩
            rw [Output.send.injEq] at heq
            rw [heq, haccept, Message.Carries, hheader, hsame hmode]
            exact hvalue
  | @acked msg info ack proposer hmsg hinfo hstatus hack hstays =>
      have hknown := hvalues.proposers _ info hinfo
      refine ⟨OrderedMap.forall_insert hvalues.proposers ?_, hnothing⟩
      cases Proposer.handleMsgAccepted_step hack with
      | drops hold => exact hknown
      | waits hballot hvalue => exact ⟨hknown.initValue, hknown.currValue, hknown.maxValue,
          hknown.promises⟩
      | restarts hballot hvalue => simp at hstays
      | chooses hballot hvalue htrue => simp at hstays
  | @ackRestart msg info proposer hmsg hinfo hstatus hack =>
      have hknown := hvalues.proposers _ info hinfo
      rw [restart_eq]
      refine ⟨OrderedMap.forall_insert hvalues.proposers ?_, hprepare _⟩
      cases Proposer.handleMsgAccepted_step hack with
      | restarts hballot hvalue =>
          exact ⟨hknown.initValue, by simp, hknown.maxValue, by simp⟩
  | @chosen msg info proposer hmsg hinfo hstatus hack =>
      have hknown := hvalues.proposers _ info hinfo
      refine ⟨OrderedMap.forall_insert hvalues.proposers ?_, hnothing⟩
      cases Proposer.handleMsgAccepted_step hack with
      | chooses hballot hvalue htrue =>
          exact ⟨hknown.initValue, hknown.currValue, hknown.maxValue, hknown.promises⟩

theorem ValuesKnown.acceptorMove (hvalues : ValuesKnown known captain log)
    (hunvoted : ∀ slot, (captain.acceptorOf slot).maxValue = none →
      (captain.acceptorOf slot).maxAcceptedBallot = 0)
    (hwhoami : captain.whoami < 2 ^ 16)
    (hreceived : ∀ msg, setting.received msg → msg.Carries known)
    (hmove : AcceptorMove setting captain outs final) :
    (∀ slot value, (final.acceptorOf slot).maxValue = some value → known slot value) ∧
      (∀ slot ballot value, .note (.accepted slot ballot value) ∈ outs → known slot value) ∧
      ∀ dst msg, Sends outs dst msg → msg.Carries known := by
  have hstored : ∀ slot value, (final.acceptorOf slot).maxValue = some value →
      known slot value := by
    intro slot value hvalue
    rcases hmove.maxValue_cases hvalue with hold | ⟨msg, hmsg, hslot, heq⟩
    · exact hvalues.acceptors slot value hold
    · rw [← hslot, ← heq]
      exact hreceived _ hmsg
  refine ⟨hstored, ?_⟩
  cases hmove with
  | @prepare msg acceptors hmsg hupdate =>
      constructor
      · exact fun slot ballot value hmem => absurd ⟨value, hmem, rfl⟩ not_voted_answer
      · intro dst sent hsends
        rw [(sends_answer hwhoami hsends).1]
        intro hreply hpos
        rcases Acceptor.handleMsgPrepare_cases (captain.acceptorOf msg.msgHeader.slotId)
          captain.view msg with ⟨_, _, hballot, hvalue⟩ | ⟨_, _, hno⟩
        · change 0 < (captain.prepareAnswer msg).maxBallotId at hpos
          change (captain.prepareAnswer msg).maxBallotId = _ at hballot
          change (captain.prepareAnswer msg).maxPropValue = _ at hvalue
          rw [prepareAnswer_msgHeader, hvalue]
          cases hmax : (captain.acceptorOf msg.msgHeader.slotId).maxValue with
          | none =>
              have hzero := hunvoted _ hmax
              omega
          | some stored => exact hvalues.acceptors _ stored hmax
        · change (captain.prepareAnswer msg).reply = _ at hno
          rw [hno] at hreply
          simp at hreply
  | @accept msg acceptors hmsg hupdate =>
      constructor
      · intro slot ballot value hmem
        rcases List.mem_append.mp hmem with hnote | hanswer
        · split at hnote
          · rw [List.mem_singleton, Output.note.injEq, Event.accepted.injEq] at hnote
            rcases hnote with ⟨rfl, _, rfl⟩
            exact hreceived _ hmsg
          · simp at hnote
        · exact absurd ⟨value, hanswer, rfl⟩ not_voted_answer
      · intro dst sent hsends
        rcases sends_append.mp hsends with ⟨packet, hmem, _⟩ | hanswer
        · split at hmem <;> simp at hmem
        · rw [(sends_answer hwhoami hanswer).1]
          trivial

theorem carries_of_kind {msg : Message} (hacceptor : msg.kind ≠ .acceptor)
    (hproposer : msg.kind ≠ .proposer) : msg.Carries known := by
  cases msg <;> trivial

theorem ValuesKnown.slotMove (hvalues : ValuesKnown known captain log)
    (hkept : captain.WellKept) (hwhoami : captain.whoami < 2 ^ 16) (hmode : captain.mode ≠ .rs)
    (hunvoted : ∀ slot, (captain.acceptorOf slot).maxValue = none →
      (captain.acceptorOf slot).maxAcceptedBallot = 0)
    (hreceived : ∀ msg, setting.received msg → msg.Carries known)
    (hopened : ∀ slot value, Opened outs slot value → known slot value)
    (hmove : SlotMove setting captain outs final) : ValuesKnown known final (log ++ outs) := by
  have hacceptors : (∀ slot value, (final.acceptorOf slot).maxValue = some value →
      known slot value) ∧
      (∀ slot ballot value, .note (.accepted slot ballot value) ∈ outs → known slot value) ∧
      ∀ dst msg, Sends outs dst msg → msg.kind = .acceptor → msg.Carries known := by
    rcases hmove.acceptor_cases hkept.shape with hacceptor | ⟨hsame, hkinds⟩
    · have hall := hvalues.acceptorMove hunvoted hwhoami hreceived hacceptor
      exact ⟨hall.1, hall.2.1, fun dst msg hsends _ => hall.2.2 dst msg hsends⟩
    · refine ⟨?_, fun slot ballot value hmem => absurd rfl (hkinds _ hmem), ?_⟩
      · intro slot value hvalue
        rw [acceptorOf_congr hsame] at hvalue
        exact hvalues.acceptors slot value hvalue
      · intro dst msg hsends hkind
        exact absurd hsends (not_sends_of_kind (hkind ▸ hkinds))
  have hproposers : (∀ (slot : ℕ) info, final.proposers[slot]? = some info →
      KnownProposer known slot info.currProposer) ∧
      ∀ dst msg, Sends outs dst msg → msg.kind = .proposer → msg.Carries known := by
    rcases hmove.proposer_cases hkept.shape with hproposer |
      ⟨value, name, tryTime, skipPhaseI, _, rfl, rfl⟩ | ⟨⟨slot, rfl⟩, hkinds⟩ |
      ⟨hsame, _, hkinds⟩
    · have hboth := hvalues.proposerMove hmode hreceived hproposer
      exact ⟨hboth.1, fun dst msg hsends _ => hboth.2 dst msg hsends⟩
    · have hvalue : known (captain.maxSlot + 1) value := by
        refine hopened _ _ ⟨name, tryTime, ?_⟩
        rw [openSlot_eq]
        exact List.mem_cons_self ..
      constructor
      · rw [openSlot_eq]
        refine OrderedMap.forall_insert hvalues.proposers ?_
        refine ⟨by simpa using hvalue, ?_, by simp, by simp⟩
        intro other hother
        cases skipPhaseI with
        | false => simp [newProposer, Proposer.genNextBallot, Proposer.new] at hother
        | true =>
            simp only [newProposer, Proposer.initCurrValue, if_true, Option.some.injEq] at hother
            rw [← hother]
            exact hvalue
      · intro dst msg hsends _
        rw [sends_openSlot hsends]
        cases skipPhaseI with
        | false => trivial
        | true => exact hvalue
    · refine ⟨?_, fun dst msg hsends hkind =>
        absurd hsends (not_sends_of_kind (hkind ▸ hkinds))⟩
      exact OrderedMap.forall_erase hvalues.proposers
    · refine ⟨?_, fun dst msg hsends hkind =>
        absurd hsends (not_sends_of_kind (hkind ▸ hkinds))⟩
      rw [hsame]
      exact hvalues.proposers
  refine ⟨hproposers.1, hacceptors.1, ?_, ?_⟩
  · intro slot ballot value hmem
    rcases List.mem_append.mp hmem with hold | hnew
    · exact hvalues.accepted slot ballot value hold
    · exact hacceptors.2.1 slot ballot value hnew
  intro dst msg hsends
  rcases sends_append.mp hsends with hold | hnew
  · exact hvalues.sent dst msg hold
  by_cases hacceptor : msg.kind = .acceptor
  · exact hacceptors.2.2 dst msg hnew hacceptor
  by_cases hproposer : msg.kind = .proposer
  · exact hproposers.2 dst msg hnew hproposer
  · exact carries_of_kind hacceptor hproposer

/-! ## Values that are learned -/

/-- What a node has learned, by its own quorum or from others, is known and has
been chosen. -/
structure LearnedFrom (known : ℕ → PropValue → Prop) (chosen : ℕ → ℕ → Prop)
    (captain : Captain) (log : List Output) : Prop where
  proposers : ∀ (slot : ℕ) info value, captain.proposers[slot]? = some info →
    info.proposerStatus = .chosen → info.currProposer.currValue = some value →
      chosen slot value.id
  stored : ∀ slot value, captain.chosenAt slot = some value →
    known slot value ∧ chosen slot value.id
  chose : ∀ slot value init, .note (.chose slot value init) ∈ log →
    known slot value ∧ chosen slot value.id
  sent : ∀ dst msg, Sends log dst msg → msg.Reports known chosen

variable {chosen chosen' : ℕ → ℕ → Prop}

theorem LearnedFrom.mono (hlearned : LearnedFrom known chosen captain log)
    (hgrow : ∀ slot id, chosen slot id → chosen' slot id) :
    LearnedFrom known chosen' captain log where
  proposers := fun slot info value hinfo hstatus hvalue =>
    hgrow _ _ (hlearned.proposers slot info value hinfo hstatus hvalue)
  stored := fun slot value hvalue =>
    ⟨(hlearned.stored slot value hvalue).1, hgrow _ _ (hlearned.stored slot value hvalue).2⟩
  chose := fun slot value init hmem =>
    ⟨(hlearned.chose slot value init hmem).1, hgrow _ _ (hlearned.chose slot value init hmem).2⟩
  sent := by
    intro dst msg hsends
    have hreports := hlearned.sent dst msg hsends
    cases msg with
    | decide msg => exact hgrow _ _ hreports
    | teach msg => exact ⟨hreports.1, hgrow _ _ hreports.2⟩
    | _ => trivial

theorem reports_of_kind {msg : Message} (hkind : msg.kind ≠ .learner) :
    msg.Reports known chosen := by
  cases msg <;> trivial

/-- Only the end of CHOOSE retires a proposer. -/
theorem SlotMove.chose_of_mem (hshape : LogShape captain)
    (hmove : SlotMove setting captain outs final) {slot : ℕ} {value init : PropValue}
    (hmem : .note (.chose slot value init) ∈ outs) :
    ∃ info, captain.proposers[slot]? = some info ∧ info.proposerStatus = .chosen ∧
      info.currProposer.currValue = some value ∧ info.currProposer.initValue = init := by
  cases hmove with
  | base hmove => exact absurd rfl (hmove.kinds hshape hmem).2.2
  | queue hframe hkind =>
      have hhanded := hkind _ hmem
      simp [Output.kind, Event.kind] at hhanded
  | opens name tryTime hskip =>
      rw [openSlot_eq] at hmem
      rcases List.mem_cons.mp hmem with heq | hsent
      · simp at heq
      · rcases mem_broadcastMsg hsent with ⟨packet, heq, _⟩
        simp at heq
  | announce hinfo hstatus hvalue hstored hretires =>
      rcases mem_announce hmem with ⟨packet, heq, _⟩
      simp at heq
  | @close slot' info value' hinfo hstatus hvalue =>
      rw [List.mem_singleton, Output.note.injEq, Event.chose.injEq] at hmem
      rcases hmem with ⟨rfl, rfl, rfl⟩
      exact ⟨info, hinfo, hstatus, hvalue, rfl⟩

theorem reports_of_kinds (hkinds : ∀ out ∈ outs, out.kind ≠ .learner) :
    ∀ dst msg, Sends outs dst msg → msg.Reports known chosen := by
  intro dst msg hsends
  apply reports_of_kind
  intro hkind
  exact not_sends_of_kind (hkind ▸ hkinds) hsends

theorem LearnedFrom.of_learnable {slot : ℕ} {value : PropValue}
    (hlearned : LearnedFrom known chosen captain log) (hvalues : ValuesKnown known captain log)
    (hreceived : ∀ msg, setting.received msg → msg.Reports known chosen)
    (hlearn : Learnable setting captain slot value) :
    known slot value ∧ chosen slot value.id := by
  cases hlearn with
  | own hinfo hstatus hvalue hretires =>
      exact ⟨(hvalues.proposers slot _ hinfo).currValue value hvalue,
        hlearned.proposers slot _ value hinfo hstatus hvalue⟩
  | decided hmsg hslot hvalue hid =>
      refine ⟨hvalues.acceptors slot value hvalue, ?_⟩
      rw [hid, ← hslot]
      exact hreceived _ hmsg
  | taught hmsg hslot hvalue =>
      rw [← hslot, ← hvalue]
      exact hreceived _ hmsg

/-- With shards, only the id of a taught value is the one that is stored. -/
theorem LearnedFrom.learnerMove (hlearned : LearnedFrom known chosen captain log)
    (hvalues : ValuesKnown known captain log) (hshape : LogShape captain)
    (hmode : captain.mode = .rs → ∀ slot value, known slot value)
    (hreceived : ∀ msg, setting.received msg → msg.Reports known chosen)
    (hmove : LearnerMove setting captain outs final) :
    (∀ slot value, final.chosenAt slot = some value →
        known slot value ∧ chosen slot value.id) ∧
      ∀ dst msg, Sends outs dst msg → msg.Reports known chosen := by
  have hstored := hlearned.stored
  cases hmove with
  | tell hinfo hstatus hvalue hown hretires =>
      refine ⟨hstored, reports_of_kinds ?_⟩
      intro out hmem
      rcases List.mem_cons.mp hmem with rfl | hlatency
      · simp [Output.kind, Event.kind]
      · split at hlatency
        · simp [List.mem_singleton.mp hlatency, Output.kind, Event.kind]
        · simp at hlatency
  | @learn slot value outs final hlearn hadd =>
      rcases addChosenValue_learned hshape hadd with ⟨_, _, _, delivered, rfl⟩
      refine ⟨?_, reports_of_kinds fun out hmem => by simp [kind_of_mem_deliveryEvents hmem]⟩
      intro other value' hother
      rcases learned_cases hshape hadd hother with hold | ⟨rfl, rfl⟩
      · exact hstored other value' hold
      · exact hlearned.of_learnable hvalues hreceived hlearn
  | @teach msg value teach outs hmsg hvalue hteach hsend =>
      refine ⟨hstored, ?_⟩
      rcases answerLearn_msg hteach with ⟨sent, rfl, hheader, hid, hsame⟩
      rw [hvalue, Option.getD_some] at hid hsame
      rintro dst msg' ⟨packet, hmem, _, rfl⟩
      rw [sendInterest_eq_some hsend, List.mem_singleton, Output.send.injEq] at hmem
      rw [hmem, Message.Reports, hheader, hid]
      refine ⟨?_, (hstored _ value hvalue).2⟩
      by_cases hrs : captain.mode = .rs
      · exact hmode hrs _ _
      · rw [hsame hrs]
        exact (hstored _ value hvalue).1
  | inquire hmsg =>
      refine ⟨hstored, ?_⟩
      rintro dst msg' ⟨packet, hmem, _, rfl⟩
      rw [sendData, List.mem_singleton, Output.send.injEq] at hmem
      rw [hmem]
      trivial

theorem LearnedFrom.learning_of (hlearned : LearnedFrom known chosen captain log)
    (hvalues : ValuesKnown known captain log) (hshape : LogShape captain)
    (hmode : captain.mode = .rs → ∀ slot value, known slot value)
    (hreceived : ∀ msg, setting.received msg → msg.Reports known chosen)
    (hmove : SlotMove setting captain outs final) :
    (∀ slot value, final.chosenAt slot = some value →
        known slot value ∧ chosen slot value.id) ∧
      ∀ dst msg, Sends outs dst msg → msg.Reports known chosen := by
  have hstored := hlearned.stored
  cases hmove with
  | base hmove =>
      cases hmove with
      | forwarding hmove =>
          rw [hmove.spec.1]
          exact ⟨hstored, reports_of_kinds fun out hmem => by simp [hmove.spec.2 out hmem]⟩
      | acceptor hmove =>
          rw [hmove.spec.1]
          exact ⟨hstored, reports_of_kinds fun out hmem => by simp [hmove.spec.2 out hmem]⟩
      | proposer hmove =>
          rw [hmove.spec.1]
          exact ⟨hstored, reports_of_kinds fun out hmem => by simp [hmove.spec.2.2 out hmem]⟩
      | learner hmove => exact hlearned.learnerMove hvalues hshape hmode hreceived hmove
  | queue hframe hkind =>
      rw [hframe]
      exact ⟨hstored, reports_of_kinds fun out hmem => by simp [hkind out hmem]⟩
  | @opens value name tryTime skipPhaseI hskip =>
      refine ⟨?_, ?_⟩
      · rw [openSlot_eq]
        exact hstored
      · intro dst msg hsends
        rw [sends_openSlot hsends]
        cases skipPhaseI <;> trivial
  | @announce slot info value stored hinfo hstatus hvalue hat hretires =>
      refine ⟨hstored, ?_⟩
      rintro dst msg ⟨packet, hmem, _, rfl⟩
      rcases mem_announce hmem with ⟨packet', heq, hmsg⟩
      rw [Output.send.injEq] at heq
      rw [heq]
      rcases hmsg with hmsg | hmsg
      · rw [hmsg]
        exact hlearned.proposers slot info value hinfo hstatus hvalue
      · rw [hmsg, msgTeach, hat]
        exact hstored slot stored hat
  | close hinfo hstatus hvalue =>
      exact ⟨hstored, reports_of_kinds fun out hmem => by
        simp [List.mem_singleton.mp hmem, Output.kind, Event.kind]⟩

theorem LearnedFrom.learning (hlearned : LearnedFrom known chosen captain log)
    (hvalues : ValuesKnown known captain log) (hshape : LogShape captain)
    (hmode : captain.mode ≠ .rs)
    (hreceived : ∀ msg, setting.received msg → msg.Reports known chosen)
    (hmove : SlotMove setting captain outs final) :
    (∀ slot value, final.chosenAt slot = some value →
        known slot value ∧ chosen slot value.id) ∧
      ∀ dst msg, Sends outs dst msg → msg.Reports known chosen :=
  hlearned.learning_of hvalues hshape (fun hrs => absurd hrs hmode) hreceived hmove

/-- A proposer with status `chosen` has just got there or was there before. -/
theorem SlotMove.chosen_cases (hshape : LogShape captain)
    (hmove : SlotMove setting captain outs final) {slot : ℕ} {info : ProposerInfo}
    (hinfo : final.proposers[slot]? = some info) (hstatus : info.proposerStatus = .chosen) :
    captain.proposers[slot]? = some info ∨
      ∃ msg before proposer, setting.received (.accepted msg) ∧
        msg.msgHeader.slotId = slot ∧ captain.proposers[slot]? = some before ∧
        before.proposerStatus = .phaseII ∧
        before.currProposer.handleMsgAccepted msg = (.choose, proposer) ∧
        info = { before with currProposer := proposer, proposerStatus := .chosen } := by
  have hinsert : ∀ {key : ℕ} {new : ProposerInfo}, new.proposerStatus ≠ .chosen →
      (captain.proposers.insert key new)[slot]? = some info →
        captain.proposers[slot]? = some info := by
    intro key new hnew hget
    rcases OrderedMap.insert_cases hget with ⟨_, rfl⟩ | ⟨_, hold⟩
    · exact absurd hstatus hnew
    · exact hold
  rcases hmove.proposer_cases hshape with hproposer |
    ⟨value, name, tryTime, skipPhaseI, _, rfl, rfl⟩ | ⟨⟨key, rfl⟩, _⟩ | ⟨hsame, _⟩
  · cases hproposer with
    | promised hmsg hbefore hold hack hstays => exact .inl (hinsert (by simp) hinfo)
    | promiseRestart hmsg hbefore hold hack =>
        rw [restart_eq] at hinfo
        exact .inl (hinsert (by simp) hinfo)
    | @continued msg before proposer outs final hmsg hbefore hold hack henter =>
        cases Proposer.handleMsgPromise_step hack with
        | @continues value _ hballot hnone htrue hafter =>
            have hcurr : { before with currProposer := proposer }.currProposer.currValue =
              some value := hafter.currValue
            rcases (enterPhaseII_spec hcurr henter).1 with ⟨rsValues, rsEncoder, rfl⟩
            exact .inl (hinsert (by simp) hinfo)
    | @acked msg before ack proposer hmsg hbefore hold hack hstays =>
        exact .inl (hinsert (by simp [hold]) hinfo)
    | ackRestart hmsg hbefore hold hack =>
        rw [restart_eq] at hinfo
        exact .inl (hinsert (by simp) hinfo)
    | @chosen msg before proposer hmsg hbefore hold hack =>
        rcases OrderedMap.insert_cases hinfo with ⟨rfl, rfl⟩ | ⟨_, hother⟩
        · exact .inr ⟨msg, before, proposer, hmsg, rfl, hbefore, hold, hack, rfl⟩
        · exact .inl hother
  · rw [openSlot_eq] at hinfo
    refine .inl (hinsert ?_ hinfo)
    cases skipPhaseI <;> simp [newProposer]
  · exact .inl (OrderedMap.of_erase hinfo)
  · rw [hsame] at hinfo
    exact .inl hinfo

end Captain

end NDNPaxos
