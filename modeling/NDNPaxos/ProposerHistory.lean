import NDNPaxos.AcceptorHistory
import Mathlib.Tactic

/-!
# What a proposer has asked for

A node issues a ballot for a slot once, in rising order, and never asks for two
values in one ballot.  A live proposer is described by what it has asked for so
far and by the acknowledgements it holds, each of which was sent to its node.
-/

namespace NDNPaxos

def Message.issue? : Message → Option (MsgHeader × ℕ)
  | .prepare msg => some (msg.msgHeader, msg.ballotId)
  | .accept msg => some (msg.msgHeader, msg.ballotId)
  | _ => none

def Issued (log : List Output) (header : MsgHeader) (ballot : ℕ) : Prop :=
  ∃ dst msg, Sends log dst msg ∧ msg.issue? = some (header, ballot)

def Proposed (log : List Output) (slot ballot id : ℕ) : Prop :=
  ∃ dst, ∃ msg : MsgAccept, Sends log dst (.accept msg) ∧ msg.msgHeader.slotId = slot ∧
    msg.ballotId = ballot ∧ msg.propValue.id = id

def Opened (log : List Output) (slot : ℕ) (value : PropValue) : Prop :=
  ∃ name tryTime, .note (.propose slot value name tryTime) ∈ log

theorem opened_append {log outs : List Output} {slot : ℕ} {value : PropValue} :
    Opened (log ++ outs) slot value ↔ Opened log slot value ∨ Opened outs slot value := by
  simp only [Opened, List.mem_append, exists_or]

theorem issued_append {log outs : List Output} {header : MsgHeader} {ballot : ℕ} :
    Issued (log ++ outs) header ballot ↔ Issued log header ballot ∨ Issued outs header ballot := by
  simp only [Issued, sends_append, or_and_right, exists_or]

theorem proposed_append {log outs : List Output} {slot ballot id : ℕ} :
    Proposed (log ++ outs) slot ballot id ↔
      Proposed log slot ballot id ∨ Proposed outs slot ballot id := by
  simp only [Proposed, sends_append, or_and_right, exists_or]

theorem Proposed.issued {log : List Output} {slot ballot id : ℕ}
    (hproposed : Proposed log slot ballot id) :
    ∃ header, header.slotId = slot ∧ Issued log header ballot := by
  rcases hproposed with ⟨dst, msg, hsends, hslot, hballot, _⟩
  exact ⟨msg.msgHeader, hslot, dst, .accept msg, hsends, by rw [Message.issue?, hballot]⟩

theorem not_issued_of_kind {outs : List Output} (hkinds : ∀ out ∈ outs, out.kind ≠ .proposer)
    {header : MsgHeader} {ballot : ℕ} : ¬ Issued outs header ballot := by
  rintro ⟨dst, msg, hsends, hissue⟩
  have hkind : msg.kind = .proposer := by
    cases msg <;> first | rfl | simp [Message.issue?] at hissue
  exact not_sends_of_kind (fun out hmem => hkind ▸ hkinds out hmem) hsends

theorem not_proposed_of_kind {outs : List Output} (hkinds : ∀ out ∈ outs, out.kind ≠ .proposer)
    {slot ballot id : ℕ} : ¬ Proposed outs slot ballot id := by
  intro hproposed
  rcases hproposed.issued with ⟨header, _, hissued⟩
  exact not_issued_of_kind hkinds hissued

/-- The ballots of a node: past round zero, with the node's id in the low bits. -/
structure OwnBallot (nodeId ballot : ℕ) : Prop where
  round : 2 ^ 16 ≤ ballot
  owner : toNodeId ballot = nodeId

theorem OwnBallot.first {nodeId : ℕ} (hnode : nodeId < 2 ^ 16) :
    OwnBallot nodeId (2 ^ 16 + nodeId) where
  round := Nat.le_add_right _ _
  owner := by
    unfold toNodeId
    omega

theorem OwnBallot.next {nodeId ballot : ℕ} (hown : OwnBallot nodeId ballot) :
    OwnBallot nodeId (ballot + 2 ^ 16) where
  round := hown.round.trans (Nat.le_add_right _ _)
  owner := by
    rw [toNodeId, Nat.add_mod_right]
    exact hown.owner

def ProposerInfo.Accepting (info : ProposerInfo) : Prop :=
  info.proposerStatus = .phaseII ∨ info.proposerStatus = .chosen

namespace Captain

/-- What a proposer remembers of accepted values: nothing, or the ballot and
the value that a positive PROMISE for the slot has reported. -/
structure Reported (received : Message → Prop) (slot : ℕ) (maxBallot : ℕ)
    (maxValue : Option PropValue) : Prop where
  nothing : maxValue = none → maxBallot = 0
  value : ∀ value, maxValue = some value →
    ∃ ack : MsgAckPrepare, received (.promise ack) ∧ ack.msgHeader.slotId = slot ∧
      ack.reply = true ∧ 0 < ack.maxBallotId ∧ ack.maxBallotId = maxBallot ∧
      (ack.maxPropValue.getD {}).id = value.id

/-- A live proposer of the node against the node's log and the messages sent to
it. -/
structure LiveProposer (received : Message → Prop) (view : View) (log : List Output)
    (slot : ℕ) (info : ProposerInfo) : Prop where
  opened : Opened log slot info.currProposer.initValue
  ballot : OwnBallot view.whoami info.currProposer.currBallot
  quorums : view.mode ≠ .rs →
    info.currProposer.qr = view.quorumSize ∧ info.currProposer.qw = view.quorumSize
  phase : (info.Preparing ∧ info.currProposer.currValue = none ∧
      ∀ ballot id, Proposed log slot ballot id → ballot < info.currProposer.currBallot) ∨
    (info.Accepting ∧ ∃ value, info.currProposer.currValue = some value ∧
      ∀ id, Proposed log slot info.currProposer.currBallot id → id = value.id)
  promises : ∀ (key : ℕ) ack, info.currProposer.msgAckPrepare[key]? = some ack →
    received (.promise ack) ∧ toNodeId ack.msgHeader.nodeId = key ∧
      ack.msgHeader.slotId = slot ∧ info.currProposer.currBallot ≤ ack.ballotId
  accepteds : ∀ (key : ℕ) ack, info.currProposer.msgAckAccept[key]? = some ack →
    received (.accepted ack) ∧ toNodeId ack.msgHeader.nodeId = key ∧
      ack.msgHeader.slotId = slot ∧ info.currProposer.currBallot ≤ ack.ballotId
  reported : Reported received slot info.currProposer.maxBallot info.currProposer.maxValue

/-- The proposers of a node against its log and the messages sent to it. -/
structure ProposerHistory (received : Message → Prop) (captain : Captain)
    (log : List Output) : Prop where
  issued : ∀ header ballot, Issued log header ballot →
    header.nodeId = captain.whoami ∧ header.slotId ≤ captain.maxSlot ∧
      OwnBallot captain.whoami ballot ∧
      ∀ info, captain.proposers[header.slotId]? = some info →
        ballot ≤ info.currProposer.currBallot
  unique : ∀ slot ballot id id', Proposed log slot ballot id → Proposed log slot ballot id' →
    id = id'
  live : ∀ slot info, captain.proposers[slot]? = some info →
    LiveProposer received captain.view log slot info

section Mono

variable {received received' : Message → Prop} (hgrow : ∀ msg, received msg → received' msg)

include hgrow

theorem Reported.mono {slot maxBallot : ℕ} {maxValue : Option PropValue}
    (hreported : Reported received slot maxBallot maxValue) :
    Reported received' slot maxBallot maxValue where
  nothing := hreported.nothing
  value := by
    intro value hvalue
    rcases hreported.value value hvalue with ⟨ack, hreceived, hack⟩
    exact ⟨ack, hgrow _ hreceived, hack⟩

theorem LiveProposer.mono {view : View} {log : List Output} {slot : ℕ} {info : ProposerInfo}
    (hlive : LiveProposer received view log slot info) :
    LiveProposer received' view log slot info where
  opened := hlive.opened
  ballot := hlive.ballot
  quorums := hlive.quorums
  phase := hlive.phase
  promises := by
    intro key ack hack
    rcases hlive.promises key ack hack with ⟨hreceived, hrest⟩
    exact ⟨hgrow _ hreceived, hrest⟩
  accepteds := by
    intro key ack hack
    rcases hlive.accepteds key ack hack with ⟨hreceived, hrest⟩
    exact ⟨hgrow _ hreceived, hrest⟩
  reported := hlive.reported.mono hgrow

theorem ProposerHistory.mono {captain : Captain} {log : List Output}
    (hhistory : ProposerHistory received captain log) :
    ProposerHistory received' captain log where
  issued := hhistory.issued
  unique := hhistory.unique
  live := fun slot info hinfo => (hhistory.live slot info hinfo).mono hgrow

end Mono

theorem ProposerHistory.initial (received : Message → Prop) (deployment : Deployment)
    (i : ℕ) : ProposerHistory received (deployment.node i).captain [] := by
  constructor
  · rintro header ballot ⟨dst, msg, hsends, _⟩
    exact absurd hsends not_sends_nil
  · rintro slot ballot id id' ⟨dst, msg, hsends, _⟩
    exact absurd hsends not_sends_nil
  · intro slot info hinfo
    simp [Deployment.node, Captain.new] at hinfo

namespace LiveProposer

variable {received : Message → Prop} {view view' : View} {log outs : List Output} {slot : ℕ}
  {info : ProposerInfo}

/-- Nothing changes for a proposer when its node asks for nothing at its slot. -/
theorem frame (hlive : LiveProposer received view log slot info)
    (hconfig : view'.config = view.config) (hnodeId : view'.nodeId = view.nodeId)
    (hquiet : ∀ ballot id, ¬ Proposed outs slot ballot id) :
    LiveProposer received view' (log ++ outs) slot info where
  opened := opened_append.mpr (.inl hlive.opened)
  ballot := by
    rw [View.whoami, hnodeId]
    exact hlive.ballot
  quorums := by
    rw [View.mode, View.quorumSize, hconfig]
    exact hlive.quorums
  phase := by
    rcases hlive.phase with ⟨hpreparing, hvalue, hbelow⟩ | ⟨haccepting, value, hvalue, honly⟩
    · refine .inl ⟨hpreparing, hvalue, ?_⟩
      intro ballot id hproposed
      rcases proposed_append.mp hproposed with hold | hnew
      · exact hbelow ballot id hold
      · exact absurd hnew (hquiet ballot id)
    · refine .inr ⟨haccepting, value, hvalue, ?_⟩
      intro id hproposed
      rcases proposed_append.mp hproposed with hold | hnew
      · exact honly id hold
      · exact absurd hnew (hquiet _ id)
  promises := hlive.promises
  accepteds := hlive.accepteds
  reported := hlive.reported

theorem preparing (hlive : LiveProposer received view log slot info)
    (hstatus : info.Preparing) :
    info.currProposer.currValue = none ∧
      ∀ ballot id, Proposed log slot ballot id → ballot < info.currProposer.currBallot := by
  rcases hlive.phase with ⟨_, hrest⟩ | ⟨haccepting, _⟩
  · exact hrest
  · rcases hstatus with hstatus | hstatus <;> rcases haccepting with hother | hother <;>
      simp [hstatus] at hother

theorem accepting (hlive : LiveProposer received view log slot info)
    (hstatus : info.Accepting) :
    ∃ value, info.currProposer.currValue = some value ∧
      ∀ id, Proposed log slot info.currProposer.currBallot id → id = value.id := by
  rcases hlive.phase with ⟨hpreparing, _⟩ | ⟨_, hrest⟩
  · rcases hpreparing with hother | hother <;> rcases hstatus with hstatus | hstatus <;>
      simp [hstatus] at hother
  · exact hrest

theorem currValue_isSome (hlive : LiveProposer received view log slot info)
    (hphase : info.proposerStatus = .phaseII) : info.currProposer.currValue.isSome := by
  rcases hlive.accepting (.inl hphase) with ⟨value, hvalue, _⟩
  rw [hvalue]
  rfl

/-! ## Acknowledgements -/

theorem recordPrepare_promises (hlive : LiveProposer received view log slot info)
    {msg : MsgAckPrepare} (hreceived : received (.promise msg))
    (hslot : msg.msgHeader.slotId = slot)
    (hballot : info.currProposer.currBallot ≤ msg.ballotId) (key : ℕ) (ack : MsgAckPrepare)
    (hack : (info.currProposer.recordPrepare msg).msgAckPrepare[key]? = some ack) :
    received (.promise ack) ∧ toNodeId ack.msgHeader.nodeId = key ∧
      ack.msgHeader.slotId = slot ∧ info.currProposer.currBallot ≤ ack.ballotId := by
  rcases OrderedMap.insert_cases hack with ⟨rfl, rfl⟩ | ⟨_, hold⟩
  · exact ⟨hreceived, rfl, hslot, hballot⟩
  · exact hlive.promises key ack hold

theorem recordAccept_accepteds (hlive : LiveProposer received view log slot info)
    {msg : MsgAckAccept} (hreceived : received (.accepted msg))
    (hslot : msg.msgHeader.slotId = slot)
    (hballot : info.currProposer.currBallot ≤ msg.ballotId) (key : ℕ) (ack : MsgAckAccept)
    (hack : (info.currProposer.recordAccept msg).msgAckAccept[key]? = some ack) :
    received (.accepted ack) ∧ toNodeId ack.msgHeader.nodeId = key ∧
      ack.msgHeader.slotId = slot ∧ info.currProposer.currBallot ≤ ack.ballotId := by
  rcases OrderedMap.insert_cases hack with ⟨rfl, rfl⟩ | ⟨_, hold⟩
  · exact ⟨hreceived, rfl, hslot, hballot⟩
  · exact hlive.accepteds key ack hold

theorem recordAccept (hlive : LiveProposer received view log slot info) {msg : MsgAckAccept}
    (hreceived : received (.accepted msg)) (hslot : msg.msgHeader.slotId = slot)
    (hballot : info.currProposer.currBallot ≤ msg.ballotId) :
    LiveProposer received view log slot
      { info with currProposer := info.currProposer.recordAccept msg } where
  opened := hlive.opened
  ballot := hlive.ballot
  quorums := hlive.quorums
  phase := hlive.phase
  promises := hlive.promises
  accepteds := hlive.recordAccept_accepteds hreceived hslot hballot
  reported := hlive.reported

/-- The tally takes over a value only from a positive PROMISE for the slot. -/
theorem adoptTally_reported (hlive : LiveProposer received view log slot info)
    {msg : MsgAckPrepare} (hreceived : received (.promise msg))
    (hslot : msg.msgHeader.slotId = slot)
    (hballot : info.currProposer.currBallot ≤ msg.ballotId) :
    Reported received slot (info.currProposer.recordPrepare msg).adoptTally.maxBallot
      (info.currProposer.recordPrepare msg).adoptTally.maxValue := by
  have hspec := Proposer.tally_spec (info.currProposer.recordPrepare msg)
  rcases hspec.source with ⟨hmaxBallot, hmaxValue⟩ | ⟨ack, hmem, hreply, hlt, hmaxBallot, hmaxValue⟩
  · rw [Proposer.adoptTally, hmaxBallot, hmaxValue]
    exact hlive.reported
  · rw [Proposer.adoptTally, hmaxBallot, hmaxValue]
    refine ⟨by simp, ?_⟩
    intro value hvalue
    rw [Option.some.injEq] at hvalue
    rcases List.mem_map.mp hmem with ⟨⟨key, found⟩, hentry, rfl⟩
    have hget := Std.TreeMap.mem_toList_iff_getElem?_eq_some.mp hentry
    rcases hlive.recordPrepare_promises hreceived hslot hballot key found hget with
      ⟨hfound, _, hfoundSlot, _⟩
    exact ⟨found, hfound, hfoundSlot, hreply, Nat.zero_lt_of_lt hlt, rfl, by rw [hvalue]⟩

end LiveProposer

/-! ## Moves of one proposer -/

/-- A step that puts a proposer into a slot and asks only for this slot. -/
theorem ProposerHistory.insert {received : Message → Prop} {captain final : Captain}
    {log outs : List Output} {slot : ℕ} {info : ProposerInfo}
    (hhistory : ProposerHistory received captain log) (hsame : SameNode captain final)
    (hproposers : final.proposers = captain.proposers.insert slot info)
    (hmaxSlot : captain.maxSlot ≤ final.maxSlot) (hslot : slot ≤ final.maxSlot)
    (hbelow : ∀ header ballot, Issued log header ballot → header.slotId = slot →
      ballot ≤ info.currProposer.currBallot)
    (hissued : ∀ header ballot, Issued outs header ballot →
      header = { nodeId := captain.whoami, slotId := slot } ∧
        ballot = info.currProposer.currBallot)
    (hfresh : ∀ id ballot id', Proposed outs slot info.currProposer.currBallot id →
      Proposed log slot ballot id' → ballot < info.currProposer.currBallot)
    (hlive : LiveProposer received captain.view (log ++ outs) slot info) :
    ProposerHistory received final (log ++ outs) := by
  have hwhoami : final.whoami = captain.whoami := hsame.nodeId
  have hproposed : ∀ other ballot id, Proposed outs other ballot id →
      other = slot ∧ ballot = info.currProposer.currBallot := by
    intro other ballot id hnew
    rcases hnew.issued with ⟨header, hheader, hissue⟩
    rcases hissued header ballot hissue with ⟨rfl, hballot⟩
    exact ⟨hheader.symm, hballot⟩
  -- What the step asks for in its ballot has the one value of the proposer.
  have honly : ∀ id id', Proposed outs slot info.currProposer.currBallot id →
      Proposed outs slot info.currProposer.currBallot id' → id = id' := by
    intro id id' hnew hnew'
    rcases hlive.phase with ⟨_, _, hnone⟩ | ⟨_, value, _, hall⟩
    · exact absurd (hnone _ id (proposed_append.mpr (.inr hnew))) (lt_irrefl _)
    · exact (hall id (proposed_append.mpr (.inr hnew))).trans
        (hall id' (proposed_append.mpr (.inr hnew'))).symm
  constructor
  · intro header ballot hissue
    rw [hwhoami, hproposers]
    rcases issued_append.mp hissue with hold | hnew
    · rcases hhistory.issued header ballot hold with ⟨hnode, hle, hown, hcurrent⟩
      refine ⟨hnode, hle.trans hmaxSlot, hown, ?_⟩
      intro other hother
      rcases OrderedMap.insert_cases hother with ⟨heq, rfl⟩ | ⟨_, hother⟩
      · exact hbelow header ballot hold heq
      · exact hcurrent other hother
    · rcases hissued header ballot hnew with ⟨rfl, rfl⟩
      refine ⟨rfl, hslot, hlive.ballot, ?_⟩
      intro other hother
      simp only [Std.TreeMap.getElem?_insert_self, Option.some.injEq] at hother
      rw [hother]
  · intro other ballot id id' hfirst hsecond
    rcases proposed_append.mp hfirst with hold | hnew <;>
      rcases proposed_append.mp hsecond with hold' | hnew'
    · exact hhistory.unique other ballot id id' hold hold'
    · rcases hproposed other ballot id' hnew' with ⟨rfl, rfl⟩
      exact absurd (hfresh id' _ id hnew' hold) (lt_irrefl _)
    · rcases hproposed other ballot id hnew with ⟨rfl, rfl⟩
      exact absurd (hfresh id _ id' hnew hold') (lt_irrefl _)
    · rcases hproposed other ballot id hnew with ⟨rfl, rfl⟩
      exact honly id id' hnew hnew'
  · intro other info' hother
    rw [hproposers] at hother
    rcases OrderedMap.insert_cases hother with ⟨rfl, rfl⟩ | ⟨hne, hother⟩
    · have hquiet : ∀ ballot id, ¬ Proposed [] other ballot id := by
        rintro ballot id ⟨dst, msg, hsends, _⟩
        exact not_sends_nil hsends
      have hframe := hlive.frame hsame.config hsame.nodeId hquiet
      rwa [List.append_nil] at hframe
    · refine (hhistory.live other info' hother).frame hsame.config hsame.nodeId ?_
      intro ballot id hnew
      exact hne (hproposed other ballot id hnew).1

theorem issued_broadcastMsg {captain : Captain} {msg : Message} {header : MsgHeader}
    {ballot : ℕ} (hissued : Issued (captain.broadcastMsg msg) header ballot) :
    msg.issue? = some (header, ballot) := by
  rcases hissued with ⟨dst, sent, hsends, hissue⟩
  rw [← sends_broadcastMsg hsends]
  exact hissue

theorem not_proposed_broadcastMsg {captain : Captain} {msg : MsgPrepare} {slot ballot id : ℕ} :
    ¬ Proposed (captain.broadcastMsg (.prepare msg)) slot ballot id := by
  rintro ⟨dst, sent, hsends, _⟩
  have heq := sends_broadcastMsg hsends
  simp at heq

theorem not_issued_nil {header : MsgHeader} {ballot : ℕ} : ¬ Issued [] header ballot := by
  rintro ⟨dst, msg, hsends, _⟩
  exact not_sends_nil hsends

theorem not_proposed_nil {slot ballot id : ℕ} : ¬ Proposed [] slot ballot id := by
  rintro ⟨dst, msg, hsends, _⟩
  exact not_sends_nil hsends

theorem sends_openSlot {captain : Captain} {value : PropValue} {name : Name} {tryTime : ℕ}
    {skipPhaseI : Bool} {dst : ℕ} {msg : Message}
    (hsends : Sends (captain.openSlot value name tryTime skipPhaseI).2 dst msg) :
    msg = captain.openingMsg value skipPhaseI := by
  rw [openSlot_eq] at hsends
  rcases hsends with ⟨packet, hmem, hdst, hmsg⟩
  rcases List.mem_cons.mp hmem with heq | hsent
  · simp at heq
  · exact sends_broadcastMsg ⟨packet, hsent, hdst, hmsg⟩

section Moves

variable {received : Message → Prop} {captain : Captain} {log : List Output} {slot : ℕ}
  {info : ProposerInfo}

theorem ProposerHistory.below (hhistory : ProposerHistory received captain log)
    (hinfo : captain.proposers[slot]? = some info) (header : MsgHeader) (ballot : ℕ)
    (hissued : Issued log header ballot) (hslot : header.slotId = slot) :
    ballot ≤ info.currProposer.currBallot :=
  (hhistory.issued header ballot hissued).2.2.2 info (hslot ▸ hinfo)

theorem ProposerHistory.setProposer (hhistory : ProposerHistory received captain log)
    (hkept : captain.WellKept) (hinfo : captain.proposers[slot]? = some info)
    {info' : ProposerInfo}
    (hballot : info'.currProposer.currBallot = info.currProposer.currBallot)
    (hlive : LiveProposer received captain.view log slot info') :
    ProposerHistory received (captain.setProposer slot info') (log ++ []) := by
  refine hhistory.insert ⟨rfl, rfl, rfl⟩ rfl le_rfl (hkept.keys slot info hinfo).2 ?_ ?_ ?_ ?_
  · rw [hballot]
    exact hhistory.below hinfo
  · exact fun header ballot hissued => absurd hissued not_issued_nil
  · exact fun id ballot id' hproposed => absurd hproposed not_proposed_nil
  · rwa [List.append_nil]

/-- A restart moves to a ballot above all that its node has issued. -/
theorem ProposerHistory.restart (hhistory : ProposerHistory received captain log)
    (hkept : captain.WellKept) (hinfo : captain.proposers[slot]? = some info)
    {info' : ProposerInfo}
    (hinit : info'.currProposer.initValue = info.currProposer.initValue)
    (hballot : info'.currProposer.currBallot = info.currProposer.currBallot)
    (hqr : info'.currProposer.qr = info.currProposer.qr)
    (hqw : info'.currProposer.qw = info.currProposer.qw)
    (hreported : Reported received slot info'.currProposer.maxBallot
      info'.currProposer.maxValue) :
    ProposerHistory received (captain.restart slot info').1
      (log ++ (captain.restart slot info').2) := by
  have hlive := hhistory.live slot info hinfo
  have hown := hlive.ballot
  have hround := hown.round
  have hnext : (info'.currProposer.genNextBallot captain.view).currBallot =
      info.currProposer.currBallot + 2 ^ 16 := by
    rw [Proposer.genNextBallot, hballot, if_neg (by omega)]
  rw [restart_eq, hnext]
  have hbelow : ∀ ballot id, Proposed log slot ballot id →
      ballot < info.currProposer.currBallot + 2 ^ 16 := by
    intro ballot id hproposed
    rcases hproposed.issued with ⟨header, hslot, hissued⟩
    have hle := hhistory.below hinfo header ballot hissued hslot
    omega
  refine hhistory.insert ⟨rfl, rfl, rfl⟩ rfl le_rfl (hkept.keys slot info hinfo).2 ?_ ?_ ?_ ?_
  · intro header ballot hissued hslot
    exact (hhistory.below hinfo header ballot hissued hslot).trans (Nat.le_add_right _ _)
  · intro header ballot hissued
    have hissue := issued_broadcastMsg hissued
    rw [Message.issue?, Option.some.injEq, Prod.mk.injEq] at hissue
    exact ⟨hissue.1.symm, hissue.2.symm⟩
  · exact fun id ballot id' hproposed => absurd hproposed not_proposed_broadcastMsg
  · constructor
    · change Opened _ slot info'.currProposer.initValue
      rw [hinit]
      exact opened_append.mpr (.inl hlive.opened)
    · exact hown.next
    · intro hmode
      rw [hqr, hqw]
      exact hlive.quorums hmode
    · refine .inl ⟨.inl rfl, rfl, ?_⟩
      intro ballot id hproposed
      rcases proposed_append.mp hproposed with hold | hnew
      · exact hbelow ballot id hold
      · exact absurd hnew not_proposed_broadcastMsg
    · intro key ack hack
      simp at hack
    · intro key ack hack
      simp at hack
    · exact hreported

/-- The value of CONTINUE has the id of the reported one. -/
theorem Reported.continues {view : View} {before after : Proposer} {value : PropValue}
    {slot : ℕ} (hreported : Reported received slot before.maxBallot before.maxValue)
    (hafter : Proposer.Continues view before value after) :
    Reported received slot after.maxBallot after.maxValue := by
  rw [hafter.maxBallot]
  cases hmax : before.maxValue with
  | none =>
      rw [hmax] at hreported
      rw [(hafter.free hmax).2]
      exact hreported
  | some highest =>
      rcases hafter.bound highest hmax with ⟨hid, hmaxValue, _⟩
      rw [hmaxValue]
      refine ⟨by simp, ?_⟩
      intro other hother
      rw [Option.some.injEq] at hother
      rcases hreported.value highest hmax with
        ⟨ack, hfound, hslot, hreply, hpos, hmaxBallot, hackId⟩
      exact ⟨ack, hfound, hslot, hreply, hpos, hmaxBallot, by rw [hackId, ← hid, hother]⟩

/-- The first ACCEPT messages of a ballot, all for the value of CONTINUE. -/
theorem ProposerHistory.continued (hhistory : ProposerHistory received captain log)
    (hkept : captain.WellKept) {msg : MsgAckPrepare} {proposer : Proposer} {final : Captain}
    {outs : List Output} (hreceived : received (.promise msg))
    (hinfo : captain.proposers[msg.msgHeader.slotId]? = some info) (hstatus : info.Preparing)
    (hack : info.currProposer.handleMsgPromise captain.view msg =
      some (.continuePhase, proposer))
    (henter : captain.enterPhaseII msg.msgHeader.slotId
      { info with currProposer := proposer } = some (final, outs)) :
    ProposerHistory received final (log ++ outs) := by
  have hlive := hhistory.live _ info hinfo
  rcases hlive.preparing hstatus with ⟨_, hbelow⟩
  cases Proposer.handleMsgPromise_step hack with
  | @continues value _ hballot hnone htrue hafter =>
      have hvalue : { info with currProposer := proposer }.currProposer.currValue =
        some value := hafter.currValue
      rcases enterPhaseII_spec hvalue henter with ⟨⟨rsValues, rsEncoder, rfl⟩, houts⟩
      have hcurrent : proposer.currBallot = info.currProposer.currBallot := hafter.currBallot
      have hsent : ∀ dst sent, Sends outs dst sent → ∃ accept, sent = .accept accept ∧
          accept.msgHeader = { nodeId := captain.whoami, slotId := msg.msgHeader.slotId } ∧
          accept.ballotId = proposer.currBallot ∧ accept.propValue.id = value.id := by
        rintro dst sent ⟨packet, hmem, _, rfl⟩
        rcases houts _ hmem with ⟨packet', accept, heq, hmsg, hheader, hsentBallot, hid, _⟩
        rw [Output.send.injEq] at heq
        exact ⟨accept, heq ▸ hmsg, hheader, hsentBallot, hid⟩
      refine hhistory.insert ⟨rfl, rfl, rfl⟩ rfl le_rfl (hkept.keys _ info hinfo).2 ?_ ?_ ?_ ?_
      · change ∀ header ballot, Issued log header ballot → _ → ballot ≤ proposer.currBallot
        rw [hcurrent]
        exact hhistory.below hinfo
      · rintro header ballot ⟨dst, sent, hsends, hissue⟩
        rcases hsent dst sent hsends with ⟨accept, rfl, hheader, hsentBallot, _⟩
        rw [Message.issue?, Option.some.injEq, Prod.mk.injEq] at hissue
        exact ⟨hissue.1 ▸ hheader, hissue.2 ▸ hsentBallot⟩
      · intro id ballot id' _ hproposed
        change ballot < proposer.currBallot
        rw [hcurrent]
        exact hbelow ballot id' hproposed
      · have hpromises := hlive.recordPrepare_promises hreceived rfl hballot
        constructor
        · change Opened _ _ proposer.initValue
          rw [hafter.initValue]
          exact opened_append.mpr (.inl hlive.opened)
        · change OwnBallot captain.view.whoami proposer.currBallot
          rw [hcurrent]
          exact hlive.ballot
        · intro hmode
          change proposer.qr = _ ∧ proposer.qw = _
          rw [hafter.qr, hafter.qw]
          exact hlive.quorums hmode
        · refine .inr ⟨.inl rfl, value, hafter.currValue, ?_⟩
          intro id hproposed
          rcases proposed_append.mp hproposed with hold | ⟨dst, sent, hsends, _, _, hid⟩
          · change Proposed log _ proposer.currBallot id at hold
            rw [hcurrent] at hold
            exact absurd (hbelow _ id hold) (lt_irrefl _)
          · rcases hsent dst _ hsends with ⟨accept, heq, _, _, hsentId⟩
            rw [Message.accept.injEq] at heq
            rw [← hid, heq, hsentId]
        · intro key ack hget
          change proposer.msgAckPrepare[key]? = some ack at hget
          rw [hafter.msgAckPrepare] at hget
          change _ ∧ _ ∧ _ ∧ proposer.currBallot ≤ _
          rw [hcurrent]
          exact hpromises key ack hget
        · intro key ack hget
          change proposer.msgAckAccept[key]? = some ack at hget
          rw [hafter.msgAckAccept] at hget
          change _ ∧ _ ∧ _ ∧ proposer.currBallot ≤ _
          rw [hcurrent]
          exact hlive.accepteds key ack hget
        · change Reported received _ proposer.maxBallot proposer.maxValue
          exact (hlive.adoptTally_reported hreceived rfl hballot).continues hafter

theorem ProposerHistory.opens (hhistory : ProposerHistory received captain log)
    (hwhoami : captain.whoami < 2 ^ 16) (value : PropValue) (name : Name) (tryTime : ℕ)
    (skipPhaseI : Bool) :
    ProposerHistory received (captain.openSlot value name tryTime skipPhaseI).1
      (log ++ (captain.openSlot value name tryTime skipPhaseI).2) := by
  rw [openSlot_eq]
  have hfree : ∀ header ballot, Issued log header ballot →
      header.slotId ≠ captain.maxSlot + 1 := by
    intro header ballot hissued
    have hle := (hhistory.issued header ballot hissued).2.1
    omega
  have hunproposed : ∀ ballot id, ¬ Proposed log (captain.maxSlot + 1) ballot id := by
    intro ballot id hproposed
    rcases hproposed.issued with ⟨header, hslot, hissued⟩
    exact hfree header ballot hissued hslot
  have hsent : ∀ dst msg, Sends (.note (.propose (captain.maxSlot + 1) value name tryTime) ::
      captain.broadcastMsg (captain.openingMsg value skipPhaseI)) dst msg →
        msg = captain.openingMsg value skipPhaseI := by
    intro dst msg hsends
    have hsends' : Sends (captain.openSlot value name tryTime skipPhaseI).2 dst msg := by
      rw [openSlot_eq]
      exact hsends
    exact sends_openSlot hsends'
  refine hhistory.insert ⟨rfl, rfl, rfl⟩ rfl (Nat.le_succ _) le_rfl ?_ ?_ ?_ ?_
  · exact fun header ballot hissued hslot => absurd hslot (hfree header ballot hissued)
  · rintro header ballot ⟨dst, msg, hsends, hissue⟩
    rw [hsent dst msg hsends] at hissue
    rw [newProposer_currBallot]
    cases skipPhaseI <;>
      simp only [openingMsg, Bool.false_eq_true, if_true, if_false, Message.issue?,
        Option.some.injEq, Prod.mk.injEq] at hissue <;>
      exact ⟨hissue.1.symm, hissue.2.symm⟩
  · exact fun id ballot id' _ hproposed => absurd hproposed (hunproposed ballot id')
  · have honly : ∀ ballot id,
        Proposed (log ++ .note (.propose (captain.maxSlot + 1) value name tryTime) ::
          captain.broadcastMsg (captain.openingMsg value skipPhaseI))
          (captain.maxSlot + 1) ballot id → skipPhaseI = true ∧ id = value.id := by
      intro ballot id hproposed
      rcases proposed_append.mp hproposed with hold | ⟨dst, msg, hsends, _, _, hid⟩
      · exact absurd hold (hunproposed ballot id)
      · have heq := hsent dst _ hsends
        cases skipPhaseI with
        | false => simp [openingMsg] at heq
        | true =>
            simp only [openingMsg, if_true, Message.accept.injEq] at heq
            rw [← hid, heq]
            exact ⟨rfl, rfl⟩
    constructor
    · rw [newProposer_initValue]
      exact opened_append.mpr (.inr ⟨name, tryTime, List.mem_cons_self ..⟩)
    · rw [newProposer_currBallot]
      exact OwnBallot.first hwhoami
    · intro hmode
      cases skipPhaseI <;>
        simp [newProposer, Proposer.genNextBallot, Proposer.new, Proposer.initCurrValue, hmode]
    · cases skipPhaseI with
      | false =>
          refine .inl ⟨.inl rfl, rfl, ?_⟩
          intro ballot id hproposed
          have hskip := (honly ballot id hproposed).1
          simp at hskip
      | true => exact .inr ⟨.inl rfl, value, rfl, fun id hproposed => (honly _ id hproposed).2⟩
    · intro key ack hack
      simp at hack
    · intro key ack hack
      simp at hack
    · rw [newProposer_maxBallot, newProposer_maxValue]
      exact ⟨fun _ => rfl, by simp⟩

theorem ProposerHistory.proposerMove {setting : Setting} {final : Captain} {outs : List Output}
    (hhistory : ProposerHistory received captain log) (hkept : captain.WellKept)
    (hreceived : ∀ msg, setting.received msg → received msg)
    (hmove : ProposerMove setting captain outs final) :
    ProposerHistory received final (log ++ outs) := by
  cases hmove with
  | @promised msg info ack proposer hmsg hinfo hstatus hack hstays =>
      have hlive := hhistory.live _ info hinfo
      have hnone := hlive.preparing hstatus
      cases Proposer.handleMsgPromise_step hack with
      | drops hold =>
          exact hhistory.setProposer hkept hinfo rfl ⟨hlive.opened, hlive.ballot, hlive.quorums,
            .inl ⟨.inr rfl, hnone⟩, hlive.promises, hlive.accepteds, hlive.reported⟩
      | waits hballot hvalue hfew =>
          exact hhistory.setProposer hkept hinfo rfl ⟨hlive.opened, hlive.ballot, hlive.quorums,
            .inl ⟨.inr rfl, hnone⟩,
            hlive.recordPrepare_promises (hreceived _ hmsg) rfl hballot,
            hlive.accepteds, hlive.reported⟩
      | restarts hballot hvalue => exact absurd rfl hstays.2
      | continues hballot hvalue htrue hafter => exact absurd rfl hstays.1
  | @promiseRestart msg info proposer hmsg hinfo hstatus hack =>
      have hlive := hhistory.live _ info hinfo
      cases Proposer.handleMsgPromise_step hack with
      | restarts hballot hvalue =>
          exact hhistory.restart hkept hinfo rfl rfl rfl rfl
            (hlive.adoptTally_reported (hreceived _ hmsg) rfl hballot)
  | continued hmsg hinfo hstatus hack henter =>
      exact hhistory.continued hkept (hreceived _ hmsg) hinfo hstatus hack henter
  | @acked msg info ack proposer hmsg hinfo hstatus hack hstays =>
      have hlive := hhistory.live _ info hinfo
      cases Proposer.handleMsgAccepted_step hack with
      | drops hold =>
          exact hhistory.setProposer hkept hinfo rfl hlive
      | waits hballot hvalue =>
          exact hhistory.setProposer hkept hinfo rfl
            (hlive.recordAccept (hreceived _ hmsg) rfl hballot)
      | restarts hballot hvalue => simp at hstays
      | chooses hballot hvalue htrue => simp at hstays
  | @ackRestart msg info proposer hmsg hinfo hstatus hack =>
      have hlive := hhistory.live _ info hinfo
      cases Proposer.handleMsgAccepted_step hack with
      | restarts hballot hvalue =>
          exact hhistory.restart hkept hinfo rfl rfl rfl rfl hlive.reported
  | @chosen msg info proposer hmsg hinfo hstatus hack =>
      have hlive := hhistory.live _ info hinfo
      cases Proposer.handleMsgAccepted_step hack with
      | chooses hballot hvalue htrue =>
          exact hhistory.setProposer hkept hinfo rfl ⟨hlive.opened, hlive.ballot, hlive.quorums,
            .inr ⟨.inr rfl, hlive.accepting (.inl hstatus)⟩,
            hlive.promises, hlive.recordAccept_accepteds (hreceived _ hmsg) rfl hballot,
            hlive.reported⟩

end Moves

theorem SlotMove.proposer_cases {setting : Setting} {captain final : Captain}
    {outs : List Output} (hshape : LogShape captain)
    (hmove : SlotMove setting captain outs final) :
    ProposerMove setting captain outs final ∨
      (∃ value name tryTime skipPhaseI, (skipPhaseI = true → captain.mode = .multi ∧ tryTime = 1) ∧
        final = (captain.openSlot value name tryTime skipPhaseI).1 ∧
        outs = (captain.openSlot value name tryTime skipPhaseI).2) ∨
      ((∃ slot, final = captain.withoutProposer slot) ∧
        ∀ out ∈ outs, out.kind ≠ .proposer) ∨
      (final.proposers = captain.proposers ∧ final.maxSlot = captain.maxSlot ∧
        ∀ out ∈ outs, out.kind ≠ .proposer) := by
  cases hmove with
  | base hmove =>
      cases hmove with
      | forwarding hmove =>
          refine .inr (.inr (.inr ⟨by rw [hmove.spec.1], by rw [hmove.spec.1], ?_⟩))
          intro out hmem
          simp [hmove.spec.2 out hmem]
      | acceptor hmove =>
          refine .inr (.inr (.inr ⟨by rw [hmove.spec.1], by rw [hmove.spec.1], ?_⟩))
          intro out hmem
          simp [hmove.spec.2 out hmem]
      | proposer hmove => exact .inl hmove
      | learner hmove =>
          have hspec := hmove.spec hshape
          refine .inr (.inr (.inr ⟨by rw [hspec.1], by rw [hspec.1], ?_⟩))
          intro out hmem
          rcases hspec.2.2 out hmem with hkind | hkind <;> simp [hkind]
  | queue hframe hkind =>
      refine .inr (.inr (.inr ⟨by rw [hframe], by rw [hframe], ?_⟩))
      intro out hmem
      simp [hkind out hmem]
  | opens value name tryTime hskip => exact .inr (.inl ⟨value, name, tryTime, _, hskip, rfl, rfl⟩)
  | announce hinfo hstatus hvalue hstored hretires =>
      refine .inr (.inr (.inr ⟨rfl, rfl, ?_⟩))
      intro out hmem
      simp [kind_of_mem_announce hmem]
  | close hinfo hstatus hvalue =>
      exact .inr (.inr (.inl ⟨⟨_, rfl⟩, by simp [Output.kind, Event.kind]⟩))

theorem ProposerHistory.quiet {received : Message → Prop} {captain final : Captain}
    {log outs : List Output} (hhistory : ProposerHistory received captain log)
    (hsame : SameNode captain final) (hmaxSlot : final.maxSlot = captain.maxSlot)
    (hproposers : ∀ (slot : ℕ) info, final.proposers[slot]? = some info →
      captain.proposers[slot]? = some info)
    (hkinds : ∀ out ∈ outs, out.kind ≠ .proposer) :
    ProposerHistory received final (log ++ outs) := by
  have hwhoami : final.whoami = captain.whoami := hsame.nodeId
  constructor
  · intro header ballot hissued
    rcases issued_append.mp hissued with hold | hnew
    · rcases hhistory.issued header ballot hold with ⟨hnode, hle, hown, hcurrent⟩
      rw [hwhoami, hmaxSlot]
      exact ⟨hnode, hle, hown, fun info hinfo => hcurrent info (hproposers _ info hinfo)⟩
    · exact absurd hnew (not_issued_of_kind hkinds)
  · intro slot ballot id id' hfirst hsecond
    rcases proposed_append.mp hfirst with hold | hnew
    · rcases proposed_append.mp hsecond with hold' | hnew'
      · exact hhistory.unique slot ballot id id' hold hold'
      · exact absurd hnew' (not_proposed_of_kind hkinds)
    · exact absurd hnew (not_proposed_of_kind hkinds)
  · intro slot info hinfo
    exact (hhistory.live slot info (hproposers slot info hinfo)).frame hsame.config
      hsame.nodeId fun ballot id hnew => not_proposed_of_kind hkinds hnew

theorem proposerHistory_preserved : PreservedLocally ProposerHistory := by
  intro received setting captain log outs final hkept hwhoami hreceived hhistory hmove
  have hsame := hmove.sameNode hkept.shape
  rcases hmove.proposer_cases hkept.shape with hmove |
    ⟨value, name, tryTime, skipPhaseI, _, rfl, rfl⟩ | ⟨⟨slot, rfl⟩, hkinds⟩ |
    ⟨hproposers, hmaxSlot, hkinds⟩
  · exact hhistory.proposerMove hkept hreceived hmove
  · exact hhistory.opens hwhoami value name tryTime skipPhaseI
  · exact hhistory.quiet hsame rfl (fun _ _ => OrderedMap.of_erase) hkinds
  · refine hhistory.quiet hsame hmaxSlot ?_ hkinds
    intro other info hinfo
    rwa [hproposers] at hinfo

/-- Where a new ACCEPT comes from: a quorum has answered the PREPARE, or Phase I
was skipped for a new slot. -/
inductive NewProposal (setting : Setting) (captain : Captain) (outs : List Output) :
    ℕ → ℕ → ℕ → Prop where
  | continues {msg : MsgAckPrepare} {info : ProposerInfo} {value : PropValue}
      {proposer : Proposer} (hreceived : setting.received (.promise msg))
      (hinfo : captain.proposers[msg.msgHeader.slotId]? = some info)
      (hstatus : info.Preparing) (hballot : info.currProposer.currBallot ≤ msg.ballotId)
      (htrue : info.currProposer.qr ≤ (info.currProposer.recordPrepare msg).tally.trueCounter)
      (hafter : Proposer.Continues captain.view
        (info.currProposer.recordPrepare msg).adoptTally value proposer) :
      NewProposal setting captain outs msg.msgHeader.slotId info.currProposer.currBallot value.id
  | skips {value : PropValue} {name : Name} (hmode : captain.mode = .multi)
      (hopened : .note (.propose (captain.maxSlot + 1) value name 1) ∈ outs) :
      NewProposal setting captain outs (captain.maxSlot + 1) (2 ^ 16 + captain.whoami) value.id

theorem ProposerMove.newProposal {setting : Setting} {captain final : Captain}
    {outs : List Output} (hmove : ProposerMove setting captain outs final)
    {slot ballot id : ℕ} (hproposed : Proposed outs slot ballot id) :
    NewProposal setting captain outs slot ballot id := by
  cases hmove with
  | promised hreceived hinfo hstatus hack hstays => exact absurd hproposed not_proposed_nil
  | promiseRestart hreceived hinfo hstatus hack =>
      rw [restart_eq] at hproposed
      exact absurd hproposed not_proposed_broadcastMsg
  | @continued msg info proposer outs final hreceived hinfo hstatus hack henter =>
      cases Proposer.handleMsgPromise_step hack with
      | @continues value _ hballot hnone htrue hafter =>
          have hvalue : { info with currProposer := proposer }.currProposer.currValue =
            some value := hafter.currValue
          rcases hproposed with ⟨dst, sent, ⟨packet, hmem, _, hsent⟩, rfl, rfl, rfl⟩
          rcases (enterPhaseII_spec hvalue henter).2 _ hmem with
            ⟨packet', accept, heq, hmsg, hheader, hsentBallot, hid, _⟩
          rw [Output.send.injEq] at heq
          rw [← heq, hsent, Message.accept.injEq] at hmsg
          have hcurrent : sent.ballotId = info.currProposer.currBallot := by
            rw [hmsg, hsentBallot]
            exact hafter.currBallot
          rw [hcurrent, hmsg, hheader, hid]
          exact .continues hreceived hinfo hstatus hballot htrue hafter
  | acked hreceived hinfo hstatus hack hstays => exact absurd hproposed not_proposed_nil
  | ackRestart hreceived hinfo hstatus hack =>
      rw [restart_eq] at hproposed
      exact absurd hproposed not_proposed_broadcastMsg
  | chosen hreceived hinfo hstatus hack => exact absurd hproposed not_proposed_nil

theorem SlotMove.newProposal {setting : Setting} {captain final : Captain}
    {outs : List Output} (hshape : LogShape captain)
    (hmove : SlotMove setting captain outs final) {slot ballot id : ℕ}
    (hproposed : Proposed outs slot ballot id) :
    NewProposal setting captain outs slot ballot id := by
  rcases hmove.proposer_cases hshape with hmove |
    ⟨value, name, tryTime, skipPhaseI, hskip, rfl, rfl⟩ | ⟨_, hkinds⟩ | ⟨_, _, hkinds⟩
  · exact hmove.newProposal hproposed
  · rcases hproposed with ⟨dst, msg, hsends, rfl, rfl, rfl⟩
    have heq := sends_openSlot hsends
    cases skipPhaseI with
    | false => simp [openingMsg] at heq
    | true =>
        rcases hskip rfl with ⟨hmode, rfl⟩
        simp only [openingMsg, if_true, Message.accept.injEq] at heq
        rw [heq]
        have hopened : .note (.propose (captain.maxSlot + 1) value name 1) ∈
            (captain.openSlot value name 1 true).2 := by
          rw [openSlot_eq]
          exact List.mem_cons_self ..
        exact .skips hmode hopened
  · exact absurd hproposed (not_proposed_of_kind hkinds)
  · exact absurd hproposed (not_proposed_of_kind hkinds)

end Captain

end NDNPaxos
