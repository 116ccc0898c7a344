import NDNPaxos.ProposerHistory
import NDNPaxos.Library.QuorumVoting
import Mathlib.Tactic

/-!
# Safe proposals

Per slot, the acceptors of all nodes vote by quorums: their state is the
promise, their log the votes, and the ACCEPT messages sent so far are the
proposals.  Every proposal is safe, either because a quorum has answered the
PREPARE or because the lease excludes every lower ballot of the slot.
-/

namespace NDNPaxos

def Config.Quorum (config : Config) (members : Finset ℕ) : Prop :=
  members ⊆ Finset.range config.size ∧ config.quorumSize ≤ members.card

theorem Config.intersecting_quorum (config : Config) : Voting.Intersecting config.Quorum := by
  apply Voting.intersecting_of_card_lt
  rw [Finset.card_range]
  exact config.size_lt_two_quorums

theorem Config.quorum_range (config : Config) : config.Quorum (Finset.range config.size) :=
  ⟨Finset.Subset.refl _, by rw [Finset.card_range]; exact config.quorumSize_le⟩

/-- Promises, votes and proposals for one slot, with values as their ids. -/
def votingAt (size : ℕ) (nodes : ℕ → Node) (slot : ℕ) : Voting ℕ ℕ where
  promised := fun i => ((nodes i).captain.acceptorOf slot).maxProposedBallot
  voted := fun i ballot id => i < size ∧ Voted (nodes i).log slot ballot id
  proposed := fun ballot id => ∃ i < size, Proposed (nodes i).log slot ballot id

/-- Acceptors and proposers of all nodes have the histories of the logs. -/
structure Histories (size : ℕ) (nodes : ℕ → Node) : Prop where
  acceptors : AtEachNode size Captain.AcceptorHistory nodes
  proposers : AtEachNode size Captain.ProposerHistory nodes

theorem histories_initial (deployment : Deployment) :
    Histories deployment.config.size deployment.node where
  acceptors := fun i _ => Captain.AcceptorHistory.initial _ deployment i
  proposers := fun i _ => Captain.ProposerHistory.initial _ deployment i

theorem histories_preserved (deployment : Deployment) (condition : StepCondition) :
    PreservedBySlotMoves deployment condition (Histories deployment.config.size) := by
  intro nodes i setting outs final hi hkeeps hallows hhistories hmove
  constructor
  · exact Captain.acceptorHistory_preserved.atEachNode
      (fun _ _ _ _ hgrow hhistory => hhistory.mono hgrow)
      nodes i setting outs final hi hkeeps hallows hhistories.acceptors hmove
  · exact Captain.proposerHistory_preserved.atEachNode
      (fun _ _ _ _ hgrow hhistory => hhistory.mono hgrow)
      nodes i setting outs final hi hkeeps hallows hhistories.proposers hmove

/-! ## What the messages of other nodes say -/

section Messages

variable {deployment : Deployment} {nodes : ℕ → Node}
  (hkeeps : deployment.Keeps nodes) (hhistories : Histories deployment.config.size nodes)

include hkeeps hhistories

theorem issued_owner {i : ℕ} (hi : i < deployment.config.size) {header : MsgHeader}
    {ballot : ℕ} (hissued : Issued (nodes i).log header ballot) :
    header.nodeId = i ∧ OwnBallot i ballot := by
  rcases (hhistories.proposers i hi).issued header ballot hissued with ⟨hnode, _, hown, _⟩
  rw [hkeeps.whoami hi] at hnode hown
  exact ⟨hnode, hown⟩

theorem proposed_owner {i : ℕ} (hi : i < deployment.config.size) {slot ballot id : ℕ}
    (hproposed : Proposed (nodes i).log slot ballot id) : OwnBallot i ballot := by
  rcases hproposed.issued with ⟨header, _, hissued⟩
  exact (issued_owner hkeeps hhistories hi hissued).2

theorem issued_of_received {j : ℕ} {msg : Message} {header : MsgHeader} {ballot : ℕ}
    (hreceived : Received deployment.config.size nodes j msg)
    (hissue : msg.issue? = some (header, ballot)) :
    header.nodeId < deployment.config.size ∧ Issued (nodes header.nodeId).log header ballot := by
  rcases hreceived with ⟨i, hi, hsends⟩
  have hissued : Issued (nodes i).log header ballot := ⟨j, msg, hsends, hissue⟩
  have hnode := (issued_owner hkeeps hhistories hi hissued).1
  rw [hnode]
  exact ⟨hi, hissued⟩

omit hkeeps in
theorem proposed_of_voted {i : ℕ} (hi : i < deployment.config.size) {slot ballot id : ℕ}
    (hvoted : Voted (nodes i).log slot ballot id) :
    ∃ j < deployment.config.size, Proposed (nodes j).log slot ballot id := by
  rcases (hhistories.acceptors i hi).received_of_voted slot ballot id hvoted with
    ⟨msg, ⟨j, hj, hsends⟩, hmsg⟩
  exact ⟨j, hj, i, msg, hsends, hmsg⟩

theorem proposed_unique {i j : ℕ} (hi : i < deployment.config.size)
    (hj : j < deployment.config.size) {slot ballot id id' : ℕ}
    (hproposed : Proposed (nodes i).log slot ballot id)
    (hproposed' : Proposed (nodes j).log slot ballot id') : i = j ∧ id = id' := by
  have howner := (proposed_owner hkeeps hhistories hi hproposed).owner
  have howner' := (proposed_owner hkeeps hhistories hj hproposed').owner
  have heq : i = j := howner.symm.trans howner'
  subst heq
  exact ⟨rfl, (hhistories.proposers i hi).unique slot ballot id id' hproposed hproposed'⟩

theorem promise_kept {i : ℕ} {ack : MsgAckPrepare}
    (hreceived : Received deployment.config.size nodes i (.promise ack)) :
    ack.msgHeader.nodeId < deployment.config.size ∧
      (ack.reply = true → Captain.PromiseKept (nodes ack.msgHeader.nodeId).captain
        (nodes ack.msgHeader.nodeId).log ack) := by
  rcases hreceived with ⟨j, hj, hsends⟩
  rcases (hhistories.acceptors j hj).promise i ack hsends with ⟨hnode, _, hkept⟩
  rw [hkeeps.whoami hj] at hnode
  rw [hnode]
  exact ⟨hj, hkept⟩

/-- An ACCEPTED comes from the acceptor it names and answers an ACCEPT of the
node that receives it. -/
theorem accepted_answers {i : ℕ} {ack : MsgAckAccept}
    (hreceived : Received deployment.config.size nodes i (.accepted ack)) :
    ack.msgHeader.nodeId < deployment.config.size ∧
      (∃ header, header.slotId = ack.msgHeader.slotId ∧
        Issued (nodes i).log header ack.ballotId) ∧
      (ack.reply = true → ∃ id, Voted (nodes ack.msgHeader.nodeId).log ack.msgHeader.slotId
        ack.ballotId id) := by
  rcases hreceived with ⟨j, hj, hsends⟩
  rcases (hhistories.acceptors j hj).accepted i ack hsends with
    ⟨hnode, ⟨request, hrequest, hdst, hslot, hballot⟩, hvoted⟩
  rw [hkeeps.whoami hj] at hnode
  rcases issued_of_received hkeeps hhistories hrequest rfl with ⟨hsender, hissued⟩
  have hsize := deployment.config.size_le
  rw [toNodeId_of_lt (by omega)] at hdst
  rw [hdst, hballot] at hissued
  rw [hnode]
  exact ⟨hj, ⟨request.msgHeader, hslot, hissued⟩, hvoted⟩

end Messages

/-! ## Quorums of acknowledgements -/

section Quorums

variable {deployment : Deployment} {nodes : ℕ → Node} {i slot : ℕ} {info : ProposerInfo}
  (hkeeps : deployment.Keeps nodes) (hhistories : Histories deployment.config.size nodes)
  (hi : i < deployment.config.size)

include hkeeps hhistories

/-- The nodes whose positive PROMISE a proposer holds have promised its ballot,
and their votes below are at most as high as what the tally ends at. -/
theorem promised_nodes {proposer : Proposer} {count : ℕ}
    (hpromises : ∀ (key : ℕ) ack, proposer.msgAckPrepare[key]? = some ack →
      Received deployment.config.size nodes i (.promise ack) ∧
        toNodeId ack.msgHeader.nodeId = key ∧ ack.msgHeader.slotId = slot ∧
        proposer.currBallot ≤ ack.ballotId)
    (htrue : count ≤ proposer.tally.trueCounter) :
    ∃ members : Finset ℕ, (members ⊆ Finset.range deployment.config.size ∧
      count ≤ members.card) ∧ ∀ node ∈ members,
      proposer.currBallot ≤ (votingAt deployment.config.size nodes slot).promised node ∧
        ∀ lower < proposer.currBallot, ∀ id,
          (votingAt deployment.config.size nodes slot).voted node lower id →
            lower ≤ proposer.tally.maxBallot := by
  have hspec := proposer.tally_spec
  have hkeys : ∀ key ∈ OrderedMap.keysWhere MsgAckPrepare.reply proposer.msgAckPrepare,
      ∃ ack, proposer.msgAckPrepare[key]? = some ack ∧ ack.reply = true ∧
        ack.msgHeader.nodeId = key ∧ key < deployment.config.size := by
    intro key hmem
    rcases OrderedMap.mem_keysWhere.mp hmem with ⟨ack, hget, hreply⟩
    rcases hpromises key ack hget with ⟨hreceived, hkey, _, _⟩
    have hnode := (promise_kept hkeeps hhistories hreceived).1
    have hsize := deployment.config.size_le
    rw [toNodeId_of_lt (by omega)] at hkey
    exact ⟨ack, hget, hreply, hkey, hkey ▸ hnode⟩
  refine ⟨(OrderedMap.keysWhere MsgAckPrepare.reply proposer.msgAckPrepare).toFinset,
    ⟨?_, ?_⟩, ?_⟩
  · intro node hmem
    rcases hkeys node (List.mem_toFinset.mp hmem) with ⟨_, _, _, _, hlt⟩
    exact Finset.mem_range.mpr hlt
  · rw [OrderedMap.card_keysWhere]
    rw [hspec.trueCounter] at htrue
    simpa using htrue
  · intro node hmem
    rcases hkeys node (List.mem_toFinset.mp hmem) with ⟨ack, hget, hreply, hnode, _⟩
    rcases hpromises node ack hget with ⟨hreceived, _, hslot, hballot⟩
    have hkept := (promise_kept hkeeps hhistories hreceived).2 hreply
    have hle := hkept.ballot_le
    have hhighest := hkept.highest
    rw [hnode, hslot] at hle hhighest
    refine ⟨hballot.trans hle, ?_⟩
    rintro lower hlt id ⟨_, hvoted⟩
    have hreported : ack.maxBallotId ≤ proposer.tally.maxBallot := by
      refine hspec.reported_le ack ?_ hreply
      exact List.mem_map.mpr
        ⟨(node, ack), Std.TreeMap.mem_toList_iff_getElem?_eq_some.mpr hget, rfl⟩
    exact (hhighest lower id hvoted (lt_of_lt_of_le hlt hballot)).trans hreported

omit hkeeps in
/-- What a proposer remembers as the highest accepted value has been proposed. -/
theorem reported_proposed {maxBallot : ℕ} {maxValue : Option PropValue} {highest : PropValue}
    (hkeeps : deployment.Keeps nodes)
    (hreported : Captain.Reported (Received deployment.config.size nodes i) slot maxBallot maxValue)
    (hhighest : maxValue = some highest) :
    (votingAt deployment.config.size nodes slot).proposed maxBallot highest.id := by
  rcases hreported.value highest hhighest with
    ⟨ack, hreceived, hslot, hreply, hpos, hballot, hid⟩
  rcases promise_kept hkeeps hhistories hreceived with ⟨hnode, hkept⟩
  have hkept := hkept hreply
  cases hvalue : ack.maxPropValue with
  | none =>
      have hzero := hkept.unvoted hvalue
      omega
  | some value =>
      have hvoted := hkept.voted value hvalue
      rw [hslot, hballot] at hvoted
      rw [hvalue, Option.getD_some] at hid
      rw [← hid]
      exact proposed_of_voted hhistories hnode hvoted

include hi

/-- With enough positive ACCEPTED messages, the value of a proposer is accepted
by as many nodes in its ballot. -/
theorem voted_of_accepteds {log : List Output} {proposer : Proposer} {value : PropValue} {count : ℕ}
    (hlive : Captain.LiveProposer (Received deployment.config.size nodes i)
      (nodes i).captain.view log slot { info with currProposer := proposer })
    (hvalue : ∀ id, Proposed (nodes i).log slot proposer.currBallot id → id = value.id)
    (hbelow : ∀ header ballot, Issued (nodes i).log header ballot → header.slotId = slot →
      ballot ≤ proposer.currBallot)
    (htrue : count ≤ proposer.trueAccepts) :
    (votingAt deployment.config.size nodes slot).ChosenAt
      (fun members => members ⊆ Finset.range deployment.config.size ∧ count ≤ members.card)
      proposer.currBallot value.id := by
  have hkeys : ∀ key ∈ OrderedMap.keysWhere MsgAckAccept.reply proposer.msgAckAccept,
      key < deployment.config.size ∧
        Voted (nodes key).log slot proposer.currBallot value.id := by
    intro key hmem
    rcases OrderedMap.mem_keysWhere.mp hmem with ⟨ack, hget, hreply⟩
    rcases hlive.accepteds key ack hget with ⟨hreceived, hkey, hslot, hballot⟩
    rcases accepted_answers hkeeps hhistories hreceived with
      ⟨hnode, ⟨header, hheader, hissued⟩, hvoted⟩
    have hsize := deployment.config.size_le
    rw [toNodeId_of_lt (by omega)] at hkey
    have hsame : ack.ballotId = proposer.currBallot :=
      le_antisymm (hbelow header ack.ballotId hissued (hheader.trans hslot)) hballot
    rcases hvoted hreply with ⟨id, hvote⟩
    rw [hkey, hslot, hsame] at hvote
    rw [hkey] at hnode
    rcases proposed_of_voted hhistories hnode hvote with ⟨j, hj, hproposed⟩
    have howner := (proposed_owner hkeeps hhistories hj hproposed).owner
    have hown := hlive.ballot.owner
    change toNodeId proposer.currBallot = (nodes i).captain.whoami at hown
    rw [hkeeps.whoami hi] at hown
    have heq : j = i := howner.symm.trans hown
    subst heq
    rw [← hvalue id hproposed]
    exact ⟨hnode, hvote⟩
  refine ⟨(OrderedMap.keysWhere MsgAckAccept.reply proposer.msgAckAccept).toFinset,
    ⟨?_, ?_⟩, ?_⟩
  · intro node hmem
    exact Finset.mem_range.mpr (hkeys node (List.mem_toFinset.mp hmem)).1
  · rw [OrderedMap.card_keysWhere]
    exact htrue
  · intro node hmem
    exact hkeys node (List.mem_toFinset.mp hmem)

theorem chosenAt_of_accepteds {log : List Output} {proposer : Proposer} {value : PropValue}
    (hlive : Captain.LiveProposer (Received deployment.config.size nodes i)
      (nodes i).captain.view log slot { info with currProposer := proposer })
    (hvalue : ∀ id, Proposed (nodes i).log slot proposer.currBallot id → id = value.id)
    (hbelow : ∀ header ballot, Issued (nodes i).log header ballot → header.slotId = slot →
      ballot ≤ proposer.currBallot)
    (htrue : deployment.config.quorumSize ≤ proposer.trueAccepts) :
    (votingAt deployment.config.size nodes slot).ChosenAt deployment.config.Quorum
      proposer.currBallot value.id :=
  voted_of_accepteds hkeeps hhistories hi hlive hvalue hbelow htrue

end Quorums

/-! ## Safety of the proposals -/

/-- The node has put the value into a new proposer of the slot at the first
attempt, which in the Multi-Paxos build skips Phase I. -/
def OpenedFirst (log : List Output) (slot : ℕ) (value : PropValue) : Prop :=
  ∃ name, .note (.propose slot value name 1) ∈ log

/-- Nodes that may ever open the slot, at the first attempt or later. -/
structure OpenedBy (size : ℕ) (nodes : ℕ → Node) (slot : ℕ) (opener first : ℕ → Prop) :
    Prop where
  opener : ∀ i < size, ∀ value, Opened (nodes i).log slot value → opener i
  first : ∀ i < size, ∀ value, OpenedFirst (nodes i).log slot value → first i

theorem OpenedBy.before {size : ℕ} {nodes : ℕ → Node} {i slot : ℕ} {final : Captain}
    {outs : List Output} {opener first : ℕ → Prop}
    (hopened : OpenedBy size (actOn nodes i (final, outs)) slot opener first) :
    OpenedBy size nodes slot opener first where
  opener := by
    rintro j hj value ⟨name, tryTime, hmem⟩
    exact hopened.opener j hj value ⟨name, tryTime, mem_log_actOn.mpr (.inl hmem)⟩
  first := by
    rintro j hj value ⟨name, hmem⟩
    exact hopened.first j hj value ⟨name, mem_log_actOn.mpr (.inl hmem)⟩

def LiveBallot (opener : ℕ → Prop) (ballot : ℕ) : Prop :=
  2 ^ 16 ≤ ballot ∧ opener (toNodeId ballot)

/-- Below a node that skips Phase I, only nodes below the first master may open
the slot, and their first ballots are excluded by the lease of the slot. -/
def LeaseCovers (config : Config) (slot : ℕ) (opener first : ℕ → Prop) : Prop :=
  ∀ node, first node → ∀ lower < node, opener lower →
    lower < config.masterId ∧ slot ≤ config.length

/-- The acceptors of the leased slots never go below the lease. -/
def LeaseKept (config : Config) (captain : Captain) (log : List Output) : Prop :=
  ∀ slot, 0 < slot → slot ≤ config.length →
    Captain.leaseBallot config ≤ (captain.acceptorOf slot).maxProposedBallot ∧
      ∀ ballot id, Voted log slot ballot id → Captain.leaseBallot config ≤ ballot

theorem leaseKept_initial {deployment : Deployment} (hmode : deployment.config.mode = .multi)
    (i : ℕ) : LeaseKept deployment.config (deployment.node i).captain [] := by
  intro slot hpos hle
  refine ⟨?_, fun ballot id hvoted => absurd hvoted Captain.not_voted_nil⟩
  rcases Nat.exists_eq_succ_of_ne_zero hpos.ne' with ⟨place, rfl⟩
  have hplace : place < deployment.config.length := hle
  simp [Deployment.node, Captain.new, Captain.acceptorOf, Captain.acceptorAt, hmode, hplace,
    Acceptor.updateMaxProposed]

theorem LeaseKept.advance {config : Config} {captain final : Captain} {log outs : List Output}
    (hlease : LeaseKept config captain log) (hadvances : captain.Advances outs final) :
    LeaseKept config final (log ++ outs) := by
  intro slot hpos hle
  rcases hlease slot hpos hle with ⟨hpromised, hvotes⟩
  refine ⟨hpromised.trans (hadvances.promised slot), ?_⟩
  intro ballot id hvoted
  rcases voted_append.mp hvoted with hold | hnew
  · exact hvotes ballot id hold
  · exact hpromised.trans (hadvances.late slot ballot id hnew)

theorem leaseKept_preserved (deployment : Deployment) (condition : StepCondition) :
    PreservedBySlotMoves deployment condition fun nodes => ∀ i < deployment.config.size,
      LeaseKept deployment.config (nodes i).captain (nodes i).log := by
  intro nodes i setting outs final hi hkeeps hallows hlease hmove
  refine forall_actOn (fun _ => LeaseKept deployment.config) hlease ?_
  exact (hlease i hi).advance (hmove.advances (hkeeps.wellKept i hi).shape)

theorem extends_actOn {size : ℕ} {nodes : ℕ → Node} {i : ℕ} {final : Captain}
    {outs : List Output} (hadvances : (nodes i).captain.Advances outs final) (slot : ℕ) :
    Voting.Extends (votingAt size nodes slot)
      (votingAt size (actOn nodes i (final, outs)) slot) where
  promised := by
    intro node
    by_cases heq : node = i
    · subst heq
      simpa [votingAt, Node.after] using hadvances.promised slot
    · simp [votingAt, actOn_ne nodes heq]
  voted := by
    rintro node ballot id ⟨hnode, value, hmem, hid⟩
    exact ⟨hnode, value, mem_log_actOn.mpr (.inl hmem), hid⟩
  late := by
    rintro node ballot id ⟨hnode, value, hmem, hid⟩
    rcases mem_log_actOn.mp hmem with hold | ⟨rfl, hnew⟩
    · exact .inl ⟨hnode, value, hold, hid⟩
    · exact .inr (hadvances.late slot ballot id ⟨value, hnew, hid⟩)

section Safety

variable {deployment : Deployment} {nodes : ℕ → Node} {i : ℕ}
  (hkeeps : deployment.Keeps nodes) (hhistories : Histories deployment.config.size nodes)
  (hi : i < deployment.config.size)

include hkeeps hhistories hi

/-- With enough positive answers to its PREPARE, a proposer continues with a
safe value. -/
theorem safeAt_of_promises {msg : MsgAckPrepare} {info : ProposerInfo} {value : PropValue}
    {proposer : Proposer} {live : ℕ → Prop} {quorum : Finset ℕ → Prop}
    (hquorum : ∀ members, members ⊆ Finset.range deployment.config.size →
      info.currProposer.qr ≤ members.card → quorum members)
    (hlive : ∀ ballot, live ballot → 0 < ballot)
    (hsound : (votingAt deployment.config.size nodes msg.msgHeader.slotId).Sound
      quorum live)
    (hreceived : Received deployment.config.size nodes i (.promise msg))
    (hinfo : (nodes i).captain.proposers[msg.msgHeader.slotId]? = some info)
    (hballot : info.currProposer.currBallot ≤ msg.ballotId)
    (htrue : info.currProposer.qr ≤ (info.currProposer.recordPrepare msg).tally.trueCounter)
    (hafter : Proposer.Continues (nodes i).captain.view
      (info.currProposer.recordPrepare msg).adoptTally value proposer) :
    (votingAt deployment.config.size nodes msg.msgHeader.slotId).SafeAt
      quorum live info.currProposer.currBallot value.id := by
  have hproposer := (hhistories.proposers i hi).live _ info hinfo
  have hpromises := hproposer.recordPrepare_promises hreceived rfl hballot
  rcases promised_nodes hkeeps hhistories hpromises htrue with ⟨members, ⟨hsub, hcard⟩, hbound⟩
  have hmembers := hquorum members hsub hcard
  have hreported := hproposer.adoptTally_reported hreceived rfl hballot
  cases hmax : (info.currProposer.recordPrepare msg).adoptTally.maxValue with
  | none =>
      -- Nothing was reported: the quorum has voted in no live ballot below.
      apply Voting.safeAt_of_silent hmembers
      intro lower hlt hlower node hnode
      rcases hbound node hnode with ⟨hpromised, hvotes⟩
      refine ⟨lt_of_lt_of_le hlt hpromised, ?_⟩
      intro id hvoted
      have hle := hvotes lower hlt id hvoted
      have hzero : (info.currProposer.recordPrepare msg).tally.maxBallot = 0 :=
        hreported.nothing hmax
      have hpos := hlive lower hlower
      omega
  | some highest =>
      rw [(hafter.bound highest hmax).1]
      apply Voting.safeAt_of_highest hsound hmembers
      · exact fun node hnode => (hbound node hnode).1
      · exact fun node hnode => (hbound node hnode).2
      · exact reported_proposed hhistories hkeeps hreported hmax

/-- With a quorum of positive answers to its PREPARE, a proposer continues with
a safe value. -/
theorem safeAt_of_continues {msg : MsgAckPrepare} {info : ProposerInfo} {value : PropValue}
    {proposer : Proposer} {live : ℕ → Prop} (hmode : deployment.config.mode ≠ .rs)
    (hlive : ∀ ballot, live ballot → 0 < ballot)
    (hsound : (votingAt deployment.config.size nodes msg.msgHeader.slotId).Sound
      deployment.config.Quorum live)
    (hreceived : Received deployment.config.size nodes i (.promise msg))
    (hinfo : (nodes i).captain.proposers[msg.msgHeader.slotId]? = some info)
    (hballot : info.currProposer.currBallot ≤ msg.ballotId)
    (htrue : info.currProposer.qr ≤ (info.currProposer.recordPrepare msg).tally.trueCounter)
    (hafter : Proposer.Continues (nodes i).captain.view
      (info.currProposer.recordPrepare msg).adoptTally value proposer) :
    (votingAt deployment.config.size nodes msg.msgHeader.slotId).SafeAt
      deployment.config.Quorum live info.currProposer.currBallot value.id := by
  have hproposer := (hhistories.proposers i hi).live _ info hinfo
  have hquorum : info.currProposer.qr = deployment.config.quorumSize := by
    have hviewMode : (nodes i).captain.view.mode ≠ .rs := by
      rw [View.mode, hkeeps.config i hi]
      exact hmode
    rw [(hproposer.quorums hviewMode).1, View.quorumSize, hkeeps.config i hi]
  exact safeAt_of_promises hkeeps hhistories hi
    (fun members hsub hcard => ⟨hsub, hquorum ▸ hcard⟩) hlive hsound hreceived hinfo hballot
    htrue hafter

omit hhistories in
/-- With the lease, a first attempt of the Multi-Paxos build is safe. -/
theorem safeAt_of_lease {slot : ℕ} {opener first : ℕ → Prop}
    (hlease : ∀ i < deployment.config.size,
      LeaseKept deployment.config (nodes i).captain (nodes i).log)
    (hcovers : LeaseCovers deployment.config slot opener first) (hslot : 0 < slot)
    (hfirst : first i) (id : ℕ) :
    (votingAt deployment.config.size nodes slot).SafeAt deployment.config.Quorum
      (LiveBallot opener) (2 ^ 16 + (nodes i).captain.whoami) id := by
  apply Voting.safeAt_of_silent deployment.config.quorum_range
  rintro lower hlt ⟨hround, hopener⟩ node hnode
  have hwhoami := hkeeps.whoami_lt hi
  rw [hkeeps.whoami hi] at hlt hwhoami
  have hlower : toNodeId lower + 2 ^ 16 = lower := by
    unfold toNodeId
    omega
  rcases hcovers i hfirst (toNodeId lower) (by omega) hopener with ⟨hmaster, hle⟩
  have hbelow : lower < Captain.leaseBallot deployment.config := by
    unfold Captain.leaseBallot
    omega
  rcases hlease node (Finset.mem_range.mp hnode) slot hslot hle with ⟨hpromised, hvotes⟩
  refine ⟨lt_of_lt_of_le hbelow hpromised, ?_⟩
  rintro value ⟨_, hvoted⟩
  have hvote := hvotes lower value hvoted
  omega

end Safety

/-- All votes and proposals for every slot are sound, as far as the lease goes. -/
def Sound (config : Config) (nodes : ℕ → Node) : Prop :=
  ∀ slot opener first, OpenedBy config.size nodes slot opener first →
    (config.mode = .multi → LeaseCovers config slot opener first) →
      (votingAt config.size nodes slot).Sound config.Quorum (LiveBallot opener)

/-- What holds of all nodes in every run of the builds without shards. -/
structure Paxos (config : Config) (nodes : ℕ → Node) : Prop where
  histories : Histories config.size nodes
  lease : config.mode = .multi → ∀ i < config.size,
    LeaseKept config (nodes i).captain (nodes i).log
  sound : Sound config nodes

theorem paxos_initial (deployment : Deployment) : Paxos deployment.config deployment.node where
  histories := histories_initial deployment
  lease := fun hmode i _ => leaseKept_initial hmode i
  sound := by
    intro slot opener first hopened hcovers
    have hnone : ∀ ballot id,
        ¬ (votingAt deployment.config.size deployment.node slot).proposed ballot id := by
      rintro ballot id ⟨i, hi, dst, msg, hsends, _⟩
      exact Captain.not_sends_nil hsends
    constructor
    · rintro node ballot id ⟨_, hvoted⟩
      exact absurd hvoted Captain.not_voted_nil
    · exact fun ballot id id' hproposed => absurd hproposed (hnone ballot id)
    · exact fun ballot id hproposed => absurd hproposed (hnone ballot id)
    · exact fun ballot id hproposed => absurd hproposed (hnone ballot id)

theorem paxos_preserved {deployment : Deployment} (condition : StepCondition)
    (hmode : deployment.config.mode ≠ .rs) :
    PreservedBySlotMoves deployment condition (Paxos deployment.config) := by
  intro nodes i setting outs final hi hkeeps hallows hpaxos hmove
  have hshape := (hkeeps.wellKept i hi).shape
  have hadvances := hmove.advances hshape
  have hafter := histories_preserved deployment condition nodes i setting outs final hi hkeeps
    hallows hpaxos.histories hmove
  have hkeepsAfter := hkeeps.slotMove hi hmove
  refine ⟨hafter, ?_, ?_⟩
  · intro hmulti
    exact leaseKept_preserved deployment condition nodes i setting outs final hi hkeeps hallows
      (hpaxos.lease hmulti) hmove
  intro slot opener first hopened hcovers
  have hsound := hpaxos.sound slot opener first hopened.before hcovers
  refine hsound.extend (extends_actOn hadvances slot) ?_ ?_ ?_
  · rintro node ballot id ⟨hnode, hvoted⟩
    exact proposed_of_voted hafter hnode hvoted
  · rintro ballot id id' ⟨j, hj, hproposed⟩ ⟨k, hk, hproposed'⟩
    exact (proposed_unique hkeepsAfter hafter hj hk hproposed hproposed').2
  · rintro ballot id ⟨j, hj, dst, msg, ⟨packet, hmem, hdst, hmsg⟩, hrest⟩
    rcases mem_log_actOn.mp hmem with hold | ⟨rfl, hnew⟩
    · exact .inl ⟨j, hj, dst, msg, ⟨packet, hold, hdst, hmsg⟩, hrest⟩
    right
    have hopener : ∀ value, Opened ((nodes j).log ++ outs) slot value → opener j := by
      intro value hvalue
      apply hopened.opener j hj value
      simpa [Node.after] using hvalue
    cases hmove.newProposal hshape ⟨dst, msg, ⟨packet, hnew, hdst, hmsg⟩, hrest⟩ with
    | @continues promise info value proposer hreceived hinfo hstatus hballot htrue hcontinues =>
        have hlive := (hpaxos.histories.proposers j hj).live _ info hinfo
        have hown := hlive.ballot
        change OwnBallot (nodes j).captain.whoami _ at hown
        rw [hkeeps.whoami hj] at hown
        refine ⟨⟨hown.round, ?_⟩, ?_⟩
        · rw [hown.owner]
          exact hopener _ (opened_append.mpr (.inl hlive.opened))
        · refine safeAt_of_continues hkeeps hpaxos.histories hj hmode ?_ hsound
            (hallows.received _ hreceived) hinfo hballot htrue hcontinues
          rintro lower ⟨hround, _⟩
          omega
    | @skips value name hmulti hnote =>
        rw [hkeeps.mode hj] at hmulti
        have hfirst : first j := by
          apply hopened.first j hj value
          exact ⟨name, mem_log_actOn.mpr (.inr ⟨rfl, hnote⟩)⟩
        refine ⟨⟨Nat.le_add_right _ _, ?_⟩, ?_⟩
        · have howner := (OwnBallot.first (hkeeps.whoami_lt hj)).owner
          rw [howner, hkeeps.whoami hj]
          exact hopener value (opened_append.mpr (.inr ⟨name, 1, hnote⟩))
        · exact safeAt_of_lease hkeeps hj (hpaxos.lease hmulti) (hcovers hmulti)
            (Nat.succ_pos _) hfirst value.id

end NDNPaxos
