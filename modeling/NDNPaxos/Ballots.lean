import NDNPaxos.SafeProposals
import NDNPaxos.WaitingQueue
import Mathlib.Tactic

/-!
# Ballots are issued once

A node makes one proposer for a slot, and this proposer asks every node at most
once in each phase of a ballot.  So the ACCEPT messages of one slot and ballot
come from one proposer and are for one value, in every build.
-/

namespace NDNPaxos

structure Request where
  accepts : Bool
  slot : ℕ
  ballot : ℕ
  dst : ℕ
deriving DecidableEq, Repr

def Output.request? : Output → Option Request
  | .send { dst, msg := .prepare msg, .. } =>
      some { accepts := false, slot := msg.msgHeader.slotId, ballot := msg.ballotId, dst }
  | .send { dst, msg := .accept msg, .. } =>
      some { accepts := true, slot := msg.msgHeader.slotId, ballot := msg.ballotId, dst }
  | _ => none

def issuedRequests (log : List Output) : List Request := log.filterMap Output.request?

theorem issuedRequests_append (log outs : List Output) :
    issuedRequests (log ++ outs) = issuedRequests log ++ issuedRequests outs :=
  List.filterMap_append

theorem request_cases {out : Output} {request : Request} (hrequest : out.request? = some request) :
    ∃ packet, out = .send packet ∧ packet.dst = request.dst ∧
      ((request.accepts = false ∧ ∃ msg : MsgPrepare, packet.msg = .prepare msg ∧
          msg.msgHeader.slotId = request.slot ∧ msg.ballotId = request.ballot) ∨
        (request.accepts = true ∧ ∃ msg : MsgAccept, packet.msg = .accept msg ∧
          msg.msgHeader.slotId = request.slot ∧ msg.ballotId = request.ballot)) := by
  unfold Output.request? at hrequest
  split at hrequest
  next dst msg =>
    rw [Option.some.injEq] at hrequest
    subst hrequest
    exact ⟨_, rfl, rfl, .inl ⟨rfl, msg, rfl, rfl, rfl⟩⟩
  next dst msg =>
    rw [Option.some.injEq] at hrequest
    subst hrequest
    exact ⟨_, rfl, rfl, .inr ⟨rfl, msg, rfl, rfl, rfl⟩⟩
  next => simp at hrequest

theorem mem_issuedRequests {log : List Output} {request : Request} :
    request ∈ issuedRequests log ↔ ∃ out ∈ log, out.request? = some request := List.mem_filterMap

theorem issued_of_mem_issuedRequests {log : List Output} {request : Request}
    (hmem : request ∈ issuedRequests log) :
    ∃ header, header.slotId = request.slot ∧ Issued log header request.ballot := by
  rcases mem_issuedRequests.mp hmem with ⟨out, hout, hrequest⟩
  rcases request_cases hrequest with
    ⟨packet, rfl, hdst, ⟨_, msg, hmsg, hslot, hballot⟩ | ⟨_, msg, hmsg, hslot, hballot⟩⟩
  · refine ⟨msg.msgHeader, hslot, packet.dst, .prepare msg, ⟨packet, hout, rfl, hmsg⟩, ?_⟩
    rw [Message.issue?, hballot]
  · refine ⟨msg.msgHeader, hslot, packet.dst, .accept msg, ⟨packet, hout, rfl, hmsg⟩, ?_⟩
    rw [Message.issue?, hballot]

theorem proposed_of_mem_issuedRequests {log : List Output} {request : Request}
    (hmem : request ∈ issuedRequests log) (haccepts : request.accepts = true) :
    ∃ id, Proposed log request.slot request.ballot id := by
  rcases mem_issuedRequests.mp hmem with ⟨out, hout, hrequest⟩
  rcases request_cases hrequest with
    ⟨packet, rfl, hdst, ⟨hprepares, _⟩ | ⟨_, msg, hmsg, hslot, hballot⟩⟩
  · simp [haccepts] at hprepares
  · exact ⟨_, packet.dst, msg, ⟨packet, hout, rfl, hmsg⟩, hslot, hballot, rfl⟩

theorem issuedRequests_eq_nil {outs : List Output} (hkinds : ∀ out ∈ outs, out.kind ≠ .proposer) :
    issuedRequests outs = [] := by
  rw [issuedRequests, List.filterMap_eq_nil_iff]
  intro out hmem
  rw [Option.eq_none_iff_forall_ne_some]
  intro request hrequest
  rcases request_cases hrequest with ⟨packet, rfl, _, ⟨_, msg, hmsg, _⟩ | ⟨_, msg, hmsg, _⟩⟩
  · exact hkinds _ hmem (by rw [Output.kind, hmsg, Message.kind])
  · exact hkinds _ hmem (by rw [Output.kind, hmsg, Message.kind])

/-! ## One packet to each node -/

def destinations (outs : List Output) : List ℕ := (packetsOf outs).map Packet.dst

theorem issuedRequests_sublist (outs : List Output) :
    ((issuedRequests outs).map Request.dst).Sublist (destinations outs) := by
  induction outs with
  | nil => exact List.Sublist.refl _
  | cons out rest ih =>
      cases hrequest : out.request? with
      | none =>
          rw [issuedRequests, List.filterMap_cons_none hrequest]
          cases out with
          | note event => exact ih
          | send packet => exact ih.cons _
      | some request =>
          rcases request_cases hrequest with ⟨packet, rfl, hdst, _⟩
          rw [issuedRequests, List.filterMap_cons_some hrequest, List.map_cons, ← hdst]
          exact ih.cons_cons _

theorem issuedRequests_nodup {outs : List Output} (hdistinct : (destinations outs).Nodup) :
    (issuedRequests outs).Nodup := ((issuedRequests_sublist outs).nodup hdistinct).of_map

namespace Captain

theorem destinations_broadcastMsg (captain : Captain) (msg : Message) :
    (destinations (captain.broadcastMsg msg)).Nodup := by
  unfold broadcastMsg
  split
  · exact List.nodup_singleton _
  · have hrange : ∀ start stop, destinations ((List.range' start (stop - start)).map fun i =>
        .send { route := if i = captain.whoami then .self else .interest, dst := i, msg }) =
          List.range' start (stop - start) := by
      intro start stop
      rw [destinations, packetsOf, List.filterMap_map, List.map_filterMap]
      exact List.filterMap_some
    rw [hrange]
    exact List.nodup_range'

theorem destinations_openSlot (captain : Captain) (value : PropValue) (name : Name) (tryTime : ℕ)
    (skipPhaseI : Bool) :
    (destinations (captain.openSlot value name tryTime skipPhaseI).2).Nodup := by
  rw [openSlot_eq]
  exact captain.destinations_broadcastMsg _

theorem destinations_enterPhaseII {captain final : Captain} {slot : ℕ} {info : ProposerInfo}
    {outs : List Output} (henter : captain.enterPhaseII slot info = some (final, outs)) :
    (destinations outs).Nodup := by
  unfold enterPhaseII at henter
  split at henter
  next =>
    simp only [Option.bind_eq_bind, Option.bind_eq_some_iff, Prod.exists, pure,
      Option.some.injEq, Prod.mk.injEq] at henter
    rcases henter with ⟨msgs, proposer, _, _, rfl⟩
    change (destinations (msgs.zipIdx.map fun entry => .send {
      route := if entry.2 = captain.whoami then .self else .interest
      dst := entry.2
      msg := .accept { entry.1 with
        msgHeader := { nodeId := captain.whoami, slotId := slot } } })).Nodup
    have hplaces : ∀ place : MsgAccept × ℕ → Packet, (∀ entry, (place entry).dst = entry.2) →
        destinations (msgs.zipIdx.map fun entry => .send (place entry)) =
          msgs.zipIdx.map Prod.snd := by
      intro place hdst
      rw [destinations, packetsOf, List.filterMap_map, List.map_filterMap,
        ← List.filterMap_eq_map]
      apply List.filterMap_congr
      intro entry _
      simp [Output.packet?, hdst]
    rw [hplaces _ (fun _ => rfl), List.zipIdx_map_snd]
    exact List.nodup_range'
  next =>
    rw [Option.some.injEq, Prod.mk.injEq] at henter
    rw [← henter.2]
    exact captain.destinations_broadcastMsg _

/-! ## What a step asks for is new -/

/-- A request is for the current ballot after Phase I, for a later one, or for a
new slot. -/
inductive NewRequest (captain : Captain) (outs : List Output) (request : Request) : Prop where
  | accepts {info : ProposerInfo} (haccepts : request.accepts = true)
      (hinfo : captain.proposers[request.slot]? = some info) (hstatus : info.Preparing)
      (hballot : request.ballot = info.currProposer.currBallot)
  | restarts {info : ProposerInfo} (hinfo : captain.proposers[request.slot]? = some info)
      (hballot : info.currProposer.currBallot < request.ballot)
  | opens (hslot : request.slot = captain.maxSlot + 1) (hopened : request.slot ∈ openedSlots outs)

theorem currBallot_lt_genNextBallot (proposer : Proposer) (view : View) :
    proposer.currBallot < (proposer.genNextBallot view).currBallot := by
  unfold Proposer.genNextBallot
  simp only
  split <;> omega

theorem newRequest_restart {captain : Captain} {slot : ℕ} {info info' : ProposerInfo}
    {outs : List Output}
    (hinfo : captain.proposers[slot]? = some info)
    (hballot : info'.currProposer.currBallot = info.currProposer.currBallot) {request : Request}
    (hmem : request ∈ issuedRequests (captain.restart slot info').2) :
    NewRequest captain outs request := by
  rw [restart_eq] at hmem
  rcases issued_of_mem_issuedRequests hmem with ⟨header, hslot, hissued⟩
  have hissue := issued_broadcastMsg hissued
  rw [Message.issue?, Option.some.injEq, Prod.mk.injEq] at hissue
  rw [← hissue.1] at hslot
  have hfound : captain.proposers[request.slot]? = some info := by
    rw [← hslot]
    exact hinfo
  apply NewRequest.restarts hfound
  rw [← hissue.2, ← hballot]
  exact currBallot_lt_genNextBallot _ _

theorem ProposerMove.newRequest {setting : Setting} {captain final : Captain}
    {outs : List Output} (hmove : ProposerMove setting captain outs final) :
    (destinations outs).Nodup ∧
      ∀ request ∈ issuedRequests outs, NewRequest captain outs request := by
  cases hmove with
  | promised => exact ⟨List.nodup_nil, fun request hmem => absurd hmem List.not_mem_nil⟩
  | acked => exact ⟨List.nodup_nil, fun request hmem => absurd hmem List.not_mem_nil⟩
  | chosen => exact ⟨List.nodup_nil, fun request hmem => absurd hmem List.not_mem_nil⟩
  | promiseRestart hreceived hinfo hstatus hack =>
      constructor
      · exact captain.destinations_broadcastMsg _
      · cases Proposer.handleMsgPromise_step hack with
        | restarts => exact fun request hmem => newRequest_restart hinfo rfl hmem
  | ackRestart hreceived hinfo hstatus hack =>
      constructor
      · exact captain.destinations_broadcastMsg _
      · cases Proposer.handleMsgAccepted_step hack with
        | restarts => exact fun request hmem => newRequest_restart hinfo rfl hmem
  | @continued msg info proposer outs final hreceived hinfo hstatus hack henter =>
      constructor
      · exact destinations_enterPhaseII henter
      · cases Proposer.handleMsgPromise_step hack with
        | @continues value _ hballot hnone htrue hafter =>
            have hvalue : { info with currProposer := proposer }.currProposer.currValue =
              some value := hafter.currValue
            intro request hmem
            rcases mem_issuedRequests.mp hmem with ⟨out, hout, hrequest⟩
            rcases (enterPhaseII_spec hvalue henter).2 out hout with
              ⟨packet, accept, rfl, hmsg, hheader, hsentBallot, _⟩
            rcases packet with ⟨route, dst, sent⟩
            subst hmsg
            rw [Output.request?, Option.some.injEq] at hrequest
            subst hrequest
            have hfound : captain.proposers[accept.msgHeader.slotId]? = some info := by
              rw [hheader]
              exact hinfo
            exact NewRequest.accepts rfl hfound hstatus (hsentBallot.trans hafter.currBallot)

theorem SlotMove.newRequest {setting : Setting} {captain final : Captain}
    {outs : List Output} (hshape : LogShape captain)
    (hmove : SlotMove setting captain outs final) :
    (issuedRequests outs).Nodup ∧
      ∀ request ∈ issuedRequests outs, NewRequest captain outs request := by
  rcases hmove.proposer_cases hshape with hmove |
    ⟨value, name, tryTime, skipPhaseI, _, rfl, rfl⟩ | ⟨_, hkinds⟩ | ⟨_, _, hkinds⟩
  · exact ⟨issuedRequests_nodup hmove.newRequest.1, hmove.newRequest.2⟩
  · constructor
    · exact issuedRequests_nodup (captain.destinations_openSlot _ _ _ _)
    · intro request hmem
      rcases issued_of_mem_issuedRequests hmem with ⟨header, hslot, dst, msg, hsends, hissue⟩
      rw [sends_openSlot hsends] at hissue
      have hnext : request.slot = captain.maxSlot + 1 := by
        rw [← hslot]
        cases skipPhaseI <;>
          simp only [openingMsg, Bool.false_eq_true, if_true, if_false, Message.issue?,
            Option.some.injEq, Prod.mk.injEq] at hissue <;>
          rw [← hissue.1]
      exact .opens hnext (by simp [hnext])
  · simp [issuedRequests_eq_nil hkinds]
  · simp [issuedRequests_eq_nil hkinds]

/-- The issuedRequests of a node differ from each other and belong to its proposers,
of which each slot has had one. -/
structure IssuedOnce (captain : Captain) (log : List Output) : Prop where
  requests : (issuedRequests log).Nodup
  slots : (openedSlots log).Nodup
  opened_le : ∀ slot ∈ openedSlots log, slot ≤ captain.maxSlot
  opened : ∀ request ∈ issuedRequests log, request.slot ∈ openedSlots log

theorem NewRequest.fresh {received : Message → Prop} {captain : Captain} {log outs : List Output}
    {request : Request} (hnew : NewRequest captain outs request)
    (hhistory : ProposerHistory received captain log) : request ∉ issuedRequests log := by
  intro hmem
  rcases issued_of_mem_issuedRequests hmem with ⟨header, hslot, hissued⟩
  rcases hhistory.issued header request.ballot hissued with ⟨_, hle, _, hcurrent⟩
  rw [hslot] at hle hcurrent
  cases hnew with
  | @accepts info haccepts hinfo hstatus hballot =>
      rcases proposed_of_mem_issuedRequests hmem haccepts with ⟨id, hproposed⟩
      have hlt := ((hhistory.live _ info hinfo).preparing hstatus).2 _ id hproposed
      omega
  | @restarts info hinfo hballot =>
      have hle := hcurrent info hinfo
      omega
  | opens hopens => omega

theorem mem_openedSlots {log : List Output} {slot : ℕ} {value : PropValue}
    (hopened : Opened log slot value) : slot ∈ openedSlots log := by
  rcases hopened with ⟨name, tryTime, hmem⟩
  exact List.mem_filterMap.mpr ⟨_, hmem, rfl⟩

theorem SlotMove.openedSlots_cases {setting : Setting} {captain final : Captain}
    {outs : List Output} (hshape : LogShape captain)
    (hmove : SlotMove setting captain outs final) :
    (openedSlots outs = [] ∧ final.maxSlot = captain.maxSlot) ∨
      (openedSlots outs = [captain.maxSlot + 1] ∧ final.maxSlot = captain.maxSlot + 1) := by
  cases hmove with
  | base hmove =>
      exact .inl ⟨openedSlots_eq_nil fun out hmem => (hmove.kinds hshape hmem).2.1,
        (hmove.frame hshape).maxSlot⟩
  | queue hframe hkind =>
      refine .inl ⟨openedSlots_eq_nil fun out hmem => by simp [hkind out hmem], ?_⟩
      rw [hframe]
  | @opens value name tryTime skipPhaseI hskip =>
      refine .inr ⟨by simp, ?_⟩
      rw [openSlot_eq]
  | announce hinfo hstatus hvalue hstored hretires =>
      exact .inl ⟨openedSlots_eq_nil fun out hmem => by simp [kind_of_mem_announce hmem], rfl⟩
  | close hinfo hstatus hvalue => exact .inl ⟨rfl, rfl⟩

theorem IssuedOnce.slotMove {received : Message → Prop} {setting : Setting}
    {captain final : Captain} {log outs : List Output} (honce : IssuedOnce captain log)
    (hshape : LogShape captain) (hhistory : ProposerHistory received captain log)
    (hmove : SlotMove setting captain outs final) : IssuedOnce final (log ++ outs) := by
  have hnew := hmove.newRequest hshape
  have hopened := hmove.openedSlots_cases hshape
  constructor
  · rw [issuedRequests_append, List.nodup_append']
    refine ⟨honce.requests, hnew.1, ?_⟩
    intro request hold hmem
    exact (hnew.2 request hmem).fresh hhistory hold
  · rw [openedSlots_append]
    rcases hopened with ⟨hnone, _⟩ | ⟨hone, _⟩
    · rw [hnone, List.append_nil]
      exact honce.slots
    · rw [hone, List.nodup_append']
      refine ⟨honce.slots, List.nodup_singleton _, ?_⟩
      intro slot hold hmem
      have hle := honce.opened_le slot hold
      rw [List.mem_singleton] at hmem
      omega
  · intro slot hmem
    rw [openedSlots_append, List.mem_append] at hmem
    rcases hopened with ⟨hnone, hsame⟩ | ⟨hone, hnext⟩
    · rw [hnone, or_iff_left List.not_mem_nil] at hmem
      rw [hsame]
      exact honce.opened_le slot hmem
    · rw [hone, List.mem_singleton] at hmem
      rcases hmem with hold | hslot
      · have hle := honce.opened_le slot hold
        omega
      · omega
  · intro request hmem
    rw [openedSlots_append, List.mem_append]
    rw [issuedRequests_append, List.mem_append] at hmem
    rcases hmem with hold | hmem
    · exact .inl (honce.opened request hold)
    · cases hnew.2 request hmem with
      | accepts haccepts hinfo => exact .inl (mem_openedSlots (hhistory.live _ _ hinfo).opened)
      | restarts hinfo => exact .inl (mem_openedSlots (hhistory.live _ _ hinfo).opened)
      | opens hslot hopened => exact .inr hopened

end Captain

/-! ## All nodes -/

/-- Every ballot of a slot belongs to one node, one proposer and one value. -/
structure UniqueBallots (size : ℕ) (nodes : ℕ → Node) : Prop where
  owner : ∀ i < size, ∀ j < size, ∀ request ∈ issuedRequests (nodes i).log,
    ∀ other ∈ issuedRequests (nodes j).log, request.ballot = other.ballot → i = j
  /-- A node has put one proposer into a slot that it has asked for. -/
  proposer : ∀ i < size, ∀ request ∈ issuedRequests (nodes i).log,
    (openedSlots (nodes i).log).count request.slot = 1
  /-- A proposer asks a node once in each phase of a ballot. -/
  once : ∀ i < size, (issuedRequests (nodes i).log).Nodup
  value : ∀ i < size, ∀ j < size, ∀ slot ballot id id', Proposed (nodes i).log slot ballot id →
    Proposed (nodes j).log slot ballot id' → id = id'
  /-- A proposer that has asked for a value keeps it through the ballot. -/
  current : ∀ i < size, ∀ slot info id, (nodes i).captain.proposers[slot]? = some info →
    Proposed (nodes i).log slot info.currProposer.currBallot id →
      ∃ value, info.currProposer.currValue = some value ∧ value.id = id

theorem uniqueBallots_preserved (deployment : Deployment) (condition : StepCondition) :
    PreservedBySlotMoves deployment condition fun nodes =>
      Histories deployment.config.size nodes ∧ ∀ i < deployment.config.size,
        (nodes i).captain.IssuedOnce (nodes i).log := by
  apply (histories_preserved deployment condition).and
  intro nodes i setting outs final hi hkeeps hallows hhistories _ honce hmove
  refine forall_actOn (fun _ => Captain.IssuedOnce) honce ?_
  exact (honce i hi).slotMove (hkeeps.wellKept i hi).shape (hhistories.proposers i hi) hmove

/-- In every run of every build, a slot and a ballot stand for one proposer and
one value. -/
theorem ballots_unique (deployment : Deployment) (actions : List Action) (final : Cluster)
    (hrun : deployment.run actions = some final) :
    UniqueBallots deployment.config.size final.nodes := by
  have hinitial : ∀ i < deployment.config.size,
      (deployment.node i).captain.IssuedOnce (deployment.node i).log := by
    intro i _
    exact ⟨List.nodup_nil, List.nodup_nil, fun slot hmem => absurd hmem List.not_mem_nil,
      fun request hmem => absurd hmem List.not_mem_nil⟩
  have hreaches := reaches_of_run (uniqueBallots_preserved deployment {}).moves
    ⟨histories_initial deployment, hinitial⟩ (runMeets_anything deployment actions) hrun
  rcases hreaches.invariant with ⟨hhistories, honce⟩
  have howner : ∀ i < deployment.config.size, ∀ request ∈ issuedRequests (final.nodes i).log,
      toNodeId request.ballot = i := by
    intro i hi request hmem
    rcases issued_of_mem_issuedRequests hmem with ⟨header, _, hissued⟩
    exact (issued_owner hreaches.keeps hhistories hi hissued).2.owner
  constructor
  · intro i hi j hj request hmem other hother hballot
    rw [← howner i hi request hmem, ← howner j hj other hother, hballot]
  · intro i hi request hmem
    exact List.count_eq_one_of_mem (honce i hi).slots ((honce i hi).opened request hmem)
  · exact fun i hi => (honce i hi).requests
  · intro i hi j hj slot ballot id id' hproposed hproposed'
    exact (proposed_unique hreaches.keeps hhistories hi hj hproposed hproposed').2
  · intro i hi slot info id hinfo hproposed
    rcases ((hhistories.proposers i hi).live slot info hinfo).phase with
      ⟨_, _, hbelow⟩ | ⟨_, value, hvalue, honly⟩
    · exact absurd (hbelow _ id hproposed) (lt_irrefl _)
    · exact ⟨value, hvalue, (honly id hproposed).symm⟩

/-- Two nodes ask for the same slot: the lower ballot is refused and its proposer
starts over, while the other one enters Phase II. -/
theorem ballots_unique_twoNodes :
    ∃ final, Deployment.run { config := twoNodes .basic }
        ([.call 0 (.commit { id := 65536 } none), .call 1 (.commit { id := 65537 } none)] ++
          [2, 2, 0, 0, 2, 2, 0, 0].map fun index => .deliver index [] {}) = some final ∧
      issuedRequests (final.nodes 0).log = [⟨false, 1, 65536, 0⟩, ⟨false, 1, 65536, 1⟩,
        ⟨false, 1, 131072, 0⟩, ⟨false, 1, 131072, 1⟩] ∧
      issuedRequests (final.nodes 1).log = [⟨false, 1, 65537, 0⟩, ⟨false, 1, 65537, 1⟩,
        ⟨true, 1, 65537, 0⟩, ⟨true, 1, 65537, 1⟩] ∧
      UniqueBallots 2 final.nodes := by
  have hfinal : (Deployment.run { config := twoNodes .basic }
      ([.call 0 (.commit { id := 65536 } none), .call 1 (.commit { id := 65537 } none)] ++
        [2, 2, 0, 0, 2, 2, 0, 0].map fun index => .deliver index [] {})).map
        (fun final => (issuedRequests (final.nodes 0).log, issuedRequests (final.nodes 1).log)) =
      some ([⟨false, 1, 65536, 0⟩, ⟨false, 1, 65536, 1⟩, ⟨false, 1, 131072, 0⟩,
          ⟨false, 1, 131072, 1⟩],
        [⟨false, 1, 65537, 0⟩, ⟨false, 1, 65537, 1⟩, ⟨true, 1, 65537, 0⟩,
          ⟨true, 1, 65537, 1⟩]) := by
    decide
  rcases Option.map_eq_some_iff.mp hfinal with ⟨final, hrun, hfinal⟩
  rw [Prod.mk.injEq] at hfinal
  exact ⟨final, hrun, hfinal.1, hfinal.2, ballots_unique _ _ final hrun⟩

end NDNPaxos
