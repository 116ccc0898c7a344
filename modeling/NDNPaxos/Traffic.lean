import NDNPaxos.AtRest
import NDNPaxos.RemoteInput
import Mathlib.Tactic

/-!
# Traffic inside the cluster

The handlers trust the messages they are given: a slot 0 makes them dereference NULL, a
node outside the cluster makes them leave a vector, and slots are counted by an `int`.
The nodes of a cluster send each other nothing of this kind, so none of their packets
drives a handler into undefined behaviour as long as the slots are few enough.
-/

namespace NDNPaxos

/-- The message is from a node of the cluster and about a slot up to the bound. -/
structure Message.Internal (config : Config) (bound : ℕ) (msg : Message) : Prop where
  node : msg.msgHeader.nodeId < config.size
  slot : msg.kind ≠ .forwarding → 0 < msg.msgHeader.slotId ∧ msg.msgHeader.slotId ≤ bound

structure Packet.Internal (config : Config) (bound : ℕ) (packet : Packet) : Prop where
  dst : packet.dst < config.size
  msg : packet.msg.Internal config bound

namespace Captain

variable {config : Config} {bound : ℕ} {captain final : Captain} {setting : Setting}
  {outs : List Output}

/-! ## What a captain sends -/

/-- Every packet that is put out stays inside. -/
def SendsInternal (config : Config) (bound : ℕ) (outs : List Output) : Prop :=
  ∀ packet, .send packet ∈ outs → packet.Internal config bound

theorem sendsInternal_append {outs' : List Output} (hleft : SendsInternal config bound outs)
    (hright : SendsInternal config bound outs') : SendsInternal config bound (outs ++ outs') := by
  intro packet hmem
  rcases List.mem_append.mp hmem with hmem | hmem
  · exact hleft packet hmem
  · exact hright packet hmem

theorem sendsInternal_note {event : Event} (hsends : SendsInternal config bound outs) :
    SendsInternal config bound (.note event :: outs) := by
  intro packet hmem
  exact hsends packet ((List.mem_cons.mp hmem).resolve_left (by simp))

theorem sendsInternal_of_kinds
    (hkinds : ∀ out ∈ outs, out.kind = .client ∨ out.kind = .handed) :
    SendsInternal config bound outs := by
  intro packet hmem
  have hsent := mem_packetsOf.mpr hmem
  rw [packetsOf_eq_nil hkinds] at hsent
  simp at hsent

theorem sendsInternal_broadcastMsg (hconfig : captain.view.config = config)
    (hwhoami : captain.whoami < config.size) {msg : Message} (hmsg : msg.Internal config bound) :
    SendsInternal config bound (captain.broadcastMsg msg) := by
  intro packet hmem
  unfold broadcastMsg at hmem
  split at hmem
  · rw [List.mem_singleton, Output.send.injEq] at hmem
    rw [hmem]
    exact ⟨hwhoami, hmsg⟩
  · have hstop : (broadcastRange captain.view msg).2 ≤ config.size := by
      have hle := config.quorumSize_le
      unfold broadcastRange View.quorumSize View.nodesSize
      rw [hconfig]
      split
      · split <;> simp [hle]
      · exact le_rfl
    generalize broadcastRange captain.view msg = range at hmem hstop
    obtain ⟨start, stop⟩ := range
    obtain ⟨i, hi, heq⟩ := List.mem_map.mp hmem
    rw [Output.send.injEq] at heq
    rw [← heq]
    refine ⟨?_, hmsg⟩
    rw [List.mem_range'_1] at hi
    change i < config.size
    omega

theorem sendsInternal_sendData {nodeId : ℕ} (hnode : nodeId < config.size) {msg : Message}
    (hmsg : msg.Internal config bound) : SendsInternal config bound (sendData nodeId msg) := by
  intro packet hmem
  rw [sendData, List.mem_singleton, Output.send.injEq] at hmem
  rw [hmem]
  refine ⟨?_, hmsg⟩
  have hle := config.size_le
  rwa [toNodeId_of_lt (by omega)]

theorem sendsInternal_answer (hwhoami : captain.whoami < config.size) {nodeId : ℕ}
    (hnode : nodeId < config.size) {msg : Message} (hmsg : msg.Internal config bound) :
    SendsInternal config bound (captain.answer nodeId msg) := by
  unfold answer
  split
  · intro packet hmem
    rw [List.mem_singleton, Output.send.injEq] at hmem
    rw [hmem]
    exact ⟨hwhoami, hmsg⟩
  · exact sendsInternal_sendData hnode hmsg

theorem sendsInternal_sendInterest (hconfig : captain.view.config = config) {nodeId : ℕ}
    {msg : Message} (hmsg : msg.Internal config bound)
    (hsend : captain.sendInterest nodeId msg = some outs) : SendsInternal config bound outs := by
  unfold sendInterest at hsend
  split at hsend
  next hlt =>
    rw [View.nodesSize, hconfig] at hlt
    rw [Option.some.injEq] at hsend
    intro packet hmem
    rw [← hsend, List.mem_singleton, Output.send.injEq] at hmem
    rw [hmem]
    exact ⟨hlt, hmsg⟩
  next => simp at hsend

/-- What a proposer sends is about its slot. -/
theorem internal_ownSlot (hwhoami : captain.whoami < config.size) (hkept : captain.WellKept)
    (hbound : captain.maxSlot ≤ bound) {slot : ℕ} {info : ProposerInfo}
    (hinfo : captain.proposers[slot]? = some info) {msg : Message}
    (hheader : msg.msgHeader = { nodeId := captain.whoami, slotId := slot }) :
    msg.Internal config bound := by
  have hkey := hkept.keys slot info hinfo
  constructor
  · rw [hheader]
    exact hwhoami
  · intro _
    rw [hheader]
    exact ⟨hkey.1, hkey.2.trans hbound⟩

/-! ## Moves -/

section Moves

variable (hconfig : captain.view.config = config) (hwhoami : captain.whoami < config.size)
  (hkept : captain.WellKept)
  (hreceived : ∀ msg, setting.received msg → msg.Internal config bound)

include hconfig hwhoami hreceived

theorem ForwardMove.sendsInternal (hmove : ForwardMove setting captain outs final) :
    SendsInternal config bound outs := by
  cases hmove with
  | crash hcall => exact fun packet hmem => absurd hmem List.not_mem_nil
  | forward hcall hmaster hid hsend =>
      refine sendsInternal_note (sendsInternal_sendInterest hconfig ?_ hsend)
      exact ⟨hwhoami, fun hkind => absurd rfl hkind⟩
  | echo hmsg hmaster =>
      have hinternal := hreceived _ hmsg
      refine sendsInternal_append (sendsInternal_sendData hinternal.node hinternal) ?_
      exact sendsInternal_note fun packet hmem => absurd hmem List.not_mem_nil
  | reply hmsg hmaster => exact sendsInternal_note fun packet hmem => absurd hmem List.not_mem_nil

omit hconfig in
theorem AcceptorMove.sendsInternal (hmove : AcceptorMove setting captain outs final) :
    SendsInternal config bound outs := by
  have hnode : captain.view.whoami < config.size := hwhoami
  cases hmove with
  | prepare hmsg hupdate =>
      have hinternal := hreceived _ hmsg
      refine sendsInternal_answer hwhoami hinternal.node ⟨?_, fun _ => ?_⟩
      · simpa [Message.msgHeader, prepareAnswer] using hnode
      · simpa [Message.msgHeader, prepareAnswer] using hinternal.slot (by simp [Message.kind])
  | accept hmsg hupdate =>
      have hinternal := hreceived _ hmsg
      refine sendsInternal_append ?_ (sendsInternal_answer hwhoami hinternal.node ⟨?_, fun _ => ?_⟩)
      · split
        · exact sendsInternal_note fun packet hmem => absurd hmem List.not_mem_nil
        · exact fun packet hmem => absurd hmem List.not_mem_nil
      · simpa [Message.msgHeader, acceptAnswer] using hnode
      · simpa [Message.msgHeader, acceptAnswer] using hinternal.slot (by simp [Message.kind])

include hkept

omit hreceived in
theorem ProposerMove.sendsInternal (hshards : config.mode ≠ .rs) (hbound : captain.maxSlot ≤ bound)
    (hmove : ProposerMove setting captain outs final) : SendsInternal config bound outs := by
  cases hmove with
  | promised hmsg hinfo hstatus hack hstays => exact fun packet hmem => absurd hmem List.not_mem_nil
  | acked hmsg hinfo hstatus hack hstays => exact fun packet hmem => absurd hmem List.not_mem_nil
  | chosen hmsg hinfo hstatus hack => exact fun packet hmem => absurd hmem List.not_mem_nil
  | promiseRestart hmsg hinfo hstatus hack =>
      exact sendsInternal_broadcastMsg hconfig hwhoami
        (internal_ownSlot hwhoami hkept hbound hinfo rfl)
  | ackRestart hmsg hinfo hstatus hack =>
      exact sendsInternal_broadcastMsg hconfig hwhoami
        (internal_ownSlot hwhoami hkept hbound hinfo rfl)
  | continued hmsg hinfo hstatus hack henter =>
      have hmode : captain.mode ≠ .rs := by
        rw [Captain.mode, View.mode, hconfig]
        exact hshards
      rw [enterPhaseII, if_neg hmode, Option.some.injEq, Prod.mk.injEq] at henter
      rw [← henter.2]
      exact sendsInternal_broadcastMsg hconfig hwhoami
        (internal_ownSlot hwhoami hkept hbound hinfo rfl)

theorem LearnerMove.sendsInternal (hmove : LearnerMove setting captain outs final) :
    SendsInternal config bound outs := by
  cases hmove with
  | tell hinfo hstatus hvalue hown hretires =>
      apply sendsInternal_note
      split
      · exact sendsInternal_note fun packet hmem => absurd hmem List.not_mem_nil
      · exact fun packet hmem => absurd hmem List.not_mem_nil
  | learn hlearn hadd =>
      obtain ⟨_, _, _, delivered, rfl⟩ := addChosenValue_learned hkept.shape hadd
      exact sendsInternal_of_kinds fun out hmem => .inl (kind_of_mem_deliveryEvents hmem)
  | teach hmsg hstored hteach hsend =>
      obtain ⟨teach, rfl, hheader, _⟩ := answerLearn_msg hteach
      refine sendsInternal_sendInterest hconfig ⟨?_, fun _ => ?_⟩ hsend
      · simpa [Message.msgHeader, hheader] using hwhoami
      · simpa [Message.msgHeader, hheader] using (hreceived _ hmsg).slot (by simp [Message.kind])
  | inquire hmsg =>
      have hinternal := hreceived _ hmsg
      refine sendsInternal_sendData hinternal.node ⟨hwhoami, fun _ => ?_⟩
      exact hinternal.slot (by simp [Message.kind])

/-- Where the received messages are internal, so are the sent ones. -/
theorem SlotMove.sendsInternal (hshards : config.mode ≠ .rs) (hbound : final.maxSlot ≤ bound)
    (hmove : SlotMove setting captain outs final) : SendsInternal config bound outs := by
  cases hmove with
  | base hmove =>
      have hframe := hmove.frame hkept.shape
      rw [hframe.maxSlot] at hbound
      cases hmove with
      | forwarding hmove => exact hmove.sendsInternal hconfig hwhoami hreceived
      | acceptor hmove => exact hmove.sendsInternal hwhoami hreceived
      | proposer hmove => exact hmove.sendsInternal hconfig hwhoami hkept hshards hbound
      | learner hmove => exact hmove.sendsInternal hconfig hwhoami hkept hreceived
  | queue hframe hkind => exact sendsInternal_of_kinds fun out hmem => .inr (hkind out hmem)
  | @opens value name tryTime skipPhaseI hskip =>
      rw [openSlot_eq] at hbound ⊢
      refine sendsInternal_note (sendsInternal_broadcastMsg hconfig hwhoami ?_)
      have hheader : (captain.openingMsg value skipPhaseI).msgHeader =
          { nodeId := captain.whoami, slotId := captain.maxSlot + 1 } := by
        cases skipPhaseI <;> rfl
      constructor
      · rw [hheader]
        exact hwhoami
      · intro _
        rw [hheader]
        exact ⟨Nat.succ_pos _, hbound⟩
  | announce hinfo hstatus hvalue hstored hretires =>
      unfold Captain.announce
      refine sendsInternal_append (sendsInternal_broadcastMsg hconfig hwhoami
        (internal_ownSlot hwhoami hkept hbound hinfo rfl)) ?_
      split
      · exact sendsInternal_broadcastMsg hconfig hwhoami
          (internal_ownSlot hwhoami hkept hbound hinfo rfl)
      · exact fun packet hmem => absurd hmem List.not_mem_nil
  | close hinfo hstatus hvalue =>
      exact sendsInternal_note fun packet hmem => absurd hmem List.not_mem_nil

omit hconfig hwhoami hreceived in
theorem SlotMove.maxSlot_le (hmove : SlotMove setting captain outs final) :
    captain.maxSlot ≤ final.maxSlot := by
  cases hmove with
  | base hmove => exact (hmove.frame hkept.shape).maxSlot.ge
  | queue hframe hkind => rw [hframe]
  | opens value name tryTime hskip =>
      rw [openSlot_eq]
      exact Nat.le_succ _
  | announce hinfo hstatus hvalue hstored hretires => exact le_rfl
  | close hinfo hstatus hvalue => exact le_rfl

end Moves

theorem maxSlot_le_of_chain (hkept : captain.WellKept)
    (hchain : OutputChain (Move setting) captain outs final) :
    captain.maxSlot ≤ final.maxSlot := by
  have hslots := hchain.bind fun _ _ _ hmove => hmove.slotMoves
  refine (hslots.preserves (fun next => next.WellKept ∧ captain.maxSlot ≤ next.maxSlot) ?_
    ⟨hkept, le_rfl⟩).2
  rintro next outs final ⟨hkept, hle⟩ hslot
  exact ⟨hslot.wellKept hkept, hle.trans (hslot.maxSlot_le hkept)⟩

/-! ## Nothing more is asked for -/

theorem proposer_of_chooses {msg : Message} {slot : ℕ} {info : ProposerInfo}
    (hchooses : captain.chooses msg = some (slot, info)) :
    ∃ found, captain.proposers[slot]? = some found := by
  cases msg with
  | accepted msg =>
      simp only [chooses] at hchooses
      split at hchooses
      next found hfound =>
        split at hchooses
        next =>
          rw [Option.some.injEq, Prod.mk.injEq] at hchooses
          exact ⟨found, hchooses.1 ▸ hfound⟩
        next => simp at hchooses
      next => simp at hchooses
  | _ => simp [chooses] at hchooses

section Takes

variable (hbound : bound < 2 ^ 31 - 1) (hshards : config.mode ≠ .rs)
  (hsound : captain.Sound config) {app : AppCalls} {msg : Message}
  (hinternal : msg.Internal config bound)

include hbound hshards hsound hinternal

/-- An `int` counts the slots up to the bound, with one to spare. -/
theorem takes_of_internal_of_ne (hkind : msg.kind ≠ .acceptor) : captain.Takes app msg := by
  have hmode : captain.mode ≠ .rs := by
    rw [Captain.mode, View.mode, hsound.config_eq]
    exact hshards
  cases msg with
  | prepare msg =>
      have hslot := hinternal.slot (by simp [Message.kind])
      exact ⟨hslot.1, .inr (lt_of_le_of_lt hslot.2 hbound)⟩
  | accept msg =>
      have hslot := hinternal.slot (by simp [Message.kind])
      exact ⟨hslot.1, .inr (lt_of_le_of_lt hslot.2 hbound)⟩
  | decide msg =>
      have hslot := hinternal.slot (by simp [Message.kind])
      have hlt : msg.msgHeader.slotId < 2 ^ 31 := lt_of_le_of_lt hslot.2 (by omega)
      exact ⟨hslot.1, .inl (.inr hlt)⟩
  | learn msg =>
      intro stored _
      refine ⟨?_, fun hrs => absurd hrs hmode⟩
      have hnode : msg.msgHeader.nodeId < config.size := hinternal.node
      have hle := config.size_le
      rw [toNodeId_of_lt (by omega), View.nodesSize, hsound.config_eq]
      exact hnode
  | teach msg =>
      have hslot := hinternal.slot (by simp [Message.kind])
      have hlt : msg.msgHeader.slotId < 2 ^ 31 := lt_of_le_of_lt hslot.2 (by omega)
      exact ⟨hslot.1, .inr hlt⟩
  | promise msg => exact absurd rfl hkind
  | accepted msg => exact absurd rfl hkind
  | commit msg => trivial
  | command msg => trivial

theorem takes_of_internal (hslots : captain.maxSlot ≤ bound) (hcanPop : captain.CanPop)
    (happ : captain.AppEnds app msg) : captain.Takes app msg := by
  by_cases hkind : msg.kind = .acceptor
  · cases msg with
    | promise msg =>
        intro hrs
        rw [Captain.mode, View.mode, hsound.config_eq] at hrs
        exact absurd hrs hshards
    | accepted msg =>
        refine ⟨happ, fun slot info hchooses => ?_⟩
        obtain ⟨found, hfound⟩ := proposer_of_chooses hchooses
        have hkey := hsound.kept.keys _ found hfound
        exact ⟨.inr (by omega), .inr hcanPop⟩
    | _ => simp [Message.kind] at hkind
  · exact takes_of_internal_of_ne hbound hshards hsound hinternal hkind

/-- An answer of an acceptor does not have to be taken for the containers to keep their
shape. -/
theorem Sound.handleMsg_internal {dataName : Name}
    (hhandle : captain.handleMsg msg dataName app = some (final, outs)) : final.Sound config := by
  have henough : config.mode = .rs → config.EnoughShards := fun hrs => absurd hrs hshards
  by_cases hkind : msg.kind = .acceptor
  · refine hsound.handleMsg_learning henough ?_ ?_ hhandle
    · simp [hkind]
    · simp [hkind]
  · have htakes : captain.Takes app msg :=
      takes_of_internal_of_ne hbound hshards hsound hinternal hkind
    exact hsound.handleMsg henough (fun _ => htakes) hhandle

end Takes

end Captain

/-! ## Runs -/

/-- No node has opened a slot above the bound. -/
def SlotsUpTo (size bound : ℕ) (nodes : ℕ → Node) : Prop :=
  ∀ i < size, (nodes i).captain.maxSlot ≤ bound

def InternalTraffic (config : Config) (bound : ℕ) (nodes : ℕ → Node) : Prop :=
  ∀ i < config.size, Captain.SendsInternal config bound (nodes i).log

theorem InternalTraffic.received {config : Config} {bound : ℕ} {nodes : ℕ → Node}
    (hinternal : InternalTraffic config bound nodes) {i : ℕ} {msg : Message}
    (hreceived : Received config.size nodes i msg) : msg.Internal config bound := by
  obtain ⟨j, hj, packet, hmem, _, rfl⟩ := hreceived
  exact (hinternal j hj packet hmem).msg

section Runs

variable {deployment : Deployment} {bound : ℕ} {cluster next : Cluster}

theorem SlotsUpTo.before {nodes : ℕ → Node} {i : ℕ} {final : Captain} {outs : List Output}
    (hslots : SlotsUpTo deployment.config.size bound (actOn nodes i (final, outs)))
    (hle : (nodes i).captain.maxSlot ≤ final.maxSlot) :
    SlotsUpTo deployment.config.size bound nodes := by
  intro j hj
  have hafter := hslots j hj
  by_cases heq : j = i
  · subst heq
    rw [actOn_self] at hafter
    exact hle.trans hafter
  · rwa [actOn_ne nodes heq] at hafter

theorem internalTraffic_preserved (condition : StepCondition)
    (hshards : deployment.config.mode ≠ .rs) :
    PreservedBySlotMoves deployment condition fun nodes =>
      SlotsUpTo deployment.config.size bound nodes →
        InternalTraffic deployment.config bound nodes := by
  intro nodes i setting outs final hi hkeeps hallows hbefore hmove hslots
  have hkept := hkeeps.wellKept i hi
  have hmax := hslots i hi
  rw [actOn_self] at hmax
  have hinternal := hbefore (hslots.before (hmove.maxSlot_le hkept))
  refine forall_actOn (fun _ _ log => Captain.SendsInternal deployment.config bound log) hinternal
    (Captain.sendsInternal_append (hinternal i hi) ?_)
  exact hmove.sendsInternal (hkeeps.config i hi) (by rwa [hkeeps.whoami hi]) hkept
    (fun msg hmsg => hinternal.received (hallows.received msg hmsg)) hshards hmax

/-- The traffic is internal, and every captain is in order. -/
structure InOrder (deployment : Deployment) (bound : ℕ) (cluster : Cluster) : Prop where
  reaches : Reaches deployment (fun nodes => SlotsUpTo deployment.config.size bound nodes →
    InternalTraffic deployment.config bound nodes) cluster
  sound : SlotsUpTo deployment.config.size bound cluster.nodes →
    ∀ i < deployment.config.size, (cluster.nodes i).captain.Sound deployment.config

theorem InOrder.internal (hinOrder : InOrder deployment bound cluster)
    (hslots : SlotsUpTo deployment.config.size bound cluster.nodes) {packet : Packet}
    (hmem : packet ∈ cluster.net) : packet.Internal deployment.config bound := by
  obtain ⟨j, hj, hlog⟩ := hinOrder.reaches.sent packet hmem
  exact hinOrder.reaches.invariant hslots j hj packet hlog

theorem inOrder_initial : InOrder deployment bound deployment.initial where
  reaches :=
    { keeps := deployment.keeps_initial
      sent := fun _ hmem => absurd hmem List.not_mem_nil
      invariant := fun _ _ _ _ hmem => absurd hmem List.not_mem_nil }
  sound := fun _ i _ => Captain.sound_node deployment i

theorem InOrder.step (hbound : bound < 2 ^ 31 - 1) (hshards : deployment.config.mode ≠ .rs)
    {action : Action} (hinOrder : InOrder deployment bound cluster)
    (hstep : cluster.step deployment action = some next) : InOrder deployment bound next := by
  have hreaches := hinOrder.reaches.step (internalTraffic_preserved {} hshards).moves
    (holds_anything cluster action) hstep
  have henough : deployment.config.mode = .rs → deployment.config.EnoughShards :=
    fun hrs => absurd hrs hshards
  obtain ⟨_, hcases⟩ := Cluster.step_cases hinOrder.reaches.keeps hinOrder.reaches.sent hstep
  refine ⟨hreaches, fun hslots => ?_⟩
  cases hcases with
  | network hnodes =>
      rw [hnodes] at hslots ⊢
      exact hinOrder.sound hslots
  | @node i setting outs final hi hsetting hchain hnodes =>
      rw [hnodes] at hslots
      have hold := hslots.before
        (Captain.maxSlot_le_of_chain (hinOrder.reaches.keeps.wellKept i hi) hchain)
      have hsound := hinOrder.sound hold
      -- Only the node that acts changes, and the message it handles is internal.
      cases action with
      | call j made =>
          obtain ⟨_, captain, outs, hcall, rfl⟩ := Cluster.step_call hstep
          refine forall_actOn (fun _ captain _ => captain.Sound deployment.config) hsound ?_
          exact (hsound j ‹_›).call henough hcall
      | deliver index dataName app =>
          obtain ⟨packet, hpacket, hdst, captain, outs, hhandle, rfl⟩ := Cluster.step_deliver hstep
          have hinternal := (hinOrder.internal hold (List.mem_of_getElem? hpacket)).msg
          refine forall_actOn (fun _ captain _ => captain.Sound deployment.config) hsound ?_
          exact (hsound _ hdst).handleMsg_internal hbound hshards hinternal hhandle
      | lose index => cases hsetting
      | duplicate index => cases hsetting

theorem inOrder_of_run (hbound : bound < 2 ^ 31 - 1) (hshards : deployment.config.mode ≠ .rs)
    {actions : List Action} {final : Cluster} (hrun : deployment.run actions = some final) :
    InOrder deployment bound final :=
  PartialMachine.invariant_of_run (InOrder deployment bound)
    (fun _ _ _ hinOrder hstep => hinOrder.step hbound hshards hstep) inOrder_initial hrun

/-- Whatever the callbacks call while the packet is handled ends at once. -/
def Cluster.AppEnds (cluster : Cluster) (index : ℕ) (app : AppCalls) : Prop :=
  ∀ packet ∈ cluster.net[index]?, (cluster.nodes packet.dst).captain.AppEnds app packet.msg

theorem Cluster.appEnds_nothing (cluster : Cluster) (index : ℕ) : cluster.AppEnds index {} :=
  fun _ _ _ _ _ => ⟨by simp, by simp⟩

theorem InOrder.exists_deliver (hinOrder : InOrder deployment bound cluster)
    (hbound : bound < 2 ^ 31 - 1) (hshards : deployment.config.mode ≠ .rs)
    (hslots : SlotsUpTo deployment.config.size bound cluster.nodes)
    (hcanPop : ∀ i < deployment.config.size, (cluster.nodes i).captain.CanPop) {index : ℕ}
    (hindex : index < cluster.net.length) (dataName : Name) {app : AppCalls}
    (happ : cluster.AppEnds index app) :
    ∃ next, cluster.step deployment (.deliver index dataName app) = some next := by
  have hpacket : cluster.net[index]? = some cluster.net[index] := List.getElem?_eq_getElem hindex
  obtain ⟨hdst, hmsg⟩ := hinOrder.internal hslots (List.getElem_mem hindex)
  have hsound := hinOrder.sound hslots _ hdst
  have htakes := Captain.takes_of_internal hbound hshards hsound hmsg (hslots _ hdst)
    (hcanPop _ hdst) (happ _ hpacket)
  obtain ⟨result, hhandle⟩ := hsound.exists_handleMsg (fun hrs => absurd hrs hshards)
    (Cluster.arrivalName (cluster.nodes cluster.net[index].dst).captain cluster.net[index]
      dataName) fun _ => htakes
  refine ⟨cluster.act cluster.net[index].dst (cluster.net.eraseIdx index) result, ?_⟩
  simp only [Cluster.step, hpacket, Option.bind_eq_bind, Option.bind_some, if_pos hdst, hhandle]
  rfl

/-- Whichever packet in flight arrives next, its node handles it to the end. -/
theorem delivery_handled (deployment : Deployment) (hshards : deployment.config.mode ≠ .rs)
    (bound : ℕ) (hbound : bound < 2 ^ 31 - 1) (actions : List Action) (final : Cluster)
    (hrun : deployment.run actions = some final)
    (hcalls : ∀ action ∈ actions, ∀ call ∈ action.calls, ∀ value, call ≠ .masterChange value)
    (hslots : SlotsUpTo deployment.config.size bound final.nodes)
    (index : ℕ) (hindex : index < final.net.length) (dataName : Name) (app : AppCalls)
    (happ : final.AppEnds index app) :
    ∃ next, final.step deployment (.deliver index dataName app) = some next := by
  have hqueues := queues_of_run hrun hcalls
  exact (inOrder_of_run hbound hshards hrun).exists_deliver hbound hshards hslots
    (fun i hi => Captain.canPop_of_paired (hqueues i hi).1.paired) hindex dataName happ

/-- The PREPARE to node 1 was duplicated and answered twice; one PROMISE is lost. -/
theorem delivery_handled_twoNodes :
    ∃ final : Cluster, Deployment.run { config := twoNodes .basic }
        [.call 0 (.commit { id := 65536 } (some [])), .duplicate 1, .deliver 1 [] {},
          .deliver 1 [] {}, .lose 1] = some final ∧
      final.net.length = 2 ∧ ∀ index < 2, ∃ next,
        final.step { config := twoNodes .basic } (.deliver index [] {}) = some next := by
  have hfinal : (Deployment.run { config := twoNodes .basic }
      [.call 0 (.commit { id := 65536 } (some [])), .duplicate 1, .deliver 1 [] {},
        .deliver 1 [] {}, .lose 1]).map (fun final => (final.net.length,
          (final.nodes 0).captain.maxSlot, (final.nodes 1).captain.maxSlot)) =
        some (2, 1, 0) := by
    decide
  obtain ⟨final, hrun, hseen⟩ := Option.map_eq_some_iff.mp hfinal
  simp only [Prod.mk.injEq] at hseen
  obtain ⟨hlength, hfirst, hsecond⟩ := hseen
  have hslots : SlotsUpTo 2 1 final.nodes := by
    intro i hi
    interval_cases i
    · exact hfirst.le
    · exact hsecond.le.trans zero_le_one
  refine ⟨final, hrun, hlength, fun index hindex => ?_⟩
  exact delivery_handled { config := twoNodes .basic } (by decide) 1 (by decide) _ final hrun
    (by simp [Action.calls]) hslots index (hlength ▸ hindex) [] {} (final.appEnds_nothing index)

end Runs

end NDNPaxos
