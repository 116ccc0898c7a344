import NDNPaxos.Agreement
import Mathlib.Tactic

/-!
# Every node learns every decision

The end of CHOOSE sends a DECIDE or a TEACH to every node.  Handling one of
them either fills the slot or asks the proposer with a LEARN, and the proposer
knows the value by then, so its TEACH follows.  A packet that brings a value to
a node is thus used up only when the node knows the value or another packet
that brings it is in flight.
-/

namespace NDNPaxos

def Packet.Brings (packet : Packet) (j slot : ℕ) : Prop :=
  match packet.msg with
  | .decide msg => packet.dst = j ∧ msg.msgHeader.slotId = slot
  | .teach msg => packet.dst = j ∧ msg.msgHeader.slotId = slot
  | .learn msg => msg.msgHeader.nodeId = j ∧ msg.msgHeader.slotId = slot
  | _ => False

def SendsTo (outs : List Output) (j slot : ℕ) : Prop :=
  ∃ packet, .send packet ∈ outs ∧ packet.Brings j slot

/-- Whoever retires a proposer sends the decision to everybody. -/
def Announced (size : ℕ) (outs : List Output) : Prop :=
  ∀ slot value init, .note (.chose slot value init) ∈ outs → ∀ j < size, SendsTo outs j slot

namespace Captain

def Knows (captain : Captain) (slot : ℕ) : Prop := (captain.chosenAt slot).isSome

variable {captain final : Captain} {setting : Setting} {outs : List Output}

/-! ## What moves tell about decisions -/

/-- A slot move is one of the learner, announces a value that is known, or has
nothing to do with learning. -/
theorem SlotMove.learner_cases (hmove : SlotMove setting captain outs final) :
    LearnerMove setting captain outs final ∨
      (∃ slot info value stored, captain.proposers[slot]? = some info ∧
        info.proposerStatus = .chosen ∧ info.currProposer.currValue = some value ∧
        captain.chosenAt slot = some stored ∧ setting.retires slot info ∧
        outs = captain.announce slot value ∧ final = captain) ∨
      (∀ slot, final.chosenAt slot = captain.chosenAt slot) ∧
        ∀ out ∈ outs, out.kind ≠ .learner := by
  cases hmove with
  | base hmove =>
      cases hmove with
      | forwarding hmove =>
          rw [hmove.spec.1]
          exact .inr (.inr ⟨fun _ => rfl, fun out hmem => by simp [hmove.spec.2 out hmem]⟩)
      | acceptor hmove =>
          rw [hmove.spec.1]
          exact .inr (.inr ⟨fun _ => rfl, fun out hmem => by simp [hmove.spec.2 out hmem]⟩)
      | proposer hmove =>
          rw [hmove.spec.1]
          exact .inr (.inr ⟨fun _ => rfl, fun out hmem => by simp [hmove.spec.2.2 out hmem]⟩)
      | learner hmove => exact .inl hmove
  | queue hframe hkind =>
      rw [hframe]
      exact .inr (.inr ⟨fun _ => rfl, fun out hmem => by simp [hkind out hmem]⟩)
  | @opens value name tryTime skipPhaseI hskip =>
      refine .inr (.inr ⟨?_, ?_⟩)
      · intro slot
        rw [openSlot_eq]
        rfl
      · intro out hmem
        rcases kind_of_mem_openSlot hmem with hkind | hkind <;> simp [hkind]
  | @announce slot info value stored hinfo hstatus hvalue hstored hretires =>
      exact .inr (.inl ⟨slot, info, value, stored, hinfo, hstatus, hvalue, hstored, hretires,
        rfl, rfl⟩)
  | close hinfo hstatus hvalue =>
      exact .inr (.inr ⟨fun _ => rfl, fun out hmem => by
        simp [List.mem_singleton.mp hmem, Output.kind, Event.kind]⟩)

theorem SlotMove.knows (hshape : LogShape captain)
    (hmove : SlotMove setting captain outs final) {slot : ℕ} (hknows : captain.Knows slot) :
    final.Knows slot := by
  rcases hmove.learner_cases with hlearner | ⟨_, _, _, _, _, _, _, _, _, _, rfl⟩ | ⟨hsame, _⟩
  · cases hlearner with
    | tell hinfo hstatus hvalue hown hretires => exact hknows
    | learn hlearn hadd =>
        rcases addChosenValue_learned hshape hadd with ⟨_, _, hchosenAt, _⟩
        rw [Knows, hchosenAt slot, Option.isSome_or, hknows, Bool.true_or]
    | teach hreceived hstored hteach hsend => exact hknows
    | inquire hreceived => exact hknows
  · exact hknows
  · rw [Knows, hsame slot]
    exact hknows

/-- The messages of the learner: a TEACH, a DECIDE of what is known, and a LEARN
that answers a DECIDE. -/
inductive LearnerMessage (setting : Setting) (captain : Captain) (dst : ℕ) : Message → Prop where
  | teach (msg : MsgTeach) : LearnerMessage setting captain dst (.teach msg)
  | decide {slot : ℕ} (valueId : ℕ) (hknows : captain.Knows slot) :
      LearnerMessage setting captain dst (captain.msgDecide slot valueId)
  | learn {msg : MsgDecide} (hreceived : setting.received (.decide msg))
      (hdst : toNodeId msg.msgHeader.nodeId = dst) :
      LearnerMessage setting captain dst
        (.learn { msgHeader := { nodeId := captain.whoami, slotId := msg.msgHeader.slotId } })

theorem SlotMove.learnerMessage (hshape : LogShape captain)
    (hmove : SlotMove setting captain outs final) {dst : ℕ} {msg : Message}
    (hsends : Sends outs dst msg) (hkind : msg.kind = .learner) :
    LearnerMessage setting captain dst msg := by
  rcases hsends with ⟨packet, hmem, hdst, rfl⟩
  rcases hmove.learner_cases with hlearner |
    ⟨slot, info, value, stored, _, _, _, hstored, _, rfl, _⟩ | ⟨_, hkinds⟩
  · cases hlearner with
    | tell hinfo hstatus hvalue hown hretires => split at hmem <;> simp at hmem
    | learn hlearn hadd =>
        rcases addChosenValue_learned hshape hadd with ⟨_, _, _, delivered, rfl⟩
        have hclient : packet.msg.kind = .client := kind_of_mem_deliveryEvents hmem
        simp [hkind] at hclient
    | teach hreceived hstored hteach hsend =>
        rcases answerLearn_msg hteach with ⟨teach, rfl, _⟩
        rw [sendInterest_eq_some hsend, List.mem_singleton, Output.send.injEq] at hmem
        rw [hmem]
        exact .teach teach
    | inquire hreceived =>
        rw [sendData, List.mem_singleton, Output.send.injEq] at hmem
        subst hmem
        exact .learn hreceived hdst
  · rcases mem_announce hmem with ⟨packet', heq, hmsg⟩
    rw [Output.send.injEq] at heq
    rw [heq]
    rcases hmsg with hmsg | hmsg
    · rw [hmsg]
      exact .decide value.id (by simp [Knows, hstored])
    · rw [hmsg]
      exact .teach _
  · exact absurd hkind (hkinds _ hmem)

end Captain

/-! ## Who knows what was reported -/

/-- Who has sent a DECIDE knows the slot, and so does who is sent a LEARN. -/
structure Informed (size : ℕ) (nodes : ℕ → Node) : Prop where
  decide : ∀ i < size, ∀ dst msg, Sends (nodes i).log dst (.decide msg) →
    msg.msgHeader.nodeId = i ∧ (nodes i).captain.Knows msg.msgHeader.slotId
  learn : ∀ i < size, ∀ dst msg, Sends (nodes i).log dst (.learn msg) →
    msg.msgHeader.nodeId = i ∧ dst < size ∧ (nodes dst).captain.Knows msg.msgHeader.slotId

theorem informed_initial (deployment : Deployment) :
    Informed deployment.config.size deployment.node where
  decide := fun _ _ _ _ hsends => absurd hsends Captain.not_sends_nil
  learn := fun _ _ _ _ hsends => absurd hsends Captain.not_sends_nil

theorem knows_actOn {nodes : ℕ → Node} {i j slot : ℕ} {final : Captain} {outs : List Output}
    (hgrow : (nodes i).captain.Knows slot → final.Knows slot)
    (hknows : (nodes j).captain.Knows slot) :
    (actOn nodes i (final, outs) j).captain.Knows slot := by
  by_cases heq : j = i
  · subst heq
    simpa [Node.after] using hgrow hknows
  · simpa [actOn_ne nodes heq] using hknows

theorem sends_actOn {nodes : ℕ → Node} {i j dst : ℕ} {msg : Message} {final : Captain}
    {outs : List Output} (hsends : Sends (actOn nodes i (final, outs) j).log dst msg) :
    Sends (nodes j).log dst msg ∨ j = i ∧ Sends outs dst msg := by
  rcases hsends with ⟨packet, hmem, hpacket⟩
  rcases mem_log_actOn.mp hmem with hold | ⟨heq, hnew⟩
  · exact .inl ⟨packet, hold, hpacket⟩
  · exact .inr ⟨heq, packet, hnew, hpacket⟩

theorem informed_preserved {deployment : Deployment} (condition : StepCondition) :
    PreservedBySlotMoves deployment condition (Informed deployment.config.size) := by
  intro nodes i setting outs final hi hkeeps hallows hinformed hmove
  have hshape := (hkeeps.wellKept i hi).shape
  have hwhoami := hkeeps.whoami hi
  have hgrow : ∀ {j slot : ℕ}, (nodes j).captain.Knows slot →
      (actOn nodes i (final, outs) j).captain.Knows slot :=
    fun hknows => knows_actOn (hmove.knows hshape) hknows
  constructor
  · intro j hj dst msg hsends
    rcases sends_actOn hsends with hold | ⟨rfl, hnew⟩
    · rcases hinformed.decide j hj dst msg hold with ⟨hnode, hknows⟩
      exact ⟨hnode, hgrow hknows⟩
    · cases hmove.learnerMessage hshape hnew rfl with
      | decide valueId hknows => exact ⟨hwhoami, hgrow hknows⟩
  · intro j hj dst msg hsends
    rcases sends_actOn hsends with hold | ⟨rfl, hnew⟩
    · rcases hinformed.learn j hj dst msg hold with ⟨hnode, hdst, hknows⟩
      exact ⟨hnode, hdst, hgrow hknows⟩
    · cases hmove.learnerMessage hshape hnew rfl with
      | @learn decide hreceived hdst =>
          -- The DECIDE came from the node that the LEARN goes to.
          rcases hallows.received _ hreceived with ⟨k, hk, hsent⟩
          rcases hinformed.decide k hk j decide hsent with ⟨hnode, hknows⟩
          have hsize := deployment.config.size_le
          rw [hnode, toNodeId_of_lt (by omega)] at hdst
          subst hdst
          exact ⟨hwhoami, hk, hgrow hknows⟩

/-! ## Every packet is used up for something -/

namespace Captain

variable {captain final : Captain} {setting : Setting} {outs : List Output}

theorem broadcastMsg_covers (msg : Message) {start stop j : ℕ}
    (hone : captain.view.nodesSize = 1 → j = captain.whoami)
    (hrange : broadcastRange captain.view msg = (start, stop)) (hstart : start ≤ j)
    (hstop : j < stop) :
    ∃ packet, .send packet ∈ captain.broadcastMsg msg ∧ packet.dst = j ∧ packet.msg = msg := by
  unfold broadcastMsg
  split
  next hsize => exact ⟨_, List.mem_singleton_self _, (hone hsize).symm, rfl⟩
  next =>
    rw [hrange]
    refine ⟨_, List.mem_map.mpr ⟨j, ?_, rfl⟩, rfl, rfl⟩
    rw [List.mem_range'_1]
    omega

/-- The ranges of DECIDE and TEACH leave no gap. -/
theorem announce_covers (hwhoami : captain.whoami < captain.view.nodesSize) (slot : ℕ)
    (value : PropValue) {j : ℕ} (hj : j < captain.view.nodesSize) :
    SendsTo (captain.announce slot value) j slot := by
  have hone : captain.view.nodesSize = 1 → j = captain.whoami := by omega
  have hdecide : ∀ packet : Packet, packet.dst = j → packet.msg = captain.msgDecide slot value.id →
      packet.Brings j slot := by
    intro packet hdst hmsg
    rw [Packet.Brings, hmsg]
    exact ⟨hdst, rfl⟩
  have hteach : ∀ packet : Packet, packet.dst = j → packet.msg = captain.msgTeach slot →
      packet.Brings j slot := by
    intro packet hdst hmsg
    rw [Packet.Brings, hmsg]
    exact ⟨hdst, rfl⟩
  by_cases hfixed : captain.mode = .multi ∨ captain.mode = .quorum
  · have hview : captain.view.mode = .multi ∨ captain.view.mode = .quorum := hfixed
    rw [announce, if_pos hfixed]
    by_cases hquorum : j < captain.view.quorumSize
    · have hrange : broadcastRange captain.view (captain.msgDecide slot value.id) =
          (0, captain.view.quorumSize) := by
        simp [broadcastRange, hview, msgDecide]
      rcases broadcastMsg_covers _ hone hrange (Nat.zero_le j) hquorum with
        ⟨packet, hmem, hdst, hmsg⟩
      exact ⟨packet, List.mem_append_left _ hmem, hdecide packet hdst hmsg⟩
    · have hrange : broadcastRange captain.view (captain.msgTeach slot) =
          (captain.view.quorumSize, captain.view.nodesSize) := by
        simp [broadcastRange, hview, msgTeach]
      rcases broadcastMsg_covers _ hone hrange (Nat.le_of_not_lt hquorum) hj with
        ⟨packet, hmem, hdst, hmsg⟩
      exact ⟨packet, List.mem_append_right _ hmem, hteach packet hdst hmsg⟩
  · have hrange : broadcastRange captain.view (captain.msgDecide slot value.id) =
        (0, captain.view.nodesSize) := if_neg hfixed
    rw [announce, if_neg hfixed, List.append_nil]
    rcases broadcastMsg_covers _ hone hrange (Nat.zero_le j) hj with ⟨packet, hmem, hdst, hmsg⟩
    exact ⟨packet, hmem, hdecide packet hdst hmsg⟩

theorem handleDecide_progress {msg : MsgDecide} (hshape : LogShape captain)
    (hhandle : captain.handleDecide msg = some (final, outs)) :
    final.Knows msg.msgHeader.slotId ∨
      SendsTo outs captain.whoami msg.msgHeader.slotId := by
  simp only [handleDecide] at hhandle
  split at hhandle
  next hknown =>
    rw [Option.some.injEq, Prod.mk.injEq] at hhandle
    rcases hhandle with ⟨rfl, rfl⟩
    exact .inl hknown.2
  next =>
    simp only [Option.bind_eq_bind, Option.bind_eq_some_iff] at hhandle
    rcases hhandle with ⟨stored, _, hrest⟩
    cases stored with
    | some value =>
        left
        rcases addChosenValue_learned hshape hrest with ⟨_, _, hchosenAt, _⟩
        simp [Knows, hchosenAt]
    | none =>
        right
        simp only [pure, Option.some.injEq, Prod.mk.injEq] at hrest
        rcases hrest with ⟨rfl, rfl⟩
        exact ⟨_, List.mem_singleton_self _, rfl, rfl⟩

theorem handleTeach_progress {msg : MsgTeach} (hshape : LogShape captain)
    (hhandle : captain.handleTeach msg = some (final, outs)) :
    final.Knows msg.msgHeader.slotId := by
  simp only [handleTeach] at hhandle
  split at hhandle
  next hknown =>
    rw [Option.some.injEq, Prod.mk.injEq] at hhandle
    rcases hhandle with ⟨rfl, rfl⟩
    exact hknown.2
  next =>
    rcases addChosenValue_learned hshape hhandle with ⟨_, _, hchosenAt, _⟩
    simp [Knows, hchosenAt]

theorem handleLearn_progress {msg : MsgLearn} (hshape : LogShape captain)
    (hknows : captain.Knows msg.msgHeader.slotId) (hnode : msg.msgHeader.nodeId < 2 ^ 16)
    (hhandle : captain.handleLearn msg = some (final, outs)) :
    SendsTo outs msg.msgHeader.nodeId msg.msgHeader.slotId := by
  simp only [handleLearn] at hhandle
  split at hhandle
  next hunknown =>
    rcases hunknown with hlt | hnone
    · rw [Knows, chosenAt_eq_none_of_lt hshape hlt] at hknows
      simp at hknows
    · rw [Knows, Option.isSome_iff_ne_none] at hknows
      exact absurd (Option.isNone_iff_eq_none.mp hnone) hknows
  next =>
    simp only [Option.bind_eq_bind, Option.bind_eq_some_iff, pure, Option.some.injEq,
      Prod.mk.injEq] at hhandle
    rcases hhandle with ⟨teach, hteach, sent, hsend, _, rfl⟩
    rcases answerLearn_msg hteach with ⟨taught, rfl, hheader, _⟩
    rw [sendInterest_eq_some hsend]
    refine ⟨_, List.mem_singleton_self _, toNodeId_of_lt hnode, ?_⟩
    rw [hheader]

/-- The packet that brings the slot to a node is used up only when the node
knows the slot or another packet brings it. -/
theorem handleMsg_progress {packet : Packet} {dataName : Name} {app : AppCalls} {j slot : ℕ}
    (hshape : LogShape captain) (hwork : captain.work = true) (hj : j < 2 ^ 16)
    (hdst : packet.dst = captain.whoami) (hbrings : packet.Brings j slot)
    (hlearn : ∀ msg, packet.msg = .learn msg → captain.Knows msg.msgHeader.slotId)
    (hhandle : captain.handleMsg packet.msg dataName app = some (final, outs)) :
    captain.whoami = j ∧ final.Knows slot ∨ SendsTo outs j slot := by
  simp only [handleMsg, hwork, Bool.true_eq_false, if_false] at hhandle
  rw [Packet.Brings] at hbrings
  split at hbrings
  next msg hmsg =>
    rcases hbrings with ⟨rfl, rfl⟩
    rw [hdst] at hj ⊢
    rw [hmsg] at hhandle
    rcases handleDecide_progress hshape hhandle with hknows | hsends
    · exact .inl ⟨rfl, hknows⟩
    · exact .inr hsends
  next msg hmsg =>
    rcases hbrings with ⟨rfl, rfl⟩
    rw [hmsg] at hhandle
    exact .inl ⟨hdst.symm, handleTeach_progress hshape hhandle⟩
  next msg hmsg =>
    rcases hbrings with ⟨rfl, rfl⟩
    have hknows := hlearn msg hmsg
    rw [hmsg] at hhandle
    exact .inr (handleLearn_progress hshape hknows hj hhandle)
  next => exact absurd hbrings not_false

/-! ## Chains of moves -/

theorem Move.announced (hshape : LogShape captain)
    (hwhoami : captain.whoami < captain.view.nodesSize)
    (hmove : Move setting captain outs final) : Announced captain.view.nodesSize outs := by
  intro slot value init hmem j hj
  have hopening : ∀ {sent : List Output},
      (∀ out ∈ sent, out.kind = .opened ∨ out.kind = .proposer) →
        .note (.chose slot value init) ∉ sent := by
    intro sent hsent hmem
    rcases hsent _ hmem with hkind | hkind <;> simp [Output.kind, Event.kind] at hkind
  cases hmove with
  | base hmove => exact absurd rfl (hmove.kinds hshape hmem).2.2
  | commit hsource hstep =>
      rcases hstep.kinds with ⟨sent, rfl, hsent⟩
      rcases List.mem_cons.mp hmem with heq | hmem
      · simp at heq
      · exact absurd hmem (hopening hsent)
  | command hcall hmaster hid => simp at hmem
  | @finish slot' info value' stored outs final hinfo hstatus hvalue hstored hretires hstep =>
      rcases announce_covers hwhoami slot' value' hj with ⟨packet, hsent, hbrings⟩
      refine ⟨packet, List.mem_append_left _ hsent, ?_⟩
      rcases List.mem_append.mp hmem with hannounce | hfinish
      · rcases mem_announce hannounce with ⟨_, heq, _⟩
        simp at heq
      · rcases hstep.kinds with ⟨sent, rfl, hopened⟩
        rcases List.mem_cons.mp hfinish with heq | hmem
        · rw [Output.note.injEq, Event.chose.injEq] at heq
          rw [heq.1]
          exact hbrings
        · exact absurd hmem (hopening hopened)

/-- What a call or a handler does to the slots that are known, and whom it sends
its decisions to. -/
theorem announced_of_chain (hkept : captain.WellKept)
    (hwhoami : captain.whoami < captain.view.nodesSize)
    (hchain : OutputChain (Move setting) captain outs final) :
    (∀ slot, captain.Knows slot → final.Knows slot) ∧
      Announced captain.view.nodesSize outs := by
  induction hchain with
  | nil captain => exact ⟨fun _ hknows => hknows, fun _ _ _ hmem => by simp at hmem⟩
  | @cons captain next final outs outs' hmove hrest ih =>
      have hsame := hmove.sameNode hkept
      have hsize : next.view.nodesSize = captain.view.nodesSize := congrArg Config.size hsame.config
      have hnode : next.whoami = captain.whoami := hsame.nodeId
      rcases ih (hmove.wellKept hkept) (by rwa [hsize, hnode]) with ⟨hgrow, hannounced⟩
      constructor
      · intro slot hknows
        apply hgrow slot
        have hslots := hmove.slotMoves.preserves
          (fun captain => captain.WellKept ∧ captain.Knows slot)
          (fun _ _ _ hbefore hslot =>
            ⟨hslot.wellKept hbefore.1, hslot.knows hbefore.1.shape hbefore.2⟩) ⟨hkept, hknows⟩
        exact hslots.2
      · intro slot value init hmem j hj
        rcases List.mem_append.mp hmem with hfirst | hlater
        · rcases hmove.announced hkept.shape hwhoami slot value init hfirst j hj with
            ⟨packet, hsent, hbrings⟩
          exact ⟨packet, List.mem_append_left _ hsent, hbrings⟩
        · rcases hannounced slot value init hlater j (by rwa [hsize]) with
            ⟨packet, hsent, hbrings⟩
          exact ⟨packet, List.mem_append_right _ hsent, hbrings⟩

theorem SlotMove.work (hcalls : ¬ setting.calls .crash) (hshape : LogShape captain)
    (hmove : SlotMove setting captain outs final) : final.work = captain.work := by
  cases hmove with
  | base hmove =>
      cases hmove with
      | forwarding hmove =>
          cases hmove with
          | crash hcall => exact absurd hcall hcalls
          | forward hcall hmaster hid hsend => rfl
          | echo hreceived hmaster => rfl
          | reply hreceived hmaster => rfl
      | acceptor hmove => rw [hmove.spec.1]
      | proposer hmove => rw [hmove.spec.1]
      | learner hmove => rw [(hmove.spec hshape).1]
  | queue hframe hkind => rw [hframe]
  | opens value name tryTime hskip => rw [openSlot_eq]
  | announce hinfo hstatus hvalue hstored hretires => rfl
  | close hinfo hstatus hvalue => rfl

end Captain

/-! ## Runs without losses and crashes -/

def StepCondition.noCrash : StepCondition where
  calls := fun call => call ≠ .crash

/-- The node handles messages, and what was reported is known where it matters. -/
structure Responsive (size : ℕ) (nodes : ℕ → Node) : Prop where
  informed : Informed size nodes
  work : ∀ i < size, (nodes i).captain.work = true

theorem responsive_initial (deployment : Deployment) :
    Responsive deployment.config.size deployment.node where
  informed := informed_initial deployment
  work := fun _ _ => rfl

theorem responsive_preserved {deployment : Deployment} :
    PreservedBySlotMoves deployment .noCrash (Responsive deployment.config.size) := by
  intro nodes i setting outs final hi hkeeps hallows hresponsive hmove
  constructor
  · exact informed_preserved _ nodes i setting outs final hi hkeeps hallows
      hresponsive.informed hmove
  · refine forall_actOn (fun _ captain _ => captain.work = true) hresponsive.work ?_
    have hcalls : ¬ setting.calls .crash := fun hcall => hallows.calls _ hcall rfl
    exact (hmove.work hcalls (hkeeps.wellKept i hi).shape).trans (hresponsive.work i hi)

/-- A node knows every slot for which a proposer has retired, or a packet that
brings it is in flight. -/
def Covered (size : ℕ) (cluster : Cluster) : Prop :=
  ∀ i < size, ∀ slot value init, .note (.chose slot value init) ∈ (cluster.nodes i).log →
    ∀ j < size, (cluster.nodes j).captain.Knows slot ∨
      ∃ packet ∈ cluster.net, packet.Brings j slot

theorem Covered.act {size : ℕ} {cluster : Cluster} (hcovered : Covered size cluster) {i : ℕ}
    {net : List Packet} {final : Captain} {outs : List Output}
    (hgrow : ∀ slot, (cluster.nodes i).captain.Knows slot → final.Knows slot)
    (hannounced : Announced size outs)
    (hused : ∀ packet ∈ cluster.net, ∀ j < size, ∀ slot, packet.Brings j slot →
      packet ∈ net ∨ i = j ∧ final.Knows slot ∨ SendsTo outs j slot) :
    Covered size (cluster.act i net (final, outs)) := by
  have hsent : ∀ {j slot : ℕ}, SendsTo outs j slot →
      ∃ packet ∈ (cluster.act i net (final, outs)).net, packet.Brings j slot := by
    rintro j slot ⟨packet, hmem, hbrings⟩
    exact ⟨packet, List.mem_append_right _ (mem_packetsOf.mpr hmem), hbrings⟩
  intro k hk slot value init hmem j hj
  rcases mem_log_actOn.mp hmem with hold | ⟨_, hnew⟩
  · rcases hcovered k hk slot value init hold j hj with hknows | ⟨packet, hpacket, hbrings⟩
    · exact .inl (knows_actOn (hgrow slot) hknows)
    · rcases hused packet hpacket j hj slot hbrings with hkept | ⟨rfl, hknows⟩ | hsends
      · exact .inr ⟨packet, List.mem_append_left _ hkept, hbrings⟩
      · exact .inl (by simpa [Cluster.act, Node.after] using hknows)
      · exact .inr (hsent hsends)
  · exact .inr (hsent (hannounced slot value init hnew j hj))

theorem eq_or_mem_eraseIdx {α : Type*} {list : List α} {index : ℕ} {item found : α}
    (hmem : item ∈ list) (hfound : list[index]? = some found) :
    item = found ∨ item ∈ list.eraseIdx index := by
  rcases List.mem_iff_getElem?.mp hmem with ⟨place, hplace⟩
  by_cases heq : place = index
  · subst heq
    rw [hplace, Option.some.injEq] at hfound
    exact .inl hfound
  · exact .inr (List.mem_eraseIdx_iff_getElem?.mpr ⟨place, heq, hplace⟩)

theorem covered_step {deployment : Deployment} {cluster next : Cluster} {action : Action}
    (hlossless : ∀ index, action ≠ .lose index)
    (hreaches : Reaches deployment (Responsive deployment.config.size) cluster)
    (hcovered : Covered deployment.config.size cluster)
    (hstep : cluster.step deployment action = some next) :
    Covered deployment.config.size next := by
  rcases hreaches with ⟨hkeeps, hsent, hresponsive⟩
  have hnodes : ∀ {i : ℕ}, i < deployment.config.size →
      (cluster.nodes i).captain.view.nodesSize = deployment.config.size :=
    fun hi => congrArg Config.size (hkeeps.config _ hi)
  cases action with
  | call i call =>
      rcases Cluster.step_call hstep with ⟨hi, final, outs, hcall, rfl⟩
      have hchain : OutputChain (Captain.Move {}) _ outs final :=
        Captain.call_moves trivial hcall
      rcases Captain.announced_of_chain (hkeeps.wellKept i hi)
        (by rwa [hkeeps.whoami hi, hnodes hi]) hchain with ⟨hgrow, hannounced⟩
      rw [hnodes hi] at hannounced
      exact hcovered.act hgrow hannounced fun packet hmem _ _ _ _ => .inl hmem
  | deliver index dataName app =>
      rcases Cluster.step_deliver hstep with ⟨packet, hpacket, hi, final, outs, hhandle, rfl⟩
      let setting : Captain.Setting :=
        { dataName := Cluster.arrivalName (cluster.nodes packet.dst).captain packet dataName }
      have hkept := hkeeps.wellKept packet.dst hi
      have hchain : OutputChain (Captain.Move setting) _ outs final :=
        Captain.handleMsg_moves hkept trivial (fun _ _ _ => trivial) (fun _ _ => trivial) hhandle
      rcases Captain.announced_of_chain hkept
        (by rwa [hkeeps.whoami hi, hnodes hi]) hchain with ⟨hgrow, hannounced⟩
      rw [hnodes hi] at hannounced
      refine hcovered.act hgrow hannounced ?_
      intro other hmem j hj slot hbrings
      rcases eq_or_mem_eraseIdx hmem hpacket with rfl | hrest
      · have hlearn : ∀ msg, other.msg = .learn msg →
            (cluster.nodes other.dst).captain.Knows msg.msgHeader.slotId := by
          intro msg hmsg
          rcases hsent other hmem with ⟨k, hk, hlog⟩
          exact (hresponsive.informed.learn k hk other.dst msg ⟨other, hlog, rfl, hmsg⟩).2.2
        have hwhoami := hkeeps.whoami hi
        have hprogress := Captain.handleMsg_progress hkept.shape
          (hresponsive.work other.dst hi) (hj.trans_le deployment.config.size_le)
          hwhoami.symm hbrings hlearn hhandle
        rw [hwhoami] at hprogress
        exact .inr hprogress
      · exact .inl hrest
  | lose index => exact absurd rfl (hlossless index)
  | duplicate index =>
      rcases Cluster.step_duplicate hstep with ⟨packet, _, rfl⟩
      intro i hi slot value init hmem j hj
      rcases hcovered i hi slot value init hmem j hj with hknows | ⟨other, hother, hbrings⟩
      · exact .inl hknows
      · exact .inr ⟨other, List.mem_append_left _ hother, hbrings⟩

/-- No packet is lost and no node crashes. -/
def Lossless (actions : List Action) : Prop :=
  ∀ action ∈ actions, (∀ index, action ≠ .lose index) ∧ .crash ∉ action.calls

theorem covered_of_run {deployment : Deployment} {actions : List Action} {final : Cluster}
    (hlossless : Lossless actions) (hrun : deployment.run actions = some final) :
    Covered deployment.config.size final := by
  have hmeets : deployment.machine.RunMeets
      (fun cluster action => StepCondition.noCrash.Holds cluster action ∧
        ∀ index, action ≠ .lose index) deployment.initial actions := by
    apply PartialMachine.runMeets_of_forall
    intro action hmem cluster
    rcases hlossless action hmem with ⟨hdelivers, hworks⟩
    have hcalls : ∀ call ∈ action.calls, call ≠ .crash :=
      fun call hcall heq => hworks (heq ▸ hcall)
    refine ⟨?_, hdelivers⟩
    cases action with
    | call i made => exact hcalls made (List.mem_singleton_self made)
    | deliver index dataName app => exact fun _ _ => ⟨hcalls, fun _ _ _ => trivial⟩
    | lose index => trivial
    | duplicate index => trivial
  have hstart : Reaches deployment (Responsive deployment.config.size) deployment.initial ∧
      Covered deployment.config.size deployment.initial := by
    refine ⟨⟨deployment.keeps_initial, fun packet hmem => absurd hmem List.not_mem_nil,
      responsive_initial deployment⟩, ?_⟩
    intro i hi slot value init hmem
    simp [Deployment.initial, Deployment.node] at hmem
  refine (PartialMachine.invariant_of_runMeets
    (fun cluster => Reaches deployment (Responsive deployment.config.size) cluster ∧
      Covered deployment.config.size cluster) ?_ hstart hmeets hrun).2
  rintro cluster action next ⟨hholds, hdelivers⟩ ⟨hreaches, hcovered⟩ hstep
  exact ⟨hreaches.step responsive_preserved.moves hholds hstep,
    covered_step hdelivers hreaches hcovered hstep⟩

/-- Without losses and crashes, every node stores the decision of a retired
proposer or a packet that brings it is in flight; once nothing is in flight,
all nodes store the same decision. -/
theorem decisions_learned (deployment : Deployment)
    (hmode : deployment.config.mode = .basic ∨ deployment.config.mode = .quorum)
    (actions : List Action) (final : Cluster) (hrun : deployment.run actions = some final)
    (hlossless : Lossless actions) (slot : ℕ) (value : PropValue)
    (hchose : ∃ i < deployment.config.size, ∃ init,
      .note (.chose slot value init) ∈ (final.nodes i).log) :
    (∀ j < deployment.config.size, ((final.nodes j).captain.chosenAt slot).isSome ∨
      ∃ packet ∈ final.net, packet.Brings j slot) ∧
    (final.net = [] → ∀ j < deployment.config.size,
      ∃ stored, (final.nodes j).captain.chosenAt slot = some stored ∧ stored.id = value.id ∧
        (IdsIdentify deployment.config.size final.nodes → stored = value)) := by
  rcases hchose with ⟨i, hi, init, hmem⟩
  have hcovered := covered_of_run hlossless hrun i hi slot value init hmem
  refine ⟨hcovered, ?_⟩
  intro hempty j hj
  have hknows : ((final.nodes j).captain.chosenAt slot).isSome := by
    rcases hcovered j hj with hknows | ⟨packet, hpacket, _⟩
    · exact hknows
    · rw [hempty] at hpacket
      exact absurd hpacket List.not_mem_nil
  rcases Option.isSome_iff_exists.mp hknows with ⟨stored, hstored⟩
  have hdecided : Decided deployment.config.size final.nodes slot stored := ⟨j, hj, .inr hstored⟩
  rcases hdecided.same hmode hrun ⟨i, hi, .inl ⟨init, hmem⟩⟩ with ⟨hid, hsame, _⟩
  exact ⟨stored, hstored, hid, hsame⟩

theorem decisions_learned_twoNodes :
    ∃ final, Deployment.run { config := twoNodes .basic }
        (.call 1 (.commit { id := 65537 } (some [[1]])) :: List.replicate 10 (.deliver 0 [] {})) =
          some final ∧
      final.net = [] ∧ ∀ j < 2, ∃ stored,
        (final.nodes j).captain.chosenAt 1 = some stored ∧ stored.id = 65537 := by
  have hfinal : (Deployment.run { config := twoNodes .basic }
      (.call 1 (.commit { id := 65537 } (some [[1]])) :: List.replicate 10 (.deliver 0 [] {}))).map
        (fun final => (final.net.length, (final.nodes 1).log.contains
          (.note (.chose 1 { id := 65537 } { id := 65537 })))) =
      some (0, true) := by
    decide
  rcases Option.map_eq_some_iff.mp hfinal with ⟨final, hrun, hfinal⟩
  rw [Prod.mk.injEq, List.length_eq_zero_iff] at hfinal
  have hlearned := decisions_learned { config := twoNodes .basic } (.inl rfl) _ final hrun
    (by simp [Lossless, Action.calls]) 1 { id := 65537 }
    ⟨1, by decide, { id := 65537 }, List.contains_iff_mem.mp hfinal.2⟩
  refine ⟨final, hrun, hfinal.1, ?_⟩
  intro j hj
  rcases hlearned.2 hfinal.1 j hj with ⟨stored, hstored, hid, _⟩
  exact ⟨stored, hstored, hid⟩

end NDNPaxos
