import NDNPaxos.LearnedValues
import NDNPaxos.Zfec
import Mathlib.Tactic

/-!
# The master of every node

`add_callback` changes the master when it delivers a SET_MASTER value.  In the
Reed-Solomon build the messages that carry a value to another node are made
field by field and never set `cmd_type`, so only the node that got CHOOSE for
a SET_MASTER value delivers it as a command.  As long as no such value names
another node than the configured master, all nodes keep this master.
-/

namespace NDNPaxos

/-- The value is no SET_MASTER command or names the configured master. -/
def PropValue.NamesMaster (config : Config) (value : PropValue) : Prop :=
  value.cmdType = some .setMaster → toNodeId value.id = config.masterId

instance decidableNamesMaster (config : Config) (value : PropValue) :
    Decidable (value.NamesMaster config) :=
  inferInstanceAs (Decidable (value.cmdType = some .setMaster → _))

theorem PropValue.namesMaster_of_untyped (config : Config) {value : PropValue}
    (huntyped : value.cmdType = none) : value.NamesMaster config := by
  intro hcommand
  rw [huntyped] at hcommand
  simp at hcommand

def Message.Untyped : Message → Prop
  | .accept msg => msg.propValue.cmdType = none
  | .teach msg => msg.propValue.cmdType = none
  | _ => True

namespace Captain

variable {config : Config} {setting : Setting} {captain final : Captain}
  {log outs : List Output}

/-! ## Messages without a command type -/

theorem untyped_of_kind {msg : Message} (hproposer : msg.kind ≠ .proposer)
    (hlearner : msg.kind ≠ .learner) : msg.Untyped := by
  cases msg with
  | accept msg => exact absurd rfl hproposer
  | teach msg => exact absurd rfl hlearner
  | _ => trivial

theorem untyped_enterPhaseII {slot : ℕ} {info : ProposerInfo} (hmode : captain.mode = .rs)
    (henter : captain.enterPhaseII slot info = some (final, outs)) :
    ∀ dst msg, Sends outs dst msg → msg.Untyped := by
  rw [enterPhaseII, if_pos hmode] at henter
  simp only [Option.bind_eq_bind, Option.bind_eq_some_iff, Prod.exists, pure,
    Option.some.injEq, Prod.mk.injEq] at henter
  rcases henter with ⟨msgs, proposer, haccept, _, rfl⟩
  simp only [Proposer.rsMsgAccept, Option.bind_eq_bind, Option.bind_eq_some_iff, pure,
    Option.some.injEq, Prod.mk.injEq] at haccept
  rcases haccept with ⟨filled, _, msgs', hmsgs, rfl, _⟩
  intro dst msg hsends
  rcases hsends with ⟨packet, hmem, _, rfl⟩
  rcases List.mem_map.mp hmem with ⟨⟨accept, i⟩, hzip, heq⟩
  rcases mem_of_mapM_eq_some hmsgs (List.fst_mem_of_mem_zipIdx hzip) with ⟨j, _, hshard⟩
  simp only [Option.bind_eq_some_iff, Option.some.injEq] at hshard
  rcases hshard with ⟨shard, _, rfl⟩
  rw [Output.send.injEq] at heq
  rw [← heq]
  rfl

theorem untyped_answerLearn {slot nodeId : ℕ} {teach : Message} (hmode : captain.mode = .rs)
    (hteach : captain.answerLearn slot nodeId = some teach) : teach.Untyped := by
  rw [answerLearn, if_pos hmode] at hteach
  simp only [rsMsgTeach, Option.bind_eq_bind, Option.bind_eq_some_iff, Prod.exists, pure,
    Option.some.injEq] at hteach
  rcases hteach with ⟨blocks, encoder, _, shard, _, rfl⟩
  rfl

theorem ProposerMove.untyped (hmode : captain.mode = .rs)
    (hmove : ProposerMove setting captain outs final) :
    ∀ dst msg, Sends outs dst msg → msg.Untyped := by
  have hprepare : ∀ prepare dst msg,
      Sends (captain.broadcastMsg (.prepare prepare)) dst msg → msg.Untyped := by
    intro prepare dst msg hsends
    rw [sends_broadcastMsg hsends]
    trivial
  cases hmove with
  | promised hreceived hinfo hstatus hack hstays =>
      exact fun dst msg hsends => absurd hsends not_sends_nil
  | promiseRestart hreceived hinfo hstatus hack => exact hprepare _
  | continued hreceived hinfo hstatus hack henter => exact untyped_enterPhaseII hmode henter
  | acked hreceived hinfo hstatus hack hstays =>
      exact fun dst msg hsends => absurd hsends not_sends_nil
  | ackRestart hreceived hinfo hstatus hack => exact hprepare _
  | chosen hreceived hinfo hstatus hack =>
      exact fun dst msg hsends => absurd hsends not_sends_nil

theorem LearnerMove.untyped (hmode : captain.mode = .rs) (hshape : LogShape captain)
    (hmove : LearnerMove setting captain outs final) :
    ∀ dst msg, Sends outs dst msg → msg.Untyped := by
  cases hmove with
  | tell hinfo hstatus hvalue hown hretires =>
      intro dst msg hsends
      rcases hsends with ⟨packet, hmem, _, _⟩
      rcases List.mem_cons.mp hmem with heq | hlatency
      · simp at heq
      · split at hlatency <;> simp at hlatency
  | learn hlearn hadd =>
      rcases addChosenValue_learned hshape hadd with ⟨_, _, _, delivered, rfl⟩
      intro dst msg hsends
      rcases hsends with ⟨packet, hmem, _, rfl⟩
      have hkind : packet.msg.kind = .client := kind_of_mem_deliveryEvents hmem
      apply untyped_of_kind <;> simp [hkind]
  | teach hreceived hstored hteach hsend =>
      intro dst msg hsends
      rcases hsends with ⟨packet, hmem, _, rfl⟩
      rw [sendInterest_eq_some hsend, List.mem_singleton, Output.send.injEq] at hmem
      rw [hmem]
      exact untyped_answerLearn hmode hteach
  | inquire hreceived =>
      intro dst msg hsends
      rcases hsends with ⟨packet, hmem, _, rfl⟩
      rw [sendData, List.mem_singleton, Output.send.injEq] at hmem
      rw [hmem]
      trivial

theorem SlotMove.untyped (hmode : captain.mode = .rs) (hshape : LogShape captain)
    (hmove : SlotMove setting captain outs final) :
    ∀ dst msg, Sends outs dst msg → msg.Untyped := by
  have hquiet : ∀ {outs : List Output},
      (∀ out ∈ outs, out.kind ≠ .proposer ∧ out.kind ≠ .learner) →
        ∀ dst msg, Sends outs dst msg → msg.Untyped := by
    intro outs hkinds dst msg hsends
    rcases hsends with ⟨packet, hmem, _, rfl⟩
    exact untyped_of_kind (hkinds _ hmem).1 (hkinds _ hmem).2
  cases hmove with
  | base hmove =>
      cases hmove with
      | forwarding hmove => exact hquiet fun out hmem => by simp [hmove.spec.2 out hmem]
      | acceptor hmove => exact hquiet fun out hmem => by simp [hmove.spec.2 out hmem]
      | proposer hmove => exact hmove.untyped hmode
      | learner hmove => exact hmove.untyped hmode hshape
  | queue hframe hkind => exact hquiet fun out hmem => by simp [hkind out hmem]
  | @opens value name tryTime skipPhaseI hskip =>
      intro dst msg hsends
      rw [sends_openSlot hsends]
      cases skipPhaseI with
      | false => trivial
      | true =>
          rw [(hskip rfl).1] at hmode
          simp at hmode
  | announce hinfo hstatus hvalue hstored hretires =>
      have hnoTeach : ¬ (captain.mode = .multi ∨ captain.mode = .quorum) := by simp [hmode]
      rw [Captain.announce, if_neg hnoTeach, List.append_nil]
      intro dst msg hsends
      rw [sends_broadcastMsg hsends]
      trivial
  | close hinfo hstatus hvalue =>
      exact hquiet fun out hmem => by
        simp [List.mem_singleton.mp hmem, Output.kind, Event.kind]

/-! ## The master stays -/

/-- Whatever the node may deliver leaves it with the configured master. -/
structure MasterKept (config : Config) (captain : Captain) (log : List Output) : Prop where
  masterId : captain.view.masterId = config.masterId
  acceptors : ∀ slot value, (captain.acceptorOf slot).maxValue = some value →
    value.cmdType = none
  chosen : ∀ slot value, captain.chosenAt slot = some value → value.NamesMaster config
  sent : ∀ dst msg, Sends log dst msg → msg.Untyped

theorem addChosenValue_masterId (hshape : LogShape captain) {slot : ℕ} {value : PropValue}
    (hadd : captain.addChosenValue slot value = some (final, outs)) :
    ∃ count, final.view.masterId = masterAfter captain.view.masterId
      (deliveredFrom final.chosenAt captain.maxChosenWithoutHole count) := by
  have hslot : slot ≤ captain.maxChosen ∨ slot < 2 ^ 31 := by
    by_contra hneither
    rw [not_or] at hneither
    rw [addChosenValue, if_neg hneither.1, if_neg hneither.2] at hadd
    simp at hadd
  rcases addChosenValue_spec hshape hslot value with
    ⟨stored, final', outs', hstored, happlied, heq, _⟩
  rw [hadd, Option.some.injEq, Prod.mk.injEq] at heq
  rcases heq with ⟨rfl, rfl⟩
  have hsame : final.chosenAt = stored.chosenAt := by
    funext other
    rw [chosenAt, chosenAt, happlied.chosenValues]
  rw [happlied.masterId, hstored.masterId, hstored.hole, ← hsame]
  exact ⟨_, rfl⟩

namespace MasterKept

theorem initial (deployment : Deployment) (i : ℕ) :
    MasterKept deployment.config (deployment.node i).captain (deployment.node i).log where
  masterId := rfl
  acceptors := by
    intro slot value hvalue
    have hnew := (new_acceptorOf deployment.config i (deployment.windowSize i) slot).2
    change ((deployment.node i).captain.acceptorOf slot).maxValue = none at hnew
    rw [hnew] at hvalue
    simp at hvalue
  chosen := by
    intro slot value hvalue
    cases slot <;> simp [Deployment.node, Captain.new, Captain.chosenAt] at hvalue
  sent := fun dst msg hsends => absurd hsends not_sends_nil

theorem learn (hkept : MasterKept config captain log) (hshape : LogShape captain) {slot : ℕ}
    {value : PropValue} (hvalue : value.NamesMaster config)
    (hadd : captain.addChosenValue slot value = some (final, outs)) :
    final.view.masterId = config.masterId ∧
      ∀ other value, final.chosenAt other = some value → value.NamesMaster config := by
  have hchosen : ∀ other value, final.chosenAt other = some value →
      value.NamesMaster config := by
    intro other value' hother
    rcases learned_cases hshape hadd hother with hold | ⟨_, rfl⟩
    · exact hkept.chosen other value' hold
    · exact hvalue
  constructor
  · rcases addChosenValue_masterId hshape hadd with ⟨count, hmaster⟩
    rw [hmaster, hkept.masterId]
    apply masterAfter_eq_self
    intro entry hmem
    exact hchosen entry.1 entry.2 (mem_deliveredFrom hmem).2
  · exact hchosen

/-- A learned value is the proposer's own, which the condition covers, or has
come without its command type. -/
theorem learnable (hkept : MasterKept config captain log)
    (hretires : ∀ slot info, setting.retires slot info →
      ∀ value ∈ info.currProposer.currValue, value.NamesMaster config)
    (hreceived : ∀ msg, setting.received msg → msg.Untyped) {slot : ℕ} {value : PropValue}
    (hlearn : Learnable setting captain slot value) : value.NamesMaster config := by
  cases hlearn with
  | own hinfo hstatus hvalue hretired => exact hretires slot _ hretired value hvalue
  | decided hmsg hslot hvalue hid =>
      exact PropValue.namesMaster_of_untyped config (hkept.acceptors slot value hvalue)
  | taught hmsg hslot hvalue =>
      rw [← hvalue]
      exact PropValue.namesMaster_of_untyped config (hreceived _ hmsg)

theorem learnerMove (hkept : MasterKept config captain log) (hshape : LogShape captain)
    (hretires : ∀ slot info, setting.retires slot info →
      ∀ value ∈ info.currProposer.currValue, value.NamesMaster config)
    (hreceived : ∀ msg, setting.received msg → msg.Untyped)
    (hmove : LearnerMove setting captain outs final) :
    final.view.masterId = config.masterId ∧
      ∀ other value, final.chosenAt other = some value → value.NamesMaster config := by
  cases hmove with
  | tell hinfo hstatus hvalue hown hretires => exact ⟨hkept.masterId, hkept.chosen⟩
  | learn hlearn hadd =>
      exact hkept.learn hshape (hkept.learnable hretires hreceived hlearn) hadd
  | teach hmsg hstored hteach hsend => exact ⟨hkept.masterId, hkept.chosen⟩
  | inquire hmsg => exact ⟨hkept.masterId, hkept.chosen⟩

theorem acceptorMove (hkept : MasterKept config captain log)
    (hreceived : ∀ msg, setting.received msg → msg.Untyped)
    (hmove : AcceptorMove setting captain outs final) (slot : ℕ) (value : PropValue)
    (hvalue : (final.acceptorOf slot).maxValue = some value) : value.cmdType = none := by
  rcases hmove.maxValue_cases hvalue with hold | ⟨msg, hmsg, _, heq⟩
  · exact hkept.acceptors slot value hold
  · rw [← heq]
    exact hreceived _ hmsg

theorem slotMove (hkept : MasterKept config captain log) (hmode : captain.mode = .rs)
    (hshape : LogShape captain)
    (hretires : ∀ slot info, setting.retires slot info →
      ∀ value ∈ info.currProposer.currValue, value.NamesMaster config)
    (hreceived : ∀ msg, setting.received msg → msg.Untyped)
    (hmove : SlotMove setting captain outs final) : MasterKept config final (log ++ outs) := by
  have hsent : ∀ dst msg, Sends (log ++ outs) dst msg → msg.Untyped := by
    intro dst msg hsends
    rcases sends_append.mp hsends with hold | hnew
    · exact hkept.sent dst msg hold
    · exact hmove.untyped hmode hshape dst msg hnew
  cases hmove with
  | base hmove =>
      cases hmove with
      | forwarding hmove =>
          rw [hmove.spec.1]
          exact ⟨hkept.masterId, hkept.acceptors, hkept.chosen, hsent⟩
      | acceptor hmove =>
          have hacceptors := hkept.acceptorMove hreceived hmove
          rw [hmove.spec.1] at hacceptors ⊢
          exact ⟨hkept.masterId, hacceptors, hkept.chosen, hsent⟩
      | proposer hmove =>
          rw [hmove.spec.1]
          exact ⟨hkept.masterId, hkept.acceptors, hkept.chosen, hsent⟩
      | learner hmove =>
          rcases hkept.learnerMove hshape hretires hreceived hmove with ⟨hmaster, hchosen⟩
          have hacceptors : final.acceptors = captain.acceptors := by
            rw [(hmove.spec hshape).1]
          constructor
          · exact hmaster
          · intro slot value hvalue
            rw [acceptorOf_congr hacceptors] at hvalue
            exact hkept.acceptors slot value hvalue
          · exact hchosen
          · exact hsent
  | queue hframe hkind =>
      rw [hframe]
      exact ⟨hkept.masterId, hkept.acceptors, hkept.chosen, hsent⟩
  | opens value name tryTime hskip =>
      rw [openSlot_eq] at hsent ⊢
      exact ⟨hkept.masterId, hkept.acceptors, hkept.chosen, hsent⟩
  | announce hinfo hstatus hvalue hstored hretires =>
      exact ⟨hkept.masterId, hkept.acceptors, hkept.chosen, hsent⟩
  | close hinfo hstatus hvalue =>
      exact ⟨hkept.masterId, hkept.acceptors, hkept.chosen, hsent⟩

end MasterKept

end Captain

/-! ## All nodes agree on the master -/

/-- Nodes that have delivered the same slots have the same master. -/
def Cluster.MastersAgree (size : ℕ) (cluster : Cluster) : Prop :=
  ∀ i < size, ∀ j < size,
    (cluster.nodes i).captain.maxChosenWithoutHole =
      (cluster.nodes j).captain.maxChosenWithoutHole →
    (cluster.nodes i).captain.view.masterId = (cluster.nodes j).captain.view.masterId

/-- No node of a larger cluster gets CHOOSE for a SET_MASTER value that names
another node than the configured master. -/
def StepCondition.keepsMaster (config : Config) : StepCondition where
  retires := fun _ info =>
    1 < config.size → ∀ value ∈ info.currProposer.currValue, value.NamesMaster config

instance decidableKeepsMasterCalls (config : Config) :
    DecidablePred (StepCondition.keepsMaster config).calls :=
  fun _ => inferInstanceAs (Decidable True)

instance decidableKeepsMasterRetires (config : Config) (dataName : Name) :
    DecidablePred ((StepCondition.keepsMaster config).retires dataName) :=
  fun info => inferInstanceAs (Decidable (1 < config.size →
    ∀ value ∈ info.currProposer.currValue, value.NamesMaster config))

theorem masterKept_preserved {deployment : Deployment} (hmode : deployment.config.mode = .rs)
    (hmany : 1 < deployment.config.size) :
    PreservedBySlotMoves deployment (StepCondition.keepsMaster deployment.config) fun nodes =>
      ∀ i < deployment.config.size,
        Captain.MasterKept deployment.config (nodes i).captain (nodes i).log := by
  intro nodes i setting outs final hi hkeeps hallows hkept hmove
  apply forall_actOn (fun _ => Captain.MasterKept deployment.config) hkept
  apply (hkept i hi).slotMove ((hkeeps.mode hi).trans hmode) (hkeeps.wellKept i hi).shape
  · exact fun slot info hretired => hallows.retires slot info hretired hmany
  · intro msg hmsg
    rcases hallows.received msg hmsg with ⟨j, hj, hsends⟩
    exact (hkept j hj).sent i msg hsends
  · exact hmove

theorem mastersAgree (deployment : Deployment) (hmode : deployment.config.mode = .rs)
    (actions : List Action) (final : Cluster)
    (hmeets : deployment.machine.RunMeets
      (StepCondition.keepsMaster deployment.config).Holds deployment.initial actions)
    (hrun : deployment.run actions = some final) :
    final.MastersAgree deployment.config.size := by
  intro i hi j hj _
  by_cases hmany : 1 < deployment.config.size
  · have hinitial : ∀ i < deployment.config.size, Captain.MasterKept deployment.config
        (deployment.node i).captain (deployment.node i).log :=
      fun i _ => Captain.MasterKept.initial deployment i
    have hkept := (reaches_of_run (masterKept_preserved hmode hmany).moves hinitial hmeets
      hrun).invariant
    exact (hkept i hi).masterId.trans (hkept j hj).masterId.symm
  · have hi₀ : i = 0 := by omega
    have hj₀ : j = 0 := by omega
    rw [hi₀, hj₀]

/-- Node 0 proposes to remain the master. -/
theorem mastersAgree_twoNodes :
    ∃ final, Deployment.run { config := twoNodes .rs }
        (.call 0 (.commit { id := 65536, data := [1, 2], cmdType := some .setMaster } none) ::
          List.replicate 10 (.deliver 0 [] {})) = some final ∧
      (final.nodes 0).captain.maxChosenWithoutHole = 1 ∧
      (final.nodes 1).captain.maxChosenWithoutHole = 1 ∧
      (final.nodes 0).captain.view.masterId = (final.nodes 1).captain.view.masterId := by
  have hfinal : (Deployment.run { config := twoNodes .rs }
      (.call 0 (.commit { id := 65536, data := [1, 2], cmdType := some .setMaster } none) ::
        List.replicate 10 (.deliver 0 [] {}))).map
        (fun final => ((final.nodes 0).captain.maxChosenWithoutHole,
          (final.nodes 1).captain.maxChosenWithoutHole)) = some (1, 1) := by
    decide
  rcases Option.map_eq_some_iff.mp hfinal with ⟨final, hrun, hholes⟩
  rw [Prod.mk.injEq] at hholes
  have hagree := mastersAgree { config := twoNodes .rs } rfl _ final (by decide) hrun
  exact ⟨final, hrun, hholes.1, hholes.2,
    hagree 0 (by decide) 1 (by decide) (hholes.1.trans hholes.2.symm)⟩

/-- The SET_MASTER command of node 1 is chosen in slot 1 by nodes 1, 2 and 3, and
the DECIDE reaches node 2. -/
def commandChosen : List Action :=
  .call 1 (.masterChange { id := 196609, data := [1] }) :: deliveries [] [1, 3] ++
  .call 1 (.commit { id := 262145, data := [2] } none) ::
    deliveries [] [1, 1, 1, 1, 2, 4, 2, 2, 2, 2, 3, 6, 8, 3]

/-- Node 1 makes itself the master, and node 2 learns the value of its command
without the command type. -/
theorem mastersAgree_masterChange_counterexample :
    ∃ final, Deployment.run { config := (fourNodes .rs).withZfec } commandChosen = some final ∧
      Deployment.RunByCommo { config := (fourNodes .rs).withZfec } commandChosen ∧
      ¬ final.MastersAgree 4 := by
  have hfinal : (Deployment.run { config := (fourNodes .rs).withZfec } commandChosen).map
        (fun final => ((final.nodes 1).captain.maxChosenWithoutHole,
          (final.nodes 2).captain.maxChosenWithoutHole,
          (final.nodes 1).captain.view.masterId,
          (final.nodes 2).captain.view.masterId)) = some (1, 1, 1, 0) := by
    decide +kernel
  rcases Option.map_eq_some_iff.mp hfinal with ⟨final, hrun, hfinal⟩
  simp only [Prod.mk.injEq] at hfinal
  rcases hfinal with ⟨hhole₁, hhole₂, hmaster₁, hmaster₂⟩
  refine ⟨final, hrun, by decide +kernel, ?_⟩
  intro hagree
  have hsame := hagree 1 (by decide) 2 (by decide) (hhole₁.trans hhole₂.symm)
  rw [hmaster₁, hmaster₂] at hsame
  simp at hsame

end NDNPaxos
