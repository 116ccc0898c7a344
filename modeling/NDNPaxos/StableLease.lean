import NDNPaxos.ProposerRounds
import NDNPaxos.Agreement
import Mathlib.Tactic

/-!
# The lease of a stable master

In the Multi-Paxos build a commit starts with Phase II under the first ballot of its
node, and the acceptors are primed with the first ballot of the configured master.  As
long as no other node opens a slot, no ballot above the lease is ever made: no acceptor
refuses, no proposer starts over, and each value is chosen in the slot that was opened
for it, whatever the network and the callbacks do.
-/

namespace NDNPaxos

/-! ## What the lease allows -/

/-- Phase I does not take place, and an ACCEPT has the ballot of the lease. -/
def Message.Leased (config : Config) : Message → Prop
  | .prepare _ => False
  | .promise _ => False
  | .accept msg => msg.ballotId = Captain.leaseBallot config
  | .accepted msg => msg.reply = true
  | _ => True

/-- A value gets one proposer, is accepted under the lease and chosen at once. -/
def Event.Leased (config : Config) : Event → Prop
  | .propose _ _ _ tryTime => tryTime = 1
  | .accepted _ ballot _ => ballot = Captain.leaseBallot config
  | .chose _ chosen init => chosen = init
  | _ => True

def Output.Leased (config : Config) : Output → Prop
  | .send packet => packet.msg.Leased config
  | .note event => event.Leased config

/-- The proposer proposes its own value under the lease, and nobody has refused. -/
structure ProposerInfo.Leased (config : Config) (info : ProposerInfo) : Prop where
  phase : info.proposerStatus = .phaseII ∨ info.proposerStatus = .chosen
  currBallot : info.currProposer.currBallot = Captain.leaseBallot config
  currValue : info.currProposer.currValue = some info.currProposer.initValue
  granted : ∀ (node : ℕ) ack, info.currProposer.msgAckAccept[node]? = some ack → ack.reply = true

structure Captain.Leased (config : Config) (captain : Captain) : Prop where
  acceptors : ∀ slot,
    (captain.acceptorOf slot).maxProposedBallot ≤ Captain.leaseBallot config
  proposers : ∀ (slot : ℕ) info, captain.proposers[slot]? = some info → info.Leased config

theorem Output.leased_of_kind {config : Config} {out : Output} (hopened : out.kind ≠ .opened)
    (hretired : out.kind ≠ .retired) (hacceptor : out.kind ≠ .acceptor)
    (hproposer : out.kind ≠ .proposer) : out.Leased config := by
  cases out with
  | send packet =>
      rcases packet with ⟨route, dst, msg⟩
      cases msg with
      | prepare msg => exact absurd rfl hproposer
      | promise msg => exact absurd rfl hacceptor
      | accept msg => exact absurd rfl hproposer
      | accepted msg => exact absurd rfl hacceptor
      | _ => trivial
  | note event =>
      cases event with
      | propose slot value name tryTime => exact absurd rfl hopened
      | accepted slot ballot value => exact absurd rfl hacceptor
      | chose slot chosen init => exact absurd rfl hretired
      | _ => trivial

theorem ProposerInfo.Leased.recordAccept {config : Config} {info : ProposerInfo}
    (hleased : info.Leased config) {msg : MsgAckAccept} (hreply : msg.reply = true)
    {status : ProposerStatus} (hstatus : status = .phaseII ∨ status = .chosen) :
    ProposerInfo.Leased config { info with
      currProposer := info.currProposer.recordAccept msg, proposerStatus := status } where
  phase := hstatus
  currBallot := hleased.currBallot
  currValue := hleased.currValue
  granted := OrderedMap.forall_insert hleased.granted hreply

/-- With consent only, there is nothing to start over for. -/
theorem ProposerInfo.Leased.no_restart {config : Config} {info : ProposerInfo}
    (hleased : info.Leased config) {msg : MsgAckAccept} (hreply : msg.reply = true)
    {proposer : Proposer} :
    info.currProposer.handleMsgAccepted msg ≠ (.restart, proposer) := by
  intro hack
  cases Proposer.handleMsgAccepted_step hack with
  | restarts hballot hvalue =>
      have hreturned := Proposer.handleMsgAccepted_unanimous hballot hvalue (by
        rintro ⟨node, reply⟩ hentry
        rcases Option.map_eq_some_iff.mp (OrderedMap.mem_entries.mp hentry) with ⟨ack, hfound, rfl⟩
        exact OrderedMap.forall_insert hleased.granted hreply node ack hfound)
      rw [hack] at hreturned
      split at hreturned <;> simp at hreturned

/-- Nobody but the master of the configuration file opens slots. -/
def OpenedByMaster (config : Config) (nodes : ℕ → Node) : Prop :=
  ∀ i < config.size, ∀ slot value, Opened (nodes i).log slot value → i = config.masterId

theorem openedByMaster_of_openedSlots {config : Config} {nodes : ℕ → Node}
    (hclosed : ∀ i < config.size, i ≠ config.masterId → openedSlots (nodes i).log = []) :
    OpenedByMaster config nodes := by
  intro i hi slot value hopened
  by_contra hother
  have hmem := Captain.mem_openedSlots hopened
  simp [hclosed i hi hother] at hmem

namespace Captain

variable {config : Config} {captain final : Captain} {setting : Setting} {outs : List Output}

theorem leased_node {deployment : Deployment} (hmode : deployment.config.mode = .multi) (i : ℕ) :
    (deployment.node i).captain.Leased deployment.config where
  acceptors := by
    intro slot
    cases slot with
    | zero => exact Nat.zero_le _
    | succ place =>
        by_cases hplace : place < deployment.config.length <;>
          simp [Deployment.node, Captain.new, acceptorOf, acceptorAt, hmode, hplace,
            Acceptor.updateMaxProposed]
  proposers := by
    intro slot info hinfo
    simp [Deployment.node, Captain.new] at hinfo

/-! ## Acceptors -/

theorem AcceptorMove.leased (hreceived : ∀ msg, setting.received msg → msg.Leased config)
    (hleased : captain.Leased config) (hmove : AcceptorMove setting captain outs final) :
    final.Leased config ∧ ∀ out ∈ outs, out.Leased config := by
  cases hmove with
  | prepare hmsg hupdate => exact (hreceived _ hmsg).elim
  | @accept msg acceptors hmsg hupdate =>
      have hballot : msg.ballotId = leaseBallot config := hreceived _ hmsg
      have hpromised := hleased.acceptors msg.msgHeader.slotId
      rcases (captain.acceptorOf msg.msgHeader.slotId).handleMsgAccept_cases captain.view msg with
        ⟨_, hstored, hreply⟩ | ⟨hlt, _⟩
      · have hanswer : (captain.acceptAnswer msg).reply = true := hreply
        refine ⟨⟨?_, hleased.proposers⟩, ?_⟩
        · intro slot
          rw [hupdate slot]
          split
          · rw [hstored]
            exact hballot.le
          · exact hleased.acceptors slot
        · rw [hanswer, if_pos rfl]
          refine List.forall_mem_append.mpr ⟨List.forall_mem_singleton.mpr hballot, ?_⟩
          unfold answer sendData
          split <;> exact List.forall_mem_singleton.mpr hanswer
      · omega

/-! ## Proposers and slots -/

theorem ProposerMove.leased (hreceived : ∀ msg, setting.received msg → msg.Leased config)
    (hleased : captain.Leased config) (hmove : ProposerMove setting captain outs final) :
    final.Leased config ∧ outs = [] := by
  cases hmove with
  | promised hmsg hinfo hstatus hack hstays => exact (hreceived _ hmsg).elim
  | promiseRestart hmsg hinfo hstatus hack => exact (hreceived _ hmsg).elim
  | continued hmsg hinfo hstatus hack henter => exact (hreceived _ hmsg).elim
  | @acked msg info ack proposer hmsg hinfo hstatus hack hstays =>
      have hold := hleased.proposers _ info hinfo
      refine ⟨⟨hleased.acceptors, OrderedMap.forall_insert hleased.proposers ?_⟩, rfl⟩
      cases Proposer.handleMsgAccepted_step hack with
      | drops hdrop => exact hold
      | waits hballot hvalue => exact hold.recordAccept (hreceived _ hmsg) hold.phase
      | restarts hballot hvalue => simp at hstays
      | chooses hballot hvalue htrue => simp at hstays
  | ackRestart hmsg hinfo hstatus hack =>
      exact absurd hack ((hleased.proposers _ _ hinfo).no_restart (hreceived _ hmsg))
  | chosen hmsg hinfo hstatus hack =>
      have hold := hleased.proposers _ _ hinfo
      refine ⟨⟨hleased.acceptors, OrderedMap.forall_insert hleased.proposers ?_⟩, rfl⟩
      cases Proposer.handleMsgAccepted_step hack with
      | chooses hballot hvalue htrue => exact hold.recordAccept (hreceived _ hmsg) (.inr rfl)

/-- The queues and the counters have nothing to do with the lease. -/
theorem Leased.of_eq (hleased : captain.Leased config)
    (hacceptors : final.acceptors = captain.acceptors)
    (hproposers : final.proposers = captain.proposers) : final.Leased config where
  acceptors := by
    intro slot
    rw [acceptorOf_congr hacceptors]
    exact hleased.acceptors slot
  proposers := by
    rw [hproposers]
    exact hleased.proposers

theorem Leased.openSlot (hleased : captain.Leased config) (hmode : captain.mode = .multi)
    {value : PropValue} {name : Name}
    (hopens : ∀ slot value', Opened (captain.openSlot value name 1 (captain.mode = .multi)).2
      slot value' → captain.whoami = config.masterId) :
    (captain.openSlot value name 1 (captain.mode = .multi)).1.Leased config ∧
      ∀ out ∈ (captain.openSlot value name 1 (captain.mode = .multi)).2, out.Leased config := by
  rw [hmode, decide_eq_true rfl, openSlot_eq] at hopens ⊢
  have hwhoami := hopens (captain.maxSlot + 1) value ⟨name, 1, List.mem_cons_self ..⟩
  have hballot : 2 ^ 16 + captain.whoami = leaseBallot config := by rw [hwhoami, leaseBallot]
  refine ⟨⟨hleased.acceptors, OrderedMap.forall_insert hleased.proposers ?_⟩, ?_⟩
  · refine ⟨.inl rfl, ?_, rfl, ?_⟩
    · rw [newProposer_currBallot, hballot]
    · intro node ack hack
      rw [newProposer_msgAckAccept] at hack
      simp at hack
  · refine List.forall_mem_cons.mpr ⟨rfl, fun out hmem => ?_⟩
    rcases mem_broadcastMsg hmem with ⟨packet, rfl, hmsg⟩
    rw [Output.Leased, hmsg]
    exact hballot

theorem Leased.popFront {popped : Captain} {front : PropValue} {frontName : Name}
    (hleased : captain.Leased config) (hmode : captain.mode = .multi)
    (hpop : captain.popFront = some (front, frontName, popped))
    (hopens : ∀ slot value,
      Opened (popped.openSlot front frontName 1 (popped.mode = .multi)).2 slot value →
        captain.whoami = config.masterId) :
    (popped.openSlot front frontName 1 (popped.mode = .multi)).1.Leased config ∧
      ∀ out ∈ (popped.openSlot front frontName 1 (popped.mode = .multi)).2,
        out.Leased config := by
  have hframe := popFront_frame hpop
  have hpopped : popped.Leased config := by
    rw [hframe]
    exact hleased.of_eq rfl rfl
  have hmode' : popped.mode = .multi := by
    rw [hframe]
    exact hmode
  have hwhoami : popped.whoami = captain.whoami := by
    rw [hframe]
    rfl
  exact hpopped.openSlot hmode' fun slot value hopened => hwhoami.trans (hopens slot value hopened)

theorem CommitStep.leased {value : PropValue} {dataName ref : Name}
    (hmode : captain.mode = .multi)
    (hopens : ∀ slot value, Opened outs slot value → captain.whoami = config.masterId)
    (hleased : captain.Leased config)
    (hstep : CommitStep captain value dataName final outs ref) :
    final.Leased config ∧ ∀ out ∈ outs, out.Leased config := by
  have hlater : ∀ {out : Output} {sent : List Output}, outs = out :: sent → ∀ slot value,
      Opened sent slot value → captain.whoami = config.masterId := by
    rintro out sent rfl slot value ⟨name, tryTime, hmem⟩
    exact hopens slot value ⟨name, tryTime, List.mem_cons_of_mem _ hmem⟩
  cases hstep with
  | dropped hfull => exact ⟨hleased, List.forall_mem_singleton.mpr trivial⟩
  | waits hfull => exact ⟨hleased.of_eq rfl rfl, List.forall_mem_singleton.mpr trivial⟩
  | opens hroom hempty =>
      have hopened := hleased.openSlot hmode (hlater rfl)
      exact ⟨hopened.1, List.forall_mem_cons.mpr ⟨trivial, hopened.2⟩⟩
  | @passes front _ popped hroom hwaiting hpop =>
      have hpushed : (captain.pushBack value dataName).Leased config := hleased.of_eq rfl rfl
      have hopened := hpushed.popFront hmode hpop (hlater rfl)
      exact ⟨hopened.1, List.forall_mem_cons.mpr ⟨trivial, hopened.2⟩⟩

theorem FinishStep.leased {slot : ℕ} {info : ProposerInfo} {chosen : PropValue} {dataName : Name}
    (hmode : captain.mode = .multi)
    (hopens : ∀ slot value, Opened outs slot value → captain.whoami = config.masterId)
    (hleased : captain.Leased config) (hinfo : captain.proposers[slot]? = some info)
    (hvalue : info.currProposer.currValue = some chosen)
    (hstep : FinishStep captain slot info chosen dataName final outs) :
    final.Leased config ∧ ∀ out ∈ outs, out.Leased config := by
  have hown : chosen = info.currProposer.initValue := by
    have hcurr := (hleased.proposers slot info hinfo).currValue
    rw [hvalue, Option.some.injEq] at hcurr
    exact hcurr
  have hwithout : (captain.withoutProposer slot).Leased config :=
    ⟨hleased.acceptors, OrderedMap.forall_erase hleased.proposers⟩
  cases hstep with
  | idle hid hempty => exact ⟨hwithout, List.forall_mem_singleton.mpr hown⟩
  | @next front frontName popped hid hpop =>
      have hopened := hwithout.popFront hmode hpop fun slot value hlater => by
        rcases hlater with ⟨name, tryTime, hmem⟩
        exact hopens slot value ⟨name, tryTime, List.mem_cons_of_mem _ hmem⟩
      exact ⟨hopened.1, List.forall_mem_cons.mpr ⟨hown, hopened.2⟩⟩
  | recommit hforeign => exact absurd (congrArg PropValue.id hown) hforeign

/-! ## Moves -/

theorem BaseMove.leased (hshape : LogShape captain)
    (hreceived : ∀ msg, setting.received msg → msg.Leased config)
    (hleased : captain.Leased config) (hmove : BaseMove setting captain outs final) :
    final.Leased config ∧ ∀ out ∈ outs, out.Leased config := by
  cases hmove with
  | forwarding hmove =>
      rw [hmove.spec.1]
      refine ⟨hleased.of_eq rfl rfl, fun out hmem => ?_⟩
      apply Output.leased_of_kind <;> simp [hmove.spec.2 out hmem]
  | acceptor hmove => exact hmove.leased hreceived hleased
  | proposer hmove =>
      rcases hmove.leased hreceived hleased with ⟨hfinal, rfl⟩
      exact ⟨hfinal, by simp⟩
  | learner hmove =>
      rcases hmove.spec hshape with ⟨hframe, _, hkinds⟩
      rw [hframe]
      refine ⟨hleased.of_eq rfl rfl, fun out hmem => ?_⟩
      apply Output.leased_of_kind <;> rcases hkinds out hmem with hkind | hkind <;> simp [hkind]

/-- No move leaves the lease. -/
theorem Move.leased (hshape : LogShape captain) (hmode : captain.mode = .multi)
    (hreceived : ∀ msg, setting.received msg → msg.Leased config)
    (hopens : ∀ slot value, Opened outs slot value → captain.whoami = config.masterId)
    (hleased : captain.Leased config) (hmove : Move setting captain outs final) :
    final.Leased config ∧ ∀ out ∈ outs, out.Leased config := by
  cases hmove with
  | base hmove => exact hmove.leased hshape hreceived hleased
  | commit hsource hstep =>
      have hnext := hstep.leased hmode hopens hleased
      exact ⟨hnext.1.of_eq rfl rfl, hnext.2⟩
  | command hcall hmaster hid =>
      exact ⟨hleased.of_eq rfl rfl, List.forall_mem_singleton.mpr trivial⟩
  | finish hinfo hstatus hvalue hstored hretires hstep =>
      have hfinish := hstep.leased hmode
        (fun slot value hopened => hopens slot value (opened_append.mpr (.inr hopened)))
        hleased hinfo hvalue
      refine ⟨hfinish.1, List.forall_mem_append.mpr ⟨?_, hfinish.2⟩⟩
      intro out hmem
      apply Output.leased_of_kind <;> simp [kind_of_mem_announce hmem]

end Captain

/-! ## Runs -/

/-- No node has left the lease. -/
def LeaseHeld (config : Config) (nodes : ℕ → Node) : Prop :=
  ∀ i < config.size, (nodes i).captain.Leased config ∧
    ∀ out ∈ (nodes i).log, out.Leased config

theorem LeaseHeld.received {config : Config} {nodes : ℕ → Node} (hheld : LeaseHeld config nodes)
    {i : ℕ} {msg : Message} (hreceived : Received config.size nodes i msg) : msg.Leased config := by
  rcases hreceived with ⟨j, hj, packet, hmem, _, rfl⟩
  exact (hheld j hj).2 _ hmem

theorem leaseHeld_preserved {deployment : Deployment} (condition : StepCondition)
    (hmode : deployment.config.mode = .multi) :
    PreservedByMoves deployment condition fun nodes =>
      OpenedByMaster deployment.config nodes → LeaseHeld deployment.config nodes := by
  intro nodes i setting outs final hi hkeeps hallows hbefore hmove hmaster
  have hheld : LeaseHeld deployment.config nodes := hbefore fun j hj slot value hopened => by
    rcases hopened with ⟨name, tryTime, hmem⟩
    exact hmaster j hj slot value ⟨name, tryTime, mem_log_actOn.mpr (.inl hmem)⟩
  refine forall_actOn (fun _ captain log => captain.Leased deployment.config ∧
    ∀ out ∈ log, out.Leased deployment.config) hheld ?_
  have hnext := hmove.leased (hkeeps.wellKept i hi).shape ((hkeeps.mode hi).trans hmode)
    (fun msg hmsg => hheld.received (hallows.received msg hmsg))
    (fun slot value hopened => by
      rcases hopened with ⟨name, tryTime, hmem⟩
      rw [hkeeps.whoami hi]
      exact hmaster i hi slot value ⟨name, tryTime, mem_log_actOn.mpr (.inr ⟨rfl, hmem⟩)⟩)
    (hheld i hi).1
  exact ⟨hnext.1, List.forall_mem_append.mpr ⟨(hheld i hi).2, hnext.2⟩⟩

theorem lease_reaches {deployment : Deployment} (hmode : deployment.config.mode = .multi)
    {actions : List Action} {final : Cluster} (hrun : deployment.run actions = some final) :
    Reaches deployment (fun nodes =>
      OpenedByMaster deployment.config nodes → LeaseHeld deployment.config nodes) final :=
  reaches_of_run (leaseHeld_preserved {} hmode)
    (fun _ i _ => ⟨Captain.leased_node hmode i, by simp [Deployment.node]⟩)
    (runMeets_anything deployment actions) hrun

theorem leaseHeld_of_run {deployment : Deployment} (hmode : deployment.config.mode = .multi)
    {actions : List Action} {final : Cluster} (hrun : deployment.run actions = some final)
    (hmaster : OpenedByMaster deployment.config final.nodes) :
    LeaseHeld deployment.config final.nodes :=
  (lease_reaches hmode hrun).invariant hmaster

/-- While only the master opens slots, the lease stands in for Phase I: whatever is lost,
duplicated or late, nobody prepares or refuses, no slot is opened for a value again, and
a slot is closed with the value it was opened for. -/
theorem lease_suffices (deployment : Deployment) (hmode : deployment.config.mode = .multi)
    (actions : List Action) (final : Cluster) (hrun : deployment.run actions = some final)
    (hmaster : OpenedByMaster deployment.config final.nodes) (i : ℕ)
    (hi : i < deployment.config.size) :
    (∀ out ∈ (final.nodes i).log, out.Leased deployment.config) ∧
      (∀ slot, ((final.nodes i).captain.acceptorOf slot).maxProposedBallot ≤
        Captain.leaseBallot deployment.config) ∧
      ∀ (slot : ℕ) info, (final.nodes i).captain.proposers[slot]? = some info →
        info.Leased deployment.config := by
  obtain ⟨hcaptain, hlog⟩ := leaseHeld_of_run hmode hrun hmaster i hi
  exact ⟨hlog, hcaptain.acceptors, hcaptain.proposers⟩

/-- Both ACCEPTs are duplicated, and one is lost. -/
theorem lease_suffices_twoNodes :
    ∃ final, Deployment.run { config := twoNodes .multi }
        [.call 0 (.commit { id := 65536 } (some [])), .duplicate 0, .duplicate 1, .lose 0,
          .deliver 0 [] {}, .deliver 0 [] {}, .deliver 0 [] {}] = some final ∧
      ∀ i < 2, ∀ out ∈ (final.nodes i).log, out.Leased (twoNodes .multi) := by
  have hfinal : (Deployment.run { config := twoNodes .multi }
      [.call 0 (.commit { id := 65536 } (some [])), .duplicate 0, .duplicate 1, .lose 0,
        .deliver 0 [] {}, .deliver 0 [] {}, .deliver 0 [] {}]).map
        (fun final => openedSlots (final.nodes 1).log) = some [] := by
    decide
  obtain ⟨final, hrun, hclosed⟩ := Option.map_eq_some_iff.mp hfinal
  have hmaster : OpenedByMaster (twoNodes .multi) final.nodes := by
    refine openedByMaster_of_openedSlots fun i hi hother => ?_
    have hone : i = 1 := by
      change i < 2 at hi
      change i ≠ 0 at hother
      omega
    rw [hone, hclosed]
  refine ⟨final, hrun, fun i hi => ?_⟩
  exact (lease_suffices { config := twoNodes .multi } rfl _ final hrun hmaster i hi).1

end NDNPaxos
