import NDNPaxos.Inquiries
import NDNPaxos.ShardAgreement
import Mathlib.Tactic

/-!
# Quiescence

A proposer moves on with the last answer of its quorum, so one that still runs
waits for an answer.  It asks at least a quorum, and what it waits for is in
flight: a proposer lives only as long as packets do.
-/

namespace NDNPaxos

/-! ## A running proposer lacks answers -/

def Config.readQuorum (config : Config) : ℕ :=
  if config.mode = .rs then config.rsParams.qr else config.quorumSize

def Config.writeQuorum (config : Config) : ℕ :=
  if config.mode = .rs then config.rsParams.qw else config.quorumSize

theorem Proposer.size_lt_of_notEnough {proposer after : Proposer} {msg : MsgAckAccept}
    (hack : proposer.handleMsgAccepted msg = (.notEnough, after)) :
    after.msgAckAccept.size < proposer.qw := by
  simp only [handleMsgAccepted] at hack
  split at hack
  · simp at hack
  · split at hack
    next hfew =>
      rw [Prod.mk.injEq] at hack
      rw [← hack.2]
      exact hfew
    next =>
      split at hack <;> simp at hack

/-- The proposer has fewer answers than its phase asks for. -/
structure ProposerInfo.Undecided (config : Config) (info : ProposerInfo) : Prop where
  qr : info.currProposer.qr = config.readQuorum
  qw : info.currProposer.qw = config.writeQuorum
  preparing : info.Preparing →
    info.currProposer.msgAckPrepare.size < config.readQuorum ∧
      info.currProposer.msgAckAccept = {}
  proposing : info.proposerStatus = .phaseII →
    info.currProposer.msgAckAccept.size < config.writeQuorum

namespace Captain

variable {captain final : Captain} {setting : Setting} {outs : List Output} {config : Config}

def Undecided (config : Config) (captain : Captain) : Prop :=
  ∀ (slot : ℕ) info, captain.proposers[slot]? = some info → info.Undecided config

section Quorums

variable (hread : 0 < config.readQuorum) (hwrite : 0 < config.writeQuorum)

include hread hwrite

theorem Undecided.restart (hundecided : captain.Undecided config) {slot : ℕ}
    {info : ProposerInfo} (hqr : info.currProposer.qr = config.readQuorum)
    (hqw : info.currProposer.qw = config.writeQuorum) :
    (captain.restart slot info).1.Undecided config := by
  rw [restart_eq]
  refine OrderedMap.forall_insert hundecided ⟨hqr, hqw, fun _ => ⟨hread, rfl⟩, ?_⟩
  exact fun _ => hwrite

theorem Undecided.proposerMove (hundecided : captain.Undecided config)
    (hmove : ProposerMove setting captain outs final) : final.Undecided config := by
  cases hmove with
  | @promised msg info ack proposer hmsg hinfo hpreparing hack hstays =>
      have hold := hundecided _ info hinfo
      refine OrderedMap.forall_insert hundecided ?_
      cases Proposer.handleMsgPromise_step hack with
      | drops hdrop =>
          exact ⟨hold.qr, hold.qw, fun _ => hold.preparing hpreparing, by simp⟩
      | waits hballot hvalue hfew =>
          rw [hold.qr] at hfew
          exact ⟨hold.qr, hold.qw, fun _ => ⟨hfew, (hold.preparing hpreparing).2⟩, by simp⟩
      | restarts hballot hvalue => exact absurd rfl hstays.2
      | continues hballot hvalue htrue hafter => exact absurd rfl hstays.1
  | @promiseRestart msg info proposer hmsg hinfo hpreparing hack =>
      have hold := hundecided _ info hinfo
      have hsizes := promise_sizes hack
      exact hundecided.restart hread hwrite (hsizes.1.trans hold.qr) (hsizes.2.trans hold.qw)
  | @continued msg info proposer outs final hmsg hinfo hpreparing hack henter =>
      have hold := hundecided _ info hinfo
      cases Proposer.handleMsgPromise_step hack with
      | @continues value _ hballot hnone htrue hafter =>
          have hcurr : { info with currProposer := proposer }.currProposer.currValue =
            some value := hafter.currValue
          rcases (enterPhaseII_spec hcurr henter).1 with ⟨rsValues, rsEncoder, rfl⟩
          refine OrderedMap.forall_insert hundecided
            ⟨hafter.qr.trans hold.qr, hafter.qw.trans hold.qw, ?_, ?_⟩
          · simp [ProposerInfo.Preparing]
          · intro _
            have hempty : proposer.msgAckAccept = {} :=
              hafter.msgAckAccept.trans (hold.preparing hpreparing).2
            change proposer.msgAckAccept.size < _
            rw [hempty]
            exact hwrite
  | @acked msg info ack proposer hmsg hinfo hstatus hack hstays =>
      have hold := hundecided _ info hinfo
      have hsizes := accepted_sizes hack
      refine OrderedMap.forall_insert hundecided
        ⟨hsizes.1.trans hold.qr, hsizes.2.trans hold.qw, ?_, fun _ => ?_⟩
      · simp [ProposerInfo.Preparing, hstatus]
      · rcases hstays with rfl | rfl
        · cases Proposer.handleMsgAccepted_step hack
          exact hold.proposing hstatus
        · exact hold.qw ▸ Proposer.size_lt_of_notEnough hack
  | @ackRestart msg info proposer hmsg hinfo hstatus hack =>
      have hold := hundecided _ info hinfo
      have hsizes := accepted_sizes hack
      exact hundecided.restart hread hwrite (hsizes.1.trans hold.qr) (hsizes.2.trans hold.qw)
  | @chosen msg info proposer hmsg hinfo hstatus hack =>
      have hold := hundecided _ info hinfo
      have hsizes := accepted_sizes hack
      exact OrderedMap.forall_insert hundecided ⟨hsizes.1.trans hold.qr, hsizes.2.trans hold.qw,
        by simp [ProposerInfo.Preparing], by simp⟩

theorem Undecided.slotMove (hundecided : captain.Undecided config) (hshape : LogShape captain)
    (hconfig : captain.view.config = config) (hmove : SlotMove setting captain outs final) :
    final.Undecided config := by
  rcases hmove.proposer_cases hshape with hproposer |
    ⟨value, name, tryTime, skipPhaseI, _, rfl, _⟩ | ⟨⟨closed, rfl⟩, _⟩ | ⟨hproposers, _, _⟩
  · exact hundecided.proposerMove hread hwrite hproposer
  · rw [openSlot_eq]
    refine OrderedMap.forall_insert hundecided ?_
    have hmode : captain.view.mode = config.mode := congrArg Config.mode hconfig
    have hquorum : captain.view.quorumSize = config.quorumSize :=
      congrArg Config.quorumSize hconfig
    constructor
    · cases skipPhaseI <;>
        simp [newProposer, Proposer.new, Proposer.genNextBallot, Proposer.initCurrValue,
          Config.readQuorum, hmode, hquorum, hconfig]
    · cases skipPhaseI <;>
        simp [newProposer, Proposer.new, Proposer.genNextBallot, Proposer.initCurrValue,
          Config.writeQuorum, hmode, hquorum, hconfig]
    · intro _
      rw [newProposer_msgAckPrepare, newProposer_msgAckAccept]
      exact ⟨hread, rfl⟩
    · intro _
      rw [newProposer_msgAckAccept]
      exact hwrite
  · exact OrderedMap.forall_erase hundecided
  · rw [Undecided, hproposers]
    exact hundecided

end Quorums

/-! ## No proposer stays at its end -/

/-- Only proposers of these slots are at their end. -/
def EndedOnly (captain : Captain) (slots : Set ℕ) : Prop :=
  ∀ (slot : ℕ) info, captain.proposers[slot]? = some info → info.proposerStatus = .chosen →
    slot ∈ slots

variable {slots : Set ℕ}

theorem EndedOnly.openSlot (hended : captain.EndedOnly slots) (value : PropValue) (name : Name)
    (tryTime : ℕ) (skipPhaseI : Bool) :
    (captain.openSlot value name tryTime skipPhaseI).1.EndedOnly slots := by
  rw [openSlot_eq]
  refine OrderedMap.forall_insert hended ?_
  intro hchosen
  cases skipPhaseI <;> simp at hchosen

theorem EndedOnly.quietMove (hended : captain.EndedOnly slots) (hshape : LogShape captain)
    (hquiet : ∀ msg, setting.received msg → Quiet msg)
    (hmove : SlotMove setting captain outs final) : final.EndedOnly slots := by
  rcases hmove.proposer_cases hshape with hproposer |
    ⟨value, name, tryTime, skipPhaseI, _, rfl, _⟩ | ⟨⟨closed, rfl⟩, _⟩ | ⟨hproposers, _, _⟩
  · exact absurd hproposer (not_proposerMove_of_quiet hquiet)
  · exact hended.openSlot value name tryTime skipPhaseI
  · exact OrderedMap.forall_erase hended
  · rw [EndedOnly, hproposers]
    exact hended

theorem EndedOnly.quietChain (hended : captain.EndedOnly slots) (hkept : captain.WellKept)
    (hquiet : ∀ msg, setting.received msg → Quiet msg)
    (hchain : OutputChain (Move setting) captain outs final) :
    final.WellKept ∧ final.EndedOnly slots := by
  have hslots := hchain.bind fun _ _ _ hmove => hmove.slotMoves
  exact hslots.preserves (fun captain => captain.WellKept ∧ captain.EndedOnly slots)
    (fun _ _ _ hbefore hmove =>
      ⟨hmove.wellKept hbefore.1, hbefore.2.quietMove hbefore.1.shape hquiet hmove⟩)
    ⟨hkept, hended⟩

theorem EndedOnly.finish {slot : ℕ} {info : ProposerInfo} {chosen : PropValue} {dataName : Name}
    (hended : captain.EndedOnly {slot})
    (hstep : FinishStep captain slot info chosen dataName final outs) : final.EndedOnly ∅ := by
  have hclosed : (captain.withoutProposer slot).EndedOnly ∅ := by
    intro other found hfound hchosen
    have hslot := hended other found (OrderedMap.of_erase hfound) hchosen
    rw [Set.mem_singleton_iff] at hslot
    subst hslot
    simp [withoutProposer] at hfound
  cases hstep with
  | idle hown hempty => exact hclosed
  | next hown hpop =>
      rcases popFront_eq_some hpop with ⟨values, names, _, _, rfl⟩
      have hpopped : ({ captain.withoutProposer slot with
          tocommitValues := values, tocommitClients := names } : Captain).EndedOnly ∅ := hclosed
      exact hpopped.openSlot _ _ _ _
  | recommit hforeign => exact hclosed.openSlot _ _ _ _

/-- The end of CHOOSE erases the only proposer that is at its end. -/
theorem EndedOnly.choose {slot : ℕ} {info : ProposerInfo} {chosen : PropValue} {dataName : Name}
    {app : AppCalls} (hended : captain.EndedOnly ∅)
    (hkept : (captain.setProposer slot { info with proposerStatus := .chosen }).WellKept)
    (hvalue : info.currProposer.currValue = some chosen)
    (hchoose : captain.choose slot info chosen dataName app = some (final, outs)) :
    final.EndedOnly ∅ := by
  simp only [Captain.choose, Option.bind_eq_bind, Option.bind_eq_some_iff, Prod.exists, pure,
    Option.some.injEq, Prod.mk.injEq] at hchoose
  rcases hchoose with ⟨told, _, hnotify, learned, _, hadd, called, _, hcalls, _, _, hfinish,
    rfl, _⟩
  have hquiet : ∀ msg, (quietSetting dataName).received msg → Quiet msg := fun _ hmsg => hmsg
  have hstart : (captain.setProposer slot
      { info with proposerStatus := .chosen }).EndedOnly {slot} := by
    refine OrderedMap.forall_insert ?_ fun _ => rfl
    exact fun other found hfound hchosen => (hended other found hfound hchosen).elim
  have hinfo : (captain.setProposer slot
      { info with proposerStatus := .chosen }).proposers[slot]? =
        some { info with proposerStatus := .chosen } := by
    simp [setProposer]
  have hnotified : OutputChain (Move (quietSetting dataName)) _ _ told :=
    (notifyOwn_moves hinfo rfl hvalue trivial (fun _ _ => trivial) hnotify).1
  rcases hstart.quietChain hkept hquiet hnotified with ⟨hkept₂, hended₂⟩
  rcases addChosenValue_learned hkept₂.shape hadd with ⟨hframe, hshape₃, _⟩
  have hended₃ : learned.EndedOnly {slot} := by
    rw [hframe]
    exact hended₂
  have hkept₃ : learned.WellKept := by
    refine ⟨hshape₃, ?_⟩
    rw [hframe]
    exact hkept₂.keys
  have hcalled : OutputChain (Move (quietSetting dataName)) learned _ called :=
    runCalls_moves (fun _ _ => trivial) hcalls
  exact (hended₃.quietChain hkept₃ hquiet hcalled).2.finish (finishChoose_step hfinish)

theorem ProposerMove.endedOnly (hended : captain.EndedOnly slots)
    (hgoes : ∀ msg info proposer, setting.received (.accepted msg) →
      captain.proposers[msg.msgHeader.slotId]? = some info → info.proposerStatus = .phaseII →
        info.currProposer.handleMsgAccepted msg ≠ (.choose, proposer))
    (hmove : ProposerMove setting captain outs final) : final.EndedOnly slots := by
  cases hmove with
  | promised hmsg hinfo hstatus hack hstays =>
      exact OrderedMap.forall_insert hended (by simp)
  | promiseRestart hmsg hinfo hstatus hack =>
      rw [restart_eq]
      exact OrderedMap.forall_insert hended (by simp)
  | @continued msg info proposer outs final hmsg hinfo hstatus hack henter =>
      cases Proposer.handleMsgPromise_step hack with
      | @continues value _ hballot hnone htrue hafter =>
          have hcurr : { info with currProposer := proposer }.currProposer.currValue =
            some value := hafter.currValue
          rcases (enterPhaseII_spec hcurr henter).1 with ⟨rsValues, rsEncoder, rfl⟩
          exact OrderedMap.forall_insert hended (by simp)
  | acked hmsg hinfo hstatus hack hstays =>
      exact OrderedMap.forall_insert hended (by simp [hstatus])
  | ackRestart hmsg hinfo hstatus hack =>
      rw [restart_eq]
      exact OrderedMap.forall_insert hended (by simp)
  | chosen hmsg hinfo hstatus hack => exact absurd hack (hgoes _ _ _ hmsg hinfo hstatus)

theorem EndedOnly.handleAccepted {msg : MsgAckAccept} {dataName : Name} {app : AppCalls}
    (hended : captain.EndedOnly ∅) (hkept : captain.WellKept)
    (hhandle : captain.handleAccepted msg dataName app = some (final, outs)) :
    final.EndedOnly ∅ := by
  by_cases hchooses : ∃ info proposer, captain.proposers[msg.msgHeader.slotId]? = some info ∧
      info.proposerStatus = .phaseII ∧
        info.currProposer.handleMsgAccepted msg = (.choose, proposer)
  · rcases hchooses with ⟨info, proposer, hinfo, hstatus, hack⟩
    have hkept' := (ended_of_choose hkept hinfo hstatus hack).2
    simp only [Captain.handleAccepted, hinfo, hstatus, if_true, hack] at hhandle
    cases Proposer.handleMsgAccepted_step hack with
    | chooses hballot hvalue htrue =>
        rcases Option.isSome_iff_exists.mp hvalue with ⟨chosen, hchosen⟩
        have hget : (info.currProposer.recordAccept msg).getChosenValue.getD {} = chosen := by
          change info.currProposer.currValue.getD {} = chosen
          rw [hchosen, Option.getD_some]
        rw [hget] at hhandle
        refine EndedOnly.choose hended ?_ ?_ hhandle
        · exact hkept'
        · exact hchosen
  · rcases @handleAccepted_move { received := fun sent => sent = .accepted msg } _ _ _ _ _ _ rfl
      hhandle with hmove | ⟨info, proposer, chosen, hinfo, hstatus, hack, _⟩ | ⟨rfl, _, _⟩
    · refine hmove.endedOnly hended ?_
      intro msg' info proposer hreceived hinfo hstatus hack
      have heq : msg' = msg := Message.accepted.inj hreceived
      subst heq
      exact hchooses ⟨info, proposer, hinfo, hstatus, hack⟩
    · exact absurd ⟨info, proposer, hinfo, hstatus, hack⟩ hchooses
    · exact hended

theorem EndedOnly.handleMsg {msg : Message} {dataName : Name} {app : AppCalls}
    (hended : captain.EndedOnly ∅) (hkept : captain.WellKept)
    (hhandle : captain.handleMsg msg dataName app = some (final, outs)) :
    final.EndedOnly ∅ := by
  have hhandled := hhandle
  simp only [Captain.handleMsg] at hhandled
  split at hhandled
  · rw [Option.some.injEq, Prod.mk.injEq] at hhandled
    exact hhandled.1 ▸ hended
  have hothers : Quiet msg → final.EndedOnly ∅ := by
    intro hmsg
    have hchain : OutputChain (Move (quietSetting dataName)) captain outs final :=
      handleMsg_moves hkept hmsg (fun _ _ _ => trivial) (fun _ _ => trivial) hhandle
    exact (hended.quietChain hkept (fun _ hreceived => hreceived) hchain).2
  cases msg with
  | prepare msg =>
      have hmove : AcceptorMove {} captain outs final := handlePrepare_move trivial hhandled
      rw [hmove.spec.1]
      exact hended
  | accept msg =>
      have hmove : AcceptorMove {} captain outs final := handleAccept_move trivial hhandled
      rw [hmove.spec.1]
      exact hended
  | promise msg =>
      rcases @handlePromise_move { received := fun sent => sent = .promise msg } _ _ _ _ rfl
        hhandled with hmove | ⟨rfl, _, _⟩
      · exact hmove.endedOnly hended fun _ _ _ hreceived => Message.noConfusion hreceived
      · exact hended
  | accepted msg => exact hended.handleAccepted hkept hhandled
  | decide msg => exact hothers ⟨by simp [Message.kind], by simp [Message.kind]⟩
  | learn msg => exact hothers ⟨by simp [Message.kind], by simp [Message.kind]⟩
  | teach msg => exact hothers ⟨by simp [Message.kind], by simp [Message.kind]⟩
  | commit msg => exact hothers ⟨by simp [Message.kind], by simp [Message.kind]⟩
  | command msg => exact hothers ⟨by simp [Message.kind], by simp [Message.kind]⟩

theorem EndedOnly.call {call : Call} (hended : captain.EndedOnly ∅) (hkept : captain.WellKept)
    (hcall : captain.call call = some (final, outs)) : final.EndedOnly ∅ := by
  have hchain : OutputChain (Move (quietSetting [])) captain outs final :=
    call_moves trivial hcall
  exact (hended.quietChain hkept (fun _ hreceived => hreceived) hchain).2

end Captain

/-! ## Runs without losses and crashes -/

/-- The nodes that are asked make up a quorum of either phase, and none is empty. -/
structure Config.Reachable (config : Config) : Prop where
  read_pos : 0 < config.readQuorum
  write_pos : 0 < config.writeQuorum
  read_le : config.readQuorum ≤ config.contacted
  write_le : config.writeQuorum ≤ config.contacted

theorem Config.reachable (config : Config)
    (hrs : config.mode = .rs → config.rsParams.qr ∈ Finset.Icc 1 config.size ∧
      config.rsParams.qw ∈ Finset.Icc 1 config.size) : config.Reachable := by
  by_cases hmode : config.mode = .rs
  · have hbounds := hrs hmode
    simp only [Finset.mem_Icc] at hbounds
    constructor <;> simp only [readQuorum, writeQuorum, contacted, hmode] <;> simp <;> omega
  · have hpos : 0 < config.quorumSize := by
      have hsize := config.size_pos
      unfold quorumSize
      omega
    have hle : config.quorumSize ≤ config.contacted := by
      unfold contacted
      split
      · exact le_rfl
      · exact config.quorumSize_le
    constructor <;> simpa only [readQuorum, writeQuorum, hmode, if_false]

/-- What holds between the steps of a run without losses and crashes. -/
structure Attended (deployment : Deployment) (cluster : Cluster) : Prop where
  reaches : Reaches deployment (fun nodes => Attentive deployment.config.size nodes ∧
    ∀ i < deployment.config.size, (nodes i).captain.Undecided deployment.config) cluster
  awaited : Awaited deployment.config cluster
  ended : ∀ i < deployment.config.size, (cluster.nodes i).captain.EndedOnly ∅

theorem attended_initial (deployment : Deployment) :
    Attended deployment deployment.initial := by
  have hnone : ∀ i (slot : ℕ) info,
      (deployment.initial.nodes i).captain.proposers[slot]? ≠ some info := by
    intro i slot info hinfo
    simp [Deployment.initial, Deployment.node, Captain.new] at hinfo
  refine ⟨⟨deployment.keeps_initial, fun packet hmem => absurd hmem List.not_mem_nil,
    attentive_initial deployment, ?_⟩, ?_, ?_⟩
  · exact fun i _ slot info hinfo => absurd hinfo (hnone i slot info)
  · exact fun i _ slot info hinfo => absurd hinfo (hnone i slot info)
  · exact fun i _ slot info hinfo => absurd hinfo (hnone i slot info)

theorem undecided_preserved {deployment : Deployment} (condition : StepCondition)
    (hreachable : deployment.config.Reachable) :
    PreservedBySlotMoves deployment condition fun nodes => ∀ i < deployment.config.size,
      (nodes i).captain.Undecided deployment.config := by
  intro nodes i setting outs final hi hkeeps _ hundecided hmove
  exact forall_actOn (fun _ captain _ => captain.Undecided deployment.config) hundecided
    ((hundecided i hi).slotMove hreachable.read_pos hreachable.write_pos
      (hkeeps.wellKept i hi).shape (hkeeps.config i hi) hmove)

theorem Attended.ended_step {deployment : Deployment} {cluster next : Cluster} {action : Action}
    (hattended : Attended deployment cluster)
    (hstep : cluster.step deployment action = some next) :
    ∀ i < deployment.config.size, (next.nodes i).captain.EndedOnly ∅ := by
  have hkeeps := hattended.reaches.keeps
  cases action with
  | call i call =>
      rcases Cluster.step_call hstep with ⟨hi, final, outs, hcall, rfl⟩
      exact forall_actOn (fun _ captain _ => captain.EndedOnly ∅) hattended.ended
        ((hattended.ended i hi).call (hkeeps.wellKept i hi) hcall)
  | deliver index dataName app =>
      rcases Cluster.step_deliver hstep with ⟨packet, _, hi, final, outs, hhandle, rfl⟩
      exact forall_actOn (fun _ captain _ => captain.EndedOnly ∅) hattended.ended
        ((hattended.ended _ hi).handleMsg (hkeeps.wellKept _ hi) hhandle)
  | lose index =>
      rcases Cluster.step_lose hstep with ⟨_, rfl⟩
      exact hattended.ended
  | duplicate index =>
      rcases Cluster.step_duplicate hstep with ⟨packet, _, rfl⟩
      exact hattended.ended

theorem runMeets_lossless {deployment : Deployment} {actions : List Action}
    (hlossless : Lossless actions) (cluster : Cluster) :
    deployment.machine.RunMeets
      (fun cluster action => StepCondition.noCrash.Holds cluster action ∧
        ∀ index, action ≠ .lose index) cluster actions := by
  apply PartialMachine.runMeets_of_forall
  intro action hmem cluster
  rcases hlossless action hmem with ⟨hdelivers, hworks⟩
  have hcalls : ∀ call ∈ action.calls, call ≠ .crash :=
    fun call hcall heq => hworks (heq ▸ hcall)
  refine ⟨?_, hdelivers⟩
  cases action with
  | call i made => exact hcalls made (List.mem_singleton_self made)
  | deliver index dataName app => exact fun _ _ => ⟨hcalls, fun _ _ _ => trivial⟩
  | lose index => trivial
  | duplicate index => trivial

theorem attended_of_run {deployment : Deployment} (hreachable : deployment.config.Reachable)
    {actions : List Action} {final : Cluster} (hlossless : Lossless actions)
    (hrun : deployment.run actions = some final) : Attended deployment final := by
  refine PartialMachine.invariant_of_runMeets (Attended deployment) ?_
    (attended_initial deployment) (runMeets_lossless hlossless _) hrun
  rintro cluster action next ⟨hholds, hdelivers⟩ hattended hstep
  refine ⟨hattended.reaches.step ?_ hholds hstep, ?_, hattended.ended_step hstep⟩
  · refine PreservedBySlotMoves.moves (attentive_preserved.and ?_)
    intro nodes i setting outs final hi hkeeps hallows _ _ hundecided hmove
    exact undecided_preserved _ hreachable nodes i setting outs final hi hkeeps hallows
      hundecided hmove
  · have hreaches : Reaches deployment (Attentive deployment.config.size) cluster :=
      ⟨hattended.reaches.keeps, hattended.reaches.sent, hattended.reaches.invariant.1⟩
    exact awaited_step hdelivers hreaches hattended.awaited hstep

theorem Attended.running {deployment : Deployment} {cluster : Cluster}
    (hattended : Attended deployment cluster) {i : ℕ} (hi : i < deployment.config.size)
    {slot : ℕ} {info : ProposerInfo}
    (hinfo : (cluster.nodes i).captain.proposers[slot]? = some info) : info.Running := by
  have hlive := (hattended.reaches.invariant.1.histories.proposers i hi).live slot info hinfo
  rcases hlive.phase with ⟨hpreparing, _⟩ | ⟨hstatus | hchosen, _⟩
  · exact .inl hpreparing
  · exact .inr hstatus
  · exact (hattended.ended i hi slot info hinfo hchosen).elim

theorem Attended.served {deployment : Deployment} {cluster : Cluster}
    (hattended : Attended deployment cluster) (hreachable : deployment.config.Reachable)
    {i : ℕ} (hi : i < deployment.config.size) {slot : ℕ} {info : ProposerInfo}
    (hinfo : (cluster.nodes i).captain.proposers[slot]? = some info) :
    ∃ j < deployment.config.contacted, ¬ info.AnsweredBy j ∧
      ∃ packet ∈ cluster.net, packet.Serves (info.inquiry i slot) j := by
  have hrunning := hattended.running hi hinfo
  have hundecided := hattended.reaches.invariant.2 i hi slot info hinfo
  obtain ⟨j, hj, hwaits⟩ : ∃ j < deployment.config.contacted, ¬ info.AnsweredBy j := by
    by_contra hall
    simp only [not_exists, not_and, not_not] at hall
    have hcard := Finset.card_range deployment.config.contacted
    rcases hrunning with hpreparing | hstatus
    · have hanswered : (Finset.range deployment.config.contacted).card ≤
          info.currProposer.msgAckPrepare.size := OrderedMap.card_le_size fun j hj => by
          have hj' := hall j (Finset.mem_range.mp hj)
          rw [ProposerInfo.AnsweredBy, hpreparing.accepting] at hj'
          exact hj'
      have hfew := (hundecided.preparing hpreparing).1
      have hle := hreachable.read_le
      omega
    · have hanswered : (Finset.range deployment.config.contacted).card ≤
          info.currProposer.msgAckAccept.size := OrderedMap.card_le_size fun j hj => by
          have hj' := hall j (Finset.mem_range.mp hj)
          rw [ProposerInfo.AnsweredBy, ProposerInfo.accepting_of_phaseII hstatus] at hj'
          exact hj'
      have hfew := hundecided.proposing hstatus
      have hle := hreachable.write_le
      omega
  rcases hattended.awaited i hi slot info hinfo hrunning j hj with hanswered | hserved
  · exact absurd hanswered hwaits
  · exact ⟨j, hj, hwaits, hserved⟩

/-- Without losses and crashes, whoever still has a proposer is waiting for the
answer of some node, and a packet in flight asks for it or brings it. -/
theorem proposer_served (deployment : Deployment) (hreachable : deployment.config.Reachable)
    (actions : List Action) (final : Cluster) (hrun : deployment.run actions = some final)
    (hlossless : Lossless actions) (i : ℕ) (hi : i < deployment.config.size) (slot : ℕ)
    (info : ProposerInfo) (hinfo : (final.nodes i).captain.proposers[slot]? = some info) :
    ∃ j < deployment.config.contacted, ¬ info.AnsweredBy j ∧
      ∃ packet ∈ final.net, packet.Serves (info.inquiry i slot) j :=
  (attended_of_run hreachable hlossless hrun).served hreachable hi hinfo

/-- Node 1 has one PROMISE and waits for that of node 0. -/
theorem proposer_served_twoNodes :
    ∃ final info, Deployment.run { config := twoNodes .basic }
        (.call 1 (.commit { id := 65537 } (some [[1]])) ::
          [.deliver 1 [] {}, .deliver 1 [] {}]) = some final ∧
      (final.nodes 1).captain.proposers[1]? = some info ∧
      ∃ j < 2, ¬ info.AnsweredBy j ∧
        ∃ packet ∈ final.net, packet.Serves (info.inquiry 1 1) j := by
  have hfinal : (Deployment.run { config := twoNodes .basic }
      (.call 1 (.commit { id := 65537 } (some [[1]])) ::
        [.deliver 1 [] {}, .deliver 1 [] {}])).map
        (fun final => ((final.nodes 1).captain.proposers[1]?).isSome) = some true := by
    decide
  rcases Option.map_eq_some_iff.mp hfinal with ⟨final, hrun, hsome⟩
  rcases Option.isSome_iff_exists.mp hsome with ⟨info, hinfo⟩
  refine ⟨final, info, hrun, hinfo, ?_⟩
  exact proposer_served { config := twoNodes .basic } (Config.reachable _ (by simp [twoNodes])) _
    final hrun (by simp [Lossless, Action.calls]) 1 (by decide) 1 info hinfo

end NDNPaxos
