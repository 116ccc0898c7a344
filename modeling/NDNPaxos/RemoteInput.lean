import NDNPaxos.CodecBounds
import NDNPaxos.Commo
import NDNPaxos.LearnerShards
import NDNPaxos.MasterView
import NDNPaxos.WaitingQueue
import Mathlib.Data.List.ReduceOption
import Mathlib.Tactic

/-!
# Input from the network

Which received strings a node gets over, in any state that it can be in.  The handlers
check almost nothing of a header, so the conditions are on slots (not the NULL of slot 0,
and within the `int` that counts new acceptors and NULLs), on the sender of a LEARN, and
in the Reed-Solomon build on what its codec is given.  A string that meets them is handled
to the end and leaves the containers of the captain as they should be.
-/

namespace NDNPaxos

/-- The calls that end at once, on the master and on another node, where
`commit(std::string&)` waits for a reply and `master_change` queues a value without a
name. -/
def Call.Immediate (ifMaster : Bool) : Call → Prop
  | .commit _ _ => True
  | .commitData _ _ => ifMaster = true
  | .masterChange _ => ifMaster = true
  | .crash => True

theorem Call.Immediate.mono {ifMaster ifMaster' : Bool} {call : Call}
    (hcall : call.Immediate ifMaster) (hmaster : ifMaster = true → ifMaster' = true) :
    call.Immediate ifMaster' := by
  cases call with
  | commit value name => trivial
  | commitData data name => exact hmaster hcall
  | masterChange value => exact hmaster hcall
  | crash => trivial

namespace Captain

/-! ## What stays true of a captain -/

structure Sound (config : Config) (captain : Captain) : Prop where
  kept : captain.WellKept
  config_eq : captain.view.config = config
  sentinel : captain.chosenAt 0 = none
  acceptors : ∃ created : List Acceptor, captain.acceptors = none :: created.map some
  codecs : config.mode = .rs → ∀ (slot : ℕ) info, captain.proposers[slot]? = some info →
    info.currProposer.CodecsFit config

theorem sound_node (deployment : Deployment) (i : ℕ) :
    (deployment.node i).captain.Sound deployment.config where
  kept := deployment.node_wellKept i
  config_eq := rfl
  sentinel := rfl
  acceptors := by
    by_cases hmulti : deployment.config.mode = .multi
    · refine ⟨List.replicate deployment.config.length
        (({} : Acceptor).updateMaxProposed (leaseBallot deployment.config)), ?_⟩
      simp [Deployment.node, Captain.new, hmulti]
    · exact ⟨[], by simp [Deployment.node, Captain.new, hmulti]⟩
  codecs := by
    intro hmode slot info hinfo
    simp [Deployment.node, Captain.new] at hinfo

section Moves

variable {config : Config} {setting : Setting} {captain final : Captain} {outs : List Output}

theorem codecs_newProposer (captain : Captain) (value : PropValue) (name : Name) (tryTime : ℕ)
    (skipPhaseI : Bool) :
    (captain.newProposer value name tryTime skipPhaseI).currProposer.CodecsFit
      captain.view.config := by
  cases skipPhaseI <;> exact ⟨⟨rfl, rfl⟩, ⟨rfl, rfl⟩, .inl rfl⟩

theorem codecs_enterPhaseII (henough : config.EnoughShards) {slot : ℕ} {info : ProposerInfo}
    (hmode : captain.mode = .rs) (hfit : info.currProposer.CodecsFit config)
    (hall : ∀ (slot : ℕ) info, captain.proposers[slot]? = some info →
      info.currProposer.CodecsFit config)
    (henter : captain.enterPhaseII slot info = some (final, outs)) (other : ℕ)
    (found : ProposerInfo) (hfound : final.proposers[other]? = some found) :
    found.currProposer.CodecsFit config := by
  rcases enterPhaseII_shards hmode henter with ⟨msgs, proposer, haccept, rfl, _⟩
  exact OrderedMap.forall_insert hall (hfit.rsMsgAccept henough haccept) other found hfound

theorem ProposerMove.codecs (henough : config.EnoughShards) (hconfig : captain.view.config = config)
    (hmode : captain.mode = .rs)
    (hall : ∀ (slot : ℕ) info, captain.proposers[slot]? = some info →
      info.currProposer.CodecsFit config)
    (hmove : ProposerMove setting captain outs final) (slot : ℕ) (info : ProposerInfo)
    (hinfo : final.proposers[slot]? = some info) : info.currProposer.CodecsFit config := by
  cases hmove with
  | @promised msg before ack proposer hmsg hbefore hstatus hack hstays =>
      exact OrderedMap.forall_insert hall
        ((hall _ before hbefore).handleMsgPromise henough hconfig hack) slot info hinfo
  | @promiseRestart msg before proposer hmsg hbefore hstatus hack =>
      have hfit := (hall _ before hbefore).handleMsgPromise henough hconfig hack
      rw [restart_eq] at hinfo
      exact OrderedMap.forall_insert hall (hfit.of_eq rfl rfl rfl) slot info hinfo
  | @continued msg before proposer outs final hmsg hbefore hstatus hack henter =>
      exact codecs_enterPhaseII henough hmode
        ((hall _ before hbefore).handleMsgPromise henough hconfig hack) hall henter slot info hinfo
  | @acked msg before ack proposer hmsg hbefore hstatus hack hstays =>
      have hfit := hall _ before hbefore
      refine OrderedMap.forall_insert hall ?_ slot info hinfo
      cases Proposer.handleMsgAccepted_step hack with
      | drops hold => exact hfit
      | waits hballot hvalue => exact hfit.of_eq rfl rfl rfl
      | restarts hballot hvalue => exact hfit.of_eq rfl rfl rfl
      | chooses hballot hvalue htrue => exact hfit.of_eq rfl rfl rfl
  | @ackRestart msg before proposer hmsg hbefore hstatus hack =>
      have hfit := hall _ before hbefore
      rw [restart_eq] at hinfo
      refine OrderedMap.forall_insert hall ?_ slot info hinfo
      cases Proposer.handleMsgAccepted_step hack with
      | restarts hballot hvalue => exact hfit.of_eq rfl rfl rfl
  | @chosen msg before proposer hmsg hbefore hstatus hack =>
      have hfit := hall _ before hbefore
      refine OrderedMap.forall_insert hall ?_ slot info hinfo
      cases Proposer.handleMsgAccepted_step hack with
      | chooses hballot hvalue htrue => exact hfit.of_eq rfl rfl rfl

theorem SlotMove.codecs (henough : config.EnoughShards) (hconfig : captain.view.config = config)
    (hmode : captain.mode = .rs) (hshape : LogShape captain)
    (hall : ∀ (slot : ℕ) info, captain.proposers[slot]? = some info →
      info.currProposer.CodecsFit config)
    (hmove : SlotMove setting captain outs final) (slot : ℕ) (info : ProposerInfo)
    (hinfo : final.proposers[slot]? = some info) : info.currProposer.CodecsFit config := by
  rcases hmove.proposer_cases hshape with hproposer | ⟨value, name, tryTime, skip, _, rfl, _⟩ |
    ⟨⟨closed, rfl⟩, _⟩ | ⟨hsame, _⟩
  · exact hproposer.codecs henough hconfig hmode hall slot info hinfo
  · rw [openSlot_eq] at hinfo
    have hnew := codecs_newProposer captain value name tryTime skip
    rw [hconfig] at hnew
    exact OrderedMap.forall_insert hall hnew slot info hinfo
  · exact OrderedMap.forall_erase hall slot info hinfo
  · rw [hsame] at hinfo
    exact hall slot info hinfo

/-- Everything but an acceptor's answer keeps a captain sound, as long as nothing is
learned for slot 0. -/
theorem SlotMove.sound (henough : config.mode = .rs → config.EnoughShards)
    (hprepare : ∀ msg, ¬ setting.received (.prepare msg))
    (haccept : ∀ msg, ¬ setting.received (.accept msg))
    (hdecide : ∀ msg, setting.received (.decide msg) → 0 < msg.msgHeader.slotId)
    (hteach : ∀ msg, setting.received (.teach msg) → 0 < msg.msgHeader.slotId)
    (hsound : captain.Sound config) (hmove : SlotMove setting captain outs final) :
    final.Sound config where
  kept := hmove.wellKept hsound.kept
  config_eq := (hmove.sameNode hsound.kept.shape).config.trans hsound.config_eq
  sentinel := by
    rw [Option.eq_none_iff_forall_ne_some]
    intro value hvalue
    rcases hmove.chosenAt_cases hsound.kept.shape hvalue with hold | hlearn
    · rw [hsound.sentinel] at hold
      simp at hold
    · cases hlearn with
      | own hinfo hstatus hcurr hretires => exact absurd (hsound.kept.keys 0 _ hinfo).1 (by simp)
      | decided hmsg hslot hstored hid =>
          have hpos := hdecide _ hmsg
          omega
      | taught hmsg hslot hstored =>
          have hpos := hteach _ hmsg
          omega
  acceptors := by
    rcases hmove.acceptor_cases hsound.kept.shape with hacceptor | ⟨hsame, _⟩
    · cases hacceptor with
      | prepare hmsg hupdate => exact absurd hmsg (hprepare _)
      | accept hmsg hupdate => exact absurd hmsg (haccept _)
    · rw [hsame]
      exact hsound.acceptors
  codecs := by
    intro hmode slot info hinfo
    refine hmove.codecs (henough hmode) hsound.config_eq ?_ hsound.kept.shape (hsound.codecs hmode)
      slot info hinfo
    rw [Captain.mode, View.mode, hsound.config_eq]
    exact hmode

end Moves

/-! ## What a message may ask for -/

/-- The acceptor of the slot is there, or an `int` gets to its slot. -/
def HasAcceptor (captain : Captain) (slot : ℕ) : Prop :=
  0 < slot ∧ (slot < captain.acceptors.length ∨ slot < 2 ^ 31 - 1)

/-- The slot is in the vector of chosen values, or an `int` gets to it. -/
def HasEntry (captain : Captain) (slot : ℕ) : Prop :=
  slot ≤ captain.maxChosen ∨ slot < 2 ^ 31

/-- The node is the master and stays it when the value is learned: neither the value nor one
that waits for it to be delivered makes another node the master. -/
def keepsMaster (captain : Captain) (value : PropValue) : Bool :=
  captain.view.ifMaster &&
    (value :: (captain.chosenValues.drop (captain.maxChosenWithoutHole + 1)).reduceOption).all
      fun command => command.cmdType != some .setMaster || toNodeId command.id == captain.whoami

/-- The calls of the callbacks end at once when the value is chosen: `callback_latency_` is
called before it is learned, the other two while it is. -/
structure CallsEnd (captain : Captain) (chosen : PropValue) (app : AppCalls) : Prop where
  latency : ∀ call ∈ app.latency, call.Immediate captain.view.ifMaster
  apply : ∀ call ∈ app.apply, call.Immediate (captain.keepsMaster chosen)

/-- Whatever the callbacks call while the message is handled ends at once. -/
def AppEnds (captain : Captain) (app : AppCalls) (msg : Message) : Prop :=
  ∀ slot info, captain.chooses msg = some (slot, info) →
    captain.CallsEnd (info.currProposer.getChosenValue.getD {}) app

/-- The message asks for nothing that the captain does not have. -/
def Takes (captain : Captain) (app : AppCalls) : Message → Prop
  | .prepare msg => captain.HasAcceptor msg.msgHeader.slotId
  | .promise msg => captain.mode = .rs → ∀ info,
      captain.proposers[msg.msgHeader.slotId]? = some info → info.Preparing →
        info.currProposer.TakesPromise captain.view.config msg
  | .accept msg => captain.HasAcceptor msg.msgHeader.slotId
  | .accepted msg => captain.AppEnds app (.accepted msg) ∧
      ∀ slot info, captain.chooses (.accepted msg) = some (slot, info) →
        captain.HasEntry slot ∧ (info.Lost ∨ captain.CanPop)
  | .decide msg => 0 < msg.msgHeader.slotId ∧
      (captain.HasEntry msg.msgHeader.slotId ∨
        captain.storedValue msg.msgHeader.slotId msg.valueId = some none)
  | .learn msg => ∀ stored, captain.chosenAt msg.msgHeader.slotId = some stored →
      toNodeId msg.msgHeader.nodeId < captain.view.nodesSize ∧
        (captain.mode = .rs → Encodable captain.view.config.rsParams.x stored.data)
  | .teach msg => 0 < msg.msgHeader.slotId ∧ captain.HasEntry msg.msgHeader.slotId
  | .commit _ => True
  | .command _ => True

/-! ## Acceptors -/

section Acceptors

variable {config : Config} {captain : Captain}

theorem Sound.withAcceptors (hsound : captain.Sound config) (created : List Acceptor) :
    ({ captain with acceptors := none :: created.map some } : Captain).Sound config where
  kept := ⟨⟨hsound.kept.shape.length, hsound.kept.shape.hole_le⟩, hsound.kept.keys⟩
  config_eq := hsound.config_eq
  sentinel := hsound.sentinel
  acceptors := ⟨created, rfl⟩
  codecs := hsound.codecs

theorem Sound.exists_growAcceptors (hsound : captain.Sound config) {slot : ℕ}
    (hhas : captain.HasAcceptor slot) :
    ∃ (grown : Captain) (created : List Acceptor), captain.growAcceptors slot = some grown ∧
      grown = { captain with acceptors := none :: created.map some } ∧ slot ≤ created.length := by
  rcases hsound.acceptors with ⟨created, hcreated⟩
  have hlength : captain.acceptors.length = created.length + 1 := by simp [hcreated]
  unfold growAcceptors
  by_cases hlt : slot < captain.acceptors.length
  · exact ⟨captain, created, if_pos hlt, by rw [← hcreated], by omega⟩
  · have hbound := hhas.2.resolve_left hlt
    refine ⟨_, created ++ List.replicate (slot + 1 - captain.acceptors.length) ({} : Acceptor),
      by rw [if_neg hlt, if_pos hbound], ?_, ?_⟩
    · rw [hcreated]
      simp
    · simp only [List.length_append, List.length_replicate]
      omega

/-- The acceptor that handles the message is not NULL, and putting it back leaves the
NULL of slot 0. -/
theorem Sound.exists_acceptor (hsound : captain.Sound config) {slot : ℕ}
    (hhas : captain.HasAcceptor slot) :
    ∃ grown acceptor, captain.growAcceptors slot = some grown ∧
      grown.acceptorAt slot = some acceptor ∧
      ∀ after, (grown.setAcceptor slot after).Sound config := by
  rcases hsound.exists_growAcceptors hhas with ⟨grown, created, hgrow, rfl, hle⟩
  rcases Nat.exists_eq_succ_of_ne_zero hhas.1.ne' with ⟨before, rfl⟩
  refine ⟨_, created[before], hgrow, ?_, ?_⟩
  · simp [acceptorAt, List.getElem?_eq_getElem (show before < created.length by omega)]
  · intro after
    have hset := hsound.withAcceptors (created.set before after)
    simpa [setAcceptor, List.map_set] using hset

theorem Sound.exists_handlePrepare (hsound : captain.Sound config) {msg : MsgPrepare}
    (hhas : captain.HasAcceptor msg.msgHeader.slotId) :
    ∃ result, captain.handlePrepare msg = some result ∧ result.1.Sound config := by
  rcases hsound.exists_acceptor hhas with ⟨grown, acceptor, hgrow, hacceptor, hset⟩
  simp only [handlePrepare, hgrow, Option.bind_eq_bind, Option.bind_some, hacceptor]
  exact ⟨_, rfl, hset _⟩

theorem Sound.exists_handleAccept (hsound : captain.Sound config) {msg : MsgAccept}
    (hhas : captain.HasAcceptor msg.msgHeader.slotId) :
    ∃ result, captain.handleAccept msg = some result ∧ result.1.Sound config := by
  rcases hsound.exists_acceptor hhas with ⟨grown, acceptor, hgrow, hacceptor, hset⟩
  simp only [handleAccept, hgrow, Option.bind_eq_bind, Option.bind_some, hacceptor]
  exact ⟨_, rfl, hset _⟩

end Acceptors

/-! ## Calls that end at once -/

section Calls

variable {captain final : Captain} {outs : List Output}

theorem CanPop.commitStep {value : PropValue} {dataName ref : Name} (hcanPop : captain.CanPop)
    (hstep : CommitStep captain value dataName final outs ref) : final.CanPop := by
  cases hstep with
  | dropped hfull => exact hcanPop
  | waits hfull => exact .inr (by simp [pushBack])
  | opens hroom hempty =>
      rw [openSlot_eq]
      exact hcanPop
  | passes hroom hwaiting hpop =>
      rcases popFront_eq_some hpop with ⟨values, names, _, hclients, rfl⟩
      rw [openSlot_eq]
      right
      have hnames : captain.tocommitClients ≠ [] := hcanPop.resolve_left hwaiting
      have hlength := congrArg List.length hclients
      have hpos := List.length_pos_iff.mpr hnames
      simp only [pushBack, List.length_append, List.length_cons, List.length_nil] at hlength
      have hmore : 0 < names.length := by omega
      exact List.length_pos_iff.mp hmore

theorem exists_commitRef (captain : Captain) (value : PropValue) (name : Option Name) :
    ∃ final outs, captain.commitRef value name = some (final, outs) ∧
      (captain.CanPop → final.CanPop) := by
  obtain ⟨⟨final, outs⟩, hcommit⟩ :=
    Option.isSome_iff_exists.mp (captain.commitRef_isSome value name)
  obtain ⟨next, ref, hstep, rfl⟩ := commitRef_step hcommit
  have hnext : captain.CanPop → next.CanPop := fun hcan => hcan.commitStep hstep
  exact ⟨_, outs, hcommit, hnext⟩

theorem exists_call (captain : Captain) {call : Call}
    (himmediate : call.Immediate captain.view.ifMaster) :
    ∃ final outs, captain.call call = some (final, outs) ∧
      (captain.CanPop → final.CanPop) := by
  cases call with
  | commit value name => exact captain.exists_commitRef value name
  | commitData data name =>
      have hmaster : captain.view.ifMaster = true := himmediate
      simp only [Captain.call, commitData, hmaster, if_true]
      exact exists_commitRef { captain with valueId := captain.valueId + 2 ^ 16 } _ name
  | masterChange value =>
      have hmaster : captain.view.ifMaster = true := himmediate
      simp only [Captain.call, masterChange, hmaster, if_true]
      exact captain.exists_commitRef value none
  | crash => exact ⟨{ captain with work := false }, [], rfl, id⟩

theorem exists_runCalls (captain : Captain) (calls : List Call)
    (himmediate : ∀ call ∈ calls, call.Immediate captain.view.ifMaster) :
    ∃ final outs, captain.runCalls calls = some (final, outs) ∧
      (captain.CanPop → final.CanPop) := by
  induction calls generalizing captain with
  | nil => exact ⟨captain, [], rfl, id⟩
  | cons call rest ih =>
      obtain ⟨next, outs, hcall, hnext⟩ :=
        exists_call captain (himmediate call (List.mem_cons_self ..))
      obtain ⟨final, outs', hrest, hfinal⟩ := ih next (by
        rw [(call_callFrame hcall).view]
        exact fun other hmem => himmediate other (List.mem_cons_of_mem call hmem))
      exact ⟨final, outs ++ outs', by simp [runCalls, hcall, hrest],
        fun hcan => hfinal (hnext hcan)⟩

/-- Calls leave the master and the log alone. -/
theorem CallFrame.keepsMaster (hframe : CallFrame captain final) (value : PropValue) :
    final.keepsMaster value = captain.keepsMaster value := by
  rw [Captain.keepsMaster, Captain.keepsMaster, whoami, whoami, hframe.view,
    hframe.chosenValues, hframe.maxChosenWithoutHole]

end Calls

/-- Behind the values that are delivered the node is still the master. -/
theorem ifMaster_addChosenValue {captain final : Captain} {outs : List Output}
    (hshape : LogShape captain) {slot : ℕ} {value : PropValue}
    (hkeeps : captain.keepsMaster value = true)
    (hadd : captain.addChosenValue slot value = some (final, outs)) :
    final.view.ifMaster = true := by
  rw [keepsMaster, Bool.and_eq_true, List.all_eq_true, View.ifMaster, beq_iff_eq] at hkeeps
  obtain ⟨hmaster, hcommands⟩ := hkeeps
  obtain ⟨count, hafter⟩ := addChosenValue_masterId hshape hadd
  have hsame : final.view.masterId = captain.view.masterId := by
    rw [hafter]
    apply masterAfter_eq_self
    intro entry hmem hcommand
    obtain ⟨hlater, hvalue⟩ := mem_deliveredFrom hmem
    have hwaits : entry.2 ∈ value ::
        (captain.chosenValues.drop (captain.maxChosenWithoutHole + 1)).reduceOption := by
      rcases learned_cases hshape hadd hvalue with hold | ⟨_, hnew⟩
      · rw [chosenAt, Option.join_eq_some_iff] at hold
        apply List.mem_cons_of_mem
        rw [List.reduceOption_mem_iff]
        apply List.mem_of_getElem? (i := entry.1 - (captain.maxChosenWithoutHole + 1))
        rwa [List.getElem?_drop, Nat.add_sub_cancel' hlater]
      · exact hnew ▸ List.mem_cons_self
    have hnamed := hcommands entry.2 hwaits
    rw [hcommand] at hnamed
    have hself : toNodeId entry.2.id = captain.whoami := by simpa using hnamed
    exact hself.trans hmaster
  have hnode : final.view.nodeId = captain.view.nodeId := by
    rw [(addChosenValue_learned hshape hadd).1]
  rw [View.ifMaster, beq_iff_eq, hnode, hsame, hmaster]

/-! ## The other handlers -/

section Handlers

variable {config : Config} {captain : Captain}

theorem Sound.exists_handlePromise (henough : config.mode = .rs → config.EnoughShards)
    (hsound : captain.Sound config) {app : AppCalls} {msg : MsgAckPrepare}
    (htakes : captain.Takes app (.promise msg)) :
    ∃ result, captain.handlePromise msg = some result := by
  have hview := hsound.config_eq
  have hmode : captain.view.mode = config.mode := by rw [View.mode, hview]
  simp only [handlePromise]
  cases hinfo : captain.proposers[msg.msgHeader.slotId]? with
  | none => exact ⟨_, rfl⟩
  | some info =>
      dsimp only
      split
      next hstatus =>
        obtain ⟨ack, proposer, hack, hsends⟩ :=
          info.currProposer.exists_handleMsgPromise hview msg (by
            intro hrs
            rw [hmode] at hrs
            have hpromise := htakes (hmode.trans hrs) info hinfo hstatus
            rw [hview] at hpromise
            exact ⟨henough hrs, hsound.codecs hrs _ info hinfo, hpromise⟩)
        simp only [hack, Option.bind_eq_bind, Option.bind_some]
        split
        next =>
          simp only [enterPhaseII]
          split
          next hrs =>
            rcases hsends rfl hrs with ⟨msgs, sent, haccept⟩
            simp only [haccept]
            exact ⟨_, rfl⟩
          next => exact ⟨_, rfl⟩
        next => exact ⟨_, rfl⟩
        next => exact ⟨_, rfl⟩
      next => exact ⟨_, rfl⟩

theorem exists_notifyOwn (captain : Captain) (slot : ℕ) (info : ProposerInfo)
    (chosen : PropValue) {calls : List Call}
    (himmediate : ∀ call ∈ calls, call.Immediate captain.view.ifMaster) :
    ∃ told outs, captain.notifyOwn slot info chosen calls = some (told, outs) ∧
      CallFrame captain told ∧ (captain.CanPop → told.CanPop) := by
  simp only [notifyOwn]
  split
  next =>
    split
    next =>
      obtain ⟨told, outs, hrun, hpop⟩ := exists_runCalls captain calls himmediate
      simp only [hrun, Option.bind_eq_bind, Option.bind_some]
      exact ⟨told, _, rfl, runCalls_callFrame hrun, hpop⟩
    next => exact ⟨_, _, rfl, .refl _, id⟩
  next => exact ⟨_, _, rfl, .refl _, id⟩

/-- The value is stored, and then the callbacks of the delivered values make their calls. -/
theorem exists_addChosenValue_runCalls (hshape : LogShape captain) {slot : ℕ}
    (hentry : captain.HasEntry slot) {value : PropValue} {calls : List Call}
    (himmediate : ∀ call ∈ calls, call.Immediate (captain.keepsMaster value)) :
    ∃ learned applied called outs, captain.addChosenValue slot value = some (learned, applied) ∧
      learned.runCalls (if applied.isEmpty then [] else calls) = some (called, outs) ∧
      (captain.CanPop → called.CanPop) := by
  obtain ⟨stored, learned, applied, hstored, happlied, hadd, _⟩ :=
    addChosenValue_spec hshape hentry value
  have hmaster : ∀ call ∈ (if applied.isEmpty then [] else calls),
      call.Immediate learned.view.ifMaster := by
    intro call hmem
    split at hmem
    next => simp at hmem
    next =>
      exact (himmediate call hmem).mono fun hkeeps =>
        ifMaster_addChosenValue hshape hkeeps hadd
  obtain ⟨called, outs, hrun, hpop⟩ := exists_runCalls learned _ hmaster
  refine ⟨learned, applied, called, outs, hadd, hrun, fun hcan => hpop ?_⟩
  rw [hstored.frame.trans happlied.frame]
  exact hcan

/-- A client that is told, a value that is stored, and calls in between. -/
theorem exists_choose (hshape : LogShape captain) {slot : ℕ} {info : ProposerInfo}
    {chosen : PropValue} {dataName : Name} {app : AppCalls} (hentry : captain.HasEntry slot)
    (hcalls : captain.CallsEnd chosen app)
    (hcanPop : chosen.id = info.currProposer.initValue.id → captain.CanPop) :
    ∃ result, captain.choose slot info chosen dataName app = some result := by
  have hstart : LogShape (captain.setProposer slot { info with proposerStatus := .chosen }) :=
    ⟨hshape.length, hshape.hole_le⟩
  obtain ⟨told, first, htold, hframe, hpop⟩ := exists_notifyOwn
    (captain.setProposer slot { info with proposerStatus := .chosen }) slot
    { info with proposerStatus := .chosen } chosen hcalls.latency
  have hentryTold : told.HasEntry slot := by
    rw [HasEntry, hframe.maxChosen]
    exact hentry
  have hkept : told.keepsMaster chosen = captain.keepsMaster chosen := hframe.keepsMaster chosen
  obtain ⟨learned, applied, called, others, hadd, hrun, hpop'⟩ :=
    exists_addChosenValue_runCalls (hframe.logShape hstart) hentryTold (hkept ▸ hcalls.apply)
  have hcalled : chosen.id = info.currProposer.initValue.id → called.CanPop :=
    fun hown => hpop' (hpop (hcanPop hown))
  obtain ⟨finished, hfinish⟩ : ∃ finished, called.finishChoose slot
      { info with proposerStatus := .chosen } chosen dataName = some finished :=
    Option.isSome_iff_exists.mp (finishChoose_isSome hcalled slot dataName)
  refine ⟨(finished.1, first ++ applied ++ others ++ called.announce slot chosen ++ finished.2), ?_⟩
  simp only [choose, htold, hadd, hrun, hfinish, Option.bind_eq_bind, Option.bind_some]
  rfl

theorem Sound.exists_handleAccepted (hsound : captain.Sound config) (hwork : captain.work = true)
    {app : AppCalls} {msg : MsgAckAccept} (dataName : Name)
    (htakes : captain.Takes app (.accepted msg)) :
    ∃ result, captain.handleAccepted msg dataName app = some result := by
  simp only [handleAccepted]
  cases hinfo : captain.proposers[msg.msgHeader.slotId]? with
  | none => exact ⟨_, rfl⟩
  | some info =>
      dsimp only
      split
      next hstatus =>
        obtain ⟨ack, proposer, hack⟩ : ∃ ack proposer,
            info.currProposer.handleMsgAccepted msg = (ack, proposer) := ⟨_, _, rfl⟩
        simp only [hack]
        cases Proposer.handleMsgAccepted_step hack with
        | drops hold => exact ⟨_, rfl⟩
        | waits hballot hvalue => exact ⟨_, rfl⟩
        | restarts hballot hvalue => exact ⟨_, rfl⟩
        | chooses hballot hvalue htrue =>
            obtain ⟨chosen, hchosen⟩ := Option.isSome_iff_exists.mp hvalue
            have hcurr : (info.currProposer.recordAccept msg).currValue = some chosen := hchosen
            have hget : (info.currProposer.recordAccept msg).getChosenValue.getD {} = chosen := by
              rw [Proposer.getChosenValue, hcurr, Option.getD_some]
            have hchooses : captain.chooses (.accepted msg) = some (msg.msgHeader.slotId,
                { info with
                  currProposer := info.currProposer.recordAccept msg
                  proposerStatus := .chosen }) := by
              simp [chooses, hinfo, hwork, hstatus, hack]
            obtain ⟨hentry, hqueues⟩ := htakes.2 _ _ hchooses
            have hcalls := htakes.1 _ _ hchooses
            simp only [hget] at hcalls ⊢
            apply exists_choose hsound.kept.shape hentry hcalls
            intro hown
            refine hqueues.resolve_left fun hlost => hlost ?_
            change (info.currProposer.recordAccept msg).currValue.map PropValue.id =
              some (info.currProposer.recordAccept msg).initValue.id
            rw [hcurr, Option.map_some, hown]
      next => exact ⟨_, rfl⟩

theorem Sound.exists_handleDecide (hsound : captain.Sound config) {app : AppCalls}
    {msg : MsgDecide} (htakes : captain.Takes app (.decide msg)) :
    ∃ result, captain.handleDecide msg = some result := by
  rcases htakes with ⟨hpos, hentry⟩
  unfold handleDecide
  dsimp only
  split
  next => exact ⟨_, rfl⟩
  next =>
    have hstored : ∃ stored, captain.storedValue msg.msgHeader.slotId msg.valueId =
        some stored := by
      rcases hsound.acceptors with ⟨created, hcreated⟩
      rcases Nat.exists_eq_succ_of_ne_zero hpos.ne' with ⟨before, hslot⟩
      unfold storedValue
      rw [hslot, hcreated, Nat.succ_eq_add_one, List.getElem?_cons_succ, List.getElem?_map]
      cases created[before]? with
      | none => exact ⟨none, rfl⟩
      | some acceptor =>
          cases hmax : acceptor.maxValue with
          | none => exact ⟨none, by simp [hmax]⟩
          | some value =>
              exact ⟨if value.id = msg.valueId then some value else none, by simp [hmax]⟩
    rcases hstored with ⟨stored, hstored⟩
    rw [hstored]
    cases stored with
    | none => exact ⟨_, rfl⟩
    | some value =>
        have hslot : captain.HasEntry msg.msgHeader.slotId := by
          refine hentry.resolve_right fun hnone => ?_
          rw [hstored] at hnone
          simp at hnone
        rcases addChosenValue_spec hsound.kept.shape hslot value with
          ⟨_, final, outs, _, _, hadd, _⟩
        exact ⟨(final, outs), hadd⟩

theorem Sound.exists_handleLearn (henough : config.mode = .rs → config.EnoughShards)
    (hsound : captain.Sound config) {app : AppCalls} {msg : MsgLearn}
    (htakes : captain.Takes app (.learn msg)) :
    ∃ result, captain.handleLearn msg = some result := by
  unfold handleLearn
  dsimp only
  split
  next => exact ⟨_, rfl⟩
  next hknown =>
    rw [not_or, Option.isNone_iff_eq_none] at hknown
    rcases Option.ne_none_iff_exists'.mp hknown.2 with ⟨stored, hstored⟩
    rcases htakes stored hstored with ⟨hnode, hencodable⟩
    have hteach : ∃ teach, captain.answerLearn msg.msgHeader.slotId
        (toNodeId msg.msgHeader.nodeId) = some teach := by
      unfold answerLearn
      split
      next hmode =>
        have hrs : config.mode = .rs := by
          rw [← hsound.config_eq]
          exact hmode
        have hcut := hencodable hmode
        rw [hsound.config_eq] at hcut
        have hpos := (henough hrs).pos
        have hle := (henough hrs).le
        have hsize := (henough hrs).size_le
        rw [View.nodesSize, hsound.config_eq] at hnode
        simp only [rsMsgTeach, hsound.config_eq, hstored, Option.getD_some]
        rw [rsEncode_new _ _ hpos hle, if_pos hcut]
        simp [shards_getElem? (show toNodeId msg.msgHeader.nodeId < config.rsParams.n by omega)]
      next => exact ⟨_, rfl⟩
    rcases hteach with ⟨teach, hteach⟩
    simp only [hteach, sendInterest, hnode, if_true, Option.bind_eq_bind, Option.bind_some]
    exact ⟨_, rfl⟩

theorem Sound.exists_handleTeach (hsound : captain.Sound config) {app : AppCalls}
    {msg : MsgTeach} (htakes : captain.Takes app (.teach msg)) :
    ∃ result, captain.handleTeach msg = some result := by
  unfold handleTeach
  dsimp only
  split
  next => exact ⟨_, rfl⟩
  next =>
    rcases addChosenValue_spec hsound.kept.shape htakes.2 msg.propValue with
      ⟨_, final, outs, _, _, hadd, _⟩
    exact ⟨(final, outs), hadd⟩

theorem exists_handleCommit (captain : Captain) (msg : MsgCommit) :
    ∃ result, captain.handleCommit msg = some result := by
  unfold handleCommit
  split
  next =>
    rcases Option.isSome_iff_exists.mp (captain.commitRef_isSome msg.propValue none) with
      ⟨result, hcommit⟩
    simp only [hcommit, Option.bind_eq_bind, Option.bind_some]
    exact ⟨_, rfl⟩
  next => exact ⟨_, rfl⟩

/-- No handler gets stuck on a message that the captain takes. -/
theorem Sound.exists_handleMsg (henough : config.mode = .rs → config.EnoughShards)
    (hsound : captain.Sound config) {app : AppCalls} {msg : Message} (dataName : Name)
    (htakes : captain.work = true → captain.Takes app msg) :
    ∃ result, captain.handleMsg msg dataName app = some result := by
  unfold handleMsg
  cases hwork : captain.work with
  | false => exact ⟨_, rfl⟩
  | true =>
      have htakes := htakes hwork
      cases msg with
      | prepare msg =>
          rcases hsound.exists_handlePrepare htakes with ⟨result, hresult, _⟩
          exact ⟨result, hresult⟩
      | promise msg => exact hsound.exists_handlePromise henough htakes
      | accept msg =>
          rcases hsound.exists_handleAccept htakes with ⟨result, hresult, _⟩
          exact ⟨result, hresult⟩
      | accepted msg => exact hsound.exists_handleAccepted hwork dataName htakes
      | decide msg => exact hsound.exists_handleDecide htakes
      | learn msg => exact hsound.exists_handleLearn henough htakes
      | teach msg => exact hsound.exists_handleTeach htakes
      | commit msg => exact captain.exists_handleCommit msg
      | command msg => exact ⟨_, rfl⟩

end Handlers

/-! ## Runs -/

section Runs

variable {config : Config} {captain final : Captain} {outs : List Output}

theorem Sound.chain {setting : Setting} (henough : config.mode = .rs → config.EnoughShards)
    (hprepare : ∀ msg, ¬ setting.received (.prepare msg))
    (haccept : ∀ msg, ¬ setting.received (.accept msg))
    (hdecide : ∀ msg, setting.received (.decide msg) → 0 < msg.msgHeader.slotId)
    (hteach : ∀ msg, setting.received (.teach msg) → 0 < msg.msgHeader.slotId)
    (hsound : captain.Sound config) (hchain : OutputChain (Move setting) captain outs final) :
    final.Sound config := by
  have hslots := hchain.bind fun _ _ _ hmove => hmove.slotMoves
  apply hslots.preserves (Sound config) _ hsound
  intro captain outs final hsound hmove
  exact hmove.sound henough hprepare haccept hdecide hteach hsound

theorem Sound.call (henough : config.mode = .rs → config.EnoughShards)
    (hsound : captain.Sound config) {call : Call}
    (hcall : captain.call call = some (final, outs)) : final.Sound config := by
  have hchain : OutputChain (Move { received := fun _ => False }) captain outs final :=
    call_moves trivial hcall
  exact hsound.chain henough (fun _ => id) (fun _ => id) (fun _ => False.elim)
    (fun _ => False.elim) hchain

/-- A message other than a proposer's is only learned from. -/
theorem Sound.handleMsg_learning (henough : config.mode = .rs → config.EnoughShards)
    (hsound : captain.Sound config) {msg : Message} {dataName : Name} {app : AppCalls}
    (hkind : msg.kind ≠ .proposer)
    (hslot : msg.kind = .learner → captain.Takes app msg)
    (hhandle : captain.handleMsg msg dataName app = some (final, outs)) : final.Sound config := by
  have hchain : OutputChain (Move { received := fun other => other = msg, dataName := dataName })
      captain outs final :=
    handleMsg_moves hsound.kept rfl (fun _ _ _ => trivial) (fun _ _ => trivial) hhandle
  apply hsound.chain henough _ _ _ _ hchain
  · intro other heq
    rw [← heq] at hkind
    exact hkind rfl
  · intro other heq
    rw [← heq] at hkind
    exact hkind rfl
  · intro other heq
    rw [← heq] at hslot
    exact (hslot rfl).1
  · intro other heq
    rw [← heq] at hslot
    exact (hslot rfl).1

theorem Sound.handleMsg (henough : config.mode = .rs → config.EnoughShards)
    (hsound : captain.Sound config) {msg : Message} {dataName : Name} {app : AppCalls}
    (htakes : captain.work = true → captain.Takes app msg)
    (hhandle : captain.handleMsg msg dataName app = some (final, outs)) : final.Sound config := by
  cases hwork : captain.work with
  | false =>
      unfold Captain.handleMsg at hhandle
      rw [if_pos hwork, Option.some.injEq, Prod.mk.injEq] at hhandle
      exact hhandle.1 ▸ hsound
  | true =>
      have htakes := htakes hwork
      cases msg with
      | prepare msg =>
          rcases hsound.exists_handlePrepare htakes with ⟨result, hresult, hnext⟩
          unfold Captain.handleMsg at hhandle
          rw [hwork, if_neg (by simp)] at hhandle
          dsimp only at hhandle
          rw [hresult, Option.some.injEq] at hhandle
          rwa [hhandle] at hnext
      | accept msg =>
          rcases hsound.exists_handleAccept htakes with ⟨result, hresult, hnext⟩
          unfold Captain.handleMsg at hhandle
          rw [hwork, if_neg (by simp)] at hhandle
          dsimp only at hhandle
          rw [hresult, Option.some.injEq] at hhandle
          rwa [hhandle] at hnext
      | _ =>
          exact hsound.handleMsg_learning henough (by simp [Message.kind]) (fun _ => htakes)
            hhandle

end Runs

end Captain

/-- A message that is handled asks for nothing that the captain does not have. -/
def Node.Takes (node : Node) : NodeAction → Prop
  | .call _ => True
  | .handle msg _ app => node.captain.work = true → node.captain.Takes app msg

end NDNPaxos
