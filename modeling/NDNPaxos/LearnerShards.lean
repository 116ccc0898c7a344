import NDNPaxos.DecodedValues
import NDNPaxos.Learning
import NDNPaxos.Zfec
import Mathlib.Tactic

/-!
# What learners hold in the Reed-Solomon build

An entry of the log of chosen values is the whole value on a node that got
CHOOSE and the node's shard on one that learned by DECIDE or TEACH.  A LEARN
goes to a node that has announced the slot and is answered with a shard of what
this node holds.  Entries are never overwritten, so the answer is right as long
as no node gets CHOOSE for a slot whose shard it has learned before.
-/

namespace NDNPaxos

def GotChoose (size : ℕ) (nodes : ℕ → Node) (slot id : ℕ) : Prop :=
  ∃ i < size, ∃ value : PropValue, value.id = id ∧
    ((∃ info, (nodes i).captain.proposers[slot]? = some info ∧
        info.proposerStatus = .chosen ∧ info.currProposer.currValue = some value) ∨
      ∃ init, .note (.chose slot value init) ∈ (nodes i).log)

/-- A value id stands for one string, and every ACCEPT has its receiver's shard. -/
structure CorrectAccepts (config : Config) (committed : ℕ → Bytes) (nodes : ℕ → Node) : Prop where
  opened : ∀ i < config.size, ∀ slot value, Opened (nodes i).log slot value →
    value.Whole committed
  accepts : ∀ i < config.size, ∀ dst msg, Sends (nodes i).log dst (.accept msg) →
    msg.propValue.ShardOf config committed dst

/-- Every TEACH has its receiver's shard of the chosen value, and every learned value
is whole or the node's own shard. -/
structure LearnersHoldShards (config : Config) (committed : ℕ → Bytes) (nodes : ℕ → Node) :
    Prop where
  teach : ∀ i < config.size, ∀ dst msg, Sends (nodes i).log dst (.teach msg) →
    msg.propValue.ShardOf config committed dst ∧
      GotChoose config.size nodes msg.msgHeader.slotId msg.propValue.id
  entries : ∀ i < config.size, ∀ slot value, (nodes i).captain.chosenAt slot = some value →
    (value.Whole committed ∨ value.ShardOf config committed i) ∧
      GotChoose config.size nodes slot value.id

/-- The captain gets CHOOSE for a slot that it has not learned, or of which it holds the
whole value, and its proposer has encoded once. -/
def Captain.ChoosesWhole (config : Config) (committed : ℕ → Bytes) (captain : Captain)
    (msg : Message) : Prop :=
  ∀ slot info, captain.chooses msg = some (slot, info) →
    (∀ stored, captain.chosenAt slot = some stored → stored.Whole committed) ∧
      info.currProposer.EncodedOnce config

/-! ## Deciding them -/

instance decidableIsBlock (config : Config) (data : Bytes) (j : ℕ) (block : Bytes) :
    Decidable (config.IsBlock data j block) :=
  decidable_of_iff (((RSEncoder.new config.rsParams.x config.rsParams.n).rsEncode config.fec
    data).bind (fun result => result.1[j]?) = some block) (by
      simp only [Config.IsBlock, Option.bind_eq_some_iff, Prod.exists])

instance decidableShardOf (config : Config) (committed : ℕ → Bytes) (j : ℕ)
    (value : PropValue) : Decidable (value.ShardOf config committed j) :=
  inferInstanceAs (Decidable (config.IsBlock _ _ _))

instance decidableWhole (committed : ℕ → Bytes) (value : PropValue) :
    Decidable (value.Whole committed) :=
  inferInstanceAs (Decidable (_ = _))

def Output.opened? : Output → Option PropValue
  | .note (.propose _ value _ _) => some value
  | _ => none

def Output.accept? : Output → Option (ℕ × PropValue)
  | .send { msg := .accept msg, dst, .. } => some (dst, msg.propValue)
  | _ => none

theorem correctAccepts_iff {config : Config} {committed : ℕ → Bytes} {nodes : ℕ → Node} :
    CorrectAccepts config committed nodes ↔ ∀ i < config.size, ∀ out ∈ (nodes i).log,
      (∀ value ∈ out.opened?, value.Whole committed) ∧
        ∀ entry ∈ out.accept?, entry.2.ShardOf config committed entry.1 := by
  constructor
  · intro hcorrect i hi out hmem
    constructor
    · intro value hvalue
      unfold Output.opened? at hvalue
      split at hvalue
      next slot found name tryTime =>
        rw [← Option.some.inj hvalue]
        exact hcorrect.opened i hi slot found ⟨name, tryTime, hmem⟩
      next => simp at hvalue
    · intro entry hentry
      unfold Output.accept? at hentry
      split at hentry
      next route dst msg =>
        rw [← Option.some.inj hentry]
        exact hcorrect.accepts i hi dst msg ⟨_, hmem, rfl, rfl⟩
      next => simp at hentry
  · intro hall
    constructor
    · intro i hi slot value hopened
      rcases hopened with ⟨name, tryTime, hmem⟩
      exact (hall i hi _ hmem).1 value rfl
    · intro i hi dst msg hsends
      rcases hsends with ⟨⟨route, _, _⟩, hmem, rfl, rfl⟩
      have hshard := (hall i hi _ hmem).2 (_, msg.propValue) rfl
      exact hshard

instance decidableCorrectAccepts (config : Config) (committed : ℕ → Bytes) (nodes : ℕ → Node) :
    Decidable (CorrectAccepts config committed nodes) :=
  decidable_of_iff' _ correctAccepts_iff

instance decidableChoosesWhole (config : Config) (committed : ℕ → Bytes) (captain : Captain)
    (msg : Message) : Decidable (captain.ChoosesWhole config committed msg) :=
  have : ∀ info : ProposerInfo, Decidable (info.currProposer.EncodedOnce config) :=
    fun _ => inferInstanceAs (Decidable (_ ≤ _))
  decidable_of_iff (∀ entry ∈ captain.chooses msg,
    (∀ stored ∈ captain.chosenAt entry.1, stored.Whole committed) ∧
      entry.2.currProposer.EncodedOnce config) Prod.forall

namespace Captain

def HoldsWhole (committed : ℕ → Bytes) (captain : Captain) (slot : ℕ) : Prop :=
  ∃ stored, captain.chosenAt slot = some stored ∧ stored.Whole committed

variable {config : Config} {committed : ℕ → Bytes} {setting : Setting} {captain final : Captain}
  {outs : List Output}

/-! ## What a move does to the entries -/

theorem SlotMove.chosenAt_kept (hshape : LogShape captain)
    (hmove : SlotMove setting captain outs final) {slot : ℕ} {value : PropValue}
    (hvalue : captain.chosenAt slot = some value) : final.chosenAt slot = some value := by
  rcases hmove.learner_cases with hlearner | ⟨_, _, _, _, _, _, _, _, _, _, rfl⟩ | ⟨hsame, _⟩
  · cases hlearner with
    | tell hinfo hstatus hcurr hown hretires => exact hvalue
    | learn hlearn hadd =>
        rcases addChosenValue_learned hshape hadd with ⟨_, _, hchosenAt, _⟩
        rw [hchosenAt slot, hvalue, Option.some_or]
    | teach hreceived hstored hteach hsend => exact hvalue
    | inquire hreceived => exact hvalue
  · exact hvalue
  · rw [hsame slot]
    exact hvalue

theorem SlotMove.chosenAt_cases (hshape : LogShape captain)
    (hmove : SlotMove setting captain outs final) {slot : ℕ} {value : PropValue}
    (hvalue : final.chosenAt slot = some value) :
    captain.chosenAt slot = some value ∨ Learnable setting captain slot value := by
  rcases hmove.learner_cases with hlearner | ⟨_, _, _, _, _, _, _, _, _, _, rfl⟩ | ⟨hsame, _⟩
  · cases hlearner with
    | tell hinfo hstatus hcurr hown hretires => exact .inl hvalue
    | @learn slot' value' outs final hlearn hadd =>
        rcases learned_cases hshape hadd hvalue with hold | ⟨rfl, rfl⟩
        · exact .inl hold
        · exact .inr hlearn
    | teach hreceived hstored hteach hsend => exact .inl hvalue
    | inquire hreceived => exact .inl hvalue
  · exact .inl hvalue
  · rw [hsame slot] at hvalue
    exact .inl hvalue

/-- What the learner of the Reed-Solomon build sends. -/
inductive LearnerSend (setting : Setting) (captain : Captain) (dst : ℕ) : Message → Prop where
  | teach {learn : MsgLearn} {stored : PropValue} {msg : Message}
      (hreceived : setting.received (.learn learn))
      (hstored : captain.chosenAt learn.msgHeader.slotId = some stored)
      (hteach : captain.answerLearn learn.msgHeader.slotId dst = some msg) :
      LearnerSend setting captain dst msg
  | decide {slot : ℕ} {info : ProposerInfo} {value stored : PropValue}
      (hinfo : captain.proposers[slot]? = some info)
      (hstatus : info.proposerStatus = .chosen)
      (hvalue : info.currProposer.currValue = some value)
      (hstored : captain.chosenAt slot = some stored) (hretires : setting.retires slot info) :
      LearnerSend setting captain dst (captain.msgDecide slot value.id)
  | learn {msg : MsgDecide} (hreceived : setting.received (.decide msg))
      (hdst : toNodeId msg.msgHeader.nodeId = dst) :
      LearnerSend setting captain dst
        (.learn { msgHeader := { nodeId := captain.whoami, slotId := msg.msgHeader.slotId } })

theorem SlotMove.learnerSend (hmode : captain.mode = .rs) (hshape : LogShape captain)
    (hmove : SlotMove setting captain outs final) {dst : ℕ} {msg : Message}
    (hsends : Sends outs dst msg) (hkind : msg.kind = .learner) :
    LearnerSend setting captain dst msg := by
  rcases hmove.learner_cases with hlearner |
    ⟨slot, info, value, stored, hinfo, hstatus, hvalue, hstored, hretires, rfl, _⟩ | ⟨_, hkinds⟩
  · rcases hsends with ⟨packet, hmem, hdst, rfl⟩
    cases hlearner with
    | tell hinfo hstatus hvalue hown hretires => split at hmem <;> simp at hmem
    | learn hlearn hadd =>
        rcases addChosenValue_learned hshape hadd with ⟨_, _, _, delivered, rfl⟩
        have hclient : packet.msg.kind = .client := kind_of_mem_deliveryEvents hmem
        simp [hkind] at hclient
    | teach hreceived hstored hteach hsend =>
        rw [sendInterest_eq_some hsend, List.mem_singleton, Output.send.injEq] at hmem
        subst hmem
        subst hdst
        exact .teach hreceived hstored hteach
    | inquire hreceived =>
        rw [sendData, List.mem_singleton, Output.send.injEq] at hmem
        subst hmem
        exact .learn hreceived hdst
  · have hnoTeach : ¬ (captain.mode = .multi ∨ captain.mode = .quorum) := by simp [hmode]
    rw [Captain.announce, if_neg hnoTeach, List.append_nil] at hsends
    rw [sends_broadcastMsg hsends]
    exact .decide hinfo hstatus hvalue hstored hretires
  · exact absurd hsends (not_sends_of_kind (hkind ▸ hkinds))

/-- A shard of a whole value is sent to the node that has asked. -/
theorem shardOf_answerLearn (hmode : captain.mode = .rs) (hconfig : captain.view.config = config)
    {slot dst : ℕ} {stored : PropValue} {msg : MsgTeach}
    (hstored : captain.chosenAt slot = some stored) (hwhole : stored.Whole committed)
    (hteach : captain.answerLearn slot dst = some (.teach msg)) :
    msg.msgHeader.slotId = slot ∧ msg.propValue.id = stored.id ∧
      msg.propValue.ShardOf config committed dst := by
  rw [answerLearn, if_pos hmode] at hteach
  simp only [rsMsgTeach, hstored, Option.getD_some, Option.bind_eq_bind, Option.bind_eq_some_iff,
    Prod.exists, pure, Option.some.injEq, Message.teach.injEq] at hteach
  rcases hteach with ⟨blocks, encoder, hencode, shard, hshard, rfl⟩
  refine ⟨rfl, rfl, blocks, encoder, ?_, hshard⟩
  rw [hconfig, hwhole] at hencode
  exact hencode

theorem SlotMove.chosen_kept (hkept : captain.WellKept)
    (hmove : SlotMove setting captain outs final) {slot : ℕ} {info : ProposerInfo}
    {value : PropValue} (hinfo : captain.proposers[slot]? = some info)
    (hstatus : info.proposerStatus = .chosen)
    (hvalue : info.currProposer.currValue = some value) :
    final.proposers[slot]? = some info ∨ ∃ init, .note (.chose slot value init) ∈ outs := by
  have hinsert : ∀ {key : ℕ} {before after : ProposerInfo}, captain.proposers[key]? = some before →
      before.proposerStatus ≠ .chosen →
        (captain.proposers.insert key after)[slot]? = some info := by
    intro key before after hbefore hother
    have hne : key ≠ slot := by
      intro heq
      rw [heq, hinfo, Option.some.injEq] at hbefore
      rw [← hbefore] at hother
      exact hother hstatus
    simpa [Std.TreeMap.getElem?_insert, hne] using hinfo
  have hpreparing : ∀ {before : ProposerInfo}, before.Preparing →
      before.proposerStatus ≠ .chosen := by
    intro before hbefore heq
    rcases hbefore with hbefore | hbefore <;> simp [hbefore] at heq
  cases hmove with
  | base hmove =>
      left
      cases hmove with
      | forwarding hmove =>
          rw [hmove.spec.1]
          exact hinfo
      | acceptor hmove =>
          rw [hmove.spec.1]
          exact hinfo
      | learner hmove =>
          rw [(hmove.spec hkept.shape).1]
          exact hinfo
      | proposer hmove =>
          cases hmove with
          | promised hmsg hbefore hold hack hstays => exact hinsert hbefore (hpreparing hold)
          | promiseRestart hmsg hbefore hold hack => exact hinsert hbefore (hpreparing hold)
          | @continued msg before proposer outs final hmsg hbefore hold hack henter =>
              cases Proposer.handleMsgPromise_step hack with
              | @continues value' _ hballot hnone htrue hafter =>
                  have hcurr : { before with currProposer := proposer }.currProposer.currValue =
                    some value' := hafter.currValue
                  rcases (enterPhaseII_spec hcurr henter).1 with ⟨rsValues, rsEncoder, rfl⟩
                  exact hinsert hbefore (hpreparing hold)
          | acked hmsg hbefore hold hack hstays => exact hinsert hbefore (by simp [hold])
          | ackRestart hmsg hbefore hold hack => exact hinsert hbefore (by simp [hold])
          | chosen hmsg hbefore hold hack => exact hinsert hbefore (by simp [hold])
  | queue hframe hkind =>
      left
      rw [hframe]
      exact hinfo
  | opens value' name tryTime hskip =>
      left
      have hne : captain.maxSlot + 1 ≠ slot := by
        have hle := (hkept.keys slot info hinfo).2
        omega
      rw [openSlot_eq]
      simpa [Std.TreeMap.getElem?_insert, hne] using hinfo
  | announce hinfo' hstatus' hvalue' hstored hretires => exact .inl hinfo
  | @close slot' info' value' hinfo' hstatus' hvalue' =>
      by_cases heq : slot' = slot
      · subst heq
        rw [hinfo', Option.some.injEq] at hinfo
        subst hinfo
        rw [hvalue', Option.some.injEq] at hvalue
        exact .inr ⟨info'.currProposer.initValue, by simp [hvalue]⟩
      · left
        simpa [withoutProposer, Std.TreeMap.getElem?_erase, heq] using hinfo

end Captain

/-! ## The invariant -/

theorem GotChoose.actOn {size i : ℕ} {nodes : ℕ → Node} {setting : Captain.Setting}
    {final : Captain} {outs : List Output} (hkept : (nodes i).captain.WellKept)
    (hmove : Captain.SlotMove setting (nodes i).captain outs final) {slot id : ℕ}
    (hchoose : GotChoose size nodes slot id) :
    GotChoose size (actOn nodes i (final, outs)) slot id := by
  rcases hchoose with ⟨j, hj, value, hid, ⟨info, hinfo, hstatus, hvalue⟩ | ⟨init, hmem⟩⟩
  · refine ⟨j, hj, value, hid, ?_⟩
    by_cases heq : j = i
    · subst heq
      rcases hmove.chosen_kept hkept hinfo hstatus hvalue with hsame | ⟨init, hmem⟩
      · exact .inl ⟨info, by simpa [Node.after] using hsame, hstatus, hvalue⟩
      · exact .inr ⟨init, mem_log_actOn.mpr (.inr ⟨rfl, hmem⟩)⟩
    · exact .inl ⟨info, by simpa [actOn_ne nodes heq] using hinfo, hstatus, hvalue⟩
  · exact ⟨j, hj, value, hid, .inr ⟨init, mem_log_actOn.mpr (.inl hmem)⟩⟩

theorem CorrectAccepts.before {config : Config} {committed : ℕ → Bytes} {nodes : ℕ → Node}
    {i : ℕ} {result : Captain × List Output}
    (hcorrect : CorrectAccepts config committed (actOn nodes i result)) :
    CorrectAccepts config committed nodes where
  opened := by
    intro j hj slot value hopened
    rcases hopened with ⟨name, tryTime, hmem⟩
    exact hcorrect.opened j hj slot value ⟨name, tryTime, mem_log_actOn.mpr (.inl hmem)⟩
  accepts := by
    intro j hj dst msg hsends
    rcases hsends with ⟨packet, hmem, hpacket⟩
    exact hcorrect.accepts j hj dst msg ⟨packet, mem_log_actOn.mpr (.inl hmem), hpacket⟩

/-- What a message of the learner from node `i` to node `dst` stands for. -/
def RightSend (config : Config) (committed : ℕ → Bytes) (nodes : ℕ → Node) (i dst : ℕ) :
    Message → Prop
  | .teach msg => msg.propValue.ShardOf config committed dst ∧
      GotChoose config.size nodes msg.msgHeader.slotId msg.propValue.id
  | .decide msg => msg.msgHeader.nodeId = i ∧
      (nodes i).captain.HoldsWhole committed msg.msgHeader.slotId ∧
      GotChoose config.size nodes msg.msgHeader.slotId msg.valueId
  | .learn msg => dst < config.size ∧
      (nodes dst).captain.HoldsWhole committed msg.msgHeader.slotId
  | _ => True

/-- Proposers hold whole values and acceptors shards, and whoever has announced a slot
holds the whole value. -/
structure ShardsKept (config : Config) (committed : ℕ → Bytes) (nodes : ℕ → Node) : Prop where
  proposers : ∀ i < config.size, ∀ (slot : ℕ) info,
    (nodes i).captain.proposers[slot]? = some info →
      Captain.WholeValues config committed info.currProposer
  acceptors : ∀ i < config.size, ∀ slot value,
    ((nodes i).captain.acceptorOf slot).maxValue = some value → value.ShardOf config committed i
  entries : ∀ i < config.size, ∀ slot value, (nodes i).captain.chosenAt slot = some value →
    (value.Whole committed ∨ value.ShardOf config committed i) ∧
      GotChoose config.size nodes slot value.id
  sent : ∀ i < config.size, ∀ dst msg, Sends (nodes i).log dst msg →
    RightSend config committed nodes i dst msg

theorem ShardsKept.learnersHoldShards {config : Config} {committed : ℕ → Bytes}
    {nodes : ℕ → Node} (hshards : ShardsKept config committed nodes) :
    LearnersHoldShards config committed nodes where
  teach := fun i hi dst _ hsends => hshards.sent i hi dst _ hsends
  entries := hshards.entries

/-- While the captain handles one message: the proposer that may retire has the slot to
itself, and then nothing is learned from others. -/
structure Captain.Retiring (config : Config) (committed : ℕ → Bytes) (setting : Setting)
    (captain : Captain) : Prop where
  stored : ∀ slot info, setting.retires slot info → ∀ stored,
    captain.chosenAt slot = some stored → stored.Whole committed
  once : ∀ slot info, setting.retires slot info → info.currProposer.EncodedOnce config
  alone : ∀ slot info, setting.retires slot info → ∀ msg, setting.received msg →
    msg.kind ≠ .learner

section Move

variable {deployment : Deployment} {committed : ℕ → Bytes} {nodes : ℕ → Node} {i : ℕ}
  {setting : Captain.Setting} {outs : List Output} {final : Captain}
  (hi : i < deployment.config.size) (hkeeps : deployment.Keeps nodes)
  (hmode : deployment.config.mode = .rs)
  (hreceived : ∀ msg, setting.received msg → Received deployment.config.size nodes i msg)
  (hshards : ShardsKept deployment.config committed nodes)
  (hretiring : Captain.Retiring deployment.config committed setting (nodes i).captain)
  (hmove : Captain.SlotMove setting (nodes i).captain outs final)

include hi hreceived hshards in
/-- What a node may learn is right for it. -/
theorem ShardsKept.learnable (hretiring : Captain.Retiring deployment.config committed setting
      (nodes i).captain) {slot : ℕ} {value : PropValue}
    (hlearn : Captain.Learnable setting (nodes i).captain slot value) :
    (value.Whole committed ∨ value.ShardOf deployment.config committed i) ∧
      GotChoose deployment.config.size nodes slot value.id := by
  cases hlearn with
  | @own info hinfo hstatus hvalue hretires =>
      have hwhole := (hshards.proposers i hi slot info hinfo).currValue value hvalue
        (hretiring.once slot info hretires)
      exact ⟨.inl hwhole, i, hi, value, rfl, .inl ⟨info, hinfo, hstatus, hvalue⟩⟩
  | decided hmsg hslot hvalue hid =>
      rcases hreceived _ hmsg with ⟨j, hj, hsends⟩
      have hchoose := (hshards.sent j hj i _ hsends).2.2
      rw [hslot, ← hid] at hchoose
      exact ⟨.inr (hshards.acceptors i hi slot value hvalue), hchoose⟩
  | @taught msg hmsg hslot hvalue =>
      rcases hreceived _ hmsg with ⟨j, hj, hsends⟩
      have hteach : msg.propValue.ShardOf deployment.config committed i ∧
          GotChoose deployment.config.size nodes msg.msgHeader.slotId msg.propValue.id :=
        hshards.sent j hj i _ hsends
      rw [hslot, hvalue] at hteach
      exact ⟨.inr hteach.1, hteach.2⟩

include hi hkeeps hshards in
theorem Captain.Retiring.move (hretiring : Captain.Retiring deployment.config committed setting
      (nodes i).captain) (hmove : Captain.SlotMove setting (nodes i).captain outs final) :
    Captain.Retiring deployment.config committed setting final where
  stored := by
    intro slot info hretires stored hstored
    rcases hmove.chosenAt_cases (hkeeps.wellKept i hi).shape hstored with hold | hlearn
    · exact hretiring.stored slot info hretires stored hold
    · cases hlearn with
      | @own info' hinfo hstatus hvalue hretires' =>
          exact (hshards.proposers i hi slot info' hinfo).currValue stored hvalue
            (hretiring.once slot info' hretires')
      | decided hmsg hslot hvalue hid =>
          exact absurd rfl (hretiring.alone slot info hretires _ hmsg)
      | taught hmsg hslot hvalue =>
          exact absurd rfl (hretiring.alone slot info hretires _ hmsg)
  once := hretiring.once
  alone := hretiring.alone

include hi hkeeps hmode hreceived hshards hretiring hmove in
theorem ShardsKept.rightSend {dst : ℕ} {msg : Message} (hsends : Sends outs dst msg) :
    RightSend deployment.config committed nodes i dst msg := by
  by_cases hkind : msg.kind = .learner
  · have hmodeAt : (nodes i).captain.mode = .rs := (hkeeps.mode hi).trans hmode
    cases hmove.learnerSend hmodeAt (hkeeps.wellKept i hi).shape hsends hkind with
    | @teach learn stored msg hmsg hstored hteach =>
        rcases Captain.answerLearn_msg hteach with ⟨teach, rfl, _⟩
        rcases hreceived _ hmsg with ⟨j, hj, hlearn⟩
        rcases (hshards.sent j hj i _ hlearn).2 with ⟨whole, hwhole, hdata⟩
        rcases Captain.shardOf_answerLearn hmodeAt (hkeeps.config i hi) hwhole hdata hteach with
          ⟨hslot, hid, hshard⟩
        refine ⟨hshard, ?_⟩
        rw [hslot, hid]
        exact (hshards.entries i hi _ whole hwhole).2
    | @decide slot info value stored hinfo hstatus hvalue hstored hretires =>
        have hwhole := hretiring.stored slot info hretires stored hstored
        exact ⟨hkeeps.whoami hi, ⟨stored, hstored, hwhole⟩,
          i, hi, value, rfl, .inl ⟨info, hinfo, hstatus, hvalue⟩⟩
    | @learn decide hmsg hdst =>
        rcases hreceived _ hmsg with ⟨j, hj, hsent⟩
        rcases hshards.sent j hj i _ hsent with ⟨hnode, hwhole, _⟩
        have hsize := deployment.config.size_le
        rw [hnode, toNodeId_of_lt (by omega)] at hdst
        subst hdst
        exact ⟨hj, hwhole⟩
  · cases msg with
    | decide msg => exact absurd rfl hkind
    | learn msg => exact absurd rfl hkind
    | teach msg => exact absurd rfl hkind
    | _ => trivial

include hi hkeeps hmove in
theorem RightSend.kept {j dst : ℕ} {msg : Message}
    (hright : RightSend deployment.config committed nodes j dst msg) :
    RightSend deployment.config committed (actOn nodes i (final, outs)) j dst msg := by
  have hkept := hkeeps.wellKept i hi
  have hholds : ∀ {k slot : ℕ}, (nodes k).captain.HoldsWhole committed slot →
      (actOn nodes i (final, outs) k).captain.HoldsWhole committed slot := by
    intro k slot hwhole
    rcases hwhole with ⟨stored, hstored, hdata⟩
    refine ⟨stored, ?_, hdata⟩
    by_cases heq : k = i
    · subst heq
      simpa [Node.after] using hmove.chosenAt_kept hkept.shape hstored
    · simpa [actOn_ne nodes heq] using hstored
  cases msg with
  | teach msg => exact ⟨hright.1, hright.2.actOn hkept hmove⟩
  | decide msg => exact ⟨hright.1, hholds hright.2.1, hright.2.2.actOn hkept hmove⟩
  | learn msg => exact ⟨hright.1, hholds hright.2⟩
  | _ => trivial

include hi hkeeps hmode hreceived hshards hmove in
/-- Values are decoded from what the nodes of the cluster have promised. -/
theorem ShardsKept.wholeValues (hx : 1 ≤ deployment.config.rsParams.x)
    (hle : deployment.config.rsParams.x ≤ deployment.config.rsParams.n)
    (hhistories : Histories deployment.config.size nodes)
    (hcorrect : CorrectAccepts deployment.config committed (actOn nodes i (final, outs)))
    (slot : ℕ) (info : ProposerInfo) (hinfo : final.proposers[slot]? = some info) :
    Captain.WholeValues deployment.config committed info.currProposer := by
  have hmodeAt : (nodes i).captain.mode = .rs := (hkeeps.mode hi).trans hmode
  have hall := hshards.proposers i hi
  rcases hmove.proposer_cases (hkeeps.wellKept i hi).shape with hproposer |
    ⟨value, name, tryTime, skipPhaseI, hskip, rfl, rfl⟩ | ⟨⟨closed, rfl⟩, _⟩ | ⟨hsame, _⟩
  · apply Captain.WholeValues.proposerMove hx hle hmodeAt (hkeeps.config i hi) hall _ _ hproposer
      slot info hinfo
    · intro msg before hmsg hbefore hballot key ack hack
      have hlive := (hhistories.proposers i hi).live _ before hbefore
      rcases hlive.recordPrepare_promises (hreceived _ hmsg) rfl hballot key ack hack with
        ⟨hpromise, hkey, _⟩
      have hnode := (promise_kept hkeeps hhistories hpromise).1
      have hsize := deployment.config.size_le
      rw [toNodeId_of_lt (by omega)] at hkey
      rwa [← hkey]
    · intro j msg hsends
      rcases hsends with ⟨packet, hmem, hpacket⟩
      exact hcorrect.accepts i hi j msg ⟨packet, mem_log_actOn.mpr (.inr ⟨rfl, hmem⟩), hpacket⟩
  · have hwhole : value.Whole committed := by
      apply hcorrect.opened i hi ((nodes i).captain.maxSlot + 1) value
      refine ⟨name, tryTime, mem_log_actOn.mpr (.inr ⟨rfl, ?_⟩)⟩
      rw [Captain.openSlot_eq]
      exact List.mem_cons_self ..
    rw [Captain.openSlot_eq] at hinfo
    refine OrderedMap.forall_insert hall ?_ slot info hinfo
    cases skipPhaseI with
    | true =>
        have hmulti := (hskip rfl).1
        rw [hmodeAt] at hmulti
        simp at hmulti
    | false =>
        have hconfig := hkeeps.config i hi
        constructor
        · rw [← hconfig]
          exact ⟨rfl, rfl⟩
        · rw [← hconfig]
          exact ⟨rfl, rfl⟩
        · exact hwhole
        · intro other hother
          simp [Captain.newProposer, Proposer.genNextBallot, Proposer.new] at hother
  · exact OrderedMap.forall_erase hall slot info hinfo
  · rw [hsame] at hinfo
    exact hall slot info hinfo

include hi hreceived hshards hmove hkeeps in
theorem ShardsKept.storesShard (hcorrect : CorrectAccepts deployment.config committed nodes)
    (slot : ℕ) (value : PropValue) (hvalue : (final.acceptorOf slot).maxValue = some value) :
    value.ShardOf deployment.config committed i := by
  have hold := hshards.acceptors i hi
  rcases hmove.acceptor_cases (hkeeps.wellKept i hi).shape with hacceptor | ⟨hsame, _⟩
  · rcases hacceptor.maxValue_cases hvalue with hbefore | ⟨msg, hmsg, _, heq⟩
    · exact hold slot value hbefore
    · rcases hreceived _ hmsg with ⟨j, hj, hsends⟩
      rw [← heq]
      exact hcorrect.accepts j hj i msg hsends
  · rw [Captain.acceptorOf_congr hsame] at hvalue
    exact hold slot value hvalue

include hi hkeeps hmode hreceived hshards hretiring hmove in
theorem ShardsKept.move (hx : 1 ≤ deployment.config.rsParams.x)
    (hle : deployment.config.rsParams.x ≤ deployment.config.rsParams.n)
    (hhistories : Histories deployment.config.size nodes)
    (hcorrect : CorrectAccepts deployment.config committed (actOn nodes i (final, outs))) :
    ShardsKept deployment.config committed (actOn nodes i (final, outs)) := by
  have hshape := (hkeeps.wellKept i hi).shape
  constructor
  · exact forall_actOn (fun _ captain _ => ∀ (slot : ℕ) info,
      captain.proposers[slot]? = some info →
        Captain.WholeValues deployment.config committed info.currProposer) hshards.proposers
      (hshards.wholeValues hi hkeeps hmode hreceived hmove hx hle hhistories hcorrect)
  · exact forall_actOn (fun j captain _ => ∀ slot value,
      (captain.acceptorOf slot).maxValue = some value →
        value.ShardOf deployment.config committed j) hshards.acceptors
      (hshards.storesShard hi hkeeps hreceived hmove hcorrect.before)
  · intro j hj slot value hvalue
    have hentry : (value.Whole committed ∨ value.ShardOf deployment.config committed j) ∧
        GotChoose deployment.config.size nodes slot value.id := by
      by_cases heq : j = i
      · subst heq
        have hvalueAt : final.chosenAt slot = some value := by simpa [Node.after] using hvalue
        rcases hmove.chosenAt_cases hshape hvalueAt with hold | hlearn
        · exact hshards.entries j hj slot value hold
        · exact hshards.learnable hi hreceived hretiring hlearn
      · rw [actOn_ne nodes heq] at hvalue
        exact hshards.entries j hj slot value hvalue
    exact ⟨hentry.1, hentry.2.actOn (hkeeps.wellKept i hi) hmove⟩
  · intro j hj dst msg hsends
    rcases sends_actOn hsends with hold | ⟨rfl, hnew⟩
    · exact (hshards.sent j hj dst msg hold).kept hi hkeeps hmove
    · exact (hshards.rightSend hi hkeeps hmode hreceived hretiring hmove hnew).kept hi hkeeps
        hmove

end Move

theorem Captain.retiring_of_handledBy {config : Config} {committed : ℕ → Bytes} {size i : ℕ}
    {nodes : ℕ → Node} {setting : Setting}
    (hhandled : HandledBy (ChoosesWhole config committed) size nodes i setting) :
    Retiring config committed setting (nodes i).captain := by
  have hmeets : ∀ slot info, setting.retires slot info →
      (∀ stored, (nodes i).captain.chosenAt slot = some stored → stored.Whole committed) ∧
        info.currProposer.EncodedOnce config := by
    intro slot info hretires
    rcases hhandled.retires slot info hretires with ⟨msg, hmsg, hchooses⟩
    exact (hhandled.received msg hmsg).2 slot info hchooses
  constructor
  · exact fun slot info hretires => (hmeets slot info hretires).1
  · exact fun slot info hretires => (hmeets slot info hretires).2
  · intro slot info hretires msg hmsg
    rcases hhandled.retires slot info hretires with ⟨msg', hmsg', hchooses⟩
    rw [hhandled.single msg msg' hmsg hmsg']
    cases msg' with
    | accepted ack => simp [Message.kind]
    | _ => simp [chooses] at hchooses

theorem shardsKept_preserved {deployment : Deployment} {committed : ℕ → Bytes}
    (hmode : deployment.config.mode = .rs) (hx : 1 ≤ deployment.config.rsParams.x)
    (hle : deployment.config.rsParams.x ≤ deployment.config.rsParams.n) :
    PreservedByHandling deployment (Captain.ChoosesWhole deployment.config committed)
      fun nodes => Histories deployment.config.size nodes ∧
        (CorrectAccepts deployment.config committed nodes →
          ShardsKept deployment.config committed nodes) := by
  intro nodes i setting outs final hi hkeeps hhandled hinvariant hchain
  have hresult := chain_preserves
    (fun nodes => deployment.Keeps nodes ∧
      (∀ msg, setting.received msg → Received deployment.config.size nodes i msg) ∧
      Histories deployment.config.size nodes ∧
      (CorrectAccepts deployment.config committed nodes →
        ShardsKept deployment.config committed nodes ∧
          Captain.Retiring deployment.config committed setting (nodes i).captain))
    ?_ ⟨hkeeps, fun msg hmsg => (hhandled.received msg hmsg).1, hinvariant.1, ?_⟩ hchain
  · exact ⟨hresult.2.2.1, fun hcorrect => (hresult.2.2.2 hcorrect).1⟩
  · intro nodes outs final hbefore hmove
    rcases hbefore with ⟨hkeeps, hreceived, hhistories, hshards⟩
    have hallows : StepCondition.Allows {} deployment.config.size nodes i setting :=
      ⟨⟨fun _ _ => trivial, fun _ _ _ => trivial⟩, hreceived⟩
    refine ⟨hkeeps.slotMove hi hmove, fun msg hmsg => (hreceived msg hmsg).actOn _,
      histories_preserved deployment {} nodes i setting outs final hi hkeeps hallows hhistories
        hmove, ?_⟩
    intro hcorrect
    rcases hshards hcorrect.before with ⟨hkept, hretiring⟩
    constructor
    · exact hkept.move hi hkeeps hmode hreceived hretiring hmove hx hle hhistories hcorrect
    · rw [actOn_self]
      exact hretiring.move hi hkeeps hkept hmove
  · exact fun hcorrect => ⟨hinvariant.2 hcorrect, Captain.retiring_of_handledBy hhandled⟩

theorem shardsKept_initial (deployment : Deployment) (committed : ℕ → Bytes) :
    ShardsKept deployment.config committed deployment.node where
  proposers := by
    intro i hi slot info hinfo
    simp [Deployment.node, Captain.new] at hinfo
  acceptors := by
    intro i hi slot value hvalue
    have hnew := (Captain.new_acceptorOf deployment.config i (deployment.windowSize i) slot).2
    change ((deployment.node i).captain.acceptorOf slot).maxValue = none at hnew
    rw [hnew] at hvalue
    simp at hvalue
  entries := by
    intro i hi slot value hvalue
    cases slot <;> simp [Deployment.node, Captain.new, Captain.chosenAt] at hvalue
  sent := fun i hi dst msg hsends => absurd hsends Captain.not_sends_nil

/-- In a run in which nobody gets CHOOSE for a slot whose shard it has learned before,
and with a value that it has encoded once, learners hold their own shards. -/
theorem learners_hold_shards (deployment : Deployment) (hmode : deployment.config.mode = .rs)
    (hx : 1 ≤ deployment.config.rsParams.x)
    (hle : deployment.config.rsParams.x ≤ deployment.config.rsParams.n)
    (committed : ℕ → Bytes) (actions : List Action) (final : Cluster)
    (hmeets : deployment.machine.RunMeets
      (Handles (Captain.ChoosesWhole deployment.config committed)) deployment.initial actions)
    (hrun : deployment.run actions = some final)
    (hcorrect : CorrectAccepts deployment.config committed final.nodes) :
    LearnersHoldShards deployment.config committed final.nodes := by
  have hreaches := reaches_of_handling (shardsKept_preserved hmode hx hle)
    ⟨histories_initial deployment, fun _ => shardsKept_initial deployment committed⟩ hmeets hrun
  exact (hreaches.invariant.2 hcorrect).learnersHoldShards

def fourStrings (valueId : ℕ) : Bytes := if valueId = 65536 then [1, 2, 3, 4] else [5, 6, 7, 8]

/-- Node 3 misses the ACCEPT of node 0 and asks node 0 for the value after its DECIDE. -/
def missedAccept : List Action :=
  .call 0 (.commit { id := 65536, data := [1, 2, 3, 4] } none) ::
    deliveries [] [0, 0, 0] ++ .lose 0 :: deliveries [] [0, 0, 0, 0, 0, 0] ++
    .lose 0 :: deliveries [] [0, 0, 0, 3, 3, 3]

theorem learners_hold_shards_fourNodes :
    ∃ final, Deployment.run { config := (fourNodes .rs).withZfec } missedAccept = some final ∧
      (final.nodes 3).captain.chosenAt 1 = some { id := 65536, data := [9, 26] } ∧
      LearnersHoldShards (fourNodes .rs).withZfec fourStrings final.nodes := by
  have hfinal : (Deployment.run { config := (fourNodes .rs).withZfec } missedAccept).map
        (fun final => ((final.nodes 3).captain.chosenAt 1,
          decide (CorrectAccepts (fourNodes .rs).withZfec fourStrings final.nodes))) =
      some (some { id := 65536, data := [9, 26] }, true) := by
    decide +kernel
  rcases Option.map_eq_some_iff.mp hfinal with ⟨final, hrun, hfinal⟩
  rw [Prod.mk.injEq, decide_eq_true_iff] at hfinal
  exact ⟨final, hrun, hfinal.1, learners_hold_shards { config := (fourNodes .rs).withZfec } rfl
    (by decide) (by decide) fourStrings _ final (by decide +kernel) hrun hfinal.2⟩

/-- Node 1 is the first master; the default parameters are 2 data blocks and quorums of 4. -/
def sixNodes : Config where
  mode := .rs
  hosts := ["node0", "node1", "node2", "node3", "node4", "node5"]
  masterId := 1
  hosts_pos := by decide
  hosts_le := by decide

def sixStrings (valueId : ℕ) : Bytes := if valueId = 65537 then [1, 2, 3, 4] else [5, 6, 7, 8]

/-- Node 2 learns its shard from node 1, and then its own proposer for the slot recovers
the value from the nodes 0, 2, 3 and 4 and gets CHOOSE; node 5 hears of neither ACCEPT. -/
def chosenTwice : List Action :=
  .call 1 (.commit { id := 65537, data := [1, 2, 3, 4] } none) ::
    deliveries [] [1, 5, 0, 0, 0, 2, 2, 2, 3, 7, 2, 2, 2, 2, 3, 3, 3, 5, 5] ++
  .call 2 (.commit { id := 65538, data := [5, 6, 7, 8] } none) ::
    deliveries [] [10, 13, 8, 9, 9, 10, 10, 10, 12, 15, 10, 11, 11, 12, 12, 12, 14, 19, 22,
      16, 21, 21]

/-- Node 5 is taught a shard of the shard of node 2. -/
theorem learners_hold_shards_counterexample :
    ∃ final, Deployment.run { config := sixNodes.withZfec } chosenTwice = some final ∧
      Deployment.RunByCommo { config := sixNodes.withZfec } chosenTwice ∧
      CorrectAccepts sixNodes.withZfec sixStrings final.nodes ∧
      (final.nodes 5).captain.chosenAt 1 = some { id := 65537, data := [181] } ∧
      sixNodes.withZfec.IsBlock [1, 2, 3, 4] 5 [33, 98] ∧
      ¬ LearnersHoldShards sixNodes.withZfec sixStrings final.nodes := by
  have hfinal : (Deployment.run { config := sixNodes.withZfec } chosenTwice).map
        (fun final => (decide (CorrectAccepts sixNodes.withZfec sixStrings final.nodes),
          (final.nodes 5).captain.chosenAt 1)) =
      some (true, some { id := 65537, data := [181] }) := by
    decide +kernel
  rcases Option.map_eq_some_iff.mp hfinal with ⟨final, hrun, hfinal⟩
  rw [Prod.mk.injEq, decide_eq_true_iff] at hfinal
  refine ⟨final, hrun, by decide +kernel, hfinal.1, hfinal.2, by decide +kernel, ?_⟩
  intro hhold
  have hentry := (hhold.entries 5 (by decide) 1 _ hfinal.2).1
  exact absurd hentry (by decide +kernel)

end NDNPaxos
