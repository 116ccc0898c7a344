import NDNPaxos.AcceptShards
import NDNPaxos.ClusterMoves
import Mathlib.Tactic

/-!
# Values that proposers decode

In a run whose ACCEPT messages all carry the shard of their receiver, the value
that a proposer holds is whole unless it has been decoded a second time: the
blocks that were encoded first are in the ACCEPT messages, and blocks determine
their string.
-/

namespace NDNPaxos

def Config.IsBlock (config : Config) (data : Bytes) (j : ℕ) (block : Bytes) : Prop :=
  ∃ blocks encoder,
    (RSEncoder.new config.rsParams.x config.rsParams.n).rsEncode config.fec data =
      some (blocks, encoder) ∧ blocks[j]? = some block

def PropValue.Whole (committed : ℕ → Bytes) (value : PropValue) : Prop :=
  value.data = committed value.id

def PropValue.ShardOf (config : Config) (committed : ℕ → Bytes) (j : ℕ) (value : PropValue) :
    Prop :=
  config.IsBlock (committed value.id) j value.data

/-- The encoder has encoded one value, and that once. -/
def Proposer.EncodedOnce (config : Config) (proposer : Proposer) : Prop :=
  proposer.rsEncoder.encodedData.length ≤ config.rsParams.n

/-- Blocks determine their string. -/
theorem eq_of_blocks {config : Config} (hx : 1 ≤ config.rsParams.x)
    (hle : config.rsParams.x ≤ config.rsParams.n) {data data' : Bytes}
    (hblocks : ∀ j < config.rsParams.x, ∀ block,
      (shards config.fec config.rsParams.x config.rsParams.n data)[j]? = some block →
        config.IsBlock data' j block) : data = data' := by
  have hsame : (List.range config.rsParams.x).map
      (shard config.fec config.rsParams.x config.rsParams.n data) =
      (List.range config.rsParams.x).map
        (shard config.fec config.rsParams.x config.rsParams.n data') := by
    apply List.map_congr_left
    intro j hmem
    have hlt := List.mem_range.mp hmem
    rcases hblocks j hlt _ (shards_getElem? (by omega)) with ⟨blocks, encoder, hencode, hblock⟩
    rw [rsEncode_new _ _ hx hle] at hencode
    split at hencode
    next =>
      rw [Option.some.injEq, Prod.mk.injEq] at hencode
      rw [← hencode.1, shards_getElem? (by omega), Option.some.injEq] at hblock
      exact hblock.symm
    next => simp at hencode
  have hflat : ∀ data : Bytes, ((List.range config.rsParams.x).map
      (shard config.fec config.rsParams.x config.rsParams.n data)).flatten = data :=
    fun _ => flatten_primary hx
  rw [← hflat data, hsame, hflat data']

namespace Captain

/-- The codecs have the parameters of the cluster, and the values are whole; a value
that has been decoded is as long as only one was encoded. -/
structure WholeValues (config : Config) (committed : ℕ → Bytes) (proposer : Proposer) : Prop where
  encoder : proposer.rsEncoder.k = config.rsParams.x ∧ proposer.rsEncoder.n = config.rsParams.n
  decoder : proposer.rsDecoder.k = config.rsParams.x ∧ proposer.rsDecoder.n = config.rsParams.n
  initValue : proposer.initValue.Whole committed
  currValue : ∀ value, proposer.currValue = some value → proposer.EncodedOnce config →
    value.Whole committed

section PhaseII

variable {captain final : Captain} {committed : ℕ → Bytes} {slot : ℕ} {info : ProposerInfo}
  {outs : List Output}

theorem enterPhaseII_shards (hmode : captain.mode = .rs)
    (henter : captain.enterPhaseII slot info = some (final, outs)) :
    ∃ msgs proposer, info.currProposer.rsMsgAccept captain.view = some (msgs, proposer) ∧
      final = captain.setProposer slot
        { info with currProposer := proposer, proposerStatus := .phaseII } ∧
      ∀ j < captain.view.nodesSize, ∃ msg, Sends outs j (.accept msg) ∧
        msg.propValue.id = (info.currProposer.currValue.getD {}).id ∧
        proposer.rsValues[j]? = some msg.propValue.data := by
  rw [enterPhaseII, if_pos hmode] at henter
  simp only [Option.bind_eq_bind, Option.bind_eq_some_iff, Prod.exists, pure,
    Option.some.injEq, Prod.mk.injEq] at henter
  rcases henter with ⟨msgs, proposer, haccept, hfinal, houts⟩
  refine ⟨msgs, proposer, haccept, hfinal.symm, ?_⟩
  intro j hj
  rcases Proposer.rsMsgAccept_cache haccept with ⟨_, hlength, hmsgs⟩
  have hlt : j < msgs.length := by omega
  have hget : msgs[j]? = some msgs[j] := List.getElem?_eq_getElem hlt
  rcases hmsgs j _ hget with ⟨hid, hblock⟩
  refine ⟨{ msgs[j] with msgHeader := { nodeId := captain.whoami, slotId := slot } }, ?_, hid,
    hblock⟩
  rw [← houts]
  refine ⟨{ route := if j = captain.whoami then .self else .interest, dst := j, msg := _ }, ?_,
    rfl, rfl⟩
  apply List.mem_map.mpr
  exact ⟨(msgs[j], j), List.mem_zipIdx_iff_getElem?.mpr (by simp), rfl⟩

theorem fillShards_codecs {proposer filled : Proposer} {view : View}
    (hpos : 0 < proposer.rsEncoder.k) (hle : proposer.rsEncoder.k ≤ proposer.rsEncoder.n)
    (hfill : proposer.fillShards view = some filled) :
    filled.rsEncoder.k = proposer.rsEncoder.k ∧ filled.rsEncoder.n = proposer.rsEncoder.n := by
  by_cases hempty : proposer.rsValues = []
  · rw [(Proposer.fillShards_empty hempty hpos hle hfill).2.2]
    exact ⟨rfl, rfl⟩
  · rw [Proposer.fillShards_cached hempty hfill]
    exact ⟨rfl, rfl⟩

variable {config : Config} (hx : 1 ≤ config.rsParams.x)
  (hle : config.rsParams.x ≤ config.rsParams.n) (hmode : captain.mode = .rs)

include hx hle hmode

/-- A proposer that proposes its own value keeps it, encoded or not. -/
theorem WholeValues.own (hwhole : WholeValues config committed info.currProposer)
    (hvalue : info.currProposer.currValue = some info.currProposer.initValue)
    (henter : captain.enterPhaseII slot info = some (final, outs)) :
    ∃ proposer, WholeValues config committed proposer ∧ final = captain.setProposer slot
      { info with currProposer := proposer, proposerStatus := .phaseII } := by
  rcases enterPhaseII_shards hmode henter with ⟨msgs, proposer, haccept, hfinal, _⟩
  have hframe := (rsMsgAccept_spec haccept).1
  rcases hwhole.encoder with ⟨hk, hn⟩
  have hcodecs := fillShards_codecs (by omega) (by omega)
    (Proposer.rsMsgAccept_cache haccept).1
  refine ⟨proposer, ⟨⟨hcodecs.1.trans hk, hcodecs.2.trans hn⟩, ?_, ?_, ?_⟩, hfinal⟩
  · rw [hframe]
    exact hwhole.decoder
  · rw [hframe]
    exact hwhole.initValue
  · intro value hcurr _
    rw [hframe] at hcurr
    have heq := hvalue.symm.trans hcurr
    rw [Option.some.injEq] at heq
    rw [← heq]
    exact hwhole.initValue

/-- When the blocks of a decoded value are the first that were encoded, the ACCEPT
messages show them, and they are right only if the value is whole. -/
theorem WholeValues.recovered {proposer : Proposer} {value : PropValue} {blocks : List Bytes}
    {encoder : RSEncoder} {decoder : RSDecoder} (hconfig : captain.view.config = config)
    (hwhole : WholeValues config committed proposer)
    (hproposer : info.currProposer = proposer.withRecovered value blocks encoder decoder)
    (hencode : proposer.rsEncoder.rsEncode config.fec value.data = some (blocks, encoder))
    (hdecoder : decoder.k = config.rsParams.x ∧ decoder.n = config.rsParams.n)
    (hsize : config.rsParams.x ≤ config.size)
    (henter : captain.enterPhaseII slot info = some (final, outs))
    (haccepts : ∀ j msg, Sends outs j (.accept msg) →
      msg.propValue.ShardOf config committed j) :
    WholeValues config committed info.currProposer ∧ final = captain.setProposer slot
      { info with proposerStatus := .phaseII } := by
  rcases enterPhaseII_shards hmode henter with ⟨msgs, sent, haccept, hfinal, hsends⟩
  rcases hwhole.encoder with ⟨hk, hn⟩
  rw [rsEncode_eq _ (by omega) (by omega)] at hencode
  split at hencode
  next =>
    rw [Option.some.injEq, Prod.mk.injEq, hk, hn] at hencode
    rcases hencode with ⟨hblocks, hencoder⟩
    have hcached : info.currProposer.rsValues ≠ [] := by
      have hlength : (shards config.fec config.rsParams.x config.rsParams.n value.data).length =
        config.rsParams.n := length_shards
      rw [hproposer]
      change blocks ≠ []
      intro hempty
      rw [← hblocks, List.append_eq_nil_iff] at hempty
      rw [hempty.2, List.length_nil] at hlength
      omega
    have hsame := Proposer.fillShards_cached hcached (Proposer.rsMsgAccept_cache haccept).1
    subst hsame
    refine ⟨⟨?_, ?_, ?_, ?_⟩, hfinal⟩
    · rw [hproposer, Proposer.withRecovered, ← hencoder]
      exact ⟨rfl, rfl⟩
    · rw [hproposer]
      exact hdecoder
    · rw [hproposer]
      exact hwhole.initValue
    · intro other hother honce
      rw [hproposer] at hother honce hsends
      change some value = some other at hother
      rw [Option.some.injEq] at hother
      subst hother
      have hfirst : proposer.rsEncoder.encodedData = [] := by
        change encoder.encodedData.length ≤ config.rsParams.n at honce
        rw [← hencoder] at honce
        dsimp only at honce
        rw [List.length_append, length_shards] at honce
        exact List.eq_nil_of_length_eq_zero (by omega)
      rw [hfirst, List.nil_append] at hblocks
      apply eq_of_blocks hx hle
      intro j hj block hblock
      rcases hsends j (by rw [View.nodesSize, hconfig]; omega) with ⟨msg, hmsg, hid, hget⟩
      have hshard := haccepts j msg hmsg
      change msg.propValue.id = value.id at hid
      change blocks[j]? = some msg.propValue.data at hget
      rw [← hblocks, hblock, Option.some.injEq] at hget
      rwa [PropValue.ShardOf, hid, ← hget] at hshard
  next => simp at hencode

end PhaseII

section Moves

variable {config : Config} {committed : ℕ → Bytes} {setting : Setting} {captain final : Captain}
  {outs : List Output}

/-- A value is decoded from the shards of at least `x` nodes, so there are as many. -/
theorem WholeValues.continued (hx : 1 ≤ config.rsParams.x)
    (hle : config.rsParams.x ≤ config.rsParams.n) (hmode : captain.mode = .rs)
    (hconfig : captain.view.config = config) {msg : MsgAckPrepare} {info : ProposerInfo}
    {proposer : Proposer} {slot : ℕ} (hwhole : WholeValues config committed info.currProposer)
    (hreaders : ∀ (key : ℕ) ack,
      (info.currProposer.recordPrepare msg).msgAckPrepare[key]? = some ack → key < config.size)
    (hack : info.currProposer.handleMsgPromise captain.view msg =
      some (.continuePhase, proposer))
    (henter : captain.enterPhaseII slot { info with currProposer := proposer } =
      some (final, outs))
    (haccepts : ∀ j msg, Sends outs j (.accept msg) →
      msg.propValue.ShardOf config committed j) :
    ∃ proposer, WholeValues config committed proposer ∧ final = captain.setProposer slot
      { info with currProposer := proposer, proposerStatus := .phaseII } := by
  have hchoose := (Proposer.handleMsgPromise_continue hack).2
  have hadopted : WholeValues config committed
      (info.currProposer.recordPrepare msg).adoptTally :=
    ⟨hwhole.encoder, hwhole.decoder, hwhole.initValue, hwhole.currValue⟩
  rw [Proposer.chooseValue] at hchoose
  split at hchoose
  next =>
    rw [Option.some.injEq, Prod.mk.injEq] at hchoose
    rcases hchoose with ⟨_, rfl⟩
    apply WholeValues.own hx hle hmode _ rfl henter
    constructor
    · exact hwhole.encoder
    · exact hwhole.decoder
    · exact hwhole.initValue
    · intro value hcurr _
      rw [Option.some.injEq] at hcurr
      rw [← hcurr]
      exact hwhole.initValue
  next highest hmax =>
    have hview : captain.view.mode = .rs := hmode
    rw [if_pos hview, Proposer.recoverValue_eq_some] at hchoose
    rcases hchoose with ⟨blocks, index, lost, hcollect, ⟨_, hother, _⟩ |
      ⟨_, _, data, decoder, shards, encoder, hdecode, hencode, hafter⟩⟩
    · simp at hother
    · rw [hconfig] at hcollect hdecode hencode
      have hmarks := (Proposer.collected hcollect).marks
      rw [← hadopted.decoder.2] at hmarks
      have hsize : config.rsParams.x ≤ config.size := by
        have hcard := Proposer.le_card_of_rsDecode hmarks hdecode
        rw [hadopted.decoder.1] at hcard
        apply hcard.trans
        rw [← Finset.card_range config.size]
        apply Finset.card_le_card
        intro node hmem
        rcases Proposer.mem_reporters.mp hmem with ⟨ack, hget, _⟩
        exact Finset.mem_range.mpr (hreaders node ack hget)
      have hcodec := Proposer.rsDecode_codec hdecode
      have hdecoder : decoder.k = config.rsParams.x ∧ decoder.n = config.rsParams.n :=
        ⟨hcodec.1.trans hadopted.decoder.1, hcodec.2.trans hadopted.decoder.2⟩
      have hproposer : ({ info with currProposer := proposer } : ProposerInfo).currProposer =
        (info.currProposer.recordPrepare msg).adoptTally.withRecovered
          { id := highest.id, data := data } shards encoder decoder := hafter
      have hresult := hadopted.recovered hx hle hmode hconfig hproposer hencode hdecoder hsize
        henter haccepts
      exact ⟨proposer, hresult⟩

theorem WholeValues.proposerMove (hx : 1 ≤ config.rsParams.x)
    (hle : config.rsParams.x ≤ config.rsParams.n) (hmode : captain.mode = .rs)
    (hconfig : captain.view.config = config)
    (hall : ∀ (slot : ℕ) info, captain.proposers[slot]? = some info →
      WholeValues config committed info.currProposer)
    (hreaders : ∀ msg info, setting.received (.promise msg) →
      captain.proposers[msg.msgHeader.slotId]? = some info →
      info.currProposer.currBallot ≤ msg.ballotId → ∀ (key : ℕ) ack,
        (info.currProposer.recordPrepare msg).msgAckPrepare[key]? = some ack → key < config.size)
    (haccepts : ∀ j msg, Sends outs j (.accept msg) →
      msg.propValue.ShardOf config committed j)
    (hmove : ProposerMove setting captain outs final) (slot : ℕ) (info : ProposerInfo)
    (hinfo : final.proposers[slot]? = some info) :
    WholeValues config committed info.currProposer := by
  cases hmove with
  | @promised msg before ack proposer hmsg hbefore hstatus hack hstays =>
      have hwhole := hall _ before hbefore
      refine OrderedMap.forall_insert hall ?_ slot info hinfo
      cases Proposer.handleMsgPromise_step hack with
      | drops hold => exact hwhole
      | waits hballot hvalue hfew =>
          exact ⟨hwhole.encoder, hwhole.decoder, hwhole.initValue, hwhole.currValue⟩
      | restarts hballot hvalue => exact absurd rfl hstays.2
      | continues hballot hvalue htrue hafter => exact absurd rfl hstays.1
  | @promiseRestart msg before proposer hmsg hbefore hstatus hack =>
      have hwhole := hall _ before hbefore
      rw [restart_eq] at hinfo
      refine OrderedMap.forall_insert hall ?_ slot info hinfo
      cases Proposer.handleMsgPromise_step hack with
      | restarts hballot hvalue =>
          exact ⟨hwhole.encoder, hwhole.decoder, hwhole.initValue, by simp⟩
  | @continued msg before proposer outs final hmsg hbefore hstatus hack henter =>
      have hballot : before.currProposer.currBallot ≤ msg.ballotId := by
        cases Proposer.handleMsgPromise_step hack with
        | continues hballot hvalue htrue hafter => exact hballot
      rcases (hall _ before hbefore).continued hx hle hmode hconfig
        (hreaders msg before hmsg hbefore hballot) hack henter haccepts with
        ⟨after, hwhole, rfl⟩
      exact OrderedMap.forall_insert hall hwhole slot info hinfo
  | @acked msg before ack proposer hmsg hbefore hstatus hack hstays =>
      have hwhole := hall _ before hbefore
      refine OrderedMap.forall_insert hall ?_ slot info hinfo
      cases Proposer.handleMsgAccepted_step hack with
      | drops hold => exact hwhole
      | waits hballot hvalue =>
          exact ⟨hwhole.encoder, hwhole.decoder, hwhole.initValue, hwhole.currValue⟩
      | restarts hballot hvalue => simp at hstays
      | chooses hballot hvalue htrue => simp at hstays
  | @ackRestart msg before proposer hmsg hbefore hstatus hack =>
      have hwhole := hall _ before hbefore
      rw [restart_eq] at hinfo
      refine OrderedMap.forall_insert hall ?_ slot info hinfo
      cases Proposer.handleMsgAccepted_step hack with
      | restarts hballot hvalue =>
          exact ⟨hwhole.encoder, hwhole.decoder, hwhole.initValue, by simp⟩
  | @chosen msg before proposer hmsg hbefore hstatus hack =>
      have hwhole := hall _ before hbefore
      refine OrderedMap.forall_insert hall ?_ slot info hinfo
      cases Proposer.handleMsgAccepted_step hack with
      | chooses hballot hvalue htrue =>
          exact ⟨hwhole.encoder, hwhole.decoder, hwhole.initValue, hwhole.currValue⟩

end Moves

end Captain

end NDNPaxos
