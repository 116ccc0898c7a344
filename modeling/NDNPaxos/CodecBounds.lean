import NDNPaxos.AcceptShards
import NDNPaxos.ProposerHistory
import Mathlib.Tactic

/-!
# What the codec of a proposer can take

The handlers of the Reed-Solomon build index vectors by node ids and cut strings into
blocks.  Here is when a proposer gets through `handle_msg_promise` and `rs_msg_accept`:
the value to be sent can be cut into blocks, and a value to be rebuilt was reported by
nodes that have a shard, and by enough of them.
-/

namespace NDNPaxos

theorem exists_mapM {α β : Type*} {f : α → Option β} {list : List α}
    (hall : ∀ a ∈ list, (f a).isSome) : ∃ results, list.mapM f = some results := by
  induction list with
  | nil => exact ⟨[], rfl⟩
  | cons a rest ih =>
      rcases Option.isSome_iff_exists.mp (hall a (List.mem_cons_self ..)) with ⟨b, hb⟩
      rcases ih fun other hmem => hall other (List.mem_cons_of_mem a hmem) with ⟨results, hrest⟩
      exact ⟨b :: results, by simp [List.mapM_cons, hb, hrest]⟩

/-- There is a shard for every node, and an `unsigned char` counts the data blocks and
the check blocks, as the loops of `fec_encode` do. -/
structure Config.EnoughShards (config : Config) : Prop where
  pos : 1 ≤ config.rsParams.x
  le : config.rsParams.x ≤ config.rsParams.n
  size_le : config.size ≤ config.rsParams.n
  x_lt : config.rsParams.x < 256
  checks_lt : config.rsParams.n - config.rsParams.x < 256

namespace Proposer

variable {config : Config} {view : View} {proposer after : Proposer}

/-- Both codecs have the parameters of the cluster, and a cache has a shard for every
node. -/
structure CodecsFit (config : Config) (proposer : Proposer) : Prop where
  encoder : proposer.rsEncoder.k = config.rsParams.x ∧ proposer.rsEncoder.n = config.rsParams.n
  decoder : proposer.rsDecoder.k = config.rsParams.x ∧ proposer.rsDecoder.n = config.rsParams.n
  cache : proposer.rsValues = [] ∨ config.size ≤ proposer.rsValues.length

/-- The value with this id and the highest ballot can be rebuilt, or too few shards of
it are there to try. -/
def Recoverable (config : Config) (proposer : Proposer) (valueId : ℕ) : Prop :=
  proposer.reporters valueId ⊆ Finset.range config.rsParams.n ∧
    (config.rsParams.n - (proposer.reporters valueId).card ≤ config.rsParams.f →
      config.rsParams.x ≤ (proposer.reporters valueId).card ∧
        ∀ blocks index lost data decoder,
          collectShards valueId proposer.msgAckPrepare.toList
            (List.replicate config.rsParams.n [], List.replicate config.rsParams.n false,
              config.rsParams.n) = some (blocks, index, lost) →
          proposer.rsDecoder.rsDecode config.fec blocks index lost = some (data, decoder) →
            Encodable config.rsParams.x data)

/-- The proposer can go on with the value that the acknowledgements leave it. -/
def CanContinue (config : Config) (proposer : Proposer) : Prop :=
  match proposer.maxValue with
  | none => proposer.rsValues = [] → Encodable config.rsParams.x proposer.initValue.data
  | some highest => proposer.Recoverable config highest.id

/-- A promise that completes a quorum of consent lets the proposer go on. -/
def TakesPromise (config : Config) (proposer : Proposer) (msg : MsgAckPrepare) : Prop :=
  proposer.currBallot ≤ msg.ballotId → proposer.currValue = none →
    proposer.qr ≤ (proposer.recordPrepare msg).tally.trueCounter →
      (proposer.recordPrepare msg).adoptTally.CanContinue config

/-! ## Shards to send -/

theorem CodecsFit.of_eq (hfit : proposer.CodecsFit config)
    (hencoder : after.rsEncoder = proposer.rsEncoder)
    (hdecoder : after.rsDecoder = proposer.rsDecoder)
    (hcache : after.rsValues = proposer.rsValues) : after.CodecsFit config where
  encoder := by
    rw [hencoder]
    exact hfit.encoder
  decoder := by
    rw [hdecoder]
    exact hfit.decoder
  cache := by
    rw [hcache]
    exact hfit.cache

section Encoding

variable (henough : config.EnoughShards) (hfit : proposer.CodecsFit config)

include henough hfit in
theorem CodecsFit.encode {fec : Fec} {data : Bytes} {blocks : List Bytes} {encoder : RSEncoder}
    (hencode : proposer.rsEncoder.rsEncode fec data = some (blocks, encoder)) :
    encoder.k = config.rsParams.x ∧ encoder.n = config.rsParams.n ∧
      config.size ≤ blocks.length := by
  rcases hfit.encoder with ⟨hk, hn⟩
  have hpos := henough.pos
  have hle := henough.le
  have hsize := henough.size_le
  have hencodable := encodable_of_rsEncode _ (by omega) (by omega) hencode
  rw [rsEncode_eq _ (by omega) (by omega), if_pos hencodable, Option.some.injEq,
    Prod.mk.injEq] at hencode
  rcases hencode with ⟨rfl, rfl⟩
  refine ⟨hk, hn, ?_⟩
  rw [List.length_append, length_shards]
  omega

include henough hfit in
theorem CodecsFit.exists_encode {data : Bytes} (fec : Fec)
    (hencodable : Encodable config.rsParams.x data) :
    ∃ blocks encoder, proposer.rsEncoder.rsEncode fec data = some (blocks, encoder) := by
  rcases hfit.encoder with ⟨hk, hn⟩
  have hpos := henough.pos
  have hle := henough.le
  rw [rsEncode_eq _ (by omega) (by omega), hk, if_pos hencodable]
  exact ⟨_, _, rfl⟩

include henough hfit in
theorem CodecsFit.fillShards (hfill : proposer.fillShards view = some after) :
    after.CodecsFit config ∧ config.size ≤ after.rsValues.length := by
  have hsize := config.size_pos
  by_cases hempty : proposer.rsValues = []
  · rw [Proposer.fillShards, hempty] at hfill
    simp only [List.isEmpty_nil, if_true, Option.bind_eq_bind, Option.bind_eq_some_iff,
      Prod.exists, pure, Option.some.injEq] at hfill
    rcases hfill with ⟨blocks, encoder, hencode, rfl⟩
    rcases hfit.encode henough hencode with ⟨hk, hn, hlength⟩
    exact ⟨⟨⟨hk, hn⟩, hfit.decoder, .inr hlength⟩, hlength⟩
  · have hsame := fillShards_cached hempty hfill
    rw [hsame]
    exact ⟨hfit, hfit.cache.resolve_left hempty⟩

include henough hfit in
theorem CodecsFit.exists_fillShards (view : View)
    (hencodable : proposer.rsValues = [] →
      Encodable config.rsParams.x (proposer.currValue.getD {}).data) :
    ∃ after, proposer.fillShards view = some after := by
  by_cases hempty : proposer.rsValues = []
  · rcases hfit.exists_encode henough view.config.fec (hencodable hempty) with
      ⟨blocks, encoder, hencode⟩
    refine ⟨{ proposer with rsValues := blocks, rsEncoder := encoder }, ?_⟩
    simp [Proposer.fillShards, hempty, hencode]
  · refine ⟨proposer, ?_⟩
    have hcached : proposer.rsValues.isEmpty = false := List.isEmpty_eq_false_iff.mpr hempty
    simp [Proposer.fillShards, hcached]

include henough hfit in
theorem CodecsFit.exists_rsMsgAccept (hview : view.config = config)
    (hencodable : proposer.rsValues = [] →
      Encodable config.rsParams.x (proposer.currValue.getD {}).data) :
    ∃ msgs after, proposer.rsMsgAccept view = some (msgs, after) := by
  rcases hfit.exists_fillShards henough view hencodable with ⟨after, hfill⟩
  have hlength := (hfit.fillShards henough hfill).2
  have hmsgs : ∃ msgs, (List.range view.nodesSize).mapM (fun i => do
      let shard ← after.rsValues[i]?
      some ({ msgHeader := { nodeId := view.whoami, slotId := 0 }
              ballotId := after.currBallot
              propValue := { id := (proposer.currValue.getD {}).id, data := shard } } :
        MsgAccept)) = some msgs := by
    apply exists_mapM
    intro i hmem
    have hi := List.mem_range.mp hmem
    rw [View.nodesSize, hview] at hi
    simp [List.getElem?_eq_getElem (show i < after.rsValues.length by omega)]
  rcases hmsgs with ⟨msgs, hmsgs⟩
  refine ⟨msgs, after, ?_⟩
  simp only [Proposer.rsMsgAccept, hfill, Option.bind_eq_bind, Option.bind_some]
  simp only [Option.bind_eq_bind] at hmsgs
  rw [hmsgs]
  rfl

include henough hfit in
theorem CodecsFit.rsMsgAccept {msgs : List MsgAccept}
    (haccept : proposer.rsMsgAccept view = some (msgs, after)) : after.CodecsFit config :=
  (hfit.fillShards henough (rsMsgAccept_cache haccept).1).1

end Encoding

/-! ## Acknowledgements of PREPARE -/

theorem CodecsFit.recoverValue (henough : config.EnoughShards) (hview : view.config = config)
    (hfit : proposer.CodecsFit config) {highest : PropValue} {ack : AckType}
    (hrecover : proposer.recoverValue view highest = some (ack, after)) :
    after.CodecsFit config := by
  rw [recoverValue_eq_some, hview] at hrecover
  rcases hrecover with ⟨blocks, index, lost, _, ⟨_, _, rfl⟩ |
    ⟨_, _, data, decoder, shards, encoder, hdecode, hencode, rfl⟩⟩
  · exact hfit
  · rcases hfit.encode henough hencode with ⟨hk, hn, hlength⟩
    have hcodec := rsDecode_codec hdecode
    exact ⟨⟨hk, hn⟩, ⟨hcodec.1.trans hfit.decoder.1, hcodec.2.trans hfit.decoder.2⟩,
      .inr hlength⟩

/-- The search for blocks ends inside its vector, and the value can be cut again. -/
theorem CodecsFit.exists_recoverValue (henough : config.EnoughShards)
    (hview : view.config = config) (hfit : proposer.CodecsFit config) {highest : PropValue}
    (hrecoverable : proposer.Recoverable config highest.id) :
    ∃ ack after, proposer.recoverValue view highest = some (ack, after) ∧
      (ack = .continuePhase → config.size ≤ after.rsValues.length) := by
  rcases hrecoverable with ⟨hsubset, henoughShards⟩
  rcases exists_collected hsubset with ⟨blocks, index, lost, hcollect⟩
  have hcollected := collected hcollect
  by_cases hlost : config.rsParams.f < lost
  · refine ⟨.restart, proposer, ?_, by simp⟩
    rw [recoverValue_eq_some, hview]
    exact ⟨blocks, index, lost, hcollect, .inl ⟨hlost, rfl, rfl⟩⟩
  have hkept := Nat.le_of_not_lt hlost
  rw [hcollected.lost] at hkept
  rcases henoughShards hkept with ⟨hcard, hcut⟩
  rw [← hfit.decoder.1] at hcard
  rcases exists_recoveryIndex hcollected.marks (missing_le_card hcard) with ⟨places, hplaces⟩
  obtain ⟨data, decoder, hdecode⟩ : ∃ data decoder,
      proposer.rsDecoder.rsDecode config.fec blocks index lost = some (data, decoder) := by
    simp [RSDecoder.rsDecode, hplaces]
  rcases hfit.exists_encode henough config.fec (hcut _ _ _ _ _ hcollect hdecode) with
    ⟨shards, encoder, hencode⟩
  refine ⟨.continuePhase, proposer.withRecovered { id := highest.id, data } shards encoder decoder,
    ?_, fun _ => (hfit.encode henough hencode).2.2⟩
  rw [recoverValue_eq_some, hview]
  exact ⟨blocks, index, lost, hcollect, .inr ⟨Nat.le_of_not_lt hlost, rfl, data, decoder, shards,
    encoder, hdecode, hencode, rfl⟩⟩

theorem CodecsFit.chooseValue (henough : config.EnoughShards) (hview : view.config = config)
    (hfit : proposer.CodecsFit config) {ack : AckType}
    (hchoose : proposer.chooseValue view = some (ack, after)) : after.CodecsFit config := by
  unfold Proposer.chooseValue at hchoose
  split at hchoose
  next =>
    rw [Option.some.injEq, Prod.mk.injEq] at hchoose
    rw [← hchoose.2]
    exact hfit.of_eq rfl rfl rfl
  next highest hmax =>
    split at hchoose
    next => exact hfit.recoverValue henough hview hchoose
    next =>
      rw [Option.some.injEq, Prod.mk.injEq] at hchoose
      rw [← hchoose.2]
      exact hfit.of_eq rfl rfl rfl

/-- CONTINUE leaves a value that `rs_msg_accept` can send. -/
theorem CodecsFit.exists_chooseValue (henough : config.EnoughShards)
    (hview : view.config = config) (hmode : view.mode = .rs) (hfit : proposer.CodecsFit config)
    (hcan : proposer.CanContinue config) :
    ∃ ack after, proposer.chooseValue view = some (ack, after) ∧
      (ack = .continuePhase → ∃ msgs sent, after.rsMsgAccept view = some (msgs, sent)) := by
  unfold CanContinue at hcan
  split at hcan
  next hmax =>
    have hown : ({ proposer with currValue := some proposer.initValue } : Proposer).CodecsFit
      config := hfit.of_eq rfl rfl rfl
    have hchoose : proposer.chooseValue view =
        some (.continuePhase, { proposer with currValue := some proposer.initValue }) := by
      simp [Proposer.chooseValue, hmax]
    exact ⟨_, _, hchoose, fun _ => hown.exists_rsMsgAccept henough hview hcan⟩
  next highest hmax =>
    rcases hfit.exists_recoverValue henough hview hcan with ⟨ack, after, hrecover, hlength⟩
    have hchoose : proposer.chooseValue view = some (ack, after) := by
      simp [Proposer.chooseValue, hmax, hmode, hrecover]
    refine ⟨ack, after, hchoose, fun hack => ?_⟩
    have hafter := hfit.recoverValue henough hview hrecover
    apply hafter.exists_rsMsgAccept henough hview
    intro hempty
    have hpos := config.size_pos
    have hlong := hlength hack
    rw [hempty, List.length_nil] at hlong
    omega

theorem CodecsFit.handleMsgPromise (henough : config.EnoughShards) (hview : view.config = config)
    (hfit : proposer.CodecsFit config) {msg : MsgAckPrepare} {ack : AckType}
    (hack : proposer.handleMsgPromise view msg = some (ack, after)) : after.CodecsFit config := by
  unfold Proposer.handleMsgPromise at hack
  split at hack
  next =>
    rw [Option.some.injEq, Prod.mk.injEq] at hack
    exact hack.2 ▸ hfit
  next =>
    dsimp only at hack
    split at hack
    next =>
      rw [Option.some.injEq, Prod.mk.injEq] at hack
      rw [← hack.2]
      exact hfit.of_eq rfl rfl rfl
    next =>
      split at hack
      next =>
        have hheard : (proposer.recordPrepare msg).adoptTally.CodecsFit config :=
          hfit.of_eq rfl rfl rfl
        exact hheard.chooseValue henough hview hack
      next =>
        rw [Option.some.injEq, Prod.mk.injEq] at hack
        rw [← hack.2]
        exact hfit.of_eq rfl rfl rfl

/-- Outside the Reed-Solomon build nothing is needed. -/
theorem exists_handleMsgPromise (proposer : Proposer) (hview : view.config = config)
    (msg : MsgAckPrepare)
    (htakes : view.mode = .rs →
      config.EnoughShards ∧ proposer.CodecsFit config ∧ proposer.TakesPromise config msg) :
    ∃ ack after, proposer.handleMsgPromise view msg = some (ack, after) ∧
      (ack = .continuePhase → view.mode = .rs →
        ∃ msgs sent, after.rsMsgAccept view = some (msgs, sent)) := by
  unfold Proposer.handleMsgPromise
  by_cases hdrop : msg.ballotId < proposer.currBallot ∨ proposer.currValue.isSome
  · exact ⟨.drop, proposer, if_pos hdrop, by simp⟩
  rw [if_neg hdrop]
  rw [not_or, Nat.not_lt, Bool.not_eq_true, Option.isSome_eq_false_iff,
    Option.isNone_iff_eq_none] at hdrop
  dsimp only
  split
  next => exact ⟨.notEnough, _, rfl, by simp⟩
  next =>
    split
    next htrue =>
      change ∃ ack after, (proposer.recordPrepare msg).adoptTally.chooseValue view =
        some (ack, after) ∧ _
      by_cases hmode : view.mode = .rs
      · rcases htakes hmode with ⟨henough, hfit, htakes⟩
        have hheard : (proposer.recordPrepare msg).adoptTally.CodecsFit config :=
          hfit.of_eq rfl rfl rfl
        rcases hheard.exists_chooseValue henough hview hmode (htakes hdrop.1 hdrop.2 htrue) with
          ⟨ack, after, hchoose, hsends⟩
        exact ⟨ack, after, hchoose, fun hack _ => hsends hack⟩
      · unfold Proposer.chooseValue
        split
        · exact ⟨.continuePhase, _, rfl, fun _ hrs => absurd hrs hmode⟩
        · rw [if_neg hmode]
          exact ⟨.continuePhase, _, rfl, fun _ hrs => absurd hrs hmode⟩
    next => exact ⟨.restart, _, rfl, by simp⟩

end Proposer

end NDNPaxos
