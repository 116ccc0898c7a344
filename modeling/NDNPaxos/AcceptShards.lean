import NDNPaxos.Session
import NDNPaxos.ShardCollection
import Mathlib.Tactic

/-!
# The shards that a proposer sends

The ACCEPT messages of a proposer of the Reed-Solomon build over its whole life.
Encoder and decoder append to what they have computed before and the shards are
cached, so the blocks sent are those of the first value that was ever encoded.
-/

namespace NDNPaxos

theorem mapM_forall₂ {α β : Type*} {f : α → Option β} {list : List α} {results : List β}
    (hmap : list.mapM f = some results) :
    List.Forall₂ (fun a b => f a = some b) list results := by
  induction list generalizing results with
  | nil =>
      simp only [List.mapM_nil, pure, Option.some.injEq] at hmap
      rw [← hmap]
      exact .nil
  | cons a rest ih =>
      simp only [List.mapM_cons, Option.bind_eq_bind, Option.bind_eq_some_iff, pure,
        Option.some.injEq] at hmap
      rcases hmap with ⟨b, hb, others, hothers, rfl⟩
      exact .cons hb (ih hothers)

namespace Proposer

variable {proposer after : Proposer} {view : View} {msgs : List MsgAccept}

/-- The ACCEPT for node `i` carries entry `i` of the cache. -/
theorem rsMsgAccept_cache (haccept : proposer.rsMsgAccept view = some (msgs, after)) :
    proposer.fillShards view = some after ∧ msgs.length = view.nodesSize ∧
      ∀ (i : ℕ) msg, msgs[i]? = some msg →
        msg.propValue.id = (proposer.currValue.getD {}).id ∧
          after.rsValues[i]? = some msg.propValue.data := by
  simp only [rsMsgAccept, Option.bind_eq_bind, Option.bind_eq_some_iff, pure,
    Option.some.injEq, Prod.mk.injEq] at haccept
  rcases haccept with ⟨filled, hfill, msgs', hmsgs, rfl, rfl⟩
  have hall := List.forall₂_iff_get.mp (mapM_forall₂ hmsgs)
  refine ⟨hfill, by rw [← hall.1, List.length_range], ?_⟩
  intro i msg hget
  rcases List.getElem?_eq_some_iff.mp hget with ⟨hlt, rfl⟩
  have hmsg := hall.2 i (by rwa [hall.1]) hlt
  simp only [List.get_eq_getElem, List.getElem_range, Option.bind_eq_some_iff,
    Option.some.injEq] at hmsg
  rcases hmsg with ⟨block, hblock, heq⟩
  rw [← heq]
  exact ⟨rfl, hblock⟩

theorem fillShards_cached (hcached : proposer.rsValues ≠ [])
    (hfill : proposer.fillShards view = some after) : after = proposer := by
  have hnonempty : proposer.rsValues.isEmpty = false := by
    rw [List.isEmpty_eq_false_iff]
    exact hcached
  rw [fillShards, hnonempty] at hfill
  exact (Option.some.inj hfill).symm

theorem fillShards_empty (hempty : proposer.rsValues = [])
    (hpos : 0 < proposer.rsEncoder.k) (hle : proposer.rsEncoder.k ≤ proposer.rsEncoder.n)
    (hfill : proposer.fillShards view = some after) :
    Encodable proposer.rsEncoder.k (proposer.currValue.getD {}).data ∧
      after.rsValues = proposer.rsEncoder.encodedData ++
        shards view.config.fec proposer.rsEncoder.k proposer.rsEncoder.n
          (proposer.currValue.getD {}).data ∧
      after.rsEncoder = { proposer.rsEncoder with encodedData := after.rsValues } := by
  rw [fillShards, hempty] at hfill
  simp only [List.isEmpty_nil, if_true, Option.bind_eq_bind, Option.bind_eq_some_iff,
    Prod.exists, pure, Option.some.injEq] at hfill
  rcases hfill with ⟨blocks, encoder, hencode, rfl⟩
  have hencodable := encodable_of_rsEncode _ hpos hle hencode
  rw [rsEncode_eq _ hpos hle, if_pos hencodable, Option.some.injEq, Prod.mk.injEq] at hencode
  rcases hencode with ⟨hblocks, hencoder⟩
  exact ⟨hencodable, hblocks.symm, by rw [← hencoder, hblocks]⟩

theorem handleMsgPromise_continue {msg : MsgAckPrepare}
    (hhandle : proposer.handleMsgPromise view msg = some (.continuePhase, after)) :
    proposer.qr ≤ (proposer.recordPrepare msg).tally.trueCounter ∧
      (proposer.recordPrepare msg).adoptTally.chooseValue view =
        some (.continuePhase, after) := by
  unfold handleMsgPromise at hhandle
  split at hhandle
  · simp at hhandle
  dsimp only at hhandle
  split at hhandle
  · simp at hhandle
  split at hhandle
  next htrue => exact ⟨htrue, hhandle⟩
  next => simp at hhandle

end Proposer

namespace Session

section Statement

variable (view : View) (committed : ℕ → Bytes)

/-- A message from an acceptor: a positive one reports nothing, or its node's shard
of a value that was committed. -/
def ReportsShard : SessionInput → Prop
  | .promise msg => msg.reply = true →
      (msg.maxPropValue = none ∧ msg.maxBallotId = 0) ∨
        ∃ value ∈ msg.maxPropValue, 0 < value.id ∧
          value.data = shard view.config.fec view.config.rsParams.x view.config.rsParams.n
            (committed value.id) (toNodeId msg.msgHeader.nodeId)
  | .accepted _ => True

def Rebuilds (session : Session) (msg : MsgAckPrepare) (highest : PropValue) : Prop :=
  session.proposer.currBallot ≤ msg.ballotId ∧ session.proposer.currValue = none ∧
    session.proposer.qr ≤ (session.proposer.recordPrepare msg).tally.trueCounter ∧
    view.config.rsParams.n -
      ((session.proposer.recordPrepare msg).adoptTally.reporters highest.id).card ≤
        view.config.rsParams.f

/-- A value is decoded before any other was encoded, from shards that it survives; or
the first one encoded had its id. -/
def OneValueEncoded (session : Session) : SessionInput → Prop
  | .promise msg => ∀ highest ∈ (session.proposer.recordPrepare msg).adoptTally.maxValue,
      Rebuilds view session msg highest →
        (session.accepts = [] ∧
          Survives view.config.fec view.config.rsParams.x (committed highest.id)
            ((session.proposer.recordPrepare msg).adoptTally.reporters highest.id)) ∨
        ∃ first ∈ session.accepts.head?, first.1.id = highest.id
  | .accepted _ => True

/-- Message `i` of a CONTINUE has block `i` of the value that it names. -/
def MatchesLabel (entry : PropValue × List MsgAccept) : Prop :=
  entry.2.length = view.nodesSize ∧
    ∀ (i : ℕ) msg, entry.2[i]? = some msg → msg.propValue.id = entry.1.id ∧
      ∀ blocks encoder,
        (RSEncoder.new view.config.rsParams.x view.config.rsParams.n).rsEncode view.config.fec
          (committed entry.1.id) = some (blocks, encoder) →
        blocks[i]? = some msg.propValue.data

instance (input : SessionInput) : Decidable (ReportsShard view committed input) :=
  match input with
  | .promise _ => inferInstanceAs (Decidable (_ → _ ∨ _))
  | .accepted _ => inferInstanceAs (Decidable True)

instance (session : Session) (msg : MsgAckPrepare) (highest : PropValue) :
    Decidable (Rebuilds view session msg highest) :=
  inferInstanceAs (Decidable (_ ∧ _ ∧ _ ∧ _))

instance (session : Session) (input : SessionInput) :
    Decidable (OneValueEncoded view committed session input) :=
  match input with
  | .promise msg => inferInstanceAs (Decidable
      (∀ highest ∈ (session.proposer.recordPrepare msg).adoptTally.maxValue,
        Rebuilds view session msg highest →
          (session.accepts = [] ∧
            Survives view.config.fec view.config.rsParams.x (committed highest.id)
              ((session.proposer.recordPrepare msg).adoptTally.reporters highest.id)) ∨
          ∃ first ∈ session.accepts.head?, first.1.id = highest.id))
  | .accepted _ => inferInstanceAs (Decidable True)

end Statement

/-- Cache and encoder begin with the blocks of the value. -/
structure Caches (view : View) (committed : ℕ → Bytes) (proposer : Proposer) (valueId : ℕ) :
    Prop where
  size : view.nodesSize ≤ view.config.rsParams.n
  rsValues : shards view.config.fec view.config.rsParams.x view.config.rsParams.n
    (committed valueId) <+: proposer.rsValues
  encodedData : shards view.config.fec view.config.rsParams.x view.config.rsParams.n
    (committed valueId) <+: proposer.rsEncoder.encodedData

/-- The codecs and the cache hold the first encoded value, whatever came later. -/
structure Coherent (view : View) (committed : ℕ → Bytes) (session : Session) : Prop where
  encoder : session.proposer.rsEncoder.k = view.config.rsParams.x ∧
    session.proposer.rsEncoder.n = view.config.rsParams.n
  decoder : session.proposer.rsDecoder.k = view.config.rsParams.x ∧
    session.proposer.rsDecoder.n = view.config.rsParams.n
  unused : session.accepts = [] → session.proposer.rsValues = [] ∧
    session.proposer.rsEncoder.encodedData = [] ∧ session.proposer.rsDecoder.decodedData = []
  first : ∀ first ∈ session.accepts.head?, Caches view committed session.proposer first.1.id
  own : session.proposer.maxValue = none →
    ∀ first ∈ session.accepts.head?, first.1.id = session.proposer.initValue.id
  initValue : session.proposer.initValue.data = committed session.proposer.initValue.id
  known : ∀ highest ∈ session.proposer.maxValue, 0 < highest.id
  recorded : ∀ (node : ℕ) ack, session.proposer.msgAckPrepare[node]? = some ack →
    ReportsShard view committed (.promise ack) ∧ toNodeId ack.msgHeader.nodeId = node
  labels : ∀ entry ∈ session.accepts, MatchesLabel view committed entry

theorem coherent_start {view : View} {committed : ℕ → Bytes} {value : PropValue}
    (hvalue : value.data = committed value.id) :
    (start view value false).Coherent view committed := by
  constructor
  · exact ⟨rfl, rfl⟩
  · exact ⟨rfl, rfl⟩
  · exact fun _ => ⟨rfl, rfl, rfl⟩
  · intro first hmem
    simp [start] at hmem
  · intro _ first hmem
    simp [start] at hmem
  · exact hvalue
  · intro highest hmem
    simp [start, Proposer.genNextBallot, Proposer.new] at hmem
  · intro node ack hget
    simp [start, Proposer.genNextBallot, Proposer.new] at hget
  · intro entry hmem
    simp [start] at hmem

section Steps

variable {view : View} {committed : ℕ → Bytes} {session next : Session}

theorem Coherent.update (hcoherent : session.Coherent view committed)
    (haccepts : next.accepts = session.accepts)
    (hrsValues : next.proposer.rsValues = session.proposer.rsValues)
    (hencoder : next.proposer.rsEncoder = session.proposer.rsEncoder)
    (hdecoder : next.proposer.rsDecoder = session.proposer.rsDecoder)
    (hinit : next.proposer.initValue = session.proposer.initValue)
    (hnone : next.proposer.maxValue = none → session.proposer.maxValue = none)
    (hknown : ∀ highest ∈ next.proposer.maxValue, 0 < highest.id)
    (hrecorded : ∀ (node : ℕ) ack, next.proposer.msgAckPrepare[node]? = some ack →
      ReportsShard view committed (.promise ack) ∧ toNodeId ack.msgHeader.nodeId = node) :
    next.Coherent view committed := by
  constructor
  · rw [hencoder]
    exact hcoherent.encoder
  · rw [hdecoder]
    exact hcoherent.decoder
  · rw [haccepts, hrsValues, hencoder, hdecoder]
    exact hcoherent.unused
  · rw [haccepts]
    intro first hmem
    have hcaches := hcoherent.first first hmem
    exact ⟨hcaches.size, hrsValues ▸ hcaches.rsValues, hencoder ▸ hcaches.encodedData⟩
  · intro hmax
    rw [haccepts, hinit]
    exact hcoherent.own (hnone hmax)
  · rw [hinit]
    exact hcoherent.initValue
  · exact hknown
  · exact hrecorded
  · rw [haccepts]
    exact hcoherent.labels

theorem Coherent.record (hcoherent : session.Coherent view committed) {msg : MsgAckPrepare}
    (hreports : ReportsShard view committed (.promise msg)) (node : ℕ) (ack : MsgAckPrepare)
    (hget : (session.proposer.recordPrepare msg).msgAckPrepare[node]? = some ack) :
    ReportsShard view committed (.promise ack) ∧ toNodeId ack.msgHeader.nodeId = node := by
  rcases OrderedMap.insert_cases hget with ⟨rfl, rfl⟩ | ⟨_, hold⟩
  · exact ⟨hreports, rfl⟩
  · exact hcoherent.recorded node ack hold

/-- What the end of a round does to the highest value. -/
theorem Coherent.tally (hcoherent : session.Coherent view committed) {msg : MsgAckPrepare}
    (hreports : ReportsShard view committed (.promise msg)) :
    ((session.proposer.recordPrepare msg).adoptTally.maxValue = none →
      session.proposer.maxValue = none) ∧
    ∀ highest ∈ (session.proposer.recordPrepare msg).adoptTally.maxValue, 0 < highest.id := by
  have hspec := (session.proposer.recordPrepare msg).tally_spec
  rw [Proposer.adoptTally]
  rcases hspec.source with ⟨_, hvalue⟩ | ⟨ack, hmem, hreply, hlt, _, hvalue⟩
  · rw [hvalue]
    exact ⟨id, hcoherent.known⟩
  · rcases mem_recorded.mp hmem with ⟨node, hget⟩
    have hshard := (hcoherent.record hreports node ack hget).1 hreply
    rw [hvalue]
    constructor
    · intro hnone
      simp at hnone
    · intro highest hmem
      rw [Option.mem_some_iff] at hmem
      rcases hshard with ⟨_, hzero⟩ | ⟨value, hreported, hpos, _⟩
      · rw [hzero] at hlt
        exact absurd hlt (Nat.not_lt_zero _)
      · rw [← hmem, Option.mem_def.mp hreported]
        exact hpos

/-- The messages match their label when the cache begins with the value's blocks. -/
theorem matchesLabel (hx : 1 ≤ view.config.rsParams.x)
    (hle : view.config.rsParams.x ≤ view.config.rsParams.n)
    (hsize : view.nodesSize ≤ view.config.rsParams.n) {value : PropValue} {msgs : List MsgAccept}
    {rsValues : List Bytes} (hlength : msgs.length = view.nodesSize)
    (hmsgs : ∀ (i : ℕ) msg, msgs[i]? = some msg → msg.propValue.id = value.id ∧
      rsValues[i]? = some msg.propValue.data)
    (hextends : shards view.config.fec view.config.rsParams.x view.config.rsParams.n
      (committed value.id) <+: rsValues) :
    MatchesLabel view committed (value, msgs) := by
  refine ⟨hlength, ?_⟩
  intro i msg hget
  rcases hmsgs i msg hget with ⟨hid, hblock⟩
  refine ⟨hid, ?_⟩
  intro blocks encoder hencode
  rw [rsEncode_new _ _ hx hle] at hencode
  split at hencode
  next =>
    rw [Option.some.injEq, Prod.mk.injEq] at hencode
    rw [← hencode.1]
    have hlt : i < (shards view.config.fec view.config.rsParams.x view.config.rsParams.n
        (committed value.id)).length := by
      have hlt : i < msgs.length := (List.getElem?_eq_some_iff.mp hget).1
      rw [length_shards]
      omega
    rcases hextends with ⟨rest, hrest⟩
    rw [← hblock, ← hrest, List.getElem?_append_left hlt]
  next => simp at hencode

theorem enterPhaseII_cached (hx : 1 ≤ view.config.rsParams.x)
    (hle : view.config.rsParams.x ≤ view.config.rsParams.n) {proposer : Proposer}
    {value : PropValue} {msgs : List MsgAccept} {after : Proposer}
    (hvalue : proposer.currValue = some value)
    (haccept : proposer.rsMsgAccept view = some (msgs, after))
    (hextends : shards view.config.fec view.config.rsParams.x view.config.rsParams.n
      (committed value.id) <+: proposer.rsValues) :
    after = proposer ∧ (view.nodesSize ≤ view.config.rsParams.n →
      MatchesLabel view committed (value, msgs)) := by
  rcases Proposer.rsMsgAccept_cache haccept with ⟨hfill, hlength, hmsgs⟩
  rw [hvalue, Option.getD_some] at hmsgs
  have hcached : proposer.rsValues ≠ [] := by
    intro hempty
    rw [hempty, List.prefix_nil] at hextends
    have hblocks : (shards view.config.fec view.config.rsParams.x view.config.rsParams.n
      (committed value.id)).length = view.config.rsParams.n := length_shards
    rw [hextends, List.length_nil] at hblocks
    omega
  have hsame := Proposer.fillShards_cached hcached hfill
  subst hsame
  exact ⟨rfl, fun hsize => matchesLabel hx hle hsize hlength hmsgs hextends⟩

theorem nodesSize_le_of_rsMsgAccept {proposer after : Proposer} {msgs : List MsgAccept}
    (hpos : 0 < view.nodesSize) (haccept : proposer.rsMsgAccept view = some (msgs, after)) :
    view.nodesSize ≤ after.rsValues.length := by
  rcases Proposer.rsMsgAccept_cache haccept with ⟨_, hlength, hmsgs⟩
  have hlast : view.nodesSize - 1 < msgs.length := by omega
  have hblock := (hmsgs _ _ (List.getElem?_eq_getElem hlast)).2
  rcases List.getElem?_eq_some_iff.mp hblock with ⟨hlt, _⟩
  omega

/-- A proposer that has chosen a value: nothing is encoded yet and the value is its
own, or the cache begins with the value's blocks. -/
structure Ready (view : View) (committed : ℕ → Bytes) (session : Session) (value : PropValue)
    (after : Proposer) : Prop where
  currValue : after.currValue = some value
  encoder : after.rsEncoder.k = view.config.rsParams.x ∧
    after.rsEncoder.n = view.config.rsParams.n
  same : ∀ first ∈ session.accepts.head?, first.1.id = value.id
  cache : (after.rsValues = [] ∧ after.rsEncoder.encodedData = [] ∧
      value.data = committed value.id) ∨
    (shards view.config.fec view.config.rsParams.x view.config.rsParams.n
        (committed value.id) <+: after.rsValues ∧
      shards view.config.fec view.config.rsParams.x view.config.rsParams.n
        (committed value.id) <+: after.rsEncoder.encodedData ∧
      (view.nodesSize ≤ view.config.rsParams.n ∨
        after.rsValues.length = view.config.rsParams.n))

theorem Ready.accepts (hx : 1 ≤ view.config.rsParams.x)
    (hle : view.config.rsParams.x ≤ view.config.rsParams.n) (hpos : 0 < view.nodesSize)
    {value : PropValue} {after sent : Proposer} {msgs : List MsgAccept}
    (hready : Ready view committed session value after)
    (haccept : after.rsMsgAccept view = some (msgs, sent)) :
    Caches view committed sent value.id ∧ MatchesLabel view committed (value, msgs) ∧
      sent.rsEncoder.k = view.config.rsParams.x ∧ sent.rsEncoder.n = view.config.rsParams.n := by
  have hlength := nodesSize_le_of_rsMsgAccept hpos haccept
  rcases hready.encoder with ⟨hk, hn⟩
  rcases hready.cache with ⟨hempty, hunused, hdata⟩ | ⟨hextends, hencoded, hsize⟩
  · rcases Proposer.rsMsgAccept_cache haccept with ⟨hfill, hcount, hmsgs⟩
    rcases Proposer.fillShards_empty hempty (by omega) (by omega) hfill with
      ⟨_, hvalues, hencoder⟩
    rw [hready.currValue, Option.getD_some, hk, hn, hunused, List.nil_append, hdata] at hvalues
    rw [hready.currValue, Option.getD_some] at hmsgs
    have hfits : view.nodesSize ≤ view.config.rsParams.n := by
      rwa [hvalues, length_shards] at hlength
    have hbegins : shards view.config.fec view.config.rsParams.x view.config.rsParams.n
        (committed value.id) <+: sent.rsValues := by
      rw [hvalues]
    refine ⟨⟨hfits, hbegins, ?_⟩, matchesLabel hx hle hfits hcount hmsgs hbegins, ?_⟩
    · rw [hencoder]
      exact hbegins
    · rw [hencoder]
      exact ⟨hk, hn⟩
  · rcases enterPhaseII_cached hx hle hready.currValue haccept hextends with ⟨rfl, hlabel⟩
    have hfits : view.nodesSize ≤ view.config.rsParams.n := by
      rcases hsize with hfits | hexact
      · exact hfits
      · omega
    exact ⟨⟨hfits, hextends, hencoded⟩, hlabel hfits, hk, hn⟩

theorem Coherent.enter (hcoherent : session.Coherent view committed)
    (hmode : view.mode = .rs) (hx : 1 ≤ view.config.rsParams.x)
    (hle : view.config.rsParams.x ≤ view.config.rsParams.n) (hpos : 0 < view.nodesSize)
    {value : PropValue} {after : Proposer} (hready : Ready view committed session value after)
    (henter : session.enterPhaseII view after = some next)
    (hdecoder : after.rsDecoder.k = view.config.rsParams.x ∧
      after.rsDecoder.n = view.config.rsParams.n)
    (hinit : after.initValue = session.proposer.initValue)
    (hown : after.maxValue = none → value.id = session.proposer.initValue.id)
    (hknown : ∀ highest ∈ after.maxValue, 0 < highest.id)
    (hrecorded : ∀ (node : ℕ) ack, after.msgAckPrepare[node]? = some ack →
      ReportsShard view committed (.promise ack) ∧ toNodeId ack.msgHeader.nodeId = node) :
    next.Coherent view committed := by
  simp only [enterPhaseII, hmode, if_true, Option.bind_eq_bind, Option.bind_eq_some_iff,
    Prod.exists, pure, Option.some.injEq] at henter
  rcases henter with ⟨msgs, sent, haccept, rfl⟩
  rcases hready.accepts hx hle hpos haccept with ⟨hcaches, hlabel, hencoder⟩
  have hframe := (Captain.rsMsgAccept_spec haccept).1
  rw [hready.currValue, Option.getD_some]
  have hfirst : ∀ first ∈ (session.accepts ++ [(value, msgs)]).head?, first.1.id = value.id := by
    intro first hmem
    rw [List.head?_append] at hmem
    cases hhead : session.accepts.head? with
    | none =>
        rw [hhead] at hmem
        rw [← Option.some.inj hmem]
    | some old =>
        rw [hhead] at hmem
        rw [← Option.some.inj hmem]
        exact hready.same old hhead
  constructor
  · exact hencoder
  · rw [hframe]
    exact hdecoder
  · intro hnone
    simp at hnone
  · intro first hmem
    rw [hfirst first hmem]
    exact hcaches
  · intro hmax first hmem
    rw [hframe] at hmax ⊢
    rw [hfirst first hmem, hinit]
    exact hown hmax
  · rw [hframe]
    change after.initValue.data = committed after.initValue.id
    rw [hinit]
    exact hcoherent.initValue
  · rw [hframe]
    exact hknown
  · rw [hframe]
    exact hrecorded
  · intro entry hmem
    rcases List.mem_append.mp hmem with hold | hnew
    · exact hcoherent.labels entry hold
    · rw [List.mem_singleton.mp hnew]
      exact hlabel

theorem Coherent.carries (hcoherent : session.Coherent view committed) {msg : MsgAckPrepare}
    (hreports : ReportsShard view committed (.promise msg)) {valueId : ℕ} (hpos : 0 < valueId)
    {blocks : List Bytes} {map : List Bool} {lost : ℕ}
    (hcollected : Proposer.Collected (session.proposer.recordPrepare msg).adoptTally valueId
      view.config.rsParams.n blocks map lost) :
    Carries view.config.fec view.config.rsParams.x view.config.rsParams.n (committed valueId)
      ((session.proposer.recordPrepare msg).adoptTally.reporters valueId) blocks := by
  constructor
  · exact hcollected.subset
  · intro node hmem
    rcases Proposer.mem_reporters.mp hmem with ⟨ack, hget, hcounts⟩
    rw [hcollected.block node ack hget hcounts]
    rcases Proposer.reports_iff.mp hcounts with ⟨hreply, hid⟩
    rcases hcoherent.record hreports node ack hget with ⟨hshard, hnode⟩
    rcases hshard hreply with ⟨hnone, _⟩ | ⟨value, hreported, _, hdata⟩
    · rw [hnone, Option.getD_none] at hid
      exact absurd hid (Nat.ne_of_gt hpos)
    · rw [Option.mem_def.mp hreported, Option.getD_some] at hid ⊢
      rw [hdata, hnode, ← hid]
  · exact hcollected.none

theorem eq_new {decoder : RSDecoder} {x n : ℕ} (hk : decoder.k = x) (hn : decoder.n = n)
    (hempty : decoder.decodedData = []) : decoder = RSDecoder.new x n := by
  rcases decoder with ⟨k, n', decodedData⟩
  subst hk hn hempty
  rfl

/-- The decoder's first string is the value. -/
theorem Coherent.decoded_eq (hcoherent : session.Coherent view committed)
    (hlawful : view.config.fec.Lawful view.config.rsParams.x view.config.rsParams.n)
    (hx : 1 ≤ view.config.rsParams.x) {msg : MsgAckPrepare}
    (hreports : ReportsShard view committed (.promise msg)) (hunused : session.accepts = [])
    {valueId : ℕ} (hpos : 0 < valueId) {blocks : List Bytes} {map : List Bool} {lost : ℕ}
    (hcollected : Proposer.Collected (session.proposer.recordPrepare msg).adoptTally valueId
      view.config.rsParams.n blocks map lost)
    (hsurvives : Survives view.config.fec view.config.rsParams.x (committed valueId)
      ((session.proposer.recordPrepare msg).adoptTally.reporters valueId))
    {data : Bytes} {decoder : RSDecoder}
    (hdecode : session.proposer.rsDecoder.rsDecode view.config.fec blocks map lost =
      some (data, decoder)) : data = committed valueId := by
  rcases hcoherent.decoder with ⟨hk, hn⟩
  rw [eq_new hk hn (hcoherent.unused hunused).2.2] at hdecode
  have henough := Proposer.le_card_of_rsDecode hcollected.marks hdecode
  rcases hlawful.rsDecode_new hcollected.marks henough blocks lost with
    ⟨index, src, hdecoded, hresult⟩
  have hsame := hresult.symm.trans hdecode
  rw [Option.some.injEq, Prod.mk.injEq] at hsame
  rw [← hsame.1]
  exact merged_eq hdecoded (hcoherent.carries hreports hpos hcollected) hlawful hx hsurvives

theorem Coherent.decoder_frame (hcoherent : session.Coherent view committed)
    {blocks : List Bytes} {map : List Bool} {lost : ℕ} {data : Bytes} {decoder : RSDecoder}
    (hdecode : session.proposer.rsDecoder.rsDecode view.config.fec blocks map lost =
      some (data, decoder)) :
    decoder.k = view.config.rsParams.x ∧ decoder.n = view.config.rsParams.n := by
  simp only [RSDecoder.rsDecode, Option.bind_eq_bind, Option.bind_eq_some_iff, pure,
    Option.some.injEq, Prod.mk.injEq] at hdecode
  rcases hdecode with ⟨_, _, _, rfl⟩
  exact hcoherent.decoder

/-- An own value, which is the only one that has been encoded. -/
theorem Coherent.ready_own (hcoherent : session.Coherent view committed)
    {after : Proposer} (hnone : session.proposer.maxValue = none)
    (hvalue : after.currValue = some session.proposer.initValue)
    (hrsValues : after.rsValues = session.proposer.rsValues)
    (hencoder : after.rsEncoder = session.proposer.rsEncoder) :
    Ready view committed session session.proposer.initValue after := by
  constructor
  · exact hvalue
  · rw [hencoder]
    exact hcoherent.encoder
  · exact hcoherent.own hnone
  · rw [hrsValues, hencoder]
    cases haccepts : session.accepts with
    | nil =>
        rcases hcoherent.unused haccepts with ⟨hempty, hunused, _⟩
        exact .inl ⟨hempty, hunused, hcoherent.initValue⟩
    | cons first rest =>
        have hhead : first ∈ session.accepts.head? := by
          rw [haccepts]
          rfl
        have hcaches := hcoherent.first first hhead
        rw [hcoherent.own hnone first hhead] at hcaches
        exact .inr ⟨hcaches.rsValues, hcaches.encodedData, .inl hcaches.size⟩

/-- A recovered value, under the condition. -/
theorem Coherent.ready_recovered (hcoherent : session.Coherent view committed)
    (hlawful : view.config.fec.Lawful view.config.rsParams.x view.config.rsParams.n)
    (hx : 1 ≤ view.config.rsParams.x) (hle : view.config.rsParams.x ≤ view.config.rsParams.n)
    {msg : MsgAckPrepare} (hreports : ReportsShard view committed (.promise msg))
    (hcondition : OneValueEncoded view committed session (.promise msg))
    (hballot : session.proposer.currBallot ≤ msg.ballotId)
    (hvalue : session.proposer.currValue = none)
    (htrue : session.proposer.qr ≤ (session.proposer.recordPrepare msg).tally.trueCounter)
    {highest : PropValue}
    (hmax : (session.proposer.recordPrepare msg).adoptTally.maxValue = some highest)
    {after : Proposer}
    (hrecover : (session.proposer.recordPrepare msg).adoptTally.recoverValue view highest =
      some (.continuePhase, after)) :
    ∃ data decoder shards encoder,
      after = (session.proposer.recordPrepare msg).adoptTally.withRecovered
        { id := highest.id, data } shards encoder decoder ∧
      (decoder.k = view.config.rsParams.x ∧ decoder.n = view.config.rsParams.n) ∧
      Ready view committed session { id := highest.id, data } after := by
  have hpos := (hcoherent.tally hreports).2 highest hmax
  rcases Proposer.recoverValue_eq_some.mp hrecover with
    ⟨blocks, map, lost, hcollect, ⟨_, hack, _⟩ |
      ⟨hlost, _, data, decoder, blocks', encoder, hdecode, hencode, hafter⟩⟩
  · simp at hack
  have hcollected := Proposer.collected hcollect
  rw [hcollected.lost] at hlost
  refine ⟨data, decoder, blocks', encoder, hafter, hcoherent.decoder_frame hdecode, ?_⟩
  rcases hcoherent.encoder with ⟨hk, hn⟩
  change session.proposer.rsEncoder.rsEncode view.config.fec data = _ at hencode
  have hencodable := encodable_of_rsEncode _ (by omega) (by omega) hencode
  rw [rsEncode_eq _ (by omega) (by omega), if_pos hencodable, Option.some.injEq,
    Prod.mk.injEq, hk, hn] at hencode
  rcases hencode with ⟨hblocks, hencoder⟩
  have hkeeps : after.rsEncoder.k = view.config.rsParams.x ∧
      after.rsEncoder.n = view.config.rsParams.n := by
    rw [hafter]
    change encoder.k = _ ∧ encoder.n = _
    rw [← hencoder]
    exact ⟨rfl, rfl⟩
  have hcondition := hcondition highest hmax ⟨hballot, hvalue, htrue, hlost⟩
  have hstored : after.rsValues = blocks' ∧ after.rsEncoder.encodedData = blocks' := by
    rw [hafter]
    change blocks' = blocks' ∧ encoder.encodedData = blocks'
    rw [← hencoder]
    exact ⟨rfl, hblocks⟩
  rcases hcondition with ⟨hunused, hsurvives⟩ | ⟨first, hfirst, hid⟩
  · have hdata := hcoherent.decoded_eq hlawful hx hreports hunused hpos hcollected hsurvives hdecode
    constructor
    · rw [hafter]
      rfl
    · exact hkeeps
    · rw [hunused]
      exact fun first hmem => absurd hmem (by simp)
    · rw [hstored.1, hstored.2, ← hblocks, (hcoherent.unused hunused).2.1, List.nil_append, hdata]
      exact .inr ⟨List.prefix_rfl, List.prefix_rfl, .inr length_shards⟩
  · have hcaches := hcoherent.first first hfirst
    rw [hid] at hcaches
    have hbegins : shards view.config.fec view.config.rsParams.x view.config.rsParams.n
        (committed highest.id) <+: blocks' := by
      rw [← hblocks]
      exact hcaches.encodedData.trans (List.prefix_append _ _)
    constructor
    · rw [hafter]
      rfl
    · exact hkeeps
    · intro other hmem
      rw [Option.mem_unique hmem hfirst, hid]
    · rw [hstored.1, hstored.2]
      exact .inr ⟨hbegins, hbegins, .inl hcaches.size⟩

theorem Coherent.restart (hcoherent : session.Coherent view committed) {proposer : Proposer}
    (hrsValues : proposer.rsValues = session.proposer.rsValues)
    (hencoder : proposer.rsEncoder = session.proposer.rsEncoder)
    (hdecoder : proposer.rsDecoder = session.proposer.rsDecoder)
    (hinit : proposer.initValue = session.proposer.initValue)
    (hnone : proposer.maxValue = none → session.proposer.maxValue = none)
    (hknown : ∀ highest ∈ proposer.maxValue, 0 < highest.id) :
    (session.restart view proposer).Coherent view committed := by
  apply Coherent.update hcoherent
  · rfl
  · exact hrsValues
  · exact hencoder
  · exact hdecoder
  · exact hinit
  · exact hnone
  · exact hknown
  · intro node ack hget
    simp [Session.restart, Proposer.restartMsgPrepare, Proposer.msgPrepare,
      Proposer.genNextBallot] at hget

theorem Coherent.step (hcoherent : session.Coherent view committed) (hmode : view.mode = .rs)
    (hlawful : view.config.fec.Lawful view.config.rsParams.x view.config.rsParams.n)
    (hx : 1 ≤ view.config.rsParams.x) (hle : view.config.rsParams.x ≤ view.config.rsParams.n)
    {input : SessionInput} (hreports : ReportsShard view committed input)
    (hcondition : OneValueEncoded view committed session input)
    (hstep : session.step view input = some next) : next.Coherent view committed := by
  cases input with
  | promise msg =>
      have htally := hcoherent.tally hreports
      cases promise_cases hstep with
      | drops hold hnext => rwa [hnext]
      | waits hballot hvalue hnext =>
          subst hnext
          exact hcoherent.update rfl rfl rfl rfl rfl id hcoherent.known
            (hcoherent.record hreports)
      | restarts hballot hvalue hnext =>
          subst hnext
          exact hcoherent.restart rfl rfl rfl rfl htally.1 htally.2
      | @continues chosen after hballot hvalue hack hafter henter =>
          rcases Proposer.handleMsgPromise_continue hack with ⟨htrue, hchoose⟩
          have hpos : 0 < view.nodesSize := view.config.size_pos
          rw [Proposer.chooseValue] at hchoose
          split at hchoose
          next hmax =>
            rw [Option.some.injEq, Prod.mk.injEq] at hchoose
            rcases hchoose with ⟨_, hafter⟩
            have hready : Ready view committed session session.proposer.initValue after := by
              rw [← hafter]
              exact hcoherent.ready_own (htally.1 hmax) rfl rfl rfl
            apply hcoherent.enter hmode hx hle hpos hready henter
            · rw [← hafter]
              exact hcoherent.decoder
            · rw [← hafter]
              rfl
            · exact fun _ => rfl
            · rw [← hafter]
              exact htally.2
            · rw [← hafter]
              exact hcoherent.record hreports
          next highest hmax =>
            rw [if_pos hmode] at hchoose
            rcases hcoherent.ready_recovered hlawful hx hle hreports hcondition hballot hvalue
              htrue hmax hchoose with ⟨data, decoder, blocks, encoder, hrebuilt, hdecoder, hready⟩
            subst hrebuilt
            apply hcoherent.enter hmode hx hle hpos hready henter hdecoder rfl
            · intro hnone
              simp [Proposer.withRecovered] at hnone
            · intro other hmem
              rw [← Option.some.inj hmem]
              exact htally.2 highest hmax
            · exact hcoherent.record hreports
  | accepted msg =>
      cases accepted_cases hstep with
      | stays hnext =>
          subst hnext
          exact hcoherent.update rfl rfl rfl rfl rfl id hcoherent.known hcoherent.recorded
      | restarts hballot hvalue hnext =>
          subst hnext
          exact hcoherent.restart rfl rfl rfl rfl id hcoherent.known

end Steps

/-- In a run that never decodes a second value, nor decodes one after its own, every
ACCEPT has the block of the value it names. -/
theorem accepts_matchLabel (view : View) (hmode : view.mode = .rs)
    (hlawful : view.config.fec.Lawful view.config.rsParams.x view.config.rsParams.n)
    (hx : 1 ≤ view.config.rsParams.x) (hle : view.config.rsParams.x ≤ view.config.rsParams.n)
    (committed : ℕ → Bytes) (value : PropValue) (hvalue : value.data = committed value.id)
    (inputs : List SessionInput) (hreports : ∀ input ∈ inputs, ReportsShard view committed input)
    (session : Session)
    (hrun : (machine view).run (start view value false) inputs = some session)
    (hcondition : (machine view).RunMeets (OneValueEncoded view committed)
      (start view value false) inputs) :
    ∀ entry ∈ session.accepts, MatchesLabel view committed entry := by
  have hinputs : (machine view).RunMeets (fun _ input => ReportsShard view committed input)
      (start view value false) inputs :=
    PartialMachine.runMeets_of_forall (fun input hmem _ => hreports input hmem) _
  have hcoherent := PartialMachine.invariant_of_runMeets (Coherent view committed)
    (fun _ _ _ hmeets hcoherent hstep =>
      hcoherent.step hmode hlawful hx hle hmeets.1 hmeets.2 hstep)
    (coherent_start hvalue) (hinputs.and hcondition) hrun
  exact hcoherent.labels

def twoStrings (valueId : ℕ) : Bytes := if valueId = 65536 then [1, 2] else [3, 4]

/-- The other node's value is recovered twice; its second decoding is longer, but the
cache stays. -/
theorem accepts_matchLabel_twice :
    ∃ session, (machine (View.new (twoNodes .rs) 0)).run
        (start (View.new (twoNodes .rs) 0) { id := 65536, data := [1, 2] } false)
        [.promise ⟨⟨0, 1⟩, 65536, true, 65537, some { id := 65537, data := [3] }⟩,
          .promise ⟨⟨1, 1⟩, 65536, true, 65537, some { id := 65537, data := [4] }⟩,
          .accepted ⟨⟨0, 1⟩, 65536, true⟩, .accepted ⟨⟨1, 1⟩, 65536, false⟩,
          .promise ⟨⟨0, 1⟩, 131072, true, 65536, some { id := 65537, data := [3] }⟩,
          .promise ⟨⟨1, 1⟩, 131072, true, 65537, some { id := 65537, data := [4] }⟩] =
        some session ∧
      session.accepts.length = 2 ∧
      ∀ entry ∈ session.accepts, MatchesLabel (View.new (twoNodes .rs) 0) twoStrings entry := by
  have hfinal : ((machine (View.new (twoNodes .rs) 0)).run
        (start (View.new (twoNodes .rs) 0) { id := 65536, data := [1, 2] } false)
        [.promise ⟨⟨0, 1⟩, 65536, true, 65537, some { id := 65537, data := [3] }⟩,
          .promise ⟨⟨1, 1⟩, 65536, true, 65537, some { id := 65537, data := [4] }⟩,
          .accepted ⟨⟨0, 1⟩, 65536, true⟩, .accepted ⟨⟨1, 1⟩, 65536, false⟩,
          .promise ⟨⟨0, 1⟩, 131072, true, 65536, some { id := 65537, data := [3] }⟩,
          .promise ⟨⟨1, 1⟩, 131072, true, 65537, some { id := 65537, data := [4] }⟩]).map
        (fun session => session.accepts.length) = some 2 := by
    decide
  rcases Option.map_eq_some_iff.mp hfinal with ⟨session, hrun, hlength⟩
  exact ⟨session, hrun, hlength, accepts_matchLabel _ rfl (lawful_without_checks 2) (by decide)
    (by decide) twoStrings _ rfl _ (by decide) session hrun (by decide)⟩

/-- The proposer's own value is refused, and the other node's is reported then. -/
def refusedInputs : List SessionInput :=
  [.promise ⟨⟨0, 1⟩, 65536, true, 0, none⟩, .promise ⟨⟨1, 1⟩, 65536, true, 0, none⟩,
    .accepted ⟨⟨0, 1⟩, 65536, true⟩, .accepted ⟨⟨1, 1⟩, 65536, false⟩,
    .promise ⟨⟨0, 1⟩, 131072, true, 65537, some { id := 65537, data := [3] }⟩,
    .promise ⟨⟨1, 1⟩, 131072, true, 65537, some { id := 65537, data := [4] }⟩]

/-- The second round sends the blocks of the first. -/
theorem accepts_stale_shards :
    ({} : Fec).Lawful 2 2 ∧
      (∀ input ∈ refusedInputs, ReportsShard (View.new (twoNodes .rs) 0) twoStrings input) ∧
      ∃ session, (machine (View.new (twoNodes .rs) 0)).run
          (start (View.new (twoNodes .rs) 0) { id := 65536, data := [1, 2] } false)
          refusedInputs = some session ∧
        ¬ ∀ entry ∈ session.accepts,
          MatchesLabel (View.new (twoNodes .rs) 0) twoStrings entry := by
  refine ⟨lawful_without_checks 2, by decide, ?_⟩
  have hfinal : ((machine (View.new (twoNodes .rs) 0)).run
      (start (View.new (twoNodes .rs) 0) { id := 65536, data := [1, 2] } false)
      refusedInputs).bind (fun session => session.accepts[1]?.map fun entry =>
        (entry.1.id, entry.2[0]?.map fun msg => msg.propValue.data)) =
          some (65537, some [1]) := by
    decide
  rcases Option.bind_eq_some_iff.mp hfinal with ⟨session, hrun, hsecond⟩
  refine ⟨session, hrun, ?_⟩
  intro hall
  rcases Option.map_eq_some_iff.mp hsecond with ⟨entry, hentry, hcontent⟩
  rw [Prod.mk.injEq] at hcontent
  rcases Option.map_eq_some_iff.mp hcontent.2 with ⟨msg, hmsg, hdata⟩
  have hlabel := (hall entry (List.mem_of_getElem? hentry)).2 0 msg hmsg
  have hfresh : (RSEncoder.new 2 2).rsEncode {} (twoStrings 65537) =
      some ([[3], [4]], { k := 2, n := 2, encodedData := [[3], [4]] }) := by
    rfl
  rw [hcontent.1] at hlabel
  have hblock := hlabel.2 _ _ hfresh
  rw [hdata] at hblock
  simp at hblock

end Session

end NDNPaxos
