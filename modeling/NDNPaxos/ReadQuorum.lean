import NDNPaxos.Acceptor
import NDNPaxos.ShardCollection
import Mathlib.Tactic

/-!
# Recovery from a read quorum

A new proposer in the Reed-Solomon build that hears from exactly a read quorum
about a value that a write quorum has accepted.  With the default parameters
the number of lost shards that the handler tolerates leaves no room for a
reader that does not hold the value.
-/

namespace NDNPaxos

/-- The promises reach the proposer one after the other; the result of each call. -/
def handlePromises (view : View) :
    Proposer → List MsgAckPrepare → Option (List AckType × Proposer)
  | proposer, [] => some ([], proposer)
  | proposer, msg :: rest => do
      let (ack, proposer) ← proposer.handleMsgPromise view msg
      let (acks, proposer) ← handlePromises view proposer rest
      return (ack :: acks, proposer)

structure WidelyAccepted (config : Config) (acceptors : ℕ → Acceptor) (ballot valueId : ℕ)
    (data : Bytes) (writers : Finset ℕ) : Prop where
  subset : writers ⊆ Finset.range config.size
  quorum : config.rsParams.qw ≤ writers.card
  accepted : ∀ node ∈ writers, (acceptors node).maxAcceptedBallot = ballot
  highest : ∀ node < config.size, (acceptors node).maxAcceptedBallot ≤ ballot
  value : ∀ node < config.size, (acceptors node).maxAcceptedBallot = ballot →
    (acceptors node).maxValue.map PropValue.id = some valueId
  encodable : Encodable config.rsParams.x data
  shard : ∀ node < config.size, ∀ value, (acceptors node).maxValue = some value →
    value.id = valueId →
      value.data = shard config.fec config.rsParams.x config.rsParams.n data node
  ballot_pos : 0 < ballot
  valueId_pos : 0 < valueId

namespace ReadQuorum

/-- The answer of a node to the first PREPARE of a new proposer. -/
def promise (config : Config) (acceptors : ℕ → Acceptor) (nodeId : ℕ) (value : PropValue)
    (node : ℕ) : MsgAckPrepare :=
  let view := View.new config nodeId
  ((acceptors node).handleMsgPrepare (View.new config node)
    ((Proposer.new view value).msgPrepare view).1).1

def Recovers (config : Config) (acceptors : ℕ → Acceptor) (nodeId : ℕ) (value : PropValue)
    (readers : List ℕ) (valueId : ℕ) : Prop :=
  let view := View.new config nodeId
  ∃ acks final recovered,
    handlePromises view ((Proposer.new view value).msgPrepare view).2
      (readers.map (promise config acceptors nodeId value)) = some (acks, final) ∧
    acks.getLast? = some .continuePhase ∧ final.currValue = some recovered ∧
      recovered.id = valueId

/-! ## The calls before the last -/

def recordAll (proposer : Proposer) (msgs : List MsgAckPrepare) : Proposer :=
  msgs.foldl Proposer.recordPrepare proposer

theorem handlePromises_append {view : View} {proposer : Proposer}
    {msgs : List MsgAckPrepare} {msg : MsgAckPrepare} :
    handlePromises view proposer (msgs ++ [msg]) =
      (handlePromises view proposer msgs).bind fun result =>
        (result.2.handleMsgPromise view msg).map fun last =>
          (result.1 ++ [last.1], last.2) := by
  induction msgs generalizing proposer with
  | nil =>
      simp only [List.nil_append, handlePromises, Option.bind_eq_bind, Option.bind_some]
      cases proposer.handleMsgPromise view msg <;> rfl
  | cons first rest ih =>
      simp only [List.cons_append, handlePromises, Option.bind_eq_bind]
      cases proposer.handleMsgPromise view first with
      | none => rfl
      | some result =>
          simp only [Option.bind_some, ih]
          cases handlePromises view result.2 rest with
          | none => rfl
          | some results =>
              simp only [Option.bind_some, pure]
              cases results.2.handleMsgPromise view msg <;> rfl

theorem handlePromises_waiting {view : View} {msgs : List MsgAckPrepare} {proposer : Proposer}
    (hvalue : proposer.currValue = none)
    (hballot : ∀ msg ∈ msgs, proposer.currBallot ≤ msg.ballotId)
    (hfew : proposer.msgAckPrepare.size + msgs.length < proposer.qr) :
    handlePromises view proposer msgs =
      some (List.replicate msgs.length .notEnough, recordAll proposer msgs) := by
  induction msgs generalizing proposer with
  | nil => rfl
  | cons msg rest ih =>
      have hle := hballot msg (List.mem_cons_self ..)
      have hsize : (proposer.recordPrepare msg).msgAckPrepare.size ≤
          proposer.msgAckPrepare.size + 1 := Std.TreeMap.size_insert_le
      rw [List.length_cons] at hfew
      have hwaits : proposer.handleMsgPromise view msg =
          some (.notEnough, proposer.recordPrepare msg) := by
        have hdrop : ¬ (msg.ballotId < proposer.currBallot ∨ proposer.currValue.isSome) := by
          rw [hvalue]
          simp [hle]
        have hsmall : (proposer.recordPrepare msg).msgAckPrepare.size < proposer.qr := by omega
        rw [Proposer.handleMsgPromise, if_neg hdrop]
        exact if_pos hsmall
      have hfewer : (proposer.recordPrepare msg).msgAckPrepare.size + rest.length <
          proposer.qr := by
        omega
      have hrest : handlePromises view (proposer.recordPrepare msg) rest = _ :=
        ih hvalue (fun other hmem => hballot other (List.mem_cons_of_mem msg hmem)) hfewer
      simp only [handlePromises, hwaits, Option.bind_eq_bind, Option.bind_some, hrest]
      rfl

theorem recordAll_frame (proposer : Proposer) (msgs : List MsgAckPrepare) :
    ∃ msgAckPrepare, recordAll proposer msgs = { proposer with msgAckPrepare } := by
  induction msgs generalizing proposer with
  | nil => exact ⟨proposer.msgAckPrepare, rfl⟩
  | cons msg rest ih =>
      rcases ih (proposer.recordPrepare msg) with ⟨msgAckPrepare, hrest⟩
      exact ⟨msgAckPrepare, hrest⟩

/-- Messages of different nodes are all there in the end. -/
theorem recordAll_getElem? {proposer : Proposer} {answer : ℕ → MsgAckPrepare} {nodes : List ℕ}
    (hsender : ∀ node ∈ nodes, toNodeId (answer node).msgHeader.nodeId = node) (node : ℕ) :
    (recordAll proposer (nodes.map answer)).msgAckPrepare[node]? =
      if node ∈ nodes then some (answer node) else proposer.msgAckPrepare[node]? := by
  induction nodes generalizing proposer with
  | nil => simp [recordAll]
  | cons first rest ih =>
      have hfirst := hsender first (List.mem_cons_self ..)
      have hrest : (recordAll (proposer.recordPrepare (answer first))
          (rest.map answer)).msgAckPrepare[node]? = _ :=
        ih fun other hmem => hsender other (List.mem_cons_of_mem first hmem)
      change (recordAll (proposer.recordPrepare (answer first))
        (rest.map answer)).msgAckPrepare[node]? = _
      rw [hrest, Proposer.recordPrepare, Std.TreeMap.getElem?_insert, hfirst]
      by_cases hmem : node ∈ rest
      · simp [hmem]
      · by_cases heq : first = node
        · simp [heq]
        · simp [hmem, heq, Ne.symm heq]

/-! ## The last call -/

/-- With a quorum of consent the handler goes on to choose a value. -/
theorem handleMsgPromise_consent {proposer : Proposer} {view : View} {msg : MsgAckPrepare}
    (hvalue : proposer.currValue = none) (hballot : proposer.currBallot ≤ msg.ballotId)
    (hsize : proposer.qr ≤ (proposer.recordPrepare msg).msgAckPrepare.size)
    (htrue : proposer.qr ≤ (proposer.recordPrepare msg).tally.trueCounter) :
    proposer.handleMsgPromise view msg =
      (proposer.recordPrepare msg).adoptTally.chooseValue view := by
  have hdrop : ¬ (msg.ballotId < proposer.currBallot ∨ proposer.currValue.isSome) := by
    rw [hvalue]
    simp [hballot]
  rw [Proposer.handleMsgPromise, if_neg hdrop]
  exact (if_neg (Nat.not_lt.mpr hsize)).trans (if_pos htrue)

/-- Every reader's message and no other. -/
structure Heard (proposer : Proposer) (answer : ℕ → MsgAckPrepare) (readers : List ℕ) : Prop where
  nodup : readers.Nodup
  recorded : ∀ node : ℕ, proposer.msgAckPrepare[node]? =
    if node ∈ readers then some (answer node) else none

theorem Heard.reporters_eq {proposer : Proposer} {answer : ℕ → MsgAckPrepare} {readers : List ℕ}
    (hheard : Heard proposer answer readers) (valueId : ℕ) :
    proposer.reporters valueId =
      readers.toFinset.filter fun node => Proposer.reports valueId (answer node) = true := by
  ext node
  rw [Proposer.mem_reporters, hheard.recorded, Finset.mem_filter, List.mem_toFinset]
  by_cases hmem : node ∈ readers
  · simp [hmem]
  · simp [hmem]

theorem Heard.trueCounter {proposer : Proposer} {answer : ℕ → MsgAckPrepare} {readers : List ℕ}
    (hheard : Heard proposer answer readers)
    (htrue : ∀ node ∈ readers, (answer node).reply = true) :
    (proposer.msgAckPrepare.toList.map Prod.snd).countP MsgAckPrepare.reply = readers.length := by
  rw [← OrderedMap.card_keysWhere, ← List.toFinset_card_of_nodup hheard.nodup]
  congr 1
  ext node
  rw [List.mem_toFinset, OrderedMap.mem_keysWhere, hheard.recorded, List.mem_toFinset]
  by_cases hmem : node ∈ readers
  · simp [hmem, htrue node hmem]
  · simp [hmem]

/-! ## The default parameters -/

structure DefaultParams (size : ℕ) (rs : RSParams) : Prop where
  n_eq : rs.n = size
  x_pos : 1 ≤ rs.x
  x_le_three : rs.x ≤ 3
  x_le_n : rs.x ≤ rs.n
  x_le_qr : rs.x ≤ rs.qr
  qr_le_n : rs.qr ≤ rs.n
  intersect : rs.n < rs.qr + rs.qw
  f_eq : rs.f = rs.n - rs.qr

theorem defaultParams {config : Config} (hdefault : config.rs = none) :
    DefaultParams config.size config.rsParams := by
  have hpos := config.size_pos
  rw [Config.rsParams, hdefault, Option.getD_none]
  constructor <;> simp only [Config.defaultRS] <;> split_ifs <;> omega

/-- Only three primary blocks and one byte do not go together. -/
theorem encodable_iff {x : ℕ} {data : Bytes} (hx : 1 ≤ x) (hle : x ≤ 3) :
    Encodable x data ↔ ¬ (x = 3 ∧ data.length = 1) := by
  rw [Encodable, blkSize]
  have hcases : x = 1 ∨ x = 2 ∨ x = 3 := by omega
  rcases hcases with rfl | rfl | rfl
  · simp
  · omega
  · omega

section Recovery

variable {config : Config} {acceptors : ℕ → Acceptor} {ballot valueId nodeId : ℕ} {data : Bytes}
  {writers : Finset ℕ} {value : PropValue} {readers : List ℕ}

def informed (config : Config) (acceptors : ℕ → Acceptor) (nodeId : ℕ) (value : PropValue)
    (readers : List ℕ) : Proposer :=
  let view := View.new config nodeId
  recordAll ((Proposer.new view value).msgPrepare view).2
    (readers.map (promise config acceptors nodeId value))

theorem promise_spec {node : ℕ} (hnode : node < config.size)
    (hreply : (promise config acceptors nodeId value node).reply = true) :
    toNodeId (promise config acceptors nodeId value node).msgHeader.nodeId = node ∧
      (promise config acceptors nodeId value node).maxBallotId =
        (acceptors node).maxAcceptedBallot ∧
      (promise config acceptors nodeId value node).maxPropValue = (acceptors node).maxValue := by
  have hsender : (promise config acceptors nodeId value node).msgHeader.nodeId = node := by
    simp only [promise, Acceptor.handleMsgPrepare]
    split <;> exact if_neg (Nat.not_le.mpr hnode)
  refine ⟨by rw [hsender, toNodeId_of_lt (hnode.trans_le config.size_le)], ?_⟩
  rcases Acceptor.handleMsgPrepare_cases (acceptors node) (View.new config node)
    ((Proposer.new (View.new config nodeId) value).msgPrepare (View.new config nodeId)).1 with
    ⟨_, _, hballot, hvalue⟩ | ⟨_, _, hrefused⟩
  · exact ⟨hballot, hvalue⟩
  · rw [promise, hrefused] at hreply
    simp at hreply

theorem promise_ballotId (node : ℕ) :
    (promise config acceptors nodeId value node).ballotId =
      ((Proposer.new (View.new config nodeId) value).msgPrepare
        (View.new config nodeId)).2.currBallot := by
  simp only [promise, Acceptor.handleMsgPrepare]
  split <;> rfl

/-- The readers of a run: a read quorum, and every promise is positive. -/
structure Readers (config : Config) (acceptors : ℕ → Acceptor) (nodeId : ℕ) (value : PropValue)
    (readers : List ℕ) : Prop where
  nodup : readers.Nodup
  lt : ∀ node ∈ readers, node < config.size
  length : readers.length = config.rsParams.qr
  promised : ∀ node ∈ readers, (promise config acceptors nodeId value node).reply = true

theorem Readers.heard (hreaders : Readers config acceptors nodeId value readers) :
    Heard (informed config acceptors nodeId value readers)
      (promise config acceptors nodeId value) readers := by
  constructor
  · exact hreaders.nodup
  · intro node
    apply recordAll_getElem?
    intro reader hmem
    exact (promise_spec (hreaders.lt reader hmem) (hreaders.promised reader hmem)).1

theorem informed_frame (config : Config) (acceptors : ℕ → Acceptor) (nodeId : ℕ)
    (value : PropValue) (readers : List ℕ) :
    ∃ msgAckPrepare, informed config acceptors nodeId value readers =
      { ((Proposer.new (View.new config nodeId) value).msgPrepare (View.new config nodeId)).2 with
        msgAckPrepare } :=
  recordAll_frame _ _

theorem Readers.trueCounter (hreaders : Readers config acceptors nodeId value readers) :
    (informed config acceptors nodeId value readers).tally.trueCounter =
      config.rsParams.qr := by
  rw [(Proposer.tally_spec _).trueCounter, hreaders.heard.trueCounter hreaders.promised,
    hreaders.length, Nat.zero_add]

theorem informed_append (others : List ℕ) (last : ℕ) :
    informed config acceptors nodeId value (others ++ [last]) =
      (informed config acceptors nodeId value others).recordPrepare
        (promise config acceptors nodeId value last) := by
  simp only [informed, recordAll, List.map_append, List.foldl_append]
  rfl

theorem informed_fields (hmode : config.mode = .rs) (readers : List ℕ) :
    (informed config acceptors nodeId value readers).currValue = none ∧
      (informed config acceptors nodeId value readers).currBallot =
        ((Proposer.new (View.new config nodeId) value).msgPrepare
          (View.new config nodeId)).2.currBallot ∧
      (informed config acceptors nodeId value readers).qr = config.rsParams.qr := by
  rcases informed_frame config acceptors nodeId value readers with ⟨msgAckPrepare, hframe⟩
  rw [hframe]
  exact ⟨rfl, rfl, if_pos hmode⟩

/-- The last call decides, with the promises of all readers. -/
theorem Readers.last_call {others : List ℕ} {last : ℕ}
    (hreaders : Readers config acceptors nodeId value (others ++ [last]))
    (hmode : config.mode = .rs) :
    (informed config acceptors nodeId value others).handleMsgPromise (View.new config nodeId)
      (promise config acceptors nodeId value last) =
        (informed config acceptors nodeId value (others ++ [last])).adoptTally.chooseValue
          (View.new config nodeId) := by
  rcases informed_fields hmode others with ⟨hvalue, hballot, hqr⟩
  have htrue := hreaders.trueCounter
  have hsize : config.rsParams.qr ≤
      (informed config acceptors nodeId value (others ++ [last])).msgAckPrepare.size := by
    rw [← hreaders.length, ← hreaders.heard.trueCounter hreaders.promised,
      ← Std.TreeMap.length_toList]
    exact List.countP_le_length.trans_eq (List.length_map _)
  rw [informed_append] at htrue hsize ⊢
  apply handleMsgPromise_consent hvalue
  · rw [hballot, promise_ballotId]
  · rwa [hqr]
  · rw [hqr, htrue]

theorem Readers.calls {others : List ℕ} {last : ℕ}
    (hreaders : Readers config acceptors nodeId value (others ++ [last]))
    (hmode : config.mode = .rs) :
    handlePromises (View.new config nodeId)
      ((Proposer.new (View.new config nodeId) value).msgPrepare (View.new config nodeId)).2
      ((others ++ [last]).map (promise config acceptors nodeId value)) =
        ((informed config acceptors nodeId value (others ++ [last])).adoptTally.chooseValue
          (View.new config nodeId)).map fun result =>
            (List.replicate others.length .notEnough ++ [result.1], result.2) := by
  have hlength := hreaders.length
  rw [List.length_append, List.length_singleton] at hlength
  have hballots : ∀ msg ∈ others.map (promise config acceptors nodeId value),
      ((Proposer.new (View.new config nodeId) value).msgPrepare
        (View.new config nodeId)).2.currBallot ≤ msg.ballotId := by
    intro msg hmem
    rcases List.mem_map.mp hmem with ⟨node, _, rfl⟩
    exact (promise_ballotId node).ge
  have hfew : 0 + (others.map (promise config acceptors nodeId value)).length <
      (Proposer.new (View.new config nodeId) value).qr := by
    have hqr : (Proposer.new (View.new config nodeId) value).qr = config.rsParams.qr :=
      if_pos hmode
    rw [hqr, List.length_map]
    omega
  rw [List.map_append, List.map_singleton, handlePromises_append,
    handlePromises_waiting rfl hballots hfew, Option.bind_some, List.length_map,
    ← hreaders.last_call hmode]
  rfl

/-- Recovery is what the handler chooses for the informed proposer. -/
theorem Readers.recovers_iff (hreaders : Readers config acceptors nodeId value readers)
    (hmode : config.mode = .rs) (hpos : 1 ≤ config.rsParams.qr) :
    Recovers config acceptors nodeId value readers valueId ↔
      ∃ after recovered,
        (informed config acceptors nodeId value readers).adoptTally.chooseValue
          (View.new config nodeId) = some (.continuePhase, after) ∧
        after.currValue = some recovered ∧ recovered.id = valueId := by
  have hlength := hreaders.length
  rcases List.eq_nil_or_concat' readers with rfl | ⟨others, last, rfl⟩
  · rw [List.length_nil] at hlength
    omega
  simp only [Recovers, hreaders.calls hmode]
  constructor
  · rintro ⟨acks, final, recovered, hresult, hack, hvalue⟩
    rcases Option.map_eq_some_iff.mp hresult with ⟨⟨ack, after⟩, hchoose, heq⟩
    rw [Prod.mk.injEq] at heq
    rcases heq with ⟨rfl, rfl⟩
    rw [List.getLast?_concat, Option.some.injEq] at hack
    subst hack
    exact ⟨_, recovered, hchoose, hvalue⟩
  · rintro ⟨after, recovered, hchoose, hvalue⟩
    refine ⟨List.replicate others.length .notEnough ++ [.continuePhase], after, recovered, ?_,
      List.getLast?_concat, hvalue⟩
    rw [hchoose]
    rfl

theorem Readers.highest (hreaders : Readers config acceptors nodeId value readers)
    (haccepted : WidelyAccepted config acceptors ballot valueId data writers)
    (hparams : DefaultParams config.size config.rsParams) :
    ∃ highest, (informed config acceptors nodeId value readers).adoptTally.maxValue =
      some highest ∧ highest.id = valueId := by
  have hcommon : ∃ node ∈ writers, node ∈ readers := by
    by_contra hnone
    push Not at hnone
    have hdisjoint : Disjoint writers readers.toFinset := by
      rw [Finset.disjoint_left]
      exact fun node hmem hreader => hnone node hmem (List.mem_toFinset.mp hreader)
    have hunion : writers ∪ readers.toFinset ⊆ Finset.range config.size := by
      apply Finset.union_subset haccepted.subset
      exact fun node hmem => Finset.mem_range.mpr (hreaders.lt node (List.mem_toFinset.mp hmem))
    have hcard := Finset.card_le_card hunion
    rw [Finset.card_union_of_disjoint hdisjoint, List.toFinset_card_of_nodup hreaders.nodup,
      hreaders.length, Finset.card_range] at hcard
    have hintersect := hparams.intersect
    have hquorum := haccepted.quorum
    rw [hparams.n_eq] at hintersect
    omega
  rcases hcommon with ⟨node, hwriter, hreader⟩
  rcases promise_spec (hreaders.lt node hreader) (hreaders.promised node hreader) with
    ⟨_, hnodeBallot, _⟩
  have hmem : ∀ reader ∈ readers, promise config acceptors nodeId value reader ∈
      (informed config acceptors nodeId value readers).msgAckPrepare.toList.map Prod.snd := by
    intro reader hmem
    apply List.mem_map.mpr
    refine ⟨(reader, promise config acceptors nodeId value reader), ?_, rfl⟩
    rw [Std.TreeMap.mem_toList_iff_getElem?_eq_some, hreaders.heard.recorded, if_pos hmem]
  have hspec := (informed config acceptors nodeId value readers).tally_spec
  have hreached := hspec.reported_le _ (hmem node hreader) (hreaders.promised node hreader)
  rw [hnodeBallot, haccepted.accepted node hwriter] at hreached
  rcases hspec.source with ⟨hstart, _⟩ | ⟨ack, hack, hreply, _, hballot, hvalue⟩
  · rcases informed_frame config acceptors nodeId value readers with ⟨msgAckPrepare, hframe⟩
    have hzero : (informed config acceptors nodeId value readers).maxBallot = 0 := by
      rw [hframe]
      rfl
    rw [hstart] at hreached
    dsimp only at hreached
    have hpos := haccepted.ballot_pos
    omega
  · rcases List.mem_map.mp hack with ⟨⟨reader, found⟩, hentry, rfl⟩
    rw [Std.TreeMap.mem_toList_iff_getElem?_eq_some, hreaders.heard.recorded] at hentry
    split at hentry
    next hin =>
      rw [Option.some.injEq] at hentry
      subst hentry
      rcases promise_spec (hreaders.lt reader hin) hreply with ⟨_, hreported, hreportedValue⟩
      have hle := haccepted.highest reader (hreaders.lt reader hin)
      rw [hballot, hreported] at hreached
      have hsame := haccepted.value reader (hreaders.lt reader hin) (le_antisymm hle hreached)
      rcases Option.map_eq_some_iff.mp hsame with ⟨highest, hfound, hid⟩
      refine ⟨highest, ?_, hid⟩
      change (informed config acceptors nodeId value readers).tally.maxValue = _
      rw [hvalue, hreportedValue, hfound, Option.getD_some]
    next => simp at hentry

theorem Readers.reporters_eq (hreaders : Readers config acceptors nodeId value readers)
    (hpos : 0 < valueId) :
    (informed config acceptors nodeId value readers).adoptTally.reporters valueId =
      readers.toFinset.filter fun node =>
        (acceptors node).maxValue.map PropValue.id = some valueId := by
  have hheard := hreaders.heard.reporters_eq valueId
  apply Eq.trans hheard
  apply Finset.filter_congr
  intro node hmem
  have hreader := List.mem_toFinset.mp hmem
  have hreply := hreaders.promised node hreader
  rw [Proposer.reports_iff, (promise_spec (hreaders.lt node hreader) hreply).2.2]
  cases hheld : (acceptors node).maxValue with
  | none =>
      have hne : valueId ≠ 0 := Nat.ne_of_gt hpos
      simp [hne]
  | some held => simp [hreply, eq_comm]

theorem Readers.carries (hreaders : Readers config acceptors nodeId value readers)
    (haccepted : WidelyAccepted config acceptors ballot valueId data writers)
    {blocks : List Bytes} {index : List Bool} {lost : ℕ}
    (hcollected : Proposer.Collected (informed config acceptors nodeId value readers).adoptTally
      valueId config.rsParams.n blocks index lost) :
    Carries config.fec config.rsParams.x config.rsParams.n data
      ((informed config acceptors nodeId value readers).adoptTally.reporters valueId) blocks := by
  constructor
  · exact hcollected.subset
  · intro node hmem
    rcases Proposer.mem_reporters.mp hmem with ⟨ack, hget, hreports⟩
    rw [hcollected.block node ack hget hreports]
    change (informed config acceptors nodeId value readers).msgAckPrepare[node]? = _ at hget
    rw [hreaders.heard.recorded] at hget
    split at hget
    next hreader =>
      rw [Option.some.injEq] at hget
      subst hget
      rw [hreaders.reporters_eq haccepted.valueId_pos, Finset.mem_filter] at hmem
      rcases Option.map_eq_some_iff.mp hmem.2 with ⟨held, hheld, hid⟩
      have hlt := hreaders.lt node hreader
      rw [(promise_spec hlt (hreaders.promised node hreader)).2.2, hheld, Option.getD_some]
      exact haccepted.shard node hlt held hheld hid
    next => simp at hget
  · exact hcollected.none

end Recovery

def OneByteHeard (config : Config) (data : Bytes) (readers : List ℕ) : Prop :=
  config.rsParams.x = 3 ∧ 0 ∉ readers ∧
    ∑ i ∈ (Finset.range 3).filter (· ∈ readers),
      (shard config.fec config.rsParams.x config.rsParams.n data i).length = 1

/-- The decoded string has one byte only when block 0 is lost. -/
theorem length_merged_eq_one {fec : Fec} {n : ℕ} {data : Bytes} {present : Finset ℕ}
    {blocks src : List Bytes} {index : List ℕ}
    (hdecoded : DecodedFrom fec 3 n present blocks index src)
    (hcarries : Carries fec 3 n data present blocks) (hencodable : Encodable 3 data) :
    (merged 3 present blocks src).length = 1 ↔
      0 ∉ present ∧
        ∑ i ∈ (Finset.range 3).filter (· ∈ present), (shard fec 3 n data i).length = 1 := by
  rw [length_merged hdecoded hcarries]
  by_cases hzero : 0 ∈ present
  · apply iff_of_false _ fun hone => hone.1 hzero
    have hfirst : (shard fec 3 n data 0).length = blkSize 3 data := shard_zero_length (by decide)
    have hsecond : (shard fec 3 n data 1).length = blkSize 3 data :=
      shard_length hencodable (by decide)
    have hthird : (shard fec 3 n data 2).length ≤ blkSize 3 data := shard_length_le (by decide)
    rw [hcarries.size (by decide) hzero, Finset.sum_range_succ, Finset.sum_range_succ,
      Finset.sum_range_one, if_pos hzero, hfirst, hsecond]
    split_ifs <;> omega
  · rw [hcarries.lost 0 hzero, List.length_nil, ← Finset.sum_filter]
    simp [hzero]

section Exact

variable {config : Config} {acceptors : ℕ → Acceptor} {ballot valueId nodeId : ℕ} {data : Bytes}
  {writers : Finset ℕ} {value highest : PropValue} {readers : List ℕ}

theorem informed_codecs (config : Config) (acceptors : ℕ → Acceptor) (nodeId : ℕ)
    (value : PropValue) (readers : List ℕ) :
    (informed config acceptors nodeId value readers).adoptTally.rsEncoder =
        RSEncoder.new config.rsParams.x config.rsParams.n ∧
      (informed config acceptors nodeId value readers).adoptTally.rsDecoder =
        RSDecoder.new config.rsParams.x config.rsParams.n := by
  rcases informed_frame config acceptors nodeId value readers with ⟨msgAckPrepare, hframe⟩
  rw [hframe]
  exact ⟨rfl, rfl⟩

/-- The tolerated loss is that of the nodes outside the read quorum. -/
theorem Readers.few_lost_iff (hreaders : Readers config acceptors nodeId value readers)
    (hpos : 0 < valueId) (hparams : DefaultParams config.size config.rsParams) :
    config.rsParams.n -
        ((informed config acceptors nodeId value readers).adoptTally.reporters valueId).card ≤
          config.rsParams.f ↔
      ∀ node ∈ readers, (acceptors node).maxValue.map PropValue.id = some valueId := by
  have hcard : readers.toFinset.card = config.rsParams.qr := by
    rw [List.toFinset_card_of_nodup hreaders.nodup, hreaders.length]
  have hle := hparams.qr_le_n
  rw [hreaders.reporters_eq hpos, hparams.f_eq]
  constructor
  · intro hlost
    have hall : readers.toFinset.filter (fun node =>
        (acceptors node).maxValue.map PropValue.id = some valueId) = readers.toFinset := by
      apply Finset.eq_of_subset_of_card_le (Finset.filter_subset _ _)
      omega
    intro node hmem
    have hin := List.mem_toFinset.mpr hmem
    rw [← hall, Finset.mem_filter] at hin
    exact hin.2
  · intro hall
    rw [Finset.filter_true_of_mem fun node hmem => hall node (List.mem_toFinset.mp hmem), hcard]

/-- The decoded string can be encoded again unless it has one byte. -/
theorem Readers.encodable_iff (hreaders : Readers config acceptors nodeId value readers)
    (haccepted : WidelyAccepted config acceptors ballot valueId data writers)
    (hparams : DefaultParams config.size config.rsParams)
    (hall : ∀ node ∈ readers, (acceptors node).maxValue.map PropValue.id = some valueId)
    {blocks src : List Bytes} {index : List ℕ} {map : List Bool} {lost : ℕ}
    (hcollected : Proposer.Collected (informed config acceptors nodeId value readers).adoptTally
      valueId config.rsParams.n blocks map lost)
    (hdecoded : DecodedFrom config.fec config.rsParams.x config.rsParams.n
      ((informed config acceptors nodeId value readers).adoptTally.reporters valueId)
      blocks index src) :
    Encodable config.rsParams.x (merged config.rsParams.x
        ((informed config acceptors nodeId value readers).adoptTally.reporters valueId)
        blocks src) ↔
      ¬ OneByteHeard config data readers := by
  rw [NDNPaxos.ReadQuorum.encodable_iff hparams.x_pos hparams.x_le_three, OneByteHeard,
    not_iff_not]
  apply and_congr_right
  intro hthree
  have hcarries := hreaders.carries haccepted hcollected
  have hencodable := haccepted.encodable
  have hsame : (informed config acceptors nodeId value readers).adoptTally.reporters valueId =
      readers.toFinset := by
    rw [hreaders.reporters_eq haccepted.valueId_pos]
    exact Finset.filter_true_of_mem fun node hmem => hall node (List.mem_toFinset.mp hmem)
  rw [hthree] at hdecoded hcarries hencodable ⊢
  rw [length_merged_eq_one hdecoded hcarries hencodable, hsame]
  simp only [List.mem_toFinset]

end Exact

/-- A proposer that hears from a read quorum goes on with the value exactly when every
reader holds it and what is left of the value can be encoded again. -/
theorem readQuorum_recovers_iff (config : Config) (hmode : config.mode = .rs)
    (hdefault : config.rs = none)
    (hlawful : config.fec.Lawful config.rsParams.x config.rsParams.n)
    (acceptors : ℕ → Acceptor) (ballot valueId : ℕ) (data : Bytes) (writers : Finset ℕ)
    (haccepted : WidelyAccepted config acceptors ballot valueId data writers)
    (nodeId : ℕ) (value : PropValue) (readers : List ℕ)
    (hreaders : Readers config acceptors nodeId value readers) :
    Recovers config acceptors nodeId value readers valueId ↔
      (∀ node ∈ readers, (acceptors node).maxValue.map PropValue.id = some valueId) ∧
        ¬ OneByteHeard config data readers := by
  have hparams := defaultParams hdefault
  have hfew := hreaders.few_lost_iff haccepted.valueId_pos hparams
  rcases hreaders.highest haccepted hparams with ⟨highest, hhighest, rfl⟩
  rcases informed_codecs config acceptors nodeId value readers with ⟨hencoder, hdecoder⟩
  have hchoose : (informed config acceptors nodeId value readers).adoptTally.chooseValue
      (View.new config nodeId) =
        (informed config acceptors nodeId value readers).adoptTally.recoverValue
          (View.new config nodeId) highest := by
    rw [Proposer.chooseValue, hhighest]
    exact if_pos hmode
  rw [hreaders.recovers_iff hmode (hparams.x_pos.trans hparams.x_le_qr), hchoose]
  constructor
  · rintro ⟨after, recovered, hrecover, _, _⟩
    rcases Proposer.recoverValue_eq_some.mp hrecover with
      ⟨blocks, map, lost, hcollect, ⟨_, hack, _⟩ |
        ⟨hlost, _, decoded, decoder, shards, encoder, hdecode, hencode, _⟩⟩
    · simp at hack
    have hcollected := Proposer.collected hcollect
    have hall := hfew.mp (hcollected.lost ▸ hlost)
    refine ⟨hall, ?_⟩
    rw [hdecoder] at hdecode
    have henough := Proposer.le_card_of_rsDecode hcollected.marks hdecode
    rcases hlawful.rsDecode_new hcollected.marks henough blocks lost with
      ⟨index, src, hdecoded, hresult⟩
    have hsame := hresult.symm.trans hdecode
    rw [Option.some.injEq, Prod.mk.injEq] at hsame
    rw [hencoder, ← hsame.1] at hencode
    rw [← hreaders.encodable_iff haccepted hparams hall hcollected hdecoded]
    exact encodable_of_rsEncode (RSEncoder.new _ _) hparams.x_pos hparams.x_le_n hencode
  · rintro ⟨hall, hbyte⟩
    have hsame : (informed config acceptors nodeId value readers).adoptTally.reporters
        highest.id = readers.toFinset := by
      rw [hreaders.reporters_eq haccepted.valueId_pos]
      exact Finset.filter_true_of_mem fun node hmem => hall node (List.mem_toFinset.mp hmem)
    have hsubset : (informed config acceptors nodeId value readers).adoptTally.reporters
        highest.id ⊆ Finset.range config.rsParams.n := by
      rw [hsame, hparams.n_eq]
      exact fun node hmem => Finset.mem_range.mpr (hreaders.lt node (List.mem_toFinset.mp hmem))
    rcases Proposer.exists_collected hsubset with ⟨blocks, map, lost, hcollect⟩
    have hcollected := Proposer.collected hcollect
    have henough : config.rsParams.x ≤
        ((informed config acceptors nodeId value readers).adoptTally.reporters
          highest.id).card := by
      rw [hsame, List.toFinset_card_of_nodup hreaders.nodup, hreaders.length]
      exact hparams.x_le_qr
    rcases hlawful.rsDecode_new hcollected.marks henough blocks lost with
      ⟨index, src, hdecoded, hresult⟩
    have hencodable :=
      (hreaders.encodable_iff haccepted hparams hall hcollected hdecoded).mpr hbyte
    have hencode := (rsEncode_new config.fec _ hparams.x_pos hparams.x_le_n).trans
      (if_pos hencodable)
    rw [← hdecoder] at hresult
    rw [← hencoder] at hencode
    have hlost : lost ≤ config.rsParams.f := by
      rw [hcollected.lost]
      exact hfew.mpr hall
    exact ⟨_, _, Proposer.recoverValue_eq_some.mpr ⟨blocks, map, lost, hcollect,
      .inr ⟨hlost, rfl, _, _, _, _, hresult, hencode, rfl⟩⟩, rfl, rfl⟩

def bothHold (node : ℕ) : Acceptor where
  maxProposedBallot := 65536
  maxAcceptedBallot := 65536
  maxValue := some { id := 65536, data := if node = 0 then [7] else [9] }

theorem bothHold_widelyAccepted :
    WidelyAccepted (twoNodes .rs) bothHold 65536 65536 [7, 9] {0, 1} := by
  constructor
  · decide
  · decide
  · exact fun _ _ => rfl
  · exact fun _ _ => le_rfl
  · exact fun _ _ _ => rfl
  · decide
  · intro node hlt value hheld _
    rw [bothHold, Option.some.injEq] at hheld
    rw [← hheld]
    have hcases : node = 0 ∨ node = 1 := by
      change node < 2 at hlt
      omega
    rcases hcases with rfl | rfl <;> rfl
  · decide
  · decide

theorem readQuorum_recovers_twoNodes :
    Recovers (twoNodes .rs) bothHold 1 { id := 65537 } [0, 1] 65536 := by
  apply (readQuorum_recovers_iff (twoNodes .rs) rfl rfl (lawful_without_checks 2) bothHold 65536
    65536 [7, 9] {0, 1} bothHold_widelyAccepted 1 { id := 65537 } [0, 1] ?_).mpr
  · exact ⟨by decide, fun hbyte => absurd hbyte.1 (by decide)⟩
  · exact ⟨by decide, by decide, rfl, by decide⟩

def threeHold (node : ℕ) : Acceptor :=
  if node < 3 then
    { maxProposedBallot := 65536, maxAcceptedBallot := 65536, maxValue := some { id := 65536 } }
  else {}

/-- Two of three readers hold the value, and the last call returns RESTART. -/
theorem readQuorum_restarts :
    WidelyAccepted (fourNodes .rs) threeHold 65536 65536 [] {0, 1, 2} ∧
      Readers (fourNodes .rs) threeHold 1 { id := 65537 } [1, 2, 3] ∧
      ¬ Recovers (fourNodes .rs) threeHold 1 { id := 65537 } [1, 2, 3] 65536 := by
  refine ⟨?_, ⟨by decide, by decide, rfl, by decide⟩, ?_⟩
  · constructor
    · decide
    · decide
    · decide
    · decide
    · decide
    · decide
    · intro node hlt value hheld _
      have hempty : ∀ i < 4, shard {} 2 4 [] i = [] := by decide
      rw [threeHold] at hheld
      split at hheld
      next =>
        rw [Option.some.injEq] at hheld
        rw [← hheld]
        exact (hempty node hlt).symm
      next => simp at hheld
    · decide
    · decide
  · rintro ⟨acks, final, recovered, hcalls, hlast, _⟩
    have hresults : (handlePromises (View.new (fourNodes .rs) 1)
        ((Proposer.new (View.new (fourNodes .rs) 1) { id := 65537 }).msgPrepare
          (View.new (fourNodes .rs) 1)).2
        ([1, 2, 3].map (promise (fourNodes .rs) threeHold 1 { id := 65537 }))).map Prod.fst =
          some [.notEnough, .notEnough, .restart] := by
      decide
    rw [hcalls, Option.map_some, Option.some.injEq] at hresults
    change acks = _ at hresults
    subst hresults
    simp at hlast

end ReadQuorum

end NDNPaxos
