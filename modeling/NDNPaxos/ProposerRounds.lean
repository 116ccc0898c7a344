import NDNPaxos.Letters
import Mathlib.Tactic

/-!
# The rounds of a proposer

The proposer of a slot, seen as a lone proposer: its phase and its ballot make
the current round, and the acknowledgements that it holds are the answers to
this round.  Whatever it does with an acknowledgement is a step of a lone
proposer.
-/

namespace NDNPaxos

open LoneProposer (Letter request)

/-! ## The proposer in its rounds -/

def ProposerInfo.acks (info : ProposerInfo) : Multiset (ℕ × Bool) :=
  if info.proposerStatus = .phaseII then
    Multiset.ofList (OrderedMap.entries MsgAckAccept.reply info.currProposer.msgAckAccept)
  else
    Multiset.ofList (OrderedMap.entries MsgAckPrepare.reply info.currProposer.msgAckPrepare)

def ProposerInfo.accepting (info : ProposerInfo) : Bool := info.proposerStatus = .phaseII

def ProposerInfo.round (info : ProposerInfo) : ℕ :=
  LoneProposer.round info.accepting info.currProposer.currBallot

/-- The proposer as a lone one, with the letters in flight and the promises. -/
def ProposerInfo.lone (info : ProposerInfo) (inFlight : Multiset (Letter ℕ))
    (promised : ℕ → ℕ) : LoneProposer.State ℕ where
  accepting := info.accepting
  ballot := info.currProposer.currBallot
  letters := inFlight
  promised
  acks := info.acks

/-- One more acknowledgement of the round of the letter. -/
def bump (taken : Bool → ℕ → ℕ) (letter : Letter ℕ) : Bool → ℕ → ℕ := fun accepts ballot =>
  taken accepts ballot + if letter.accepts = accepts ∧ letter.ballot = ballot then 1 else 0

theorem bump_of_ne {taken : Bool → ℕ → ℕ} {letter : Letter ℕ} {accepts : Bool} {ballot : ℕ}
    (hne : letter.round ≠ LoneProposer.round accepts ballot) :
    bump taken letter accepts ballot = taken accepts ballot := by
  unfold bump
  rw [if_neg, Nat.add_zero]
  intro heq
  exact hne (LoneProposer.round_inj.mpr heq)

theorem bump_of_eq {taken : Bool → ℕ → ℕ} {letter : Letter ℕ} {accepts : Bool} {ballot : ℕ}
    (heq : letter.round = LoneProposer.round accepts ballot) :
    bump taken letter accepts ballot = taken accepts ballot + 1 := by
  unfold bump
  rw [if_pos (LoneProposer.round_inj.mp heq)]

/-- A proposer of node `p` in Phase I or II, after a number of restarts and of
acknowledgements taken in for each round. -/
structure InRound (bound p : ℕ) (info : ProposerInfo) (inFlight : Multiset (Letter ℕ))
    (promised : ℕ → ℕ) (restarts : ℕ) (taken : Bool → ℕ → ℕ) : Prop where
  running : info.Preparing ∨ info.proposerStatus = .phaseII
  empty : info.Preparing → info.currProposer.msgAckAccept = {}
  sound : LoneProposer.Sound bound (info.lone inFlight promised)
  ballot : info.currProposer.currBallot = 2 ^ 16 * (restarts + 1) + p
  restarts_le : 2 ^ 16 * restarts ≤ bound
  counted : taken info.accepting info.currProposer.currBallot = info.acks.card
  later : ∀ accepts ballot, info.round < LoneProposer.round accepts ballot →
    taken accepts ballot = 0

theorem ProposerInfo.Preparing.accepting {info : ProposerInfo} (hpreparing : info.Preparing) :
    info.accepting = false := by
  unfold ProposerInfo.accepting
  rcases hpreparing with hstatus | hstatus <;> simp [hstatus]

section Unanimous

variable {proposer : Proposer} {view : View}

/-- When all recorded promises are positive, their number decides. -/
theorem Proposer.handleMsgPromise_unanimous {msg : MsgAckPrepare} (hmode : view.mode ≠ .rs)
    (hballot : proposer.currBallot ≤ msg.ballotId) (hvalue : proposer.currValue = none)
    (hpositive : ∀ entry ∈ OrderedMap.entries MsgAckPrepare.reply
      (proposer.recordPrepare msg).msgAckPrepare, entry.2 = true) :
    (proposer.handleMsgPromise view msg).map Prod.fst =
      some (if (proposer.recordPrepare msg).msgAckPrepare.size < proposer.qr then .notEnough
        else .continuePhase) := by
  have hall : (proposer.recordPrepare msg).tally.trueCounter =
      (proposer.recordPrepare msg).msgAckPrepare.size := by
    rw [(Proposer.tally_spec _).trueCounter, Nat.zero_add, ← Std.TreeMap.length_toList,
      ← List.length_map (f := Prod.snd), List.countP_eq_length]
    intro ack hmem
    rcases List.mem_map.mp hmem with ⟨⟨key, found⟩, hentry, rfl⟩
    exact hpositive (key, found.reply) (List.mem_map.mpr ⟨_, hentry, rfl⟩)
  have hdrop : ¬ (msg.ballotId < proposer.currBallot ∨ proposer.currValue.isSome) := by
    simp [hvalue, hballot]
  unfold recordPrepare at hall ⊢
  simp only [handleMsgPromise, hdrop, if_false]
  by_cases hfew :
      (proposer.msgAckPrepare.insert (toNodeId msg.msgHeader.nodeId) msg).size < proposer.qr
  · simp [hfew]
  · simp only [hfew, if_false]
    rw [if_pos (by rw [hall]; exact Nat.le_of_not_lt hfew)]
    unfold chooseValue
    split
    · rfl
    · rw [if_neg hmode]
      rfl

theorem Proposer.handleMsgAccepted_unanimous {msg : MsgAckAccept}
    (hballot : proposer.currBallot ≤ msg.ballotId) (hvalue : proposer.currValue.isSome)
    (hpositive : ∀ entry ∈ OrderedMap.entries MsgAckAccept.reply
      (proposer.recordAccept msg).msgAckAccept, entry.2 = true) :
    (proposer.handleMsgAccepted msg).1 =
      if (proposer.recordAccept msg).msgAckAccept.size < proposer.qw then .notEnough
        else .choose := by
  have hall : (proposer.recordAccept msg).trueAccepts =
      (proposer.recordAccept msg).msgAckAccept.size := by
    rw [trueAccepts, ← Std.TreeMap.length_toList, ← List.length_map (f := Prod.snd),
      List.countP_eq_length]
    intro ack hmem
    rcases List.mem_map.mp hmem with ⟨⟨key, found⟩, hentry, rfl⟩
    exact hpositive (key, found.reply) (List.mem_map.mpr ⟨_, hentry, rfl⟩)
  have hdrop : ¬ (msg.ballotId < proposer.currBallot ∨ proposer.currValue.isNone) := by
    rw [Option.isNone_eq_false_iff.mpr hvalue]
    simp [hballot]
  unfold recordAccept at hall ⊢
  simp only [handleMsgAccepted, hdrop, if_false]
  by_cases hfew :
      (proposer.msgAckAccept.insert (toNodeId msg.msgHeader.nodeId) msg).size < proposer.qw
  · simp [hfew]
  · simp only [hfew, if_false]
    rw [if_pos (by rw [hall]; exact Nat.le_of_not_lt hfew)]

end Unanimous

namespace InRound

variable {bound p restarts : ℕ} {info info' : ProposerInfo} {inFlight rest : Multiset (Letter ℕ)}
  {promised : ℕ → ℕ} {taken : Bool → ℕ → ℕ} {letter : Letter ℕ}

theorem lose (hinRound : InRound bound p info inFlight promised restarts taken)
    (hletters : inFlight = letter ::ₘ rest) :
    InRound bound p info rest promised restarts taken where
  running := hinRound.running
  empty := hinRound.empty
  sound := hinRound.sound.step (.lose hletters)
  ballot := hinRound.ballot
  restarts_le := hinRound.restarts_le
  counted := hinRound.counted
  later := hinRound.later

theorem answer (hinRound : InRound bound p info inFlight promised restarts taken)
    (hletters : inFlight = letter ::ₘ rest) (hrequest : letter.answer = none) :
    InRound bound p info
      ((info.lone inFlight promised).answer letter rest).letters
      ((info.lone inFlight promised).answer letter rest).promised restarts taken where
  running := hinRound.running
  empty := hinRound.empty
  sound := hinRound.sound.step (.answer hletters hrequest)
  ballot := hinRound.ballot
  restarts_le := hinRound.restarts_le
  counted := hinRound.counted
  later := hinRound.later

theorem letter_round_le (hinRound : InRound bound p info inFlight promised restarts taken)
    (hmem : letter ∈ inFlight) : letter.round ≤ info.round := hinRound.sound.round_le letter hmem

/-- An acknowledgement of an earlier round is of no use. -/
theorem stale (hinRound : InRound bound p info inFlight promised restarts taken)
    (hletters : inFlight = letter ::ₘ rest) (hround : letter.round ≠ info.round) :
    InRound bound p info rest promised restarts (bump taken letter) where
  running := hinRound.running
  empty := hinRound.empty
  sound := hinRound.sound.step (.lose hletters)
  ballot := hinRound.ballot
  restarts_le := hinRound.restarts_le
  counted := by
    rw [bump_of_ne hround]
    exact hinRound.counted
  later := by
    intro accepts ballot hlater
    have hle : letter.round ≤ info.round := by
      apply hinRound.letter_round_le
      rw [hletters]
      exact Multiset.mem_cons_self letter rest
    rw [bump_of_ne (by omega)]
    exact hinRound.later accepts ballot hlater

/-- The phase of a proposer that stays in its round may move on. -/
theorem rephase (hinRound : InRound bound p info inFlight promised restarts taken)
    (hpreparing : info.Preparing) :
    InRound bound p { info with proposerStatus := .phaseI } inFlight promised restarts taken := by
  have hphase : info.proposerStatus ≠ .phaseII := by
    rcases hpreparing with hstatus | hstatus <;> simp [hstatus]
  have hacks : ({ info with proposerStatus := .phaseI } : ProposerInfo).acks = info.acks := by
    simp [ProposerInfo.acks, hphase]
  have haccepting : ({ info with proposerStatus := .phaseI } : ProposerInfo).accepting =
      info.accepting := by
    simp [ProposerInfo.accepting, hphase]
  constructor
  · exact .inl (.inr rfl)
  · exact fun _ => hinRound.empty hpreparing
  · unfold ProposerInfo.lone
    rw [hacks, haccepting]
    exact hinRound.sound
  · exact hinRound.ballot
  · exact hinRound.restarts_le
  · rw [hacks, haccepting]
    exact hinRound.counted
  · unfold ProposerInfo.round
    rw [haccepting]
    exact hinRound.later

theorem record {reply : Bool} (hinRound : InRound bound p info inFlight promised restarts taken)
    (hletters : inFlight = letter ::ₘ rest) (hreply : letter.answer = some reply)
    (hround : letter.round = info.round)
    (hrunning : info'.Preparing ∨ info'.proposerStatus = .phaseII)
    (hempty : info'.Preparing → info'.currProposer.msgAckAccept = {})
    (haccepting : info'.accepting = info.accepting)
    (hballot : info'.currProposer.currBallot = info.currProposer.currBallot)
    (hacks : info'.acks = (letter.node, reply) ::ₘ info.acks) :
    InRound bound p info' rest promised restarts (bump taken letter) where
  running := hrunning
  empty := hempty
  sound := by
    have hsound := hinRound.sound.step (.record hletters hreply hround)
    unfold ProposerInfo.lone at hsound ⊢
    rwa [haccepting, hballot, hacks]
  ballot := hballot.trans hinRound.ballot
  restarts_le := hinRound.restarts_le
  counted := by
    rw [haccepting, hballot, bump_of_eq hround, hacks, Multiset.card_cons, hinRound.counted]
  later := by
    intro accepts ballot hlater
    have hsame : info'.round = info.round := by
      rw [ProposerInfo.round, haccepting, hballot]
      rfl
    rw [hsame] at hlater
    rw [bump_of_ne (by omega)]
    exact hinRound.later accepts ballot hlater

/-- The proposer asks the nodes in a later round; the letter that made it do so
is used up. -/
theorem ask {nodes : List ℕ} {restarts' : ℕ}
    (hinRound : InRound bound p info inFlight promised restarts taken)
    (hletters : inFlight = letter ::ₘ rest) (hnodes : nodes.Nodup)
    (hrunning : info'.Preparing ∨ info'.proposerStatus = .phaseII)
    (hempty : info'.Preparing → info'.currProposer.msgAckAccept = {})
    (hlater : info.round < info'.round)
    (hphase : info'.accepting = true →
      info'.currProposer.currBallot = info.currProposer.currBallot)
    (hacks : info'.acks = 0)
    (hballot : info'.currProposer.currBallot = 2 ^ 16 * (restarts' + 1) + p)
    (hrestarts : 2 ^ 16 * restarts' ≤ bound) :
    InRound bound p info'
      (rest + Multiset.ofList
        (nodes.map (request info'.accepting info'.currProposer.currBallot)))
      promised restarts' (bump taken letter) where
  running := hrunning
  empty := hempty
  sound := by
    have hlost := hinRound.sound.step (.lose hletters)
    have hsound := hlost.step (.ask hlater hnodes hphase)
    unfold ProposerInfo.lone at hsound ⊢
    rwa [hacks]
  ballot := hballot
  restarts_le := hrestarts
  counted := by
    have hle : letter.round ≤ info.round := by
      apply hinRound.letter_round_le
      rw [hletters]
      exact Multiset.mem_cons_self letter rest
    have hnew : info.round < LoneProposer.round info'.accepting info'.currProposer.currBallot :=
      hlater
    rw [hacks, Multiset.card_zero, bump_of_ne (by omega)]
    exact hinRound.later _ _ hnew
  later := by
    intro accepts ballot hround
    have hle : letter.round ≤ info.round := by
      apply hinRound.letter_round_le
      rw [hletters]
      exact Multiset.mem_cons_self letter rest
    rw [bump_of_ne (by omega)]
    exact hinRound.later accepts ballot (hlater.trans hround)

/-! ### Recording an answer -/

theorem acks_recordPrepare {msg : MsgAckPrepare}
    (hinRound : InRound bound p info inFlight promised restarts taken)
    (hpreparing : info.Preparing) (hmem : promiseLetter msg ∈ inFlight)
    (hround : (promiseLetter msg).round = info.round) :
    ({ info with
        currProposer := info.currProposer.recordPrepare msg
        proposerStatus := .phaseI } : ProposerInfo).acks =
      (toNodeId msg.msgHeader.nodeId, msg.reply) ::ₘ info.acks := by
  have hphase : info.proposerStatus ≠ .phaseII := by
    rcases hpreparing with hstatus | hstatus <;> simp [hstatus]
  have hnew := hinRound.sound.unrecorded hmem hround
  simp only [ProposerInfo.lone, ProposerInfo.acks, hphase, if_false] at hnew ⊢
  exact OrderedMap.entries_insert_coe MsgAckPrepare.reply (OrderedMap.fresh_of_notMem hnew) msg

theorem acks_recordAccept {msg : MsgAckAccept}
    (hinRound : InRound bound p info inFlight promised restarts taken)
    (hphase : info.proposerStatus = .phaseII) (hmem : acceptedLetter msg ∈ inFlight)
    (hround : (acceptedLetter msg).round = info.round) :
    ({ info with currProposer := info.currProposer.recordAccept msg } : ProposerInfo).acks =
      (toNodeId msg.msgHeader.nodeId, msg.reply) ::ₘ info.acks := by
  have hnew := hinRound.sound.unrecorded hmem hround
  simp only [ProposerInfo.lone, ProposerInfo.acks, hphase, if_true] at hnew ⊢
  exact OrderedMap.entries_insert_coe MsgAckAccept.reply (OrderedMap.fresh_of_notMem hnew) msg

theorem recordPrepare {msg : MsgAckPrepare}
    (hinRound : InRound bound p info inFlight promised restarts taken)
    (hpreparing : info.Preparing) (hletters : inFlight = promiseLetter msg ::ₘ rest)
    (hround : (promiseLetter msg).round = info.round) :
    InRound bound p
      { info with currProposer := info.currProposer.recordPrepare msg, proposerStatus := .phaseI }
      rest promised restarts (bump taken (promiseLetter msg)) := by
  have hmem : promiseLetter msg ∈ inFlight := by
    rw [hletters]
    exact Multiset.mem_cons_self _ rest
  refine hinRound.record hletters rfl hround (.inl (.inr rfl)) ?_ ?_ rfl ?_
  · exact fun _ => hinRound.empty hpreparing
  · rw [hpreparing.accepting]
    rfl
  · exact hinRound.acks_recordPrepare hpreparing hmem hround

theorem recordAccept {msg : MsgAckAccept}
    (hinRound : InRound bound p info inFlight promised restarts taken)
    (hphase : info.proposerStatus = .phaseII) (hletters : inFlight = acceptedLetter msg ::ₘ rest)
    (hround : (acceptedLetter msg).round = info.round) :
    InRound bound p { info with currProposer := info.currProposer.recordAccept msg }
      rest promised restarts (bump taken (acceptedLetter msg)) := by
  have hmem : acceptedLetter msg ∈ inFlight := by
    rw [hletters]
    exact Multiset.mem_cons_self _ rest
  refine hinRound.record hletters rfl hround (.inr hphase) ?_ rfl rfl ?_
  · intro hpreparing
    rcases hpreparing with hstatus | hstatus <;> simp [hphase] at hstatus
  · exact hinRound.acks_recordAccept hphase hmem hround

theorem round_eq (hinRound : InRound bound p info inFlight promised restarts taken)
    (hmem : letter ∈ inFlight) (haccepts : letter.accepts = info.accepting)
    (hballot : info.currProposer.currBallot ≤ letter.ballot) : letter.round = info.round := by
  have hle := LoneProposer.ballot_le (hinRound.letter_round_le hmem)
  exact LoneProposer.round_inj.mpr ⟨haccepts, Nat.le_antisymm hle hballot⟩

/-- Above the bound an answer to the PREPARE gives CONTINUE as soon as there are
enough of them. -/
theorem promise_returned {msg : MsgAckPrepare} {view : View} (hmode : view.mode ≠ .rs)
    (hinRound : InRound bound p info inFlight promised restarts taken)
    (hpreparing : info.Preparing) (hvalue : info.currProposer.currValue = none)
    (hmem : promiseLetter msg ∈ inFlight)
    (hballot : info.currProposer.currBallot ≤ msg.ballotId)
    (habove : bound < info.currProposer.currBallot) :
    (info.currProposer.handleMsgPromise view msg).map Prod.fst =
      some (if info.acks.card + 1 < info.currProposer.qr then .notEnough else .continuePhase) := by
  rcases Multiset.exists_cons_of_mem hmem with ⟨rest, hletters⟩
  have hround := hinRound.round_eq hmem hpreparing.accepting.symm hballot
  have hrecorded := hinRound.recordPrepare hpreparing hletters hround
  have hpositive := (hrecorded.sound.unopposed habove).recorded
  have hacks := hinRound.acks_recordPrepare hpreparing hmem hround
  have hcard : info.acks.card + 1 = (info.currProposer.recordPrepare msg).msgAckPrepare.size := by
    rw [← Multiset.card_cons _ info.acks, ← hacks,
      ← OrderedMap.length_entries MsgAckPrepare.reply]
    rfl
  rw [hcard]
  exact Proposer.handleMsgPromise_unanimous hmode hballot hvalue hpositive

/-- Above the bound an answer to the ACCEPT gives CHOOSE as soon as there are
enough of them. -/
theorem accepted_returned {msg : MsgAckAccept}
    (hinRound : InRound bound p info inFlight promised restarts taken)
    (hphase : info.proposerStatus = .phaseII) (hvalue : info.currProposer.currValue.isSome)
    (hmem : acceptedLetter msg ∈ inFlight)
    (hballot : info.currProposer.currBallot ≤ msg.ballotId)
    (habove : bound < info.currProposer.currBallot) :
    (info.currProposer.handleMsgAccepted msg).1 =
      if info.acks.card + 1 < info.currProposer.qw then .notEnough else .choose := by
  rcases Multiset.exists_cons_of_mem hmem with ⟨rest, hletters⟩
  have haccepting : (acceptedLetter msg).accepts = info.accepting := by
    simp [acceptedLetter, ProposerInfo.accepting, hphase]
  have hround := hinRound.round_eq hmem haccepting hballot
  have hrecorded := hinRound.recordAccept hphase hletters hround
  have hpositive := (hrecorded.sound.unopposed habove).recorded
  simp only [ProposerInfo.lone, ProposerInfo.acks, hphase, if_true, Multiset.mem_coe] at hpositive
  have hacks := hinRound.acks_recordAccept hphase hmem hround
  have hcard : info.acks.card + 1 = (info.currProposer.recordAccept msg).msgAckAccept.size := by
    rw [← Multiset.card_cons _ info.acks, ← hacks,
      ← OrderedMap.length_entries MsgAckAccept.reply]
    simp [ProposerInfo.acks, hphase]
  rw [hcard]
  exact Proposer.handleMsgAccepted_unanimous hballot hvalue hpositive

end InRound

/-! ## A message for the proposer -/

/-- The proposer of the slot after its opening: in a round, or at its end. -/
inductive Course (bound p : ℕ) (found : Option ProposerInfo) (inFlight : Multiset (Letter ℕ))
    (promised : ℕ → ℕ) (restarts : ℕ) (taken : Bool → ℕ → ℕ) : Prop where
  | round {info : ProposerInfo} (hinfo : found = some info)
      (hinRound : InRound bound p info inFlight promised restarts taken)
  | done (hdone : ∀ info, found = some info → info.proposerStatus = .chosen ∧
        info.currProposer.currBallot = 2 ^ 16 * (restarts + 1) + p)
      (hrestarts : 2 ^ 16 * restarts ≤ bound)

/-- What handling the message adds to the restarts. -/
def restartsBy (captain : Captain) (msg : Message) : ℕ :=
  if captain.returned msg = some .restart then 1 else 0

theorem toList_empty_entries {Value : Type} (label : Value → Bool) :
    OrderedMap.entries label ({} : Std.TreeMap ℕ Value) = [] := by
  rw [OrderedMap.entries]
  rfl

theorem Course.restarts_le {bound p restarts : ℕ} {found : Option ProposerInfo}
    {inFlight : Multiset (Letter ℕ)} {promised : ℕ → ℕ} {taken : Bool → ℕ → ℕ}
    (hcourse : Course bound p found inFlight promised restarts taken) :
    2 ^ 16 * restarts ≤ bound := by
  cases hcourse with
  | round hinfo hinRound => exact hinRound.restarts_le
  | done hdone hrestarts => exact hrestarts

section Messages

variable {slot bound p restarts : ℕ} {info : ProposerInfo} {inFlight rest : Multiset (Letter ℕ)}
  {promised : ℕ → ℕ} {taken : Bool → ℕ → ℕ} {captain : Captain}

/-- The proposer starts over with the next ballot. -/
theorem InRound.restart {letter : Letter ℕ} {proposer : Proposer} (captain : Captain)
    (hinRound : InRound bound p info inFlight promised restarts taken)
    (hletters : inFlight = letter ::ₘ rest)
    (hballot : proposer.currBallot = info.currProposer.currBallot)
    (hle : info.currProposer.currBallot ≤ bound) (slot : ℕ) :
    ∃ info', (captain.restart slot { info with currProposer := proposer }).1.proposers[slot]? =
        some info' ∧
      InRound bound p info'
        (rest + letters slot
          (packetsOf (captain.restart slot { info with currProposer := proposer }).2))
        promised (restarts + 1) (bump taken letter) := by
  have hown := hinRound.ballot
  have hnext : (proposer.genNextBallot captain.view).currBallot =
      info.currProposer.currBallot + 2 ^ 16 := by
    rw [Proposer.genNextBallot, hballot, if_neg (by omega)]
  let info' : ProposerInfo := { info with
    currProposer := { proposer with
      currBallot := (proposer.genNextBallot captain.view).currBallot
      currValue := none
      msgAckPrepare := {}
      msgAckAccept := {} }
    proposerStatus := .init }
  refine ⟨info', ?_, ?_⟩
  · rw [Captain.restart_eq]
    simp [Captain.setProposer, info']
  · have hsame : info'.currProposer.currBallot = info.currProposer.currBallot + 2 ^ 16 := hnext
    have hlater : info.round < info'.round := by
      apply LoneProposer.round_lt
      rw [hsame]
      omega
    rw [Captain.restart_eq, hnext, Captain.letters_prepare, ← hsame]
    refine hinRound.ask hletters (captain.destinations_broadcastMsg _) (.inl (.inl rfl))
      (fun _ => rfl) hlater ?_ ?_ ?_ ?_
    · intro hphase
      simp [ProposerInfo.accepting, info'] at hphase
    · simp [ProposerInfo.acks, info', toList_empty_entries]
    · omega
    · omega

/-- The proposer asks for its value in the ballot that was promised. -/
theorem InRound.advance {letter : Letter ℕ} {proposer : Proposer} {value : PropValue}
    {outs : List Output} {final : Captain}
    (hinRound : InRound bound p info inFlight promised restarts taken)
    (hpreparing : info.Preparing) (hletters : inFlight = letter ::ₘ rest)
    (hballot : proposer.currBallot = info.currProposer.currBallot)
    (hacks : proposer.msgAckAccept = info.currProposer.msgAckAccept)
    (hvalue : proposer.currValue = some value)
    (henter : captain.enterPhaseII slot { info with currProposer := proposer } =
      some (final, outs)) :
    ∃ info', final.proposers[slot]? = some info' ∧
      InRound bound p info' (rest + letters slot (packetsOf outs)) promised restarts
        (bump taken letter) := by
  have hcurr : { info with currProposer := proposer }.currProposer.currValue = some value := hvalue
  have hnodes := Captain.destinations_enterPhaseII henter
  rcases Captain.enterPhaseII_spec hcurr henter with ⟨⟨rsValues, rsEncoder, rfl⟩, houts⟩
  let info' : ProposerInfo := { info with
    currProposer := { proposer with rsValues, rsEncoder }
    proposerStatus := .phaseII }
  have hletters' : letters slot (packetsOf outs) =
      Multiset.ofList ((destinations outs).map (request true info'.currProposer.currBallot)) := by
    apply letters_requests
    intro packet hmem
    rcases houts _ hmem with ⟨sent, accept, heq, hmsg, hheader, hsentBallot, _⟩
    rw [Output.send.injEq] at heq
    subst heq
    simp only [Packet.letter?, hmsg, hheader, if_true, hsentBallot]
    rfl
  refine ⟨info', by simp [Captain.setProposer, info'], ?_⟩
  rw [hletters']
  have hphase : info'.accepting = true := by simp [ProposerInfo.accepting, info']
  rw [← hphase]
  refine hinRound.ask hletters hnodes (.inr rfl) ?_ ?_ (fun _ => hballot) ?_ ?_
    hinRound.restarts_le
  · intro hstatus
    rcases hstatus with hstatus | hstatus <;> simp [info'] at hstatus
  · unfold ProposerInfo.round
    rw [hphase, hpreparing.accepting]
    change LoneProposer.round false _ < LoneProposer.round true proposer.currBallot
    rw [hballot]
    simp [LoneProposer.round]
  · have hempty : proposer.msgAckAccept = {} := hacks.trans (hinRound.empty hpreparing)
    simp [ProposerInfo.acks, info', hempty, toList_empty_entries]
  · exact hballot.trans hinRound.ballot

/-- A new proposer asks for promises of its first ballot. -/
theorem InRound.first (captain : Captain) (value : PropValue) (name : Name) (tryTime : ℕ)
    {nodes : List ℕ} (hwhoami : captain.whoami = p) (hnodes : nodes.Nodup)
    (hpromised : ∀ i, promised i ≤ bound) (htaken : ∀ accepts ballot, taken accepts ballot = 0) :
    InRound bound p (captain.newProposer value name tryTime false)
      (Multiset.ofList (nodes.map (request false (2 ^ 16 + p)))) promised 0 taken where
  running := .inl (.inl rfl)
  empty := fun _ => rfl
  sound := by
    let before : LoneProposer.State ℕ :=
      { accepting := false, ballot := 0, letters := 0, promised, acks := 0 }
    have hasked : LoneProposer.Sound bound (before.ask false (2 ^ 16 + p) nodes) := by
      apply LoneProposer.Sound.ask _ _ hnodes
      · exact fun letter hmem => absurd hmem (Multiset.notMem_zero letter)
      · exact fun i => .inl (hpromised i)
    have hsame : (captain.newProposer value name tryTime false).lone
        (Multiset.ofList (nodes.map (request false (2 ^ 16 + p)))) promised =
          before.ask false (2 ^ 16 + p) nodes := by
      simp [ProposerInfo.lone, LoneProposer.State.ask, before, ProposerInfo.accepting,
        ProposerInfo.acks, hwhoami, toList_empty_entries]
    rw [hsame]
    exact hasked
  ballot := by
    rw [Captain.newProposer_currBallot, hwhoami]
    omega
  restarts_le := Nat.zero_le bound
  counted := by
    simp [htaken, ProposerInfo.acks, toList_empty_entries]
  later := fun accepts ballot _ => htaken accepts ballot

/-- A promise that does not end Phase I. -/
theorem InRound.takePromise {msg : MsgAckPrepare} {view : View} {ack : AckType}
    {proposer : Proposer} (hinRound : InRound bound p info inFlight promised restarts taken)
    (hpreparing : info.Preparing) (hnone : info.currProposer.currValue = none)
    (hletters : inFlight = promiseLetter msg ::ₘ rest)
    (hack : info.currProposer.handleMsgPromise view msg = some (ack, proposer))
    (hstays : ack ≠ .continuePhase ∧ ack ≠ .restart) :
    InRound bound p { info with currProposer := proposer, proposerStatus := .phaseI } rest
      promised restarts (bump taken (promiseLetter msg)) := by
  cases Proposer.handleMsgPromise_step hack with
  | drops hold =>
      have hlower : msg.ballotId < info.currProposer.currBallot := by
        rcases hold with hlower | hsome
        · exact hlower
        · simp [hnone] at hsome
      have hround : (promiseLetter msg).round ≠ info.round :=
        (LoneProposer.round_lt hlower _ _).ne
      exact (hinRound.stale hletters hround).rephase hpreparing
  | waits hballot hvalue hfew =>
      have hmem : promiseLetter msg ∈ inFlight := by
        rw [hletters]
        exact Multiset.mem_cons_self _ rest
      have hround := hinRound.round_eq hmem hpreparing.accepting.symm hballot
      exact hinRound.recordPrepare hpreparing hletters hround
  | restarts hballot hvalue => exact absurd rfl hstays.2
  | continues hballot hvalue htrue hafter => exact absurd rfl hstays.1

/-- An acknowledgement that does not end Phase II. -/
theorem InRound.takeAccepted {msg : MsgAckAccept} {ack : AckType} {proposer : Proposer}
    (hinRound : InRound bound p info inFlight promised restarts taken)
    (hphase : info.proposerStatus = .phaseII) (hsome : info.currProposer.currValue.isSome)
    (hletters : inFlight = acceptedLetter msg ::ₘ rest)
    (hack : info.currProposer.handleMsgAccepted msg = (ack, proposer))
    (hstays : ack = .drop ∨ ack = .notEnough) :
    InRound bound p { info with currProposer := proposer } rest promised restarts
      (bump taken (acceptedLetter msg)) := by
  cases Proposer.handleMsgAccepted_step hack with
  | drops hold =>
      have hlower : msg.ballotId < info.currProposer.currBallot := by
        rcases hold with hlower | hno
        · exact hlower
        · rw [Option.isNone_eq_false_iff.mpr hsome] at hno
          simp at hno
      have hround : (acceptedLetter msg).round ≠ info.round :=
        (LoneProposer.round_lt hlower _ _).ne
      exact hinRound.stale hletters hround
  | waits hballot hvalue =>
      have hmem : acceptedLetter msg ∈ inFlight := by
        rw [hletters]
        exact Multiset.mem_cons_self _ rest
      have haccepts : (acceptedLetter msg).accepts = info.accepting := by
        simp [acceptedLetter, ProposerInfo.accepting, hphase]
      have hround := hinRound.round_eq hmem haccepts hballot
      exact hinRound.recordAccept hphase hletters hround
  | restarts hballot hvalue => simp at hstays
  | chooses hballot hvalue htrue => simp at hstays

/-- A promise makes the proposer start over only up to the bound. -/
theorem InRound.le_of_promise {msg : MsgAckPrepare} {view : View} {proposer : Proposer}
    (hinRound : InRound bound p info inFlight promised restarts taken) (hmode : view.mode ≠ .rs)
    (hpreparing : info.Preparing) (hmem : promiseLetter msg ∈ inFlight)
    (hack : info.currProposer.handleMsgPromise view msg = some (.restart, proposer)) :
    proposer.currBallot = info.currProposer.currBallot ∧
      info.currProposer.currBallot ≤ bound := by
  cases Proposer.handleMsgPromise_step hack with
  | restarts hballot hvalue =>
      refine ⟨rfl, ?_⟩
      by_contra habove
      have hresult := hinRound.promise_returned hmode hpreparing hvalue hmem hballot
        (Nat.lt_of_not_le habove)
      rw [hack, Option.map_some, Option.some.injEq] at hresult
      split at hresult <;> simp at hresult

/-- An acknowledgement makes the proposer start over only up to the bound. -/
theorem InRound.le_of_accepted {msg : MsgAckAccept} {proposer : Proposer}
    (hinRound : InRound bound p info inFlight promised restarts taken)
    (hphase : info.proposerStatus = .phaseII) (hmem : acceptedLetter msg ∈ inFlight)
    (hack : info.currProposer.handleMsgAccepted msg = (.restart, proposer)) :
    proposer.currBallot = info.currProposer.currBallot ∧
      info.currProposer.currBallot ≤ bound := by
  cases Proposer.handleMsgAccepted_step hack with
  | restarts hballot hvalue =>
      refine ⟨rfl, ?_⟩
      by_contra habove
      have hresult := hinRound.accepted_returned hphase hvalue hmem hballot
        (Nat.lt_of_not_le habove)
      rw [hack] at hresult
      simp only at hresult
      split at hresult <;> simp at hresult

/-- A promise in flight for the slot is read as its letter by the proposer of the slot. -/
theorem letter_promise {packet : Packet} {letter : Letter ℕ} {msg : MsgAckPrepare}
    {found : ProposerInfo} (hletter : packet.letter? slot = some letter)
    (hmsg : packet.msg = .promise msg) (hinfo : captain.proposers[slot]? = some info)
    (hfound : captain.proposers[msg.msgHeader.slotId]? = some found) :
    msg.msgHeader.slotId = slot ∧ found = info ∧ letter = promiseLetter msg := by
  have hslot := letter?_slot hletter
  rw [hmsg] at hslot
  change msg.msgHeader.slotId = slot at hslot
  simp only [Packet.letter?, hmsg, hslot, if_true, Option.some.injEq] at hletter
  rw [hslot, hinfo, Option.some.injEq] at hfound
  exact ⟨hslot, hfound.symm, hletter.symm⟩

/-- An acknowledgement in flight for the slot is read as its letter by the proposer of the
slot. -/
theorem letter_accepted {packet : Packet} {letter : Letter ℕ} {msg : MsgAckAccept}
    {found : ProposerInfo} (hletter : packet.letter? slot = some letter)
    (hmsg : packet.msg = .accepted msg) (hinfo : captain.proposers[slot]? = some info)
    (hfound : captain.proposers[msg.msgHeader.slotId]? = some found) :
    msg.msgHeader.slotId = slot ∧ found = info ∧ letter = acceptedLetter msg := by
  have hslot := letter?_slot hletter
  rw [hmsg] at hslot
  change msg.msgHeader.slotId = slot at hslot
  simp only [Packet.letter?, hmsg, hslot, if_true, Option.some.injEq] at hletter
  rw [hslot, hinfo, Option.some.injEq] at hfound
  exact ⟨hslot, hfound.symm, hletter.symm⟩

theorem restartsBy_of_returned {msg : Message} {ack : AckType}
    (hreturned : captain.returned msg = some ack) :
    restartsBy captain msg = if ack = .restart then 1 else 0 := by
  simp only [restartsBy, hreturned, Option.some.injEq]

/-- A message for the slot is handled by its proposer. -/
theorem InRound.proposerMove {setting : Captain.Setting} {packet : Packet} {letter : Letter ℕ}
    {outs : List Output} {final : Captain}
    (hinRound : InRound bound p info inFlight promised restarts taken)
    (hinfo : captain.proposers[slot]? = some info) (hmode : captain.mode ≠ .rs)
    (hpreparing : info.Preparing → info.currProposer.currValue = none)
    (haccepting : info.proposerStatus = .phaseII → info.currProposer.currValue.isSome)
    (hreceived : ∀ msg, setting.received msg → msg = packet.msg)
    (hletter : packet.letter? slot = some letter) (hletters : inFlight = letter ::ₘ rest)
    (hwork : captain.work = true) (hmove : Captain.ProposerMove setting captain outs final) :
    Course bound p final.proposers[slot]? (rest + letters slot (packetsOf outs)) promised
      (restarts + restartsBy captain packet.msg) (bump taken letter) := by
  have hmem : letter ∈ inFlight := by
    rw [hletters]
    exact Multiset.mem_cons_self letter rest
  cases hmove with
  | @promised msg found ack proposer hmsg hfound hstatus hack hstays =>
      have hpacket := (hreceived _ hmsg).symm
      rcases letter_promise hletter hpacket hinfo hfound with ⟨rfl, rfl, rfl⟩
      have hreturned := Captain.returned_promise hwork hfound hstatus hack
      rw [hpacket, restartsBy_of_returned hreturned, if_neg hstays.2, letters_nil, add_zero,
        Nat.add_zero]
      exact .round (by simp [Captain.setProposer])
        (hinRound.takePromise hstatus (hpreparing hstatus) hletters hack hstays)
  | @promiseRestart msg found proposer hmsg hfound hstatus hack =>
      have hpacket := (hreceived _ hmsg).symm
      rcases letter_promise hletter hpacket hinfo hfound with ⟨rfl, rfl, rfl⟩
      have hreturned := Captain.returned_promise hwork hfound hstatus hack
      rcases hinRound.le_of_promise hmode hstatus hmem hack with ⟨hballot, hle⟩
      rcases hinRound.restart captain hletters hballot hle msg.msgHeader.slotId with
        ⟨info', hinfo', hnext⟩
      rw [hpacket, restartsBy_of_returned hreturned, if_pos rfl]
      exact .round hinfo' hnext
  | @continued msg found proposer outs final hmsg hfound hstatus hack henter =>
      have hpacket := (hreceived _ hmsg).symm
      rcases letter_promise hletter hpacket hinfo hfound with ⟨rfl, rfl, rfl⟩
      have hreturned := Captain.returned_promise hwork hfound hstatus hack
      rw [hpacket, restartsBy_of_returned hreturned, if_neg (by simp), Nat.add_zero]
      cases Proposer.handleMsgPromise_step hack with
      | continues hballot hvalue htrue hafter =>
          rcases hinRound.advance hstatus hletters hafter.currBallot hafter.msgAckAccept
            hafter.currValue henter with ⟨info', hinfo', hnext⟩
          exact .round hinfo' hnext
  | @acked msg found ack proposer hmsg hfound hstatus hack hstays =>
      have hpacket := (hreceived _ hmsg).symm
      rcases letter_accepted hletter hpacket hinfo hfound with ⟨rfl, rfl, rfl⟩
      have hreturned := Captain.returned_accepted hwork hfound hstatus
      have hgoes : ack ≠ .restart := by
        rcases hstays with rfl | rfl <;> simp
      rw [hack] at hreturned
      rw [hpacket, restartsBy_of_returned hreturned, if_neg hgoes, letters_nil, add_zero,
        Nat.add_zero]
      exact .round (by simp [Captain.setProposer])
        (hinRound.takeAccepted hstatus (haccepting hstatus) hletters hack hstays)
  | @ackRestart msg found proposer hmsg hfound hstatus hack =>
      have hpacket := (hreceived _ hmsg).symm
      rcases letter_accepted hletter hpacket hinfo hfound with ⟨rfl, rfl, rfl⟩
      have hreturned := Captain.returned_accepted hwork hfound hstatus
      rcases hinRound.le_of_accepted hstatus hmem hack with ⟨hballot, hle⟩
      rcases hinRound.restart captain hletters hballot hle msg.msgHeader.slotId with
        ⟨info', hinfo', hnext⟩
      rw [hack] at hreturned
      rw [hpacket, restartsBy_of_returned hreturned, if_pos rfl]
      exact .round hinfo' hnext
  | @chosen msg found proposer hmsg hfound hstatus hack =>
      have hpacket := (hreceived _ hmsg).symm
      rcases letter_accepted hletter hpacket hinfo hfound with ⟨rfl, rfl, rfl⟩
      have hreturned := Captain.returned_accepted hwork hfound hstatus
      rw [hack] at hreturned
      rw [hpacket, restartsBy_of_returned hreturned, if_neg (by simp), Nat.add_zero]
      apply Course.done
      · intro last hlast
        simp only [Captain.setProposer, Std.TreeMap.getElem?_insert_self,
          Option.some.injEq] at hlast
        rw [← hlast]
        cases Proposer.handleMsgAccepted_step hack with
        | chooses hballot hvalue htrue => exact ⟨rfl, hinRound.ballot⟩
      · exact hinRound.restarts_le

end Messages

end NDNPaxos
