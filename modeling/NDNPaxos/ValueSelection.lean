import NDNPaxos.Session
import NDNPaxos.Library.OrderedMap
import Mathlib.Tactic

/-!
# Which value Phase I selects

The running maximum of a proposer is the highest ballot among the positive
PROMISE messages that were recorded at the end of a round, this one or an
earlier one.  CONTINUE takes the value reported with it, or the proposer's own
value when none was reported.
-/

namespace NDNPaxos

/-- A positive PROMISE reports a value together with its ballot or neither. -/
def FromAcceptor (ack : MsgAckPrepare) : Prop :=
  ack.reply = true → (ack.maxPropValue = none ↔ ack.maxBallotId = 0)

instance (ack : MsgAckPrepare) : Decidable (FromAcceptor ack) :=
  inferInstanceAs (Decidable (_ → (_ ↔ _)))

structure Highest (acks : List MsgAckPrepare) (maxBallot : ℕ) (maxValue : Option PropValue) :
    Prop where
  le : ∀ ack ∈ acks, ack.reply = true → ack.maxBallotId ≤ maxBallot
  source : (maxBallot = 0 ∧ maxValue = none) ∨
    ∃ ack ∈ acks, ack.reply = true ∧ ack.maxBallotId = maxBallot ∧ maxValue.isSome ∧
      ack.maxPropValue = maxValue

theorem Highest.adoptTally {acks : List MsgAckPrepare} {proposer : Proposer}
    (hhighest : Highest acks proposer.maxBallot proposer.maxValue)
    (hrecorded : ∀ ack ∈ proposer.recorded, FromAcceptor ack) :
    Highest (acks ++ proposer.recorded) proposer.adoptTally.maxBallot
      proposer.adoptTally.maxValue := by
  have hspec := proposer.tally_spec
  constructor
  · intro ack hmem hreply
    rcases List.mem_append.mp hmem with hold | hnew
    · exact (hhighest.le ack hold hreply).trans hspec.start_le
    · exact hspec.reported_le ack hnew hreply
  · rw [Proposer.adoptTally]
    rcases hspec.source with ⟨hballot, hvalue⟩ | ⟨ack, hmem, hreply, hlt, hballot, hvalue⟩
    · rw [hballot, hvalue]
      rcases hhighest.source with hnone | ⟨ack, hold, hack⟩
      · exact .inl hnone
      · exact .inr ⟨ack, List.mem_append_left _ hold, hack⟩
    · have hsome : ack.maxPropValue ≠ none := by
        intro hnone
        have hzero := (hrecorded ack hmem hreply).mp hnone
        omega
      rcases Option.ne_none_iff_exists'.mp hsome with ⟨value, hreported⟩
      refine .inr ⟨ack, List.mem_append_right _ hmem, hreply, hballot.symm, ?_, ?_⟩
      · rw [hvalue]
        rfl
      · rw [hvalue, hreported, Option.getD_some]

/-- Outside the Reed-Solomon build CONTINUE keeps the value with the maximum. -/
theorem Proposer.Continues.maxValue_eq {view : View} {before after : Proposer} {value : PropValue}
    (hafter : Proposer.Continues view before value after) (hmode : view.mode ≠ .rs) :
    after.maxValue = before.maxValue := by
  cases hmax : before.maxValue with
  | none => exact (hafter.free hmax).2
  | some highest =>
      rcases hafter.bound highest hmax with ⟨_, hvalue, hsame⟩
      rw [hvalue, hsame hmode]

namespace Session

/-- The PROMISE messages that the running maximum has seen. -/
def tallied (session : Session) : List MsgAckPrepare :=
  session.ended ++ if session.proposer.currValue.isSome then session.proposer.recorded else []

/-- The message comes from an acceptor, which answers a PREPARE of the proposer. -/
def FromAcceptors (session : Session) : SessionInput → Prop
  | .promise msg => msg.ballotId ≤ session.proposer.currBallot ∧ FromAcceptor msg
  | .accepted _ => True

instance (session : Session) (input : SessionInput) : Decidable (session.FromAcceptors input) :=
  match input with
  | .promise _ => inferInstanceAs (Decidable (_ ∧ _))
  | .accepted _ => inferInstanceAs (Decidable True)

/-- The acknowledgements of a session and its running maximum. -/
structure Tallies (session : Session) : Prop where
  recorded : ∀ (key : ℕ) ack, session.proposer.msgAckPrepare[key]? = some ack →
    FromAcceptor ack ∧ ack.ballotId = session.proposer.currBallot ∧
      toNodeId ack.msgHeader.nodeId = key
  ended : ∀ ack ∈ session.ended, FromAcceptor ack
  highest : Highest session.tallied session.proposer.maxBallot session.proposer.maxValue

theorem tallies_start (view : View) (value : PropValue) (skipPhaseI : Bool) :
    (start view value skipPhaseI).Tallies := by
  have hnothing : (start view value skipPhaseI).tallied = [] := by
    cases skipPhaseI <;> rfl
  constructor
  · intro key ack hack
    cases skipPhaseI <;> simp [start, Proposer.initCurrValue, Proposer.genNextBallot,
      Proposer.new] at hack
  · exact fun ack hmem => absurd hmem List.not_mem_nil
  · rw [hnothing]
    refine ⟨fun ack hmem => absurd hmem List.not_mem_nil, .inl ?_⟩
    cases skipPhaseI <;> exact ⟨rfl, rfl⟩

section Step

variable {session next : Session} {view : View}

theorem Tallies.record (htallies : session.Tallies) {msg : MsgAckPrepare}
    (hfrom : session.FromAcceptors (.promise msg))
    (hballot : session.proposer.currBallot ≤ msg.ballotId) (key : ℕ) (ack : MsgAckPrepare)
    (hack : (session.proposer.recordPrepare msg).msgAckPrepare[key]? = some ack) :
    FromAcceptor ack ∧ ack.ballotId = session.proposer.currBallot ∧
      toNodeId ack.msgHeader.nodeId = key := by
  rcases OrderedMap.insert_cases hack with ⟨rfl, rfl⟩ | ⟨_, hold⟩
  · exact ⟨hfrom.2, le_antisymm hfrom.1 hballot, rfl⟩
  · exact htallies.recorded key ack hold

/-- At the end of Phase I the recorded messages join the maximum. -/
theorem Tallies.tally (htallies : session.Tallies) {msg : MsgAckPrepare}
    (hfrom : session.FromAcceptors (.promise msg))
    (hballot : session.proposer.currBallot ≤ msg.ballotId)
    (hvalue : session.proposer.currValue = none) :
    (∀ ack ∈ session.ended ++ (session.proposer.recordPrepare msg).recorded, FromAcceptor ack) ∧
      Highest (session.ended ++ (session.proposer.recordPrepare msg).recorded)
        (session.proposer.recordPrepare msg).adoptTally.maxBallot
        (session.proposer.recordPrepare msg).adoptTally.maxValue := by
  have hrecorded : ∀ ack ∈ (session.proposer.recordPrepare msg).recorded, FromAcceptor ack := by
    intro ack hmem
    rcases mem_recorded.mp hmem with ⟨key, hget⟩
    exact (htallies.record hfrom hballot key ack hget).1
  have hbefore : Highest session.ended session.proposer.maxBallot session.proposer.maxValue := by
    have hhighest := htallies.highest
    rwa [tallied, hvalue, Option.isSome_none, if_neg Bool.false_ne_true,
      List.append_nil] at hhighest
  constructor
  · intro ack hmem
    rcases List.mem_append.mp hmem with hold | hnew
    · exact htallies.ended ack hold
    · exact hrecorded ack hnew
  · exact Highest.adoptTally hbefore hrecorded

theorem tallied_preparing (hvalue : session.proposer.currValue = none) :
    session.tallied = session.ended := by
  rw [tallied, hvalue]
  exact List.append_nil _

theorem tallied_accepting (hvalue : session.proposer.currValue.isSome) :
    session.tallied = session.ended ++ session.proposer.recorded := by
  rw [tallied, if_pos hvalue]

theorem tallies_restart {proposer : Proposer}
    (hall : ∀ ack ∈ session.ended ++ proposer.recorded, FromAcceptor ack)
    (hhighest : Highest (session.ended ++ proposer.recorded) proposer.maxBallot
      proposer.maxValue) : (session.restart view proposer).Tallies := by
  constructor
  · intro key ack hack
    simp [restart, Proposer.restartMsgPrepare, Proposer.msgPrepare, Proposer.genNextBallot] at hack
  · exact hall
  · rw [tallied_preparing rfl]
    exact hhighest

theorem Tallies.step (htallies : session.Tallies) (hmode : view.mode ≠ .rs)
    {input : SessionInput} (hfrom : session.FromAcceptors input)
    (hstep : session.step view input = some next) : next.Tallies := by
  cases input with
  | promise msg =>
      cases promise_cases hstep with
      | drops hold hnext => rwa [hnext]
      | waits hballot hvalue hnext =>
          subst hnext
          have hhighest := htallies.highest
          rw [tallied_preparing hvalue] at hhighest
          have hsame : { session with
              proposer := session.proposer.recordPrepare msg : Session }.tallied =
                session.ended := tallied_preparing hvalue
          refine ⟨htallies.record hfrom hballot, htallies.ended, ?_⟩
          rw [hsame]
          exact hhighest
      | restarts hballot hvalue hnext =>
          subst hnext
          rcases htallies.tally hfrom hballot hvalue with ⟨hall, hhighest⟩
          exact tallies_restart hall hhighest
      | @continues value after hballot hvalue hack hafter henter =>
          rcases htallies.tally hfrom hballot hvalue with ⟨hall, hhighest⟩
          rcases enterPhaseII_frame henter with ⟨hended, rsValues, rsEncoder, hproposer⟩
          have hrecorded : next.proposer.recorded =
              (session.proposer.recordPrepare msg).recorded := by
            rw [Proposer.recorded, hproposer, hafter.msgAckPrepare]
            rfl
          have hsome : next.proposer.currValue.isSome := by
            rw [hproposer, hafter.currValue]
            rfl
          constructor
          · rw [hproposer, hafter.msgAckPrepare, hafter.currBallot]
            exact htallies.record hfrom hballot
          · rw [hended]
            exact htallies.ended
          · rw [tallied_accepting hsome, hended, hrecorded, hproposer, hafter.maxBallot,
              hafter.maxValue_eq hmode]
            exact hhighest
  | accepted msg =>
      cases accepted_cases hstep with
      | stays hnext =>
          subst hnext
          exact ⟨htallies.recorded, htallies.ended, htallies.highest⟩
      | restarts hballot hvalue hnext =>
          subst hnext
          have hhighest := htallies.highest
          rw [tallied_accepting hvalue] at hhighest
          refine tallies_restart ?_ hhighest
          intro ack hmem
          rcases List.mem_append.mp hmem with hold | hnew
          · exact htallies.ended ack hold
          · rcases mem_recorded.mp hnew with ⟨key, hget⟩
            exact (htallies.recorded key ack hget).1

end Step

theorem tallies_of_run {view : View} (hmode : view.mode ≠ .rs) {value : PropValue}
    {skipPhaseI : Bool} {inputs : List SessionInput} {session : Session}
    (hrun : (machine view).run (start view value skipPhaseI) inputs = some session)
    (hfrom : (machine view).RunMeets FromAcceptors (start view value skipPhaseI) inputs) :
    session.Tallies :=
  PartialMachine.invariant_of_runMeets Tallies
    (fun _ _ _ hfrom htallies hstep => htallies.step hmode hfrom hstep)
    (tallies_start view value skipPhaseI) hfrom hrun

/-! ## The choice of CONTINUE -/

/-- True replies of a quorum to the current ballot, and the value that goes with
the highest ballot reported in this round and the earlier ones. -/
structure Selected (session : Session) (after : Proposer) : Prop where
  quorum : ∃ nodes : Finset ℕ, after.qr ≤ nodes.card ∧ ∀ node ∈ nodes,
    ∃ ack, after.msgAckPrepare[node]? = some ack ∧ ack.reply = true ∧
      ack.ballotId = after.currBallot ∧ toNodeId ack.msgHeader.nodeId = node
  choice : (after.currValue = some after.initValue ∧
      ∀ ack ∈ session.ended ++ after.recorded, ack.reply = true → ack.maxPropValue = none) ∨
    ∃ ack ∈ session.ended ++ after.recorded, ack.reply = true ∧ ack.maxPropValue.isSome ∧
      after.currValue = ack.maxPropValue ∧
      ∀ other ∈ session.ended ++ after.recorded, other.reply = true →
        other.maxBallotId ≤ ack.maxBallotId

theorem Tallies.selected {session : Session} {view : View} (htallies : session.Tallies)
    (hmode : view.mode ≠ .rs) {msg : MsgAckPrepare} (hfrom : session.FromAcceptors (.promise msg))
    {after : Proposer}
    (hcontinue : session.proposer.handleMsgPromise view msg = some (.continuePhase, after)) :
    Selected session after := by
  cases Proposer.handleMsgPromise_step hcontinue with
  | @continues value _ hballot hvalue htrue hafter =>
      rcases htallies.tally hfrom hballot hvalue with ⟨hall, hhighest⟩
      have hrecorded : after.recorded = (session.proposer.recordPrepare msg).recorded := by
        rw [Proposer.recorded, hafter.msgAckPrepare]
        rfl
      constructor
      · refine ⟨(OrderedMap.keysWhere MsgAckPrepare.reply
          (session.proposer.recordPrepare msg).msgAckPrepare).toFinset, ?_, ?_⟩
        · rw [OrderedMap.card_keysWhere, hafter.qr]
          rw [(Proposer.tally_spec _).trueCounter, zero_add] at htrue
          exact htrue
        · intro node hnode
          rcases OrderedMap.mem_keysWhere.mp (List.mem_toFinset.mp hnode) with ⟨ack, hget, hreply⟩
          rcases htallies.record hfrom hballot node ack hget with ⟨_, hackBallot, hkey⟩
          rw [hafter.msgAckPrepare, hafter.currBallot]
          exact ⟨ack, hget, hreply, hackBallot, hkey⟩
      · rw [hrecorded]
        rcases hhighest.source with ⟨hzero, hnone⟩ | ⟨ack, hmem, hreply, hmax, hsome, hreported⟩
        · refine .inl ⟨?_, ?_⟩
          · rw [hafter.currValue, (hafter.free hnone).1, hafter.initValue]
          · intro ack hmem hreply
            have hle := hhighest.le ack hmem hreply
            exact (hall ack hmem hreply).mpr (by omega)
        · rcases Option.isSome_iff_exists.mp hsome with ⟨highest, hhighestValue⟩
          refine .inr ⟨ack, hmem, hreply, by rw [hreported, hsome], ?_, ?_⟩
          · rw [hreported, hhighestValue, hafter.currValue,
              (hafter.bound highest hhighestValue).2.2 hmode]
          · intro other hother hotherReply
            rw [hmax]
            exact hhighest.le other hother hotherReply

structure Keeps (ballot : ℕ) (value : PropValue) (session : Session) : Prop where
  ballot_le : ballot ≤ session.proposer.currBallot
  value : session.proposer.currBallot = ballot → session.proposer.currValue = some value

theorem currBallot_lt_restart (session : Session) (view : View) (proposer : Proposer) :
    proposer.currBallot < (session.restart view proposer).proposer.currBallot := by
  simp only [restart, Proposer.restartMsgPrepare, Proposer.msgPrepare, Proposer.genNextBallot]
  split <;> omega

theorem Keeps.step {ballot : ℕ} {value : PropValue} {session next : Session} {view : View}
    {input : SessionInput} (hkeeps : Keeps ballot value session)
    (hstep : session.step view input = some next) : Keeps ballot value next := by
  rcases hkeeps with ⟨hle, hvalue⟩
  cases input with
  | promise msg =>
      cases promise_cases hstep with
      | drops hold hnext =>
          subst hnext
          exact ⟨hle, hvalue⟩
      | waits hballot hnone hnext =>
          subst hnext
          exact ⟨hle, hvalue⟩
      | restarts hballot hnone hnext =>
          subst hnext
          have hlt := session.currBallot_lt_restart view
            (session.proposer.recordPrepare msg).adoptTally
          change session.proposer.currBallot < _ at hlt
          exact ⟨by omega, fun heq => by omega⟩
      | continues hballot hnone hack hafter henter =>
          rcases enterPhaseII_frame henter with ⟨_, rsValues, rsEncoder, hproposer⟩
          have hsame : next.proposer.currBallot = session.proposer.currBallot := by
            rw [hproposer]
            exact hafter.currBallot
          refine ⟨hsame ▸ hle, ?_⟩
          intro heq
          have hsome := hvalue (hsame.symm.trans heq)
          rw [hnone] at hsome
          simp at hsome
  | accepted msg =>
      cases accepted_cases hstep with
      | stays hnext =>
          subst hnext
          exact ⟨hle, hvalue⟩
      | restarts hballot hsome hnext =>
          subst hnext
          have hlt := session.currBallot_lt_restart view (session.proposer.recordAccept msg)
          change session.proposer.currBallot < _ at hlt
          exact ⟨by omega, fun heq => by omega⟩

theorem step_older (session : Session) (view : View) :
    (∀ ack : MsgAckPrepare, ack.ballotId < session.proposer.currBallot →
      session.step view (.promise ack) = some session) ∧
    ∀ ack : MsgAckAccept, ack.ballotId < session.proposer.currBallot →
      session.step view (.accepted ack) = some session := by
  constructor
  · intro ack hold
    simp [step, Proposer.handleMsgPromise, hold]
  · intro ack hold
    simp [step, Proposer.handleMsgAccepted, hold]

/-- CONTINUE in any session selects the value with the highest reported ballot.
Acknowledgements of older ballots change nothing, and none changes the value
within the ballot. -/
theorem phaseI_selects (view : View) (hmode : view.mode ≠ .rs) (value : PropValue)
    (skipPhaseI : Bool) (inputs : List SessionInput) (session : Session)
    (hrun : (machine view).run (start view value skipPhaseI) inputs = some session)
    (hfrom : (machine view).RunMeets FromAcceptors (start view value skipPhaseI) inputs)
    (msg : MsgAckPrepare) (hmsg : session.FromAcceptors (.promise msg)) (after : Proposer)
    (hcontinue : session.proposer.handleMsgPromise view msg = some (.continuePhase, after)) :
    Selected session after ∧
      ((∀ ack : MsgAckPrepare, ack.ballotId < session.proposer.currBallot →
          session.step view (.promise ack) = some session) ∧
        ∀ ack : MsgAckAccept, ack.ballotId < session.proposer.currBallot →
          session.step view (.accepted ack) = some session) ∧
      ∀ next more final, session.step view (.promise msg) = some next →
        (machine view).run next more = some final →
        final.proposer.currBallot = after.currBallot →
          final.proposer.currValue = after.currValue := by
  refine ⟨(tallies_of_run hmode hrun hfrom).selected hmode hmsg hcontinue,
    session.step_older view, ?_⟩
  intro next more final hstep hmore hballot
  cases Proposer.handleMsgPromise_step hcontinue with
  | @continues chosen _ _ _ _ hafter =>
      have henter : session.enterPhaseII view after = some next := by
        rw [step, hcontinue] at hstep
        exact hstep
      rcases enterPhaseII_frame henter with ⟨_, rsValues, rsEncoder, hproposer⟩
      have hstart : Keeps after.currBallot chosen next := by
        constructor
        · rw [hproposer]
        · intro _
          rw [hproposer]
          exact hafter.currValue
      have hfinal := PartialMachine.invariant_of_run (Keeps after.currBallot chosen)
        (fun _ _ _ hkeeps hstep => hkeeps.step hstep) hstart hmore
      rw [hfinal.value hballot, hafter.currValue]

/-- A round is refused, and the next one meets an accepted value. -/
theorem phaseI_selects_secondRound :
    ∃ session after, (machine (View.new (twoNodes .basic) 0)).run
        (start (View.new (twoNodes .basic) 0) { id := 65536 } false)
        [.promise ⟨⟨0, 1⟩, 65536, true, 0, none⟩, .promise ⟨⟨1, 1⟩, 65536, false, 65537, none⟩,
          .promise ⟨⟨0, 1⟩, 131072, true, 0, none⟩] = some session ∧
      session.proposer.handleMsgPromise (View.new (twoNodes .basic) 0)
        ⟨⟨1, 1⟩, 131072, true, 65537, some { id := 65537 }⟩ = some (.continuePhase, after) ∧
      after.currValue = some { id := 65537 } ∧ Selected session after := by
  have hfrom : (machine (View.new (twoNodes .basic) 0)).RunMeets FromAcceptors
      (start (View.new (twoNodes .basic) 0) { id := 65536 } false)
      [.promise ⟨⟨0, 1⟩, 65536, true, 0, none⟩, .promise ⟨⟨1, 1⟩, 65536, false, 65537, none⟩,
        .promise ⟨⟨0, 1⟩, 131072, true, 0, none⟩] := by
    decide
  have hfinal : ((machine (View.new (twoNodes .basic) 0)).run
      (start (View.new (twoNodes .basic) 0) { id := 65536 } false)
      [.promise ⟨⟨0, 1⟩, 65536, true, 0, none⟩, .promise ⟨⟨1, 1⟩, 65536, false, 65537, none⟩,
        .promise ⟨⟨0, 1⟩, 131072, true, 0, none⟩]).bind (fun session =>
      (session.proposer.handleMsgPromise (View.new (twoNodes .basic) 0)
        ⟨⟨1, 1⟩, 131072, true, 65537, some { id := 65537 }⟩).map fun result =>
          (result.1, result.2.currValue, decide (session.FromAcceptors
            (.promise ⟨⟨1, 1⟩, 131072, true, 65537, some { id := 65537 }⟩)))) =
      some (.continuePhase, some { id := 65537 }, true) := by
    decide
  rcases Option.bind_eq_some_iff.mp hfinal with ⟨session, hrun, hlast⟩
  rcases Option.map_eq_some_iff.mp hlast with ⟨⟨ack, after⟩, hhandle, hresult⟩
  simp only [Prod.mk.injEq, decide_eq_true_eq] at hresult
  rcases hresult with ⟨rfl, hvalue, hmsg⟩
  have hselects := phaseI_selects _ (by decide) _ _ _ session hrun hfrom _ hmsg after hhandle
  exact ⟨session, after, hrun, hhandle, hvalue, hselects.1⟩

end Session

end NDNPaxos
