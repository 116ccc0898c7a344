import NDNPaxos.MoveFrames
import Mathlib.Tactic

/-!
# Sessions of a proposer

A proposer over its whole life, driven as its captain drives it: RESTART leads to
the next ballot and CONTINUE to the ACCEPT messages.  The session also remembers
what the source forgets, the PROMISE messages that were recorded when earlier
rounds ended and the ACCEPT messages of every CONTINUE.
-/

namespace NDNPaxos

def Proposer.recorded (proposer : Proposer) : List MsgAckPrepare :=
  proposer.msgAckPrepare.toList.map Prod.snd

structure Session where
  proposer : Proposer
  ended : List MsgAckPrepare := []
  /-- `curr_value_` and the ACCEPT messages at each CONTINUE. -/
  accepts : List (PropValue × List MsgAccept) := []

inductive SessionInput where
  | promise (msg : MsgAckPrepare)
  | accepted (msg : MsgAckAccept)
deriving DecidableEq, Repr

namespace Session

/-- A new proposer with its first ballot; the Multi-Paxos build skips Phase I. -/
def start (view : View) (value : PropValue) (skipPhaseI : Bool) : Session :=
  let proposer := (Proposer.new view value).genNextBallot view
  { proposer := if skipPhaseI then proposer.initCurrValue else proposer }

def restart (session : Session) (view : View) (proposer : Proposer) : Session :=
  { session with
    proposer := (proposer.restartMsgPrepare view).2
    ended := session.ended ++ proposer.recorded }

def enterPhaseII (session : Session) (view : View) (proposer : Proposer) : Option Session :=
  let value := proposer.currValue.getD {}
  if view.mode = .rs then do
    let (msgs, proposer) ← proposer.rsMsgAccept view
    return { session with proposer, accepts := session.accepts ++ [(value, msgs)] }
  else
    some { session with
      proposer, accepts := session.accepts ++ [(value, [proposer.msgAccept view])] }

def step (view : View) (session : Session) : SessionInput → Option Session
  | .promise msg => do
      let (ack, proposer) ← session.proposer.handleMsgPromise view msg
      match ack with
      | .continuePhase => session.enterPhaseII view proposer
      | .restart => some (session.restart view proposer)
      | _ => some { session with proposer }
  | .accepted msg =>
      let (ack, proposer) := session.proposer.handleMsgAccepted msg
      match ack with
      | .restart => some (session.restart view proposer)
      | _ => some { session with proposer }

def machine (view : View) : PartialMachine Session SessionInput := { step := step view }

theorem mem_recorded {proposer : Proposer} {ack : MsgAckPrepare} :
    ack ∈ proposer.recorded ↔ ∃ key : ℕ, proposer.msgAckPrepare[key]? = some ack := by
  rw [Proposer.recorded, List.mem_map]
  constructor
  · rintro ⟨⟨key, found⟩, hmem, rfl⟩
    exact ⟨key, Std.TreeMap.mem_toList_iff_getElem?_eq_some.mp hmem⟩
  · rintro ⟨key, hget⟩
    exact ⟨(key, ack), Std.TreeMap.mem_toList_iff_getElem?_eq_some.mpr hget, rfl⟩

/-! ## Branches of a step -/

variable {session next : Session} {view : View}

inductive PromiseCase (session : Session) (view : View) (msg : MsgAckPrepare)
    (next : Session) : Prop where
  | drops (hold : msg.ballotId < session.proposer.currBallot ∨ session.proposer.currValue.isSome)
      (hnext : next = session)
  | waits (hballot : session.proposer.currBallot ≤ msg.ballotId)
      (hvalue : session.proposer.currValue = none)
      (hnext : next = { session with proposer := session.proposer.recordPrepare msg })
  | restarts (hballot : session.proposer.currBallot ≤ msg.ballotId)
      (hvalue : session.proposer.currValue = none)
      (hnext : next = session.restart view (session.proposer.recordPrepare msg).adoptTally)
  | continues {value : PropValue} {after : Proposer}
      (hballot : session.proposer.currBallot ≤ msg.ballotId)
      (hvalue : session.proposer.currValue = none)
      (hack : session.proposer.handleMsgPromise view msg = some (.continuePhase, after))
      (hafter : Proposer.Continues view (session.proposer.recordPrepare msg).adoptTally value after)
      (henter : session.enterPhaseII view after = some next)

theorem promise_cases {msg : MsgAckPrepare}
    (hstep : session.step view (.promise msg) = some next) :
    PromiseCase session view msg next := by
  simp only [step, Option.bind_eq_bind, Option.bind_eq_some_iff, Prod.exists] at hstep
  rcases hstep with ⟨ack, proposer, hack, hstep⟩
  have hbranch := Proposer.handleMsgPromise_step hack
  cases hbranch with
  | drops hold =>
      rw [Option.some.injEq] at hstep
      exact .drops hold hstep.symm
  | waits hballot hvalue hfew =>
      rw [Option.some.injEq] at hstep
      exact .waits hballot hvalue hstep.symm
  | restarts hballot hvalue =>
      rw [Option.some.injEq] at hstep
      exact .restarts hballot hvalue hstep.symm
  | continues hballot hvalue htrue hafter => exact .continues hballot hvalue hack hafter hstep

inductive AcceptedCase (session : Session) (view : View) (msg : MsgAckAccept)
    (next : Session) : Prop where
  | stays {msgAckAccept : Std.TreeMap ℕ MsgAckAccept}
      (hnext : next = { session with proposer := { session.proposer with msgAckAccept } })
  | restarts (hballot : session.proposer.currBallot ≤ msg.ballotId)
      (hvalue : session.proposer.currValue.isSome)
      (hnext : next = session.restart view (session.proposer.recordAccept msg))

theorem accepted_cases {msg : MsgAckAccept}
    (hstep : session.step view (.accepted msg) = some next) :
    AcceptedCase session view msg next := by
  simp only [step] at hstep
  cases hhandle : session.proposer.handleMsgAccepted msg with
  | mk ack proposer =>
      rw [hhandle] at hstep
      cases Proposer.handleMsgAccepted_step hhandle with
      | drops hold =>
          rw [Option.some.injEq] at hstep
          exact .stays hstep.symm
      | waits hballot hvalue =>
          rw [Option.some.injEq] at hstep
          exact .stays hstep.symm
      | restarts hballot hvalue =>
          rw [Option.some.injEq] at hstep
          exact .restarts hballot hvalue hstep.symm
      | chooses hballot hvalue htrue =>
          rw [Option.some.injEq] at hstep
          exact .stays hstep.symm

/-- Entering Phase II touches the shards at most. -/
theorem enterPhaseII_frame {proposer : Proposer}
    (henter : session.enterPhaseII view proposer = some next) :
    next.ended = session.ended ∧ ∃ rsValues rsEncoder,
      next.proposer = { proposer with rsValues, rsEncoder } := by
  unfold enterPhaseII at henter
  simp only at henter
  split at henter
  next =>
    simp only [Option.bind_eq_bind, Option.bind_eq_some_iff, Prod.exists, pure,
      Option.some.injEq] at henter
    rcases henter with ⟨msgs, after, haccept, rfl⟩
    have hframe := (Captain.rsMsgAccept_spec haccept).1
    exact ⟨rfl, after.rsValues, after.rsEncoder, hframe⟩
  next =>
    rw [Option.some.injEq] at henter
    subst henter
    exact ⟨rfl, proposer.rsValues, proposer.rsEncoder, rfl⟩

end Session

end NDNPaxos
