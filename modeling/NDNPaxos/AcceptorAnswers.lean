import NDNPaxos.Acceptor
import Mathlib.Tactic

/-!
# The answers of an acceptor

A new acceptor serves PREPARE and ACCEPT messages in any order.  Its answers
depend on the earlier ones alone: on the ballots that it has answered with true
and on the values that it has accepted.
-/

namespace NDNPaxos

inductive Exchange where
  | prepare (msg : MsgPrepare) (ack : MsgAckPrepare)
  | accept (msg : MsgAccept) (ack : MsgAckAccept)
deriving DecidableEq, Repr

inductive AcceptorRequest where
  | prepare (msg : MsgPrepare)
  | accept (msg : MsgAccept)
deriving DecidableEq, Repr

namespace AcceptorRequest

def ballotId : AcceptorRequest → ℕ
  | .prepare msg => msg.ballotId
  | .accept msg => msg.ballotId

/-- A ballot always comes with the same value, and value ids identify values. -/
structure Consistent (requests : List AcceptorRequest) : Prop where
  ballot : ∀ msg msg', .accept msg ∈ requests → .accept msg' ∈ requests →
    msg.ballotId = msg'.ballotId → msg.propValue = msg'.propValue
  id : ∀ msg msg', .accept msg ∈ requests → .accept msg' ∈ requests →
    msg.propValue.id = msg'.propValue.id → msg.propValue = msg'.propValue

end AcceptorRequest

namespace Exchange

def granted? : Exchange → Option ℕ
  | .prepare msg ack => if ack.reply then some msg.ballotId else none
  | .accept msg ack => if ack.reply then some msg.ballotId else none

def accepted? : Exchange → Option MsgAccept
  | .prepare _ _ => none
  | .accept msg ack => if ack.reply then some msg else none

end Exchange

def grantedBallots (history : List Exchange) : List ℕ := history.filterMap Exchange.granted?

def acceptedMsgs (history : List Exchange) : List MsgAccept :=
  history.filterMap Exchange.accepted?

namespace Acceptor

def exchange (acceptor : Acceptor) (view : View) : AcceptorRequest → Exchange × Acceptor
  | .prepare msg =>
      let (ack, next) := acceptor.handleMsgPrepare view msg
      (.prepare msg ack, next)
  | .accept msg =>
      let (ack, next) := acceptor.handleMsgAccept view msg
      (.accept msg ack, next)

def serve (view : View) (acceptor : Acceptor) :
    List AcceptorRequest → List Exchange × Acceptor
  | [] => ([], acceptor)
  | request :: rest =>
      let (first, next) := acceptor.exchange view request
      let (others, final) := serve view next rest
      (first :: others, final)

/-- A positive PROMISE reports the accepted message with the highest ballot. -/
structure Reports (history : List Exchange) (ack : MsgAckPrepare) : Prop where
  nothing : ack.maxPropValue = none ↔ acceptedMsgs history = []
  value : ∀ value, ack.maxPropValue = some value →
    ∃ msg ∈ acceptedMsgs history, msg.ballotId = ack.maxBallotId ∧ msg.propValue = value
  highest : ∀ msg ∈ acceptedMsgs history, msg.ballotId ≤ ack.maxBallotId ∧
    (msg.ballotId = ack.maxBallotId → ack.maxPropValue = some msg.propValue)

def Answers (history : List Exchange) : Exchange → Prop
  | .prepare msg ack =>
      (ack.reply = true ↔ ∀ ballot ∈ grantedBallots history, ballot < msg.ballotId) ∧
        (ack.reply = true → Reports history ack)
  | .accept msg ack =>
      ack.reply = true ↔ ∀ ballot ∈ grantedBallots history, ballot ≤ msg.ballotId

/-- The state of an acceptor after the exchanges so far. -/
structure Reflects (acceptor : Acceptor) (history : List Exchange) : Prop where
  granted : ∀ ballot ∈ grantedBallots history, ballot ≤ acceptor.maxProposedBallot
  promised : acceptor.maxProposedBallot = 0 ∨
    acceptor.maxProposedBallot ∈ grantedBallots history
  accepted_le : acceptor.maxAcceptedBallot ≤ acceptor.maxProposedBallot
  nothing : acceptor.maxValue = none ↔ acceptedMsgs history = []
  value : ∀ value, acceptor.maxValue = some value → ∃ msg ∈ acceptedMsgs history,
    msg.ballotId = acceptor.maxAcceptedBallot ∧ msg.propValue = value
  highest : ∀ msg ∈ acceptedMsgs history, msg.ballotId ≤ acceptor.maxAcceptedBallot

theorem reflects_new : Reflects {} [] where
  granted := fun ballot hmem => absurd hmem List.not_mem_nil
  promised := .inl rfl
  accepted_le := le_rfl
  nothing := by simp [acceptedMsgs]
  value := by simp
  highest := fun msg hmem => absurd hmem List.not_mem_nil

theorem mem_grantedBallots_append {history : List Exchange} {exchange : Exchange} {ballot : ℕ} :
    ballot ∈ grantedBallots (history ++ [exchange]) ↔
      ballot ∈ grantedBallots history ∨ exchange.granted? = some ballot := by
  simp [grantedBallots]

theorem mem_acceptedMsgs_append {history : List Exchange} {exchange : Exchange}
    {msg : MsgAccept} :
    msg ∈ acceptedMsgs (history ++ [exchange]) ↔
      msg ∈ acceptedMsgs history ∨ exchange.accepted? = some msg := by
  simp [acceptedMsgs]

theorem acceptedMsgs_append_eq_nil {history : List Exchange} {exchange : Exchange}
    (hnone : exchange.accepted? = none) :
    acceptedMsgs (history ++ [exchange]) = acceptedMsgs history := by
  simp [acceptedMsgs, hnone]

section Step

variable {acceptor : Acceptor} {history : List Exchange} {view : View}
  {requests : List AcceptorRequest}

theorem Reflects.refused (hreflects : Reflects acceptor history) {exchange : Exchange}
    (hgranted : exchange.granted? = none) (haccepted : exchange.accepted? = none) :
    Reflects acceptor (history ++ [exchange]) := by
  have hmsgs : acceptedMsgs (history ++ [exchange]) = acceptedMsgs history :=
    acceptedMsgs_append_eq_nil haccepted
  constructor
  · intro ballot hmem
    rw [mem_grantedBallots_append, hgranted] at hmem
    exact hreflects.granted ballot (by simpa using hmem)
  · exact hreflects.promised.imp_right fun hmem => mem_grantedBallots_append.mpr (.inl hmem)
  · exact hreflects.accepted_le
  · rw [hmsgs]
    exact hreflects.nothing
  · rw [hmsgs]
    exact hreflects.value
  · rw [hmsgs]
    exact hreflects.highest

theorem Reflects.promise (hreflects : Reflects acceptor history) {msg : MsgPrepare}
    {ack : MsgAckPrepare} (hreply : ack.reply = true)
    (hhigher : acceptor.maxProposedBallot < msg.ballotId) :
    Reflects { acceptor with maxProposedBallot := msg.ballotId }
      (history ++ [.prepare msg ack]) := by
  have hmsgs : acceptedMsgs (history ++ [.prepare msg ack]) = acceptedMsgs history :=
    acceptedMsgs_append_eq_nil rfl
  have hgranted : (Exchange.prepare msg ack).granted? = some msg.ballotId := if_pos hreply
  constructor
  · intro ballot hmem
    rw [mem_grantedBallots_append, hgranted, Option.some.injEq] at hmem
    rcases hmem with hold | rfl
    · exact (hreflects.granted ballot hold).trans hhigher.le
    · exact le_rfl
  · exact .inr (mem_grantedBallots_append.mpr (.inr hgranted))
  · exact hreflects.accepted_le.trans hhigher.le
  · rw [hmsgs]
    exact hreflects.nothing
  · rw [hmsgs]
    exact hreflects.value
  · rw [hmsgs]
    exact hreflects.highest

/-- The stored value keeps its old copy only when this has the id of the new
value, and then it is the same value. -/
theorem Reflects.storeValue (hreflects : Reflects acceptor history)
    (hconsistent : AcceptorRequest.Consistent requests)
    (hknown : ∀ msg ∈ acceptedMsgs history, .accept msg ∈ requests) {msg : MsgAccept}
    (hmsg : .accept msg ∈ requests) : acceptor.storeValue msg.propValue = some msg.propValue := by
  unfold Acceptor.storeValue
  cases hvalue : acceptor.maxValue with
  | none => rfl
  | some old =>
      by_cases hid : old.id = msg.propValue.id
      · rcases hreflects.value old hvalue with ⟨earlier, hmem, _, rfl⟩
        have hsame := hconsistent.id earlier msg (hknown earlier hmem) hmsg hid
        simp [hsame]
      · simp [hid]

theorem Reflects.accept (hreflects : Reflects acceptor history) {msg : MsgAccept}
    {ack : MsgAckAccept} (hreply : ack.reply = true)
    (hhigh : acceptor.maxProposedBallot ≤ msg.ballotId)
    (hstored : acceptor.storeValue msg.propValue = some msg.propValue) :
    Reflects
      { maxProposedBallot := msg.ballotId
        maxAcceptedBallot := msg.ballotId
        maxValue := acceptor.storeValue msg.propValue }
      (history ++ [.accept msg ack]) := by
  have hgranted : (Exchange.accept msg ack).granted? = some msg.ballotId := if_pos hreply
  have haccepted : (Exchange.accept msg ack).accepted? = some msg := if_pos hreply
  have hmem : msg ∈ acceptedMsgs (history ++ [.accept msg ack]) :=
    mem_acceptedMsgs_append.mpr (.inr haccepted)
  constructor
  · intro ballot hballot
    rw [mem_grantedBallots_append, hgranted, Option.some.injEq] at hballot
    rcases hballot with hold | rfl
    · exact (hreflects.granted ballot hold).trans hhigh
    · exact le_rfl
  · exact .inr (mem_grantedBallots_append.mpr (.inr hgranted))
  · exact le_rfl
  · rw [hstored]
    simp [List.ne_nil_of_mem hmem]
  · intro value hvalue
    rw [hstored, Option.some.injEq] at hvalue
    exact ⟨msg, hmem, rfl, hvalue⟩
  · intro other hother
    rw [mem_acceptedMsgs_append, haccepted, Option.some.injEq] at hother
    rcases hother with hold | rfl
    · exact (hreflects.highest other hold).trans (hreflects.accepted_le.trans hhigh)
    · exact le_rfl

theorem Reflects.reports (hreflects : Reflects acceptor history)
    (hconsistent : AcceptorRequest.Consistent requests)
    (hknown : ∀ msg ∈ acceptedMsgs history, .accept msg ∈ requests) {ack : MsgAckPrepare}
    (hballot : ack.maxBallotId = acceptor.maxAcceptedBallot)
    (hvalue : ack.maxPropValue = acceptor.maxValue) : Reports history ack := by
  constructor
  · rw [hvalue]
    exact hreflects.nothing
  · rw [hballot, hvalue]
    exact hreflects.value
  · intro msg hmem
    rw [hballot, hvalue]
    refine ⟨hreflects.highest msg hmem, ?_⟩
    intro hmax
    cases hstored : acceptor.maxValue with
    | none =>
        rw [hreflects.nothing.mp hstored] at hmem
        exact absurd hmem List.not_mem_nil
    | some value =>
        rcases hreflects.value value hstored with ⟨latest, hlatest, hlatestBallot, rfl⟩
        have hsame := hconsistent.ballot msg latest (hknown msg hmem) (hknown latest hlatest)
          (hmax.trans hlatestBallot.symm)
        rw [hsame]

/-- The promise is the highest ballot granted so far. -/
theorem Reflects.lt_iff (hreflects : Reflects acceptor history) {ballot : ℕ}
    (hpos : 0 < ballot) :
    acceptor.maxProposedBallot < ballot ↔ ∀ lower ∈ grantedBallots history, lower < ballot := by
  constructor
  · exact fun hlt lower hmem => lt_of_le_of_lt (hreflects.granted lower hmem) hlt
  · intro hall
    rcases hreflects.promised with hzero | hmem
    · rwa [hzero]
    · exact hall _ hmem

theorem Reflects.le_iff (hreflects : Reflects acceptor history) {ballot : ℕ} :
    acceptor.maxProposedBallot ≤ ballot ↔ ∀ lower ∈ grantedBallots history, lower ≤ ballot := by
  constructor
  · exact fun hle lower hmem => (hreflects.granted lower hmem).trans hle
  · intro hall
    rcases hreflects.promised with hzero | hmem
    · rw [hzero]
      exact Nat.zero_le _
    · exact hall _ hmem

/-- One exchange: the answer is as the history demands, the state reflects the
longer history, and neither ballot decreases. -/
theorem Reflects.exchange (view : View) (hreflects : Reflects acceptor history)
    (hconsistent : AcceptorRequest.Consistent requests)
    (hknown : ∀ msg ∈ acceptedMsgs history, .accept msg ∈ requests) {request : AcceptorRequest}
    (hmem : request ∈ requests) (hpos : 0 < request.ballotId) :
    Answers history (acceptor.exchange view request).1 ∧
      Reflects (acceptor.exchange view request).2
        (history ++ [(acceptor.exchange view request).1]) ∧
      (∀ msg ∈ acceptedMsgs (history ++ [(acceptor.exchange view request).1]),
        .accept msg ∈ requests) ∧
      acceptor.maxProposedBallot ≤ (acceptor.exchange view request).2.maxProposedBallot ∧
      acceptor.maxAcceptedBallot ≤ (acceptor.exchange view request).2.maxAcceptedBallot := by
  cases request with
  | prepare msg =>
      simp only [Acceptor.exchange]
      have hlt : acceptor.maxProposedBallot < msg.ballotId ↔
          ∀ lower ∈ grantedBallots history, lower < msg.ballotId := hreflects.lt_iff hpos
      have hknown' : ∀ ack, ∀ accept ∈ acceptedMsgs (history ++ [.prepare msg ack]),
          .accept accept ∈ requests := by
        intro ack accept haccept
        rw [acceptedMsgs_append_eq_nil rfl] at haccept
        exact hknown accept haccept
      rcases acceptor.handleMsgPrepare_cases view msg with
        ⟨hhigher, hnext, hballot, hvalue⟩ | ⟨hlow, hnext, hreply⟩
      · have hreply : (acceptor.handleMsgPrepare view msg).1.reply = true := by
          simp [handleMsgPrepare, hhigher]
        rw [hnext]
        refine ⟨⟨?_, ?_⟩, hreflects.promise hreply hhigher, hknown' _, hhigher.le, le_rfl⟩
        · rw [hreply]
          simpa using hlt.mp hhigher
        · exact fun _ => hreflects.reports hconsistent hknown hballot hvalue
      · rw [hnext]
        refine ⟨⟨?_, by simp [hreply]⟩, hreflects.refused ?_ rfl, hknown' _, le_rfl, le_rfl⟩
        · rw [hreply, ← hlt]
          simpa using hlow
        · simp [Exchange.granted?, hreply]
  | accept msg =>
      simp only [Acceptor.exchange]
      rcases acceptor.handleMsgAccept_cases view msg with
        ⟨hhigh, hnext, hreply⟩ | ⟨hlow, hnext, hreply⟩
      · have hstored := hreflects.storeValue hconsistent hknown hmem
        rw [hnext]
        refine ⟨?_, hreflects.accept hreply hhigh hstored, ?_, hhigh,
          hreflects.accepted_le.trans hhigh⟩
        · rw [Answers, hreply, ← hreflects.le_iff]
          simpa using hhigh
        · intro accept haccept
          rw [mem_acceptedMsgs_append, Exchange.accepted?, if_pos hreply,
            Option.some.injEq] at haccept
          rcases haccept with hold | rfl
          · exact hknown accept hold
          · exact hmem
      · rw [hnext]
        refine ⟨?_, hreflects.refused ?_ ?_, ?_, le_rfl, le_rfl⟩
        · rw [Answers, hreply, ← hreflects.le_iff]
          simpa using hlow
        · simp [Exchange.granted?, hreply]
        · simp [Exchange.accepted?, hreply]
        · intro accept haccept
          rw [acceptedMsgs_append_eq_nil (by simp [Exchange.accepted?, hreply])] at haccept
          exact hknown accept haccept

/-- A whole history from any point on. -/
theorem Reflects.serve (view : View) (hreflects : Reflects acceptor history)
    (hconsistent : AcceptorRequest.Consistent requests)
    (hknown : ∀ msg ∈ acceptedMsgs history, .accept msg ∈ requests)
    {rest : List AcceptorRequest} (hrest : ∀ request ∈ rest, request ∈ requests)
    (hpos : ∀ request ∈ requests, 0 < request.ballotId) :
    (∀ before exchange after, (serve view acceptor rest).1 = before ++ exchange :: after →
      Answers (history ++ before) exchange) ∧
    Reflects (serve view acceptor rest).2 (history ++ (serve view acceptor rest).1) ∧
    (∀ msg ∈ acceptedMsgs (history ++ (serve view acceptor rest).1), .accept msg ∈ requests) ∧
    acceptor.maxProposedBallot ≤ (serve view acceptor rest).2.maxProposedBallot ∧
    acceptor.maxAcceptedBallot ≤ (serve view acceptor rest).2.maxAcceptedBallot := by
  induction rest generalizing acceptor history with
  | nil =>
      simp only [Acceptor.serve, List.append_nil]
      exact ⟨by simp, hreflects, hknown, le_rfl, le_rfl⟩
  | cons request rest ih =>
      have hmem := hrest request (List.mem_cons_self ..)
      rcases hreflects.exchange view hconsistent hknown hmem (hpos request hmem) with
        ⟨hanswers, hnext, hknown', hproposed, haccepted⟩
      rcases ih hnext hknown' fun other hother => hrest other (List.mem_cons_of_mem _ hother) with
        ⟨hall, hfinal, hknownFinal, hproposed', haccepted'⟩
      rw [List.append_assoc, List.singleton_append] at hfinal hknownFinal
      simp only [Acceptor.serve]
      refine ⟨?_, hfinal, hknownFinal, hproposed.trans hproposed', haccepted.trans haccepted'⟩
      intro before exchange after hsplit
      cases before with
      | nil =>
          rw [List.nil_append, List.cons.injEq] at hsplit
          rw [List.append_nil, ← hsplit.1]
          exact hanswers
      | cons first others =>
          rw [List.cons_append, List.cons.injEq] at hsplit
          have hlater := hall others exchange after hsplit.2
          rwa [hsplit.1, List.append_assoc, List.singleton_append] at hlater

theorem serve_append (view : View) (acceptor : Acceptor) (earlier later : List AcceptorRequest) :
    (serve view acceptor (earlier ++ later)).2 =
      (serve view (serve view acceptor earlier).2 later).2 := by
  induction earlier generalizing acceptor with
  | nil => rfl
  | cons request rest ih => exact ih (acceptor.exchange view request).2

end Step

/-- What an acceptor that starts new keeps over all messages. -/
structure Served (view : View) (requests : List AcceptorRequest) : Prop where
  answers : ∀ before exchange after,
    (serve view {} requests).1 = before ++ exchange :: after → Answers before exchange
  accepted_le : ∀ earlier later, requests = earlier ++ later →
    (serve view {} earlier).2.maxAcceptedBallot ≤ (serve view {} earlier).2.maxProposedBallot
  proposed_mono : ∀ earlier later, requests = earlier ++ later →
    (serve view {} earlier).2.maxProposedBallot ≤ (serve view {} requests).2.maxProposedBallot
  accepted_mono : ∀ earlier later, requests = earlier ++ later →
    (serve view {} earlier).2.maxAcceptedBallot ≤ (serve view {} requests).2.maxAcceptedBallot

/-- Every history of a new acceptor is answered as its earlier answers demand. -/
theorem acceptor_served (view : View) (requests : List AcceptorRequest)
    (hballots : ∀ request ∈ requests, 2 ^ 16 ≤ request.ballotId)
    (hconsistent : AcceptorRequest.Consistent requests) : Served view requests := by
  have hpos : ∀ request ∈ requests, 0 < request.ballotId := fun request hmem =>
    lt_of_lt_of_le (by decide) (hballots request hmem)
  have hnone : ∀ msg ∈ acceptedMsgs [], .accept msg ∈ requests :=
    fun msg hmem => absurd hmem List.not_mem_nil
  have hsplit : ∀ earlier later, requests = earlier ++ later →
      (serve view {} earlier).2.maxAcceptedBallot ≤ (serve view {} earlier).2.maxProposedBallot ∧
        (serve view {} earlier).2.maxProposedBallot ≤
          (serve view {} requests).2.maxProposedBallot ∧
        (serve view {} earlier).2.maxAcceptedBallot ≤
          (serve view {} requests).2.maxAcceptedBallot := by
    intro earlier later heq
    have hearlier : ∀ request ∈ earlier, request ∈ requests := fun request hmem =>
      heq ▸ List.mem_append_left later hmem
    have hlater : ∀ request ∈ later, request ∈ requests := fun request hmem =>
      heq ▸ List.mem_append_right earlier hmem
    rcases reflects_new.serve view hconsistent hnone hearlier hpos with
      ⟨_, hmiddle, hknown, _, _⟩
    rcases hmiddle.serve view hconsistent hknown hlater hpos with ⟨_, _, _, hproposed, haccepted⟩
    rw [← serve_append, ← heq] at hproposed haccepted
    exact ⟨hmiddle.accepted_le, hproposed, haccepted⟩
  constructor
  · intro before exchange after heq
    exact (reflects_new.serve view hconsistent hnone (fun _ hmem => hmem) hpos).1 before exchange
      after heq
  · exact fun earlier later heq => (hsplit earlier later heq).1
  · exact fun earlier later heq => (hsplit earlier later heq).2.1
  · exact fun earlier later heq => (hsplit earlier later heq).2.2

/-- A PREPARE that comes twice, one that is overtaken by a higher ballot, and
the ACCEPT messages of both ballots. -/
theorem acceptor_served_overtaken :
    ((serve (View.new (twoNodes .basic) 0) {}
        [.prepare ⟨⟨0, 1⟩, 65536⟩, .accept ⟨⟨0, 1⟩, 65536, { id := 65536 }⟩,
          .prepare ⟨⟨0, 1⟩, 65536⟩, .prepare ⟨⟨1, 1⟩, 65537⟩,
          .accept ⟨⟨0, 1⟩, 65536, { id := 65536 }⟩,
          .accept ⟨⟨1, 1⟩, 65537, { id := 65536 }⟩]).1.map Exchange.granted? =
      [some 65536, some 65536, none, some 65537, none, some 65537]) ∧
    Served (View.new (twoNodes .basic) 0)
      [.prepare ⟨⟨0, 1⟩, 65536⟩, .accept ⟨⟨0, 1⟩, 65536, { id := 65536 }⟩,
        .prepare ⟨⟨0, 1⟩, 65536⟩, .prepare ⟨⟨1, 1⟩, 65537⟩,
        .accept ⟨⟨0, 1⟩, 65536, { id := 65536 }⟩,
        .accept ⟨⟨1, 1⟩, 65537, { id := 65536 }⟩] := by
  constructor
  · decide
  · apply acceptor_served
    · decide
    · constructor
      · intro msg msg' hmem hmem' _
        simp at hmem hmem'
        rcases hmem with rfl | rfl | rfl <;> rcases hmem' with rfl | rfl | rfl <;> rfl
      · intro msg msg' hmem hmem' _
        simp at hmem hmem'
        rcases hmem with rfl | rfl | rfl <;> rcases hmem' with rfl | rfl | rfl <;> rfl

end Acceptor

end NDNPaxos
