import NDNPaxos.ProposerRounds
import Mathlib.Tactic

/-!
# Restarts of a lone proposer

A proposer that nobody competes with starts over only while its ballot is not
above what the acceptors of its slot promised before.  This bounds the number
of its restarts, and above the bound the first quorum of answers in each phase
is enough.
-/

namespace NDNPaxos

open LoneProposer (Letter request)

/-! ## A slot of the cluster -/

def promisedBallots (size slot : ℕ) (captains : ℕ → Captain) (i : ℕ) : ℕ :=
  if i < size then ((captains i).acceptorOf slot).maxProposedBallot else 0

/-- The slot before and after node `p` opens it. -/
inductive Stage (size p slot bound : ℕ) (captains : ℕ → Captain) (net : List Packet)
    (restarts : ℕ) (taken : Bool → ℕ → ℕ) : Prop where
  | unopened (hslot : (captains p).maxSlot < slot) (hletters : letters slot net = 0)
      (hpromised : ∀ i, promisedBallots size slot captains i ≤ bound) (hrestarts : restarts = 0)
      (htaken : ∀ accepts ballot, taken accepts ballot = 0)
  | opened (hslot : slot ≤ (captains p).maxSlot)
      (hcourse : Course bound p (captains p).proposers[slot]? (letters slot net)
        (promisedBallots size slot captains) restarts taken)

section Steps

variable {size p slot bound restarts : ℕ} {captains captains' : ℕ → Captain}
  {net net' : List Packet} {taken : Bool → ℕ → ℕ}

theorem Stage.congr (hstage : Stage size p slot bound captains net restarts taken)
    (hmaxSlot : (captains' p).maxSlot = (captains p).maxSlot)
    (hproposer : (captains' p).proposers[slot]? = (captains p).proposers[slot]?)
    (hpromised : promisedBallots size slot captains' = promisedBallots size slot captains)
    (hletters : letters slot net' = letters slot net) :
    Stage size p slot bound captains' net' restarts taken := by
  cases hstage with
  | unopened hslot hnone hbound hrestarts htaken =>
      exact .unopened (hmaxSlot ▸ hslot) (hletters.trans hnone) (hpromised ▸ hbound) hrestarts
        htaken
  | opened hslot hcourse =>
      apply Stage.opened (hmaxSlot ▸ hslot)
      rwa [hproposer, hpromised, hletters]

theorem Course.lose {found : Option ProposerInfo} {inFlight rest : Multiset (Letter ℕ)}
    {promised : ℕ → ℕ} {letter : Letter ℕ}
    (hcourse : Course bound p found inFlight promised restarts taken)
    (hletters : inFlight = letter ::ₘ rest) :
    Course bound p found rest promised restarts taken := by
  cases hcourse with
  | round hinfo hinRound => exact .round hinfo (hinRound.lose hletters)
  | done hdone hrestarts => exact .done hdone hrestarts

theorem Stage.eraseIdx (hstage : Stage size p slot bound captains net restarts taken)
    {index : ℕ} {packet : Packet} (hpacket : net[index]? = some packet) :
    Stage size p slot bound captains (net.eraseIdx index) restarts taken := by
  cases hletter : packet.letter? slot with
  | none => exact hstage.congr rfl rfl rfl (letters_of_none hpacket hletter)
  | some letter =>
      have hletters := letters_of_some hpacket hletter
      cases hstage with
      | unopened hslot hnone hbound hrestarts htaken =>
          rw [hnone] at hletters
          exact absurd hletters (Multiset.zero_ne_cons)
      | opened hslot hcourse => exact .opened hslot (hcourse.lose hletters)

theorem promisedBallots_update {i : ℕ} {final : Captain}
    (hsame : (final.acceptorOf slot).maxProposedBallot =
      ((captains i).acceptorOf slot).maxProposedBallot) :
    promisedBallots size slot (Function.update captains i final) =
      promisedBallots size slot captains := by
  funext j
  unfold promisedBallots
  by_cases heq : j = i
  · subst heq
    rw [Function.update_self, hsame]
  · rw [Function.update_of_ne heq]

/-! ### Steps of the other nodes -/

/-- A node other than `p` that asks for nothing at the slot. -/
theorem Stage.other (hstage : Stage size p slot bound captains net restarts taken) {i : ℕ}
    (hne : i ≠ p) {outs : List Output} {final : Captain}
    (hacceptors : final.acceptors = (captains i).acceptors)
    (hletters : letters slot (packetsOf outs) = 0) :
    Stage size p slot bound (Function.update captains i final) (net ++ packetsOf outs)
      restarts taken := by
  apply hstage.congr
  · rw [Function.update_of_ne (Ne.symm hne)]
  · rw [Function.update_of_ne (Ne.symm hne)]
  · apply promisedBallots_update
    rw [Captain.acceptorOf_congr hacceptors]
  · rw [letters_append, hletters, add_zero]

/-- A node answers a request, or handles one of another slot. -/
theorem Stage.acceptorMove (hstage : Stage size p slot bound captains net restarts taken)
    {i index : ℕ} {packet : Packet} {setting : Captain.Setting} {outs : List Output}
    {final : Captain} (hi : i < size) (hpacket : net[index]? = some packet)
    (hdst : packet.dst = i) (hwhoami : (captains i).whoami = i) (hlt : i < 2 ^ 16)
    (hreceived : ∀ msg, setting.received msg → msg = packet.msg)
    (hmove : Captain.AcceptorMove setting (captains i) outs final) :
    Stage size p slot bound (Function.update captains i final)
      (net.eraseIdx index ++ packetsOf outs) restarts taken := by
  have hframe : final = { captains i with acceptors := final.acceptors } := hmove.spec.1
  have hproposers : ∀ captain : Captain,
      captain = { captains i with acceptors := final.acceptors } →
      (Function.update captains i captain p).maxSlot = (captains p).maxSlot ∧
        (Function.update captains i captain p).proposers = (captains p).proposers := by
    intro captain hcaptain
    by_cases heq : p = i
    · subst heq
      rw [Function.update_self, hcaptain]
      exact ⟨rfl, rfl⟩
    · rw [Function.update_of_ne heq]
      exact ⟨rfl, rfl⟩
  rcases hproposers final hframe with ⟨hmaxSlot, hproposers⟩
  have hsound : (captains i).whoami = packet.dst := hwhoami.trans hdst.symm
  have hanswers : Captain.AnswerStep slot (captains i) packet outs final :=
    hmove.answerStep hreceived hsound (hdst ▸ hlt)
  cases hanswers with
  | other hletter hletters hpromised =>
      apply hstage.congr hmaxSlot (by rw [hproposers]) (promisedBallots_update hpromised)
      rw [letters_append, hletters, add_zero, letters_of_none hpacket hletter]
  | @answers letter reply hletter hrequest hnode hreply hletters hpromised =>
      have hsplit := letters_of_some hpacket hletter
      cases hstage with
      | unopened hslot hnone hbound hrestarts htaken =>
          rw [hnone] at hsplit
          exact absurd hsplit Multiset.zero_ne_cons
      | opened hslot hcourse =>
          apply Stage.opened (hmaxSlot ▸ hslot)
          rw [hproposers]
          cases hcourse with
          | done hdone hrestarts => exact .done hdone hrestarts
          | @round info hinfo hinRound =>
              apply Course.round hinfo
              have hold : promisedBallots size slot captains letter.node =
                  ((captains i).acceptorOf slot).maxProposedBallot := by
                rw [hnode, hdst, promisedBallots, if_pos hi]
              have hgranted : letter.granted (promisedBallots size slot captains letter.node) =
                  reply := by rw [hold, hreply]
              have hletters' : letters slot (net.eraseIdx index ++ packetsOf outs) =
                  { letter with
                    answer := some (letter.granted
                      (promisedBallots size slot captains letter.node)) } ::ₘ
                    letters slot (net.eraseIdx index) := by
                rw [letters_append, hletters, hgranted, add_comm, Multiset.singleton_add]
              have hpromised' : promisedBallots size slot (Function.update captains i final) =
                  Function.update (promisedBallots size slot captains) letter.node
                    (if letter.granted (promisedBallots size slot captains letter.node) then
                      letter.ballot else promisedBallots size slot captains letter.node) := by
                funext j
                rw [hgranted, hold, ← hpromised, hnode, hdst]
                unfold promisedBallots
                by_cases heq : j = i
                · rw [heq, Function.update_self, Function.update_self, if_pos hi]
                · rw [Function.update_of_ne heq, Function.update_of_ne heq]
              rw [hletters', hpromised']
              exact hinRound.answer hsplit hrequest

/-! ### Steps of the proposer's node -/

theorem Stage.opened_of_info {info : ProposerInfo}
    (hstage : Stage size p slot bound captains net restarts taken)
    (hkept : (captains p).WellKept) (hinfo : (captains p).proposers[slot]? = some info) :
    Course bound p (captains p).proposers[slot]? (letters slot net)
      (promisedBallots size slot captains) restarts taken := by
  cases hstage with
  | unopened hslot hletters hpromised hrestarts htaken =>
      have hle := (hkept.keys slot info hinfo).2
      omega
  | opened hslot hcourse => exact hcourse

theorem Captain.ProposerMove.acknowledgement {setting : Captain.Setting}
    {captain final : Captain} {outs : List Output}
    (hmove : Captain.ProposerMove setting captain outs final) :
    ∃ msg, setting.received msg ∧ msg.kind = .acceptor := by
  cases hmove with
  | promised hmsg => exact ⟨_, hmsg, rfl⟩
  | promiseRestart hmsg => exact ⟨_, hmsg, rfl⟩
  | continued hmsg => exact ⟨_, hmsg, rfl⟩
  | acked hmsg => exact ⟨_, hmsg, rfl⟩
  | ackRestart hmsg => exact ⟨_, hmsg, rfl⟩
  | chosen hmsg => exact ⟨_, hmsg, rfl⟩

/-- What a proposer's move for one slot leaves alone. -/
theorem ProposerMove.other_slot {setting : Captain.Setting} {captain final : Captain}
    {outs : List Output} {other : ℕ} (hne : other ≠ slot)
    (hreceived : ∀ msg, setting.received msg → msg.msgHeader.slotId = other)
    (hmove : Captain.ProposerMove setting captain outs final) :
    final.proposers[slot]? = captain.proposers[slot]? ∧ letters slot (packetsOf outs) = 0 := by
  have hset : ∀ info, (captain.setProposer other info).proposers[slot]? =
      captain.proposers[slot]? := by
    intro info
    simp [Captain.setProposer, Std.TreeMap.getElem?_insert, hne]
  have hrestart : ∀ info, (captain.restart other info).1.proposers[slot]? =
        captain.proposers[slot]? ∧
      letters slot (packetsOf (captain.restart other info).2) = 0 := by
    intro info
    rw [Captain.restart_eq]
    refine ⟨hset _, Captain.letters_of_other hne ?_⟩
    intro packet hmem
    rcases Captain.mem_broadcastMsg hmem with ⟨sent, heq, hsent⟩
    rw [Output.send.injEq] at heq
    rw [heq, hsent]
    rfl
  cases hmove with
  | promised hmsg hinfo hstatus hack hstays => exact ⟨hreceived _ hmsg ▸ hset _, rfl⟩
  | promiseRestart hmsg hinfo hstatus hack => exact hreceived _ hmsg ▸ hrestart _
  | @continued msg info proposer outs final hmsg hinfo hstatus hack henter =>
      have hslot : msg.msgHeader.slotId = other := hreceived _ hmsg
      rw [hslot] at henter
      cases Proposer.handleMsgPromise_step hack with
      | @continues value _ hballot hnone htrue hafter =>
          have hvalue : { info with currProposer := proposer }.currProposer.currValue =
            some value := hafter.currValue
          rcases Captain.enterPhaseII_spec hvalue henter with ⟨⟨rsValues, rsEncoder, rfl⟩, houts⟩
          refine ⟨hset _, Captain.letters_of_other hne ?_⟩
          intro packet hmem
          rcases houts _ hmem with ⟨sent, accept, heq, hsent, hheader, _⟩
          rw [Output.send.injEq] at heq
          rw [heq, hsent]
          exact congrArg MsgHeader.slotId hheader
  | acked hmsg hinfo hstatus hack hstays => exact ⟨hreceived _ hmsg ▸ hset _, rfl⟩
  | ackRestart hmsg hinfo hstatus hack => exact hreceived _ hmsg ▸ hrestart _
  | chosen hmsg hinfo hstatus hack => exact ⟨hreceived _ hmsg ▸ hset _, rfl⟩

section Delivery

variable {index : ℕ} {packet : Packet} {setting : Captain.Setting} {outs : List Output}
  {final : Captain}

theorem Stage.proposerMove_other
    (hstage : Stage size p slot bound captains net restarts taken)
    (hpacket : net[index]? = some packet) (hne : packet.msg.msgHeader.slotId ≠ slot)
    (hreceived : ∀ msg, setting.received msg → msg = packet.msg)
    (hmove : Captain.ProposerMove setting (captains p) outs final) :
    Stage size p slot bound (Function.update captains p final)
      (net.eraseIdx index ++ packetsOf outs) restarts taken := by
  have hframe : final = { captains p with proposers := final.proposers } := hmove.spec.1
  have hslots : ∀ msg, setting.received msg → msg.msgHeader.slotId = packet.msg.msgHeader.slotId :=
    fun msg hmsg => by rw [hreceived msg hmsg]
  rcases ProposerMove.other_slot hne hslots hmove with ⟨hproposer, hletters⟩
  apply (hstage.eraseIdx hpacket).congr
  · rw [Function.update_self, hframe]
  · rw [Function.update_self, hproposer]
  · apply promisedBallots_update
    rw [hframe]
    rfl
  · rw [letters_append, hletters, add_zero]

theorem Stage.proposerMove {letter : Letter ℕ}
    (hstage : Stage size p slot bound captains net restarts taken)
    (hkept : (captains p).WellKept) (hmode : (captains p).mode ≠ .rs)
    (hlive : ∀ info, (captains p).proposers[slot]? = some info →
      (info.Preparing → info.currProposer.currValue = none) ∧
        (info.proposerStatus = .phaseII → info.currProposer.currValue.isSome))
    (hpacket : net[index]? = some packet) (hletter : packet.letter? slot = some letter)
    (hreceived : ∀ msg, setting.received msg → msg = packet.msg)
    (hwork : (captains p).work = true)
    (hmove : Captain.ProposerMove setting (captains p) outs final) :
    Stage size p slot bound (Function.update captains p final)
      (net.eraseIdx index ++ packetsOf outs)
      (restarts + restartsBy (captains p) packet.msg) (bump taken letter) := by
  have hframe : final = { captains p with proposers := final.proposers } := hmove.spec.1
  have hslot := letter?_slot hletter
  have hfound : ∃ info, (captains p).proposers[slot]? = some info ∧
      info.proposerStatus ≠ .chosen := by
    have hstatus : ∀ msg info, setting.received msg →
        (captains p).proposers[msg.msgHeader.slotId]? = some info →
        info.proposerStatus ≠ .chosen → ∃ info, (captains p).proposers[slot]? = some info ∧
          info.proposerStatus ≠ .chosen := by
      intro msg info hmsg hinfo hstatus
      rw [hreceived msg hmsg, hslot] at hinfo
      exact ⟨info, hinfo, hstatus⟩
    have hpreparing : ∀ {info : ProposerInfo}, info.Preparing → info.proposerStatus ≠ .chosen := by
      intro info hpreparing
      rcases hpreparing with hphase | hphase <;> simp [hphase]
    cases hmove with
    | promised hmsg hinfo hphase => exact hstatus _ _ hmsg hinfo (hpreparing hphase)
    | promiseRestart hmsg hinfo hphase => exact hstatus _ _ hmsg hinfo (hpreparing hphase)
    | continued hmsg hinfo hphase => exact hstatus _ _ hmsg hinfo (hpreparing hphase)
    | acked hmsg hinfo hphase => exact hstatus _ _ hmsg hinfo (by simp [hphase])
    | ackRestart hmsg hinfo hphase => exact hstatus _ _ hmsg hinfo (by simp [hphase])
    | chosen hmsg hinfo hphase => exact hstatus _ _ hmsg hinfo (by simp [hphase])
  rcases hfound with ⟨info, hinfo, hrunning⟩
  have hpromised : promisedBallots size slot (Function.update captains p final) =
      promisedBallots size slot captains := by
    apply promisedBallots_update
    rw [hframe]
    rfl
  cases hstage.opened_of_info hkept hinfo with
  | done hdone hrestarts => exact absurd (hdone info hinfo).1 hrunning
  | @round found hfound hinRound =>
      rw [hinfo, Option.some.injEq] at hfound
      subst hfound
      apply Stage.opened
      · rw [Function.update_self, hframe]
        exact (hkept.keys slot info hinfo).2
      · rw [Function.update_self, letters_append, hpromised]
        exact hinRound.proposerMove hinfo hmode (hlive info hinfo).1 (hlive info hinfo).2
          hreceived hletter (letters_of_some hpacket hletter) hwork hmove

/-- An acknowledgement comes too late for the phase of the proposer. -/
theorem Stage.ignored {letter : Letter ℕ} {reply : Bool}
    (hstage : Stage size p slot bound captains net restarts taken)
    (hpacket : net[index]? = some packet) (hletter : packet.letter? slot = some letter)
    (hanswer : letter.answer = some reply) (hignores : (captains p).Ignores packet.msg) :
    Stage size p slot bound captains (net.eraseIdx index) restarts (bump taken letter) := by
  have hletters := letters_of_some hpacket hletter
  cases hstage with
  | unopened hslot hnone hbound hrestarts htaken =>
      rw [hnone] at hletters
      exact absurd hletters Multiset.zero_ne_cons
  | opened hslot hcourse =>
      apply Stage.opened hslot
      cases hcourse with
      | done hdone hrestarts => exact .done hdone hrestarts
      | @round info hinfo hinRound =>
          apply Course.round hinfo (hinRound.stale hletters _)
          intro hround
          have haccepts : letter.accepts = info.accepting := (LoneProposer.round_inj.mp hround).1
          rcases letter?_cases hletter with
            ⟨hnone, _⟩ | ⟨msg, hmsg, rfl, rfl⟩ | ⟨msg, hmsg, rfl, rfl⟩
          · simp [hanswer] at hnone
          · rw [hmsg] at hignores
            rcases hinRound.running with hpreparing | hrunning
            · exact hignores info hinfo hpreparing
            · simp [promiseLetter, ProposerInfo.accepting, hrunning] at haccepts
          · rw [hmsg] at hignores
            rcases hinRound.running with hpreparing | hrunning
            · simp [acceptedLetter, hpreparing.accepting] at haccepts
            · exact hignores info hinfo hrunning

end Delivery

/-- Opening the slot starts the rounds of its proposer; another slot is left alone. -/
theorem Stage.openSlot (hstage : Stage size p slot bound captains net restarts taken)
    (hwhoami : (captains p).whoami = p) (value : PropValue) (name : Name) (tryTime : ℕ) :
    Stage size p slot bound
      (Function.update captains p ((captains p).openSlot value name tryTime false).1)
      (net ++ packetsOf ((captains p).openSlot value name tryTime false).2) restarts taken := by
  have hpromised : promisedBallots size slot
      (Function.update captains p ((captains p).openSlot value name tryTime false).1) =
        promisedBallots size slot captains := by
    apply promisedBallots_update
    rw [Captain.openSlot_eq]
    rfl
  rw [Captain.openSlot_eq] at hpromised ⊢
  rw [packetsOf_note]
  by_cases hslot : slot = (captains p).maxSlot + 1
  · cases hstage with
    | opened hopened hcourse => omega
    | unopened hunopened hnone hbound hrestarts htaken =>
        apply Stage.opened
        · rw [Function.update_self]
          exact hslot.le
        · rw [Function.update_self, hpromised, letters_append, hnone, zero_add, hrestarts]
          unfold Captain.openingMsg
          simp only [Bool.false_eq_true, if_false, ← hslot, hwhoami]
          rw [Captain.letters_prepare]
          apply Course.round Std.TreeMap.getElem?_insert_self
          exact InRound.first (captains p) value name tryTime hwhoami
            ((captains p).destinations_broadcastMsg _) hbound htaken
  · have hletters : letters slot (packetsOf
        ((captains p).broadcastMsg ((captains p).openingMsg value false))) = 0 := by
      apply Captain.letters_of_other (Ne.symm hslot)
      intro packet hmem
      rcases Captain.mem_broadcastMsg hmem with ⟨sent, heq, hsent⟩
      rw [Output.send.injEq] at heq
      rw [heq, hsent]
      rfl
    cases hstage with
    | unopened hunopened hnone hbound hrestarts htaken =>
        apply Stage.unopened _ _ _ hrestarts htaken
        · rw [Function.update_self]
          change (captains p).maxSlot + 1 < slot
          omega
        · rw [letters_append, hnone, hletters, add_zero]
        · rwa [hpromised]
    | opened hopened hcourse =>
        apply Stage.opened
        · rw [Function.update_self]
          exact hopened.trans (Nat.le_succ _)
        · rw [Function.update_self, hpromised, letters_append, hletters, add_zero,
            Std.TreeMap.getElem?_insert, if_neg (by simpa using Ne.symm hslot)]
          exact hcourse

/-- A retired proposer is at its end. -/
theorem Stage.withoutProposer (hstage : Stage size p slot bound captains net restarts taken)
    (other : ℕ) :
    Stage size p slot bound
      (Function.update captains p ((captains p).withoutProposer other)) net restarts taken := by
  have hpromised : promisedBallots size slot
      (Function.update captains p ((captains p).withoutProposer other)) =
        promisedBallots size slot captains := promisedBallots_update rfl
  by_cases heq : other = slot
  · cases hstage with
    | unopened hunopened hnone hbound hrestarts htaken =>
        apply Stage.unopened _ hnone _ hrestarts htaken
        · rw [Function.update_self]
          exact hunopened
        · rwa [hpromised]
    | opened hopened hcourse =>
        apply Stage.opened
        · rw [Function.update_self]
          exact hopened
        · apply Course.done _ hcourse.restarts_le
          intro info hinfo
          rw [Function.update_self, Captain.withoutProposer, heq] at hinfo
          simp at hinfo
  · apply hstage.congr _ _ hpromised rfl
    · rw [Function.update_self]
      rfl
    · rw [Function.update_self, Captain.withoutProposer]
      simp [Std.TreeMap.getElem?_erase, heq]

theorem Stage.append (hstage : Stage size p slot bound captains net restarts taken)
    {packets : List Packet} (hletters : letters slot packets = 0) :
    Stage size p slot bound captains (net ++ packets) restarts taken := by
  apply hstage.congr rfl rfl rfl
  rw [letters_append, hletters, add_zero]

theorem Stage.quietMove {setting : Captain.Setting} {outs : List Output} {final : Captain}
    (hstage : Stage size p slot bound captains net restarts taken)
    (hkept : (captains p).WellKept) (hmode : (captains p).mode ≠ .multi)
    (hwhoami : (captains p).whoami = p)
    (hquiet : ∀ msg, setting.received msg → Captain.Quiet msg)
    (hmove : Captain.SlotMove setting (captains p) outs final) :
    Stage size p slot bound (Function.update captains p final) (net ++ packetsOf outs)
      restarts taken := by
  rcases hmove.acceptors_of_quiet hquiet hkept.shape with ⟨hacceptors, hacceptorKinds⟩
  rcases hmove.proposer_cases hkept.shape with hproposer |
    ⟨value, name, tryTime, skipPhaseI, hskip, rfl, rfl⟩ | ⟨⟨other, rfl⟩, hkinds⟩ |
    ⟨hproposers, hmaxSlot, hkinds⟩
  · exact absurd hproposer (Captain.not_proposerMove_of_quiet hquiet)
  · cases skipPhaseI with
    | true => exact absurd (hskip rfl).1 hmode
    | false => exact hstage.openSlot hwhoami value name tryTime
  · exact (hstage.withoutProposer other).append (letters_of_kinds hkinds hacceptorKinds)
  · apply Stage.append _ (letters_of_kinds hkinds hacceptorKinds)
    apply hstage.congr
    · rw [Function.update_self, hmaxSlot]
    · rw [Function.update_self, hproposers]
    · apply promisedBallots_update
      rw [Captain.acceptorOf_congr hacceptors]
    · rfl

theorem Stage.quietChain {setting : Captain.Setting} {outs : List Output} {final : Captain}
    (hstage : Stage size p slot bound captains net restarts taken)
    (hkept : (captains p).WellKept) (hmode : (captains p).mode ≠ .multi)
    (hwhoami : (captains p).whoami = p)
    (hquiet : ∀ msg, setting.received msg → Captain.Quiet msg)
    (hchain : OutputChain (Captain.SlotMove setting) (captains p) outs final) :
    Stage size p slot bound (Function.update captains p final) (net ++ packetsOf outs)
      restarts taken := by
  let staged (captain : Captain) (log : List Output) : Prop :=
    captain.WellKept ∧ captain.mode ≠ .multi ∧ captain.whoami = p ∧
      Stage size p slot bound (Function.update captains p captain) (net ++ packetsOf log)
        restarts taken
  have hstart : staged (captains p) [] := by
    refine ⟨hkept, hmode, hwhoami, ?_⟩
    rw [Function.update_eq_self]
    simpa [packetsOf] using hstage
  have hpreserved : ∀ captain log outs last, staged captain log →
      Captain.SlotMove setting captain outs last → staged last (log ++ outs) := by
    intro captain log outs last hbefore hmove
    rcases hbefore with ⟨hwell, hother, hnode, hreached⟩
    have hsame := hmove.sameNode hwell.shape
    have hmodes : last.mode = captain.mode := by
      rw [Captain.mode, View.mode, hsame.config]
      rfl
    have hnext := hreached.quietMove (by rwa [Function.update_self])
      (by rwa [Function.update_self]) (by rwa [Function.update_self]) hquiet
      (by rwa [Function.update_self])
    rw [Function.update_idem, List.append_assoc, ← packetsOf_append] at hnext
    exact ⟨hmove.wellKept hwell, hmodes ▸ hother, hsame.nodeId.trans hnode, hnext⟩
  exact (hchain.invariant staged hpreserved hstart).2.2.2

end Steps

/-! ## Steps of the cluster -/

def Action.duplicates : Action → Bool
  | .duplicate _ => true
  | .call _ _ => false
  | .deliver _ _ _ => false
  | .lose _ => false

def Message.acknowledges? : Message → Option (Bool × ℕ)
  | .promise msg => some (false, msg.ballotId)
  | .accepted msg => some (true, msg.ballotId)
  | _ => none

def restarted (p slot : ℕ) (step : Cluster × Action) : Bool := returns .restart p slot step

def acknowledged (p slot : ℕ) (accepts : Bool) (ballot : ℕ) (step : Cluster × Action) : Bool :=
  (step.1.captains p).work = true ∧
    (step.1.handled? p slot step.2).bind Message.acknowledges? = some (accepts, ballot)

def restartsAfter (p slot restarts : ℕ) (step : Cluster × Action) : ℕ :=
  restarts + if restarted p slot step then 1 else 0

def takenAfter (p slot : ℕ) (taken : Bool → ℕ → ℕ) (step : Cluster × Action) : Bool → ℕ → ℕ :=
  fun accepts ballot => taken accepts ballot +
    if acknowledged p slot accepts ballot step then 1 else 0

section Counts

variable {p slot restarts : ℕ} {taken : Bool → ℕ → ℕ} {cluster : Cluster} {action : Action}
  {index : ℕ} {dataName : Name} {app : AppCalls} {packet : Packet}

theorem restartsAfter_of_none (hnone : cluster.handled? p slot action = none) :
    restartsAfter p slot restarts (cluster, action) = restarts := by
  simp [restartsAfter, restarted, returns_of_none hnone]

theorem takenAfter_of_none (hnone : cluster.handled? p slot action = none) :
    takenAfter p slot taken (cluster, action) = taken := by
  funext accepts ballot
  simp [takenAfter, acknowledged, hnone]

theorem restartsAfter_deliver (hpacket : cluster.net[index]? = some packet) (hdst : packet.dst = p)
    (hslot : packet.msg.msgHeader.slotId = slot) :
    restartsAfter p slot restarts (cluster, .deliver index dataName app) =
      restarts + restartsBy (cluster.captains p) packet.msg := by
  unfold restartsAfter restarted restartsBy
  simp [returns, handled?_deliver hpacket, hdst, hslot]

theorem takenAfter_of_dead (hdead : (cluster.captains p).work = false) :
    takenAfter p slot taken (cluster, action) = taken := by
  funext accepts ballot
  simp [takenAfter, acknowledged, hdead]

theorem takenAfter_of_request (hpacket : cluster.net[index]? = some packet)
    (hrequest : packet.msg.acknowledges? = none) :
    takenAfter p slot taken (cluster, .deliver index dataName app) = taken := by
  funext accepts ballot
  have hnone : (cluster.handled? p slot (.deliver index dataName app)).bind
      Message.acknowledges? = none := by
    rw [handled?_deliver hpacket]
    split
    · exact hrequest
    · rfl
  simp [takenAfter, acknowledged, hnone]

theorem takenAfter_deliver {letter : Letter ℕ} {reply : Bool}
    (hpacket : cluster.net[index]? = some packet) (hdst : packet.dst = p)
    (hwork : (cluster.captains p).work = true) (hletter : packet.letter? slot = some letter)
    (hanswer : letter.answer = some reply) :
    takenAfter p slot taken (cluster, .deliver index dataName app) = bump taken letter := by
  have hslot := letter?_slot hletter
  have hacknowledges : packet.msg.acknowledges? = some (letter.accepts, letter.ballot) := by
    rcases letter?_cases hletter with ⟨hnone, _⟩ | ⟨msg, hmsg, _, rfl⟩ | ⟨msg, hmsg, _, rfl⟩
    · simp [hanswer] at hnone
    · rw [hmsg]
      rfl
    · rw [hmsg]
      rfl
  funext accepts ballot
  simp [takenAfter, acknowledged, bump, handled?_deliver hpacket, hdst, hslot, hwork,
    hacknowledges]

theorem letter?_of_acceptor (hkind : packet.msg.kind = .acceptor)
    (hslot : packet.msg.msgHeader.slotId = slot) :
    ∃ letter reply, packet.letter? slot = some letter ∧ letter.answer = some reply := by
  cases hmsg : packet.msg with
  | promise msg =>
      rw [hmsg] at hslot
      change msg.msgHeader.slotId = slot at hslot
      exact ⟨promiseLetter msg, msg.reply, by rw [letter?_promise slot hmsg, if_pos hslot], rfl⟩
  | accepted msg =>
      rw [hmsg] at hslot
      change msg.msgHeader.slotId = slot at hslot
      exact ⟨acceptedLetter msg, msg.reply, by rw [letter?_accepted slot hmsg, if_pos hslot], rfl⟩
  | _ => simp [hmsg, Message.kind] at hkind

theorem letter?_request {letter : Letter ℕ} (hletter : packet.letter? slot = some letter)
    (hrequest : letter.answer = none) : packet.msg.kind = .proposer := by
  rcases letter?_cases hletter with ⟨_, hkind⟩ | ⟨msg, _, _, rfl⟩ | ⟨msg, _, _, rfl⟩
  · exact hkind
  · simp [promiseLetter] at hrequest
  · simp [acceptedLetter] at hrequest

theorem acknowledges?_none_of_proposer (hkind : packet.msg.kind = .proposer) :
    packet.msg.acknowledges? = none := by
  cases hmsg : packet.msg <;> simp_all [Message.kind, Message.acknowledges?]

theorem acknowledges?_of_letter?_none (hletter : packet.letter? slot = none)
    (hslot : packet.msg.msgHeader.slotId = slot) : packet.msg.acknowledges? = none := by
  cases hmsg : packet.msg with
  | promise msg =>
      rw [hmsg] at hslot
      change msg.msgHeader.slotId = slot at hslot
      simp [Packet.letter?, hmsg, hslot] at hletter
  | accepted msg =>
      rw [hmsg] at hslot
      change msg.msgHeader.slotId = slot at hslot
      simp [Packet.letter?, hmsg, hslot] at hletter
  | _ => rfl

end Counts

/-! ### One step -/

/-- Nothing is duplicated, and nobody but node `p` asks for the slot. -/
def Alone (deployment : Deployment) (p slot : ℕ) (cluster : Cluster) (action : Action) : Prop :=
  action.duplicates = false ∧
    ∀ next ∈ cluster.step deployment action, ∀ packet ∈ next.net, packet.msg.kind = .proposer →
      packet.msg.msgHeader.slotId = slot → packet.msg.msgHeader.nodeId = p

instance decidableAlone (deployment : Deployment) (p slot : ℕ) (cluster : Cluster)
    (action : Action) : Decidable (Alone deployment p slot cluster action) :=
  inferInstanceAs (Decidable (_ ∧ ∀ next ∈ cluster.step deployment action,
    ∀ packet ∈ next.net, _ → _ → _))

section Run

variable {deployment : Deployment} {p slot bound restarts : ℕ} {taken : Bool → ℕ → ℕ}
  {cluster : Cluster} {action : Action}

/-- A node other than `p` puts out no request for the slot. -/
theorem letters_of_foreign {i : ℕ} {net : List Packet} {final : Captain} {outs some : List Output}
    (hnext : Reaches deployment (Histories deployment.config.size)
      (cluster.act i net (final, outs)))
    (hi : i < deployment.config.size) (hne : i ≠ p)
    (honly : ∀ packet ∈ (cluster.act i net (final, outs)).net, packet.msg.kind = .proposer →
      packet.msg.msgHeader.slotId = slot → packet.msg.msgHeader.nodeId = p)
    (hsome : ∀ out ∈ some, out ∈ outs) (hacceptor : ∀ out ∈ some, out.kind ≠ .acceptor) :
    letters slot (packetsOf some) = 0 := by
  apply letters_eq_zero
  intro packet hmem
  have hsent := mem_packetsOf.mp hmem
  by_cases hkind : packet.msg.kind = .proposer
  · rw [Option.eq_none_iff_forall_ne_some]
    intro letter hletter
    have hnode := honly packet
      (List.mem_append_right _ (mem_packetsOf.mpr (hsome _ hsent))) hkind (letter?_slot hletter)
    have hissue : ∃ ballot, packet.msg.issue? = .some (packet.msg.msgHeader, ballot) := by
      cases hmsg : packet.msg with
      | prepare msg => exact ⟨_, rfl⟩
      | accept msg => exact ⟨_, rfl⟩
      | _ => simp [hmsg, Message.kind] at hkind
    rcases hissue with ⟨ballot, hissue⟩
    have hissued : Issued ((cluster.act i net (final, outs)).nodes i).log packet.msg.msgHeader
        ballot := by
      refine ⟨packet.dst, packet.msg, ⟨packet, ?_, rfl, rfl⟩, hissue⟩
      exact mem_log_actOn.mpr (.inr ⟨rfl, hsome _ hsent⟩)
    exact hne ((issued_owner hnext.keeps hnext.invariant hi hissued).1.symm.trans hnode)
  · exact letter?_eq_none hkind (hacceptor _ hsent)

/-- What the handled message itself does to the slot. -/
theorem Stage.firstMove {size index : ℕ} {dataName : Name} {app : AppCalls} {packet : Packet}
    {first : List Output} {mid : Captain}
    (hstage : Stage size p slot bound cluster.captains cluster.net restarts taken)
    (hkept : (cluster.captains packet.dst).WellKept)
    (hwhoami : (cluster.captains packet.dst).whoami = packet.dst) (hdst : packet.dst < size)
    (hsize : size ≤ 2 ^ 16) (hmode : (cluster.captains packet.dst).mode ≠ .rs)
    (hlive : ∀ info, (cluster.captains packet.dst).proposers[slot]? = some info →
      (info.Preparing → info.currProposer.currValue = none) ∧
        (info.proposerStatus = .phaseII → info.currProposer.currValue.isSome))
    (hpacket : cluster.net[index]? = some packet)
    (hforeign : packet.dst ≠ p → (∀ out ∈ first, out.kind ≠ .acceptor) →
      letters slot (packetsOf first) = 0)
    (hfirst : Captain.FirstMove (cluster.captains packet.dst) packet.msg first mid) :
    Stage size p slot bound (Function.update cluster.captains packet.dst mid)
      (cluster.net.eraseIdx index ++ packetsOf first)
      (restartsAfter p slot restarts (cluster, .deliver index dataName app))
      (takenAfter p slot taken (cluster, .deliver index dataName app)) := by
  have helsewhere : packet.dst ≠ p →
      cluster.handled? p slot (.deliver index dataName app) = none := by
    intro hne
    simp [handled?_deliver hpacket, hne]
  cases hfirst with
  | acceptor hmove =>
      have hrequest : (packet.msg.acknowledges? = none) ∧
          (cluster.captains p).returned packet.msg = none := by
        cases hmove with
        | prepare hmsg hupdate => exact hmsg ▸ ⟨rfl, rfl⟩
        | accept hmsg hupdate => exact hmsg ▸ ⟨rfl, rfl⟩
      have hrestarts : restartsAfter p slot restarts (cluster, .deliver index dataName app) =
          restarts := by
        by_cases hown : packet.dst = p ∧ packet.msg.msgHeader.slotId = slot
        · rw [restartsAfter_deliver hpacket hown.1 hown.2, restartsBy, hrequest.2]
          simp
        · exact restartsAfter_of_none (by rw [handled?_deliver hpacket, if_neg hown])
      rw [hrestarts, takenAfter_of_request hpacket hrequest.1]
      exact hstage.acceptorMove hdst hpacket rfl hwhoami (by omega) (fun _ hmsg => hmsg) hmove
  | proposer hwork hmove =>
      by_cases hown : packet.dst = p
      · subst hown
        by_cases hslot : packet.msg.msgHeader.slotId = slot
        · rcases hmove.acknowledgement with ⟨msg, rfl, hkind⟩
          rcases letter?_of_acceptor hkind hslot with ⟨letter, reply, hletter, hanswer⟩
          rw [restartsAfter_deliver hpacket rfl hslot,
            takenAfter_deliver hpacket rfl hwork hletter hanswer]
          exact hstage.proposerMove hkept hmode hlive hpacket hletter (fun _ hmsg => hmsg) hwork
            hmove
        · have hnone : cluster.handled? packet.dst slot (.deliver index dataName app) = none := by
            simp [handled?_deliver hpacket, hslot]
          rw [restartsAfter_of_none hnone, takenAfter_of_none hnone]
          exact hstage.proposerMove_other hpacket hslot (fun _ hmsg => hmsg) hmove
      · rw [restartsAfter_of_none (helsewhere hown), takenAfter_of_none (helsewhere hown)]
        apply (hstage.eraseIdx hpacket).other hown
        · rw [hmove.spec.1]
        · apply hforeign hown
          intro out hmem
          simp [hmove.spec.2.2 out hmem]
  | idle hidle =>
      rw [Function.update_eq_self, show packetsOf [] = [] from rfl, List.append_nil]
      by_cases hown : packet.dst = p ∧ packet.msg.msgHeader.slotId = slot
      · rcases hown with ⟨rfl, hslot⟩
        rw [restartsAfter_deliver hpacket rfl hslot, restartsBy,
          Captain.returned_of_ignores hidle, if_neg (by simp), Nat.add_zero]
        cases hletter : packet.letter? slot with
        | none =>
            rw [takenAfter_of_request hpacket (acknowledges?_of_letter?_none hletter hslot)]
            exact hstage.eraseIdx hpacket
        | some letter =>
            cases hwork : (cluster.captains packet.dst).work with
            | false =>
                rw [takenAfter_of_dead hwork]
                exact hstage.eraseIdx hpacket
            | true =>
                have hignores := hidle.resolve_left (by simp [hwork])
                cases hanswer : letter.answer with
                | none =>
                    have hkind := letter?_request hletter hanswer
                    rw [takenAfter_of_request hpacket (acknowledges?_none_of_proposer hkind)]
                    exact hstage.eraseIdx hpacket
                | some reply =>
                    rw [takenAfter_deliver hpacket rfl hwork hletter hanswer]
                    exact hstage.ignored hpacket hletter hanswer hignores
      · have hnone : cluster.handled? p slot (.deliver index dataName app) = none := by
          rw [handled?_deliver hpacket, if_neg hown]
        rw [restartsAfter_of_none hnone, takenAfter_of_none hnone]
        exact hstage.eraseIdx hpacket

/-- The moves of a node after the one for the handled message. -/
theorem Stage.rest {size i : ℕ} {captains : ℕ → Captain} {net : List Packet}
    {setting : Captain.Setting} {rest : List Output} {final : Captain}
    (hstage : Stage size p slot bound captains net restarts taken)
    (hkept : (captains i).WellKept) (hmode : (captains i).mode ≠ .multi)
    (hwhoami : (captains i).whoami = i)
    (hforeign : i ≠ p → (∀ out ∈ rest, out.kind ≠ .acceptor) → letters slot (packetsOf rest) = 0)
    (hquiet : ∀ msg, setting.received msg → Captain.Quiet msg)
    (hchain : OutputChain (Captain.SlotMove setting) (captains i) rest final) :
    Stage size p slot bound (Function.update captains i final) (net ++ packetsOf rest) restarts
      taken := by
  by_cases hown : i = p
  · subst hown
    exact hstage.quietChain hkept hmode hwhoami hquiet hchain
  · rcases Captain.acceptors_of_quiet_chain hquiet hkept hchain with ⟨hacceptors, hkinds⟩
    exact hstage.other hown hacceptors (hforeign hown hkinds)

theorem Stage.step {next : Cluster}
    (hstage : Stage deployment.config.size p slot bound cluster.captains cluster.net restarts taken)
    (hmode : deployment.config.mode = .basic ∨ deployment.config.mode = .quorum)
    (hreaches : Reaches deployment (Histories deployment.config.size) cluster)
    (hnext : Reaches deployment (Histories deployment.config.size) next)
    (halone : Alone deployment p slot cluster action)
    (hstep : cluster.step deployment action = some next) :
    Stage deployment.config.size p slot bound next.captains next.net
      (restartsAfter p slot restarts (cluster, action))
      (takenAfter p slot taken (cluster, action)) := by
  have hmodes : ∀ captain : Captain, captain.mode = deployment.config.mode →
      captain.mode ≠ .rs ∧ captain.mode ≠ .multi := by
    intro captain hsame
    rcases hmode with heq | heq <;> simp [hsame, heq]
  have honly := halone.2 next hstep
  cases action with
  | call i made =>
      rw [restartsAfter_of_none rfl, takenAfter_of_none rfl]
      rcases Cluster.step_call hstep with ⟨hi, final, outs, hcall, rfl⟩
      have hchain : OutputChain (Captain.Move (callSetting made)) _ outs final :=
        Captain.call_moves rfl hcall
      have hslots := hchain.bind fun _ _ _ hmove => hmove.slotMoves
      rw [Cluster.captains_act]
      apply hstage.rest (hreaches.keeps.wellKept i hi)
        (hmodes _ (hreaches.keeps.mode hi)).2 (hreaches.keeps.whoami hi) _ _ hslots
      · exact fun hne => letters_of_foreign hnext hi hne honly fun _ hmem => hmem
      · exact fun _ hmsg => hmsg.elim
  | deliver index dataName app =>
      rcases Cluster.step_deliver hstep with ⟨packet, hpacket, hi, final, outs, hhandle, rfl⟩
      have hkept := hreaches.keeps.wellKept packet.dst hi
      have hwhoami := hreaches.keeps.whoami hi
      have hsameMode := hreaches.keeps.mode hi
      have hlive : ∀ info, (cluster.captains packet.dst).proposers[slot]? = some info →
          (info.Preparing → info.currProposer.currValue = none) ∧
            (info.proposerStatus = .phaseII → info.currProposer.currValue.isSome) := by
        intro info hinfo
        have hlive := (hreaches.invariant.proposers packet.dst hi).live slot info hinfo
        exact ⟨fun hpreparing => (hlive.preparing hpreparing).1, hlive.currValue_isSome⟩
      rcases Captain.handleMsg_first hkept hhandle with ⟨first, mid, rest, hfirst, hrest, rfl⟩
      have hforeign : ∀ some : List Output, (∀ out ∈ some, out ∈ first ++ rest) →
          packet.dst ≠ p → (∀ out ∈ some, out.kind ≠ .acceptor) →
            letters slot (packetsOf some) = 0 :=
        fun some hsome hne => letters_of_foreign hnext hi hne honly hsome
      have hmoved : Stage deployment.config.size p slot bound
          (Function.update cluster.captains packet.dst mid)
          (cluster.net.eraseIdx index ++ packetsOf first)
          (restartsAfter p slot restarts (cluster, .deliver index dataName app))
          (takenAfter p slot taken (cluster, .deliver index dataName app)) :=
        hstage.firstMove hkept hwhoami hi deployment.config.size_le (hmodes _ hsameMode).1 hlive
          hpacket (hforeign first fun _ hmem => List.mem_append_left _ hmem) hfirst
      have hmid := hfirst.slotMoves.preserves
        (fun captain => captain.WellKept ∧ captain.mode = deployment.config.mode ∧
          captain.whoami = packet.dst)
        (by
          intro captain outs last hbefore hmove
          rcases hbefore with ⟨hwell, hbuild, hnode⟩
          have hsame := hmove.sameNode hwell.shape
          refine ⟨hmove.wellKept hwell, ?_, hsame.nodeId.trans hnode⟩
          rw [← hbuild, Captain.mode, View.mode, hsame.config]
          rfl)
        ⟨hkept, hsameMode, hwhoami⟩
      have hself : Function.update cluster.captains packet.dst mid packet.dst = mid :=
        Function.update_self ..
      rw [← hself] at hmid hrest
      have hreached := hmoved.rest hmid.1 (hmodes _ hmid.2.1).2 hmid.2.2
        (hforeign rest fun _ hmem => List.mem_append_right _ hmem) (fun _ hmsg => hmsg) hrest
      rw [Function.update_idem, List.append_assoc, ← packetsOf_append] at hreached
      rw [Cluster.captains_act]
      exact hreached
  | lose index =>
      rw [restartsAfter_of_none rfl, takenAfter_of_none rfl]
      rcases Cluster.step_lose hstep with ⟨hlt, rfl⟩
      exact hstage.eraseIdx (List.getElem?_eq_getElem hlt)
  | duplicate index => exact absurd halone.1 (by simp [Action.duplicates])

end Run

/-! ## Whole runs -/

/-- What the proposer of the slot at node `p` has come to after the given steps. -/
structure Settles (p slot bound quorum : ℕ) (past : List (Cluster × Action)) (final : Cluster) :
    Prop where
  restarts : past.countP (restarted p slot) ≤ bound / 2 ^ 16
  /-- Its ballots stay within 64 bits. -/
  ballot : ∀ info, (final.captains p).proposers[slot]? = some info →
    info.currProposer.currBallot < 2 ^ 64
  /-- Only up to the bound is RESTART an answer. -/
  restart : ∀ packet ∈ final.net, packet.dst = p → packet.msg.msgHeader.slotId = slot →
    (final.captains p).returned packet.msg = some .restart →
      ∃ info, (final.captains p).proposers[slot]? = some info ∧
        info.currProposer.currBallot ≤ bound
  /-- Above it, a quorum of promises from different nodes gives CONTINUE. -/
  promise : ∀ info packet msg, (final.captains p).proposers[slot]? = some info →
    packet ∈ final.net → packet.msg = .promise msg → msg.msgHeader.slotId = slot →
    (final.captains p).work = true → info.Preparing → bound < info.currProposer.currBallot →
    msg.ballotId = info.currProposer.currBallot →
      info.currProposer.msgAckPrepare[toNodeId msg.msgHeader.nodeId]? = none ∧
      info.currProposer.msgAckPrepare.size =
        past.countP (acknowledged p slot false info.currProposer.currBallot) ∧
      (final.captains p).returned packet.msg =
        some (if info.currProposer.msgAckPrepare.size + 1 < quorum then .notEnough
          else .continuePhase)
  /-- And then a quorum of acceptances gives CHOOSE. -/
  accepted : ∀ info packet msg, (final.captains p).proposers[slot]? = some info →
    packet ∈ final.net → packet.msg = .accepted msg → msg.msgHeader.slotId = slot →
    (final.captains p).work = true → info.proposerStatus = .phaseII →
    bound < info.currProposer.currBallot → msg.ballotId = info.currProposer.currBallot →
      info.currProposer.msgAckAccept[toNodeId msg.msgHeader.nodeId]? = none ∧
      info.currProposer.msgAckAccept.size =
        past.countP (acknowledged p slot true info.currProposer.currBallot) ∧
      (final.captains p).returned packet.msg =
        some (if info.currProposer.msgAckAccept.size + 1 < quorum then .notEnough else .choose)

theorem ProposerInfo.card_acks_promise (info : ProposerInfo) (hpreparing : info.Preparing) :
    info.acks.card = info.currProposer.msgAckPrepare.size := by
  have hphase : info.proposerStatus ≠ .phaseII := by
    rcases hpreparing with hstatus | hstatus <;> simp [hstatus]
  rw [acks, if_neg hphase, Multiset.coe_card, OrderedMap.length_entries]

theorem ProposerInfo.card_acks_accepted (info : ProposerInfo)
    (hphase : info.proposerStatus = .phaseII) :
    info.acks.card = info.currProposer.msgAckAccept.size := by
  rw [acks, if_pos hphase, Multiset.coe_card, OrderedMap.length_entries]

namespace InRound

variable {bound p slot restarts : ℕ} {info : ProposerInfo} {inFlight : Multiset (Letter ℕ)}
  {promised : ℕ → ℕ} {taken : Bool → ℕ → ℕ} {captain : Captain}

theorem promise_fresh {msg : MsgAckPrepare}
    (hinRound : InRound bound p info inFlight promised restarts taken)
    (hpreparing : info.Preparing) (hmem : promiseLetter msg ∈ inFlight)
    (hballot : msg.ballotId = info.currProposer.currBallot) :
    info.currProposer.msgAckPrepare[toNodeId msg.msgHeader.nodeId]? = none ∧
      info.currProposer.msgAckPrepare.size = taken false info.currProposer.currBallot := by
  have hphase : info.proposerStatus ≠ .phaseII := by
    rcases hpreparing with hstatus | hstatus <;> simp [hstatus]
  have hround := hinRound.round_eq hmem hpreparing.accepting.symm hballot.ge
  have hnew := hinRound.sound.unrecorded hmem hround
  simp only [ProposerInfo.lone, ProposerInfo.acks, hphase, if_false] at hnew
  refine ⟨OrderedMap.fresh_of_notMem hnew, ?_⟩
  rw [← info.card_acks_promise hpreparing, ← hinRound.counted, hpreparing.accepting]

theorem accepted_fresh {msg : MsgAckAccept}
    (hinRound : InRound bound p info inFlight promised restarts taken)
    (hphase : info.proposerStatus = .phaseII) (hmem : acceptedLetter msg ∈ inFlight)
    (hballot : msg.ballotId = info.currProposer.currBallot) :
    info.currProposer.msgAckAccept[toNodeId msg.msgHeader.nodeId]? = none ∧
      info.currProposer.msgAckAccept.size = taken true info.currProposer.currBallot := by
  have haccepting : info.accepting = true := by simp [ProposerInfo.accepting, hphase]
  have hround := hinRound.round_eq hmem haccepting.symm hballot.ge
  have hnew := hinRound.sound.unrecorded hmem hround
  simp only [ProposerInfo.lone, ProposerInfo.acks, hphase, if_true] at hnew
  refine ⟨OrderedMap.fresh_of_notMem hnew, ?_⟩
  rw [← info.card_acks_accepted hphase, ← hinRound.counted, haccepting]

theorem le_of_restart {packet : Packet}
    (hinRound : InRound bound p info inFlight promised restarts taken)
    (hinfo : captain.proposers[slot]? = some info) (hmode : captain.mode ≠ .rs)
    (hmem : ∀ letter, packet.letter? slot = some letter → letter ∈ inFlight)
    (hslot : packet.msg.msgHeader.slotId = slot)
    (hreturned : captain.returned packet.msg = some .restart) :
    info.currProposer.currBallot ≤ bound := by
  cases hmsg : packet.msg with
  | promise msg =>
      rw [hmsg] at hslot hreturned
      change msg.msgHeader.slotId = slot at hslot
      have hletter := hmem _ ((letter?_promise slot hmsg).trans (if_pos hslot))
      simp only [Captain.returned, hslot, hinfo, Option.bind_eq_bind, Option.bind_some] at hreturned
      split at hreturned
      next hphase =>
        rcases Option.map_eq_some_iff.mp hreturned with ⟨⟨ack, proposer⟩, hack, rfl⟩
        exact (hinRound.le_of_promise hmode hphase.2 hletter hack).2
      next => simp at hreturned
  | accepted msg =>
      rw [hmsg] at hslot hreturned
      change msg.msgHeader.slotId = slot at hslot
      have hletter := hmem _ ((letter?_accepted slot hmsg).trans (if_pos hslot))
      simp only [Captain.returned, hslot, hinfo, Option.bind_eq_bind, Option.bind_some] at hreturned
      split at hreturned
      next hphase =>
        have hack := Option.some.inj hreturned
        exact (hinRound.le_of_accepted hphase.2 hletter (Prod.ext hack rfl)).2
      next => simp at hreturned
  | _ => simp [hmsg, Captain.returned] at hreturned

end InRound

section Settled

variable {deployment : Deployment} {p slot bound : ℕ} {past : List (Cluster × Action)}
  {final : Cluster}

/-- The slot after the given steps. -/
def StageAfter (deployment : Deployment) (p slot bound : ℕ) (past : List (Cluster × Action))
    (final : Cluster) : Prop :=
  Stage deployment.config.size p slot bound final.captains final.net
    (past.countP (restarted p slot))
    (fun accepts ballot => past.countP (acknowledged p slot accepts ballot))

theorem StageAfter.step {action : Action} {next : Cluster}
    (hstage : StageAfter deployment p slot bound past final)
    (hmode : deployment.config.mode = .basic ∨ deployment.config.mode = .quorum)
    (hreaches : Reaches deployment (Histories deployment.config.size) final)
    (hnext : Reaches deployment (Histories deployment.config.size) next)
    (halone : Alone deployment p slot final action)
    (hstep : final.step deployment action = some next) :
    StageAfter deployment p slot bound (past ++ [(final, action)]) next := by
  have hreached := Stage.step hstage hmode hreaches hnext halone hstep
  unfold StageAfter
  simp only [List.countP_append, List.countP_singleton]
  exact hreached

theorem StageAfter.settles (hstage : StageAfter deployment p slot bound past final)
    (hmode : deployment.config.mode = .basic ∨ deployment.config.mode = .quorum)
    (hp : p < deployment.config.size) (hbound : bound < 2 ^ 64 - 2 ^ 17)
    (hreaches : Reaches deployment (Histories deployment.config.size) final) :
    Settles p slot bound deployment.config.quorumSize past final := by
  have hhistory := hreaches.invariant.proposers p hp
  have hbuild : (final.captains p).mode = deployment.config.mode := hreaches.keeps.mode hp
  have hconfig := hreaches.keeps.config p hp
  have hshards : (final.captains p).mode ≠ .rs := by
    rcases hmode with heq | heq <;> simp [hbuild, heq]
  have hsize := deployment.config.size_le
  have hquorums : ∀ info, (final.captains p).proposers[slot]? = some info →
      info.currProposer.qr = deployment.config.quorumSize ∧
        info.currProposer.qw = deployment.config.quorumSize := by
    intro info hinfo
    have hquorum := (hhistory.live slot info hinfo).quorums hshards
    rwa [View.quorumSize, hconfig] at hquorum
  have hpreparing : ∀ info, (final.captains p).proposers[slot]? = some info →
      info.Preparing → info.currProposer.currValue = none :=
    fun info hinfo hstatus => ((hhistory.live slot info hinfo).preparing hstatus).1
  have haccepting : ∀ info, (final.captains p).proposers[slot]? = some info →
      info.proposerStatus = .phaseII → info.currProposer.currValue.isSome :=
    fun info hinfo => (hhistory.live slot info hinfo).currValue_isSome
  have hcourse := fun info hinfo =>
    @Stage.opened_of_info _ _ _ _ _ _ _ _ info hstage (hreaches.keeps.wellKept p hp) hinfo
  constructor
  · apply (Nat.le_div_iff_mul_le (by norm_num)).mpr
    cases hstage with
    | unopened hslot hletters hpromised hrestarts htaken => omega
    | opened hslot hreached =>
        have hle := hreached.restarts_le
        omega
  · intro info hinfo
    cases hcourse info hinfo with
    | done hdone hrestarts =>
        have hballot := (hdone info hinfo).2
        omega
    | @round found hfound hinRound =>
        rw [hinfo, Option.some.injEq] at hfound
        subst hfound
        have hballot := hinRound.ballot
        have hrestarts := hinRound.restarts_le
        omega
  · intro packet hmem hdst hslot hreturned
    rcases Captain.found_of_returned hreturned with ⟨info, hinfo, hrunning⟩
    rw [hslot] at hinfo
    cases hcourse info hinfo with
    | done hdone hrestarts => exact absurd (hdone info hinfo).1 hrunning
    | @round found hfound hinRound =>
        rw [hinfo, Option.some.injEq] at hfound
        subst hfound
        refine ⟨info, hinfo, ?_⟩
        exact hinRound.le_of_restart hinfo hshards
          (fun letter hletter => mem_letters.mpr ⟨packet, hmem, hletter⟩) hslot hreturned
  · intro info packet msg hinfo hmem hmsg hslot hwork hstatus habove hballot
    have hletter : promiseLetter msg ∈ letters slot final.net :=
      mem_letters.mpr ⟨packet, hmem, (letter?_promise slot hmsg).trans (if_pos hslot)⟩
    cases hcourse info hinfo with
    | done hdone hrestarts =>
        rcases hstatus with heq | heq <;> simp [(hdone info hinfo).1] at heq
    | @round found hfound hinRound =>
        rw [hinfo, Option.some.injEq] at hfound
        subst hfound
        rcases hinRound.promise_fresh hstatus hletter hballot with ⟨hfresh, hcount⟩
        refine ⟨hfresh, hcount, ?_⟩
        have hresult := hinRound.promise_returned hshards hstatus (hpreparing info hinfo hstatus)
          hletter hballot.ge habove
        have hcondition : (final.captains p).work = true ∧
            (info.proposerStatus = .init ∨ info.proposerStatus = .phaseI) := ⟨hwork, hstatus⟩
        rw [hmsg]
        simp only [Captain.returned, hslot, hinfo, Option.bind_eq_bind, Option.bind_some]
        rw [if_pos hcondition]
        rw [(hquorums info hinfo).1, info.card_acks_promise hstatus] at hresult
        exact hresult
  · intro info packet msg hinfo hmem hmsg hslot hwork hstatus habove hballot
    have hletter : acceptedLetter msg ∈ letters slot final.net :=
      mem_letters.mpr ⟨packet, hmem, (letter?_accepted slot hmsg).trans (if_pos hslot)⟩
    cases hcourse info hinfo with
    | done hdone hrestarts => simp [(hdone info hinfo).1] at hstatus
    | @round found hfound hinRound =>
        rw [hinfo, Option.some.injEq] at hfound
        subst hfound
        rcases hinRound.accepted_fresh hstatus hletter hballot with ⟨hfresh, hcount⟩
        refine ⟨hfresh, hcount, ?_⟩
        have hresult := hinRound.accepted_returned hstatus (haccepting info hinfo hstatus) hletter
          hballot.ge habove
        rw [(hquorums info hinfo).2, info.card_acks_accepted hstatus] at hresult
        rw [hmsg, Captain.returned_accepted hwork (by rw [hslot, hinfo]) hstatus, hresult]

end Settled

/-- A lone proposer of the slot starts over at most `bound / 2 ^ 16` times, and
above the bound the first quorum of answers leads on, whatever is lost or
overtaken. -/
theorem lone_proposer_settles (deployment : Deployment) (p slot bound : ℕ)
    (hmode : deployment.config.mode = .basic ∨ deployment.config.mode = .quorum)
    (hp : p < deployment.config.size) (hbound : bound < 2 ^ 64 - 2 ^ 17)
    (before actions : List Action) (start final : Cluster)
    (hbefore : deployment.run before = some start)
    (hfresh : (start.captains p).maxSlot < slot) (hnone : letters slot start.net = 0)
    (hpromised : ∀ i < deployment.config.size,
      ((start.captains i).acceptorOf slot).maxProposedBallot ≤ bound)
    (halone : deployment.machine.RunMeets (Alone deployment p slot) start actions)
    (hrun : deployment.machine.run start actions = some final) :
    Settles p slot bound deployment.config.quorumSize (deployment.machine.steps start actions)
      final := by
  have hpreserved := (histories_preserved deployment {}).moves
  have hstart : Reaches deployment (Histories deployment.config.size) start :=
    reaches_of_run hpreserved (histories_initial deployment)
      (runMeets_anything deployment before) hbefore
  have hstage : StageAfter deployment p slot bound [] start := by
    apply Stage.unopened hfresh hnone _ rfl fun _ _ => rfl
    intro i
    unfold promisedBallots
    split
    next hi => exact hpromised i hi
    next => exact Nat.zero_le bound
  have hinvariant := PartialMachine.invariant_of_steps
    (fun past cluster => Reaches deployment (Histories deployment.config.size) cluster ∧
      StageAfter deployment p slot bound past cluster)
    (fun past cluster action next halone hreached hstep => by
      have hnext := hreached.1.step hpreserved (holds_anything cluster action) hstep
      exact ⟨hnext, hreached.2.step hmode hreached.1 hnext halone hstep⟩)
    ⟨hstart, hstage⟩ halone hrun
  exact hinvariant.2.settles hmode hp hbound hinvariant.1

/-- Node 1 has asked for the slot before, and its promises are lost. -/
def competitorActions : List Action :=
  [.call 1 (.commit { id := 65537 } none), .deliver 0 [] {}, .deliver 0 [] {}, .lose 0, .lose 0]

def loneActions : List Action :=
  .call 0 (.commit { id := 65536 } none) :: List.replicate 12 (.deliver 0 [] {})

/-- The first ballot of node 0 is refused; it starts over once and then gets its
value chosen. -/
theorem lone_proposer_settles_twoNodes :
    ∃ start final, Deployment.run { config := twoNodes .basic } competitorActions = some start ∧
      (Deployment.machine { config := twoNodes .basic }).run start loneActions = some final ∧
      .note (.chose 1 { id := 65536 } { id := 65536 }) ∈ (final.nodes 0).log ∧
      ((Deployment.machine { config := twoNodes .basic }).steps start loneActions).countP
        (restarted 0 1) = 1 ∧
      Settles 0 1 65537 2
        ((Deployment.machine { config := twoNodes .basic }).steps start loneActions) final := by
  let machine := Deployment.machine { config := twoNodes .basic }
  have hboth : (Deployment.run { config := twoNodes .basic } competitorActions).bind (fun start =>
      (machine.run start loneActions).map fun final =>
        decide ((start.captains 0).maxSlot < 1 ∧ start.net = [] ∧
          (∀ i < 2, ((start.captains i).acceptorOf 1).maxProposedBallot ≤ 65537) ∧
          machine.RunMeets (Alone { config := twoNodes .basic } 0 1) start loneActions ∧
          .note (.chose 1 { id := 65536 } { id := 65536 }) ∈ (final.nodes 0).log ∧
          (machine.steps start loneActions).countP (restarted 0 1) = 1)) = some true := by
    decide
  rcases Option.bind_eq_some_iff.mp hboth with ⟨start, hstart, hrest⟩
  rcases Option.map_eq_some_iff.mp hrest with ⟨final, hfinal, hfacts⟩
  rcases of_decide_eq_true hfacts with ⟨hfresh, hnet, hpromised, halone, hchose, honce⟩
  refine ⟨start, final, hstart, hfinal, hchose, honce, ?_⟩
  exact lone_proposer_settles { config := twoNodes .basic } 0 1 65537 (.inl rfl) (by decide)
    (by norm_num) competitorActions loneActions start final hstart hfresh (by rw [hnet]; rfl)
    hpromised halone hfinal

end NDNPaxos
