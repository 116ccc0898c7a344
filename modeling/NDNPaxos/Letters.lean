import NDNPaxos.Ballots
import NDNPaxos.Forwarding
import NDNPaxos.SingleDelivery
import NDNPaxos.Library.LoneProposer
import Mathlib.Tactic

/-!
# The letters of a slot

PREPARE and ACCEPT of a slot are the requests of its proposer, PROMISE and
ACCEPTED the answers of its acceptors.  An acceptor turns a request into its
answer, and a proposer asks every node of its range once.
-/

namespace NDNPaxos

open LoneProposer (Letter request)

def promiseLetter (msg : MsgAckPrepare) : Letter ℕ where
  accepts := false
  ballot := msg.ballotId
  node := toNodeId msg.msgHeader.nodeId
  answer := some msg.reply

def acceptedLetter (msg : MsgAckAccept) : Letter ℕ where
  accepts := true
  ballot := msg.ballotId
  node := toNodeId msg.msgHeader.nodeId
  answer := some msg.reply

def Packet.letter? (slot : ℕ) (packet : Packet) : Option (Letter ℕ) :=
  match packet.msg with
  | .prepare msg =>
      if msg.msgHeader.slotId = slot then some (request false msg.ballotId packet.dst) else none
  | .promise msg => if msg.msgHeader.slotId = slot then some (promiseLetter msg) else none
  | .accept msg =>
      if msg.msgHeader.slotId = slot then some (request true msg.ballotId packet.dst) else none
  | .accepted msg => if msg.msgHeader.slotId = slot then some (acceptedLetter msg) else none
  | _ => none

theorem letter?_promise (slot : ℕ) {packet : Packet} {msg : MsgAckPrepare}
    (hmsg : packet.msg = .promise msg) : packet.letter? slot =
      if msg.msgHeader.slotId = slot then some (promiseLetter msg) else none := by
  rw [Packet.letter?, hmsg]

theorem letter?_accepted (slot : ℕ) {packet : Packet} {msg : MsgAckAccept}
    (hmsg : packet.msg = .accepted msg) : packet.letter? slot =
      if msg.msgHeader.slotId = slot then some (acceptedLetter msg) else none := by
  rw [Packet.letter?, hmsg]

def letters (slot : ℕ) (net : List Packet) : Multiset (Letter ℕ) :=
  Multiset.ofList (net.filterMap (Packet.letter? slot))

variable {slot : ℕ}

theorem letter?_slot {packet : Packet} {letter : Letter ℕ}
    (hletter : packet.letter? slot = some letter) : packet.msg.msgHeader.slotId = slot := by
  unfold Packet.letter? at hletter
  split at hletter
  all_goals first
    | (split at hletter
       next hslot =>
        rename_i hmsg
        rw [hmsg]
        exact hslot
       next => simp at hletter)
    | simp at hletter

/-- A letter is a request or an answer, in one of the two phases. -/
theorem letter?_cases {packet : Packet} {letter : Letter ℕ}
    (hletter : packet.letter? slot = some letter) :
    (letter.answer = none ∧ packet.msg.kind = .proposer) ∨
      (∃ msg, packet.msg = .promise msg ∧ msg.msgHeader.slotId = slot ∧
        letter = promiseLetter msg) ∨
      ∃ msg, packet.msg = .accepted msg ∧ msg.msgHeader.slotId = slot ∧
        letter = acceptedLetter msg := by
  unfold Packet.letter? at hletter
  split at hletter
  next msg hmsg =>
    split at hletter
    next hslot =>
      rw [Option.some.injEq] at hletter
      exact .inl ⟨hletter ▸ rfl, by rw [hmsg]; rfl⟩
    next => simp at hletter
  next msg hmsg =>
    split at hletter
    next hslot =>
      rw [Option.some.injEq] at hletter
      exact .inr (.inl ⟨msg, hmsg, hslot, hletter.symm⟩)
    next => simp at hletter
  next msg hmsg =>
    split at hletter
    next hslot =>
      rw [Option.some.injEq] at hletter
      exact .inl ⟨hletter ▸ rfl, by rw [hmsg]; rfl⟩
    next => simp at hletter
  next msg hmsg =>
    split at hletter
    next hslot =>
      rw [Option.some.injEq] at hletter
      exact .inr (.inr ⟨msg, hmsg, hslot, hletter.symm⟩)
    next => simp at hletter
  next => simp at hletter

@[simp] theorem letters_nil : letters slot (packetsOf []) = 0 := rfl

theorem letters_append (net net' : List Packet) :
    letters slot (net ++ net') = letters slot net + letters slot net' := by
  rw [letters, List.filterMap_append]
  rfl

theorem letters_of_none {net : List Packet} {index : ℕ} {packet : Packet}
    (hpacket : net[index]? = some packet) (hnone : packet.letter? slot = none) :
    letters slot (net.eraseIdx index) = letters slot net := by
  rcases List.getElem?_eq_some_iff.mp hpacket with ⟨hlt, rfl⟩
  have hperm := (List.getElem_cons_eraseIdx_perm hlt).filterMap (Packet.letter? slot)
  rw [List.filterMap_cons_none hnone] at hperm
  exact Multiset.coe_eq_coe.mpr hperm

theorem letters_of_some {net : List Packet} {index : ℕ} {packet : Packet} {letter : Letter ℕ}
    (hpacket : net[index]? = some packet) (hletter : packet.letter? slot = some letter) :
    letters slot net = letter ::ₘ letters slot (net.eraseIdx index) := by
  rcases List.getElem?_eq_some_iff.mp hpacket with ⟨hlt, rfl⟩
  have hperm := (List.getElem_cons_eraseIdx_perm hlt).filterMap (Packet.letter? slot)
  rw [List.filterMap_cons_some hletter] at hperm
  exact Multiset.coe_eq_coe.mpr hperm.symm

theorem mem_letters {net : List Packet} {letter : Letter ℕ} :
    letter ∈ letters slot net ↔ ∃ packet ∈ net, packet.letter? slot = some letter := by
  rw [letters, Multiset.mem_coe, List.mem_filterMap]

theorem letters_eq_zero {net : List Packet}
    (hnone : ∀ packet ∈ net, packet.letter? slot = none) : letters slot net = 0 := by
  rw [letters, List.filterMap_eq_nil_iff.mpr hnone]
  rfl

/-- Only outputs of acceptors and proposers are letters. -/
theorem letter?_eq_none {packet : Packet} (hproposer : packet.msg.kind ≠ .proposer)
    (hacceptor : packet.msg.kind ≠ .acceptor) : packet.letter? slot = none := by
  unfold Packet.letter?
  split
  next hmsg => simp [hmsg, Message.kind] at hproposer
  next hmsg => simp [hmsg, Message.kind] at hacceptor
  next hmsg => simp [hmsg, Message.kind] at hproposer
  next hmsg => simp [hmsg, Message.kind] at hacceptor
  next => rfl

theorem letters_of_kinds {outs : List Output} (hproposer : ∀ out ∈ outs, out.kind ≠ .proposer)
    (hacceptor : ∀ out ∈ outs, out.kind ≠ .acceptor) : letters slot (packetsOf outs) = 0 := by
  apply letters_eq_zero
  intro packet hmem
  have hsent := mem_packetsOf.mp hmem
  exact letter?_eq_none (hproposer _ hsent) (hacceptor _ hsent)

/-- One request to each destination. -/
theorem letters_requests {outs : List Output} {accepts : Bool} {ballot : ℕ}
    (hrequests : ∀ packet, .send packet ∈ outs →
      packet.letter? slot = some (request accepts ballot packet.dst)) :
    letters slot (packetsOf outs) =
      Multiset.ofList ((destinations outs).map (request accepts ballot)) := by
  rw [letters, destinations, List.map_map, ← List.filterMap_eq_map]
  apply congrArg Multiset.ofList
  apply List.filterMap_congr
  intro packet hmem
  exact hrequests packet (mem_packetsOf.mp hmem)

namespace Captain

theorem letters_prepare (captain : Captain) (nodeId slot ballotId : ℕ) :
    letters slot (packetsOf (captain.broadcastMsg (.prepare
        { msgHeader := { nodeId, slotId := slot }, ballotId }))) =
      Multiset.ofList ((destinations (captain.broadcastMsg (.prepare
        { msgHeader := { nodeId, slotId := slot }, ballotId }))).map (request false ballotId)) := by
  apply letters_requests
  intro packet hmem
  rcases mem_broadcastMsg hmem with ⟨sent, heq, hsent⟩
  rw [Output.send.injEq] at heq
  subst heq
  simp [Packet.letter?, hsent]

theorem letters_of_other {outs : List Output} {other : ℕ} (hne : other ≠ slot)
    (houts : ∀ packet, .send packet ∈ outs → packet.msg.msgHeader.slotId = other) :
    letters slot (packetsOf outs) = 0 := by
  apply letters_eq_zero
  intro packet hmem
  rw [Option.eq_none_iff_forall_ne_some]
  intro letter hletter
  exact hne ((houts packet (mem_packetsOf.mp hmem)).symm.trans (letter?_slot hletter))

theorem packetsOf_answer (captain : Captain) (nodeId : ℕ) (msg : Message) :
    ∃ route dst, packetsOf (captain.answer nodeId msg) = [{ route, dst, msg }] := by
  unfold answer sendData
  split <;> exact ⟨_, _, rfl⟩

/-! ## An acceptor answers -/

/-- What an acceptor's move does to the letters of a slot and to its promise. -/
inductive AnswerStep (slot : ℕ) (captain : Captain) (packet : Packet) (outs : List Output)
    (final : Captain) : Prop where
  | other (hletter : packet.letter? slot = none) (hletters : letters slot (packetsOf outs) = 0)
      (hpromised : (final.acceptorOf slot).maxProposedBallot =
        (captain.acceptorOf slot).maxProposedBallot)
  | answers {letter : Letter ℕ} {reply : Bool} (hletter : packet.letter? slot = some letter)
      (hrequest : letter.answer = none) (hnode : letter.node = packet.dst)
      (hreply : reply = letter.granted (captain.acceptorOf slot).maxProposedBallot)
      (hletters : letters slot (packetsOf outs) = {{ letter with answer := some reply }})
      (hpromised : (final.acceptorOf slot).maxProposedBallot =
        if reply then letter.ballot else (captain.acceptorOf slot).maxProposedBallot)

theorem handleMsgPrepare_promised (acceptor : Acceptor) (view : View) (msg : MsgPrepare)
    (dst : ℕ) {reply : Bool} (hreply : (acceptor.handleMsgPrepare view msg).1.reply = reply) :
    reply = (request false msg.ballotId dst).granted acceptor.maxProposedBallot ∧
      (acceptor.handleMsgPrepare view msg).2.maxProposedBallot =
        if reply then msg.ballotId else acceptor.maxProposedBallot := by
  subst hreply
  unfold Acceptor.handleMsgPrepare
  by_cases hlt : acceptor.maxProposedBallot < msg.ballotId <;> simp [Letter.granted, request, hlt]

theorem handleMsgAccept_promised (acceptor : Acceptor) (view : View) (msg : MsgAccept)
    (dst : ℕ) {reply : Bool} (hreply : (acceptor.handleMsgAccept view msg).1.reply = reply) :
    reply = (request true msg.ballotId dst).granted acceptor.maxProposedBallot ∧
      (acceptor.handleMsgAccept view msg).2.maxProposedBallot =
        if reply then msg.ballotId else acceptor.maxProposedBallot := by
  subst hreply
  unfold Acceptor.handleMsgAccept
  by_cases hle : acceptor.maxProposedBallot ≤ msg.ballotId <;> simp [Letter.granted, request, hle]

theorem AcceptorMove.answerStep {setting : Setting} {captain final : Captain} {packet : Packet}
    {outs : List Output} (hreceived : ∀ msg, setting.received msg → msg = packet.msg)
    (hwhoami : captain.whoami = packet.dst) (hnode : packet.dst < 2 ^ 16)
    (hmove : AcceptorMove setting captain outs final) :
    AnswerStep slot captain packet outs final := by
  have hnodeId : toNodeId captain.view.whoami = packet.dst := by
    rw [show captain.view.whoami = packet.dst from hwhoami, toNodeId_of_lt hnode]
  cases hmove with
  | @prepare msg acceptors hmsg hupdate =>
      have hpacket : packet.msg = .prepare msg := (hreceived _ hmsg).symm
      have hpromised := hupdate slot
      rcases packetsOf_answer captain msg.msgHeader.nodeId
        (.promise (captain.prepareAnswer msg)) with ⟨route, dst, houts⟩
      by_cases hslot : msg.msgHeader.slotId = slot
      · subst hslot
        rw [if_pos rfl] at hpromised
        rcases handleMsgPrepare_promised (captain.acceptorOf msg.msgHeader.slotId) captain.view msg
          packet.dst rfl with ⟨hreply, hafter⟩
        have hletter : packet.letter? msg.msgHeader.slotId =
            some (request false msg.ballotId packet.dst) := by
          simp [Packet.letter?, hpacket]
        refine .answers hletter rfl rfl hreply ?_ (hpromised ▸ hafter)
        rw [houts]
        simp [letters, Packet.letter?, promiseLetter, prepareAnswer, request, hnodeId]
      · rw [if_neg (Ne.symm hslot)] at hpromised
        refine .other (by simp [Packet.letter?, hpacket, hslot]) ?_ (by rw [hpromised])
        rw [houts]
        simp [letters, Packet.letter?, prepareAnswer, hslot]
  | @accept msg acceptors hmsg hupdate =>
      have hpacket : packet.msg = .accept msg := (hreceived _ hmsg).symm
      have hpromised := hupdate slot
      rcases packetsOf_answer captain msg.msgHeader.nodeId
        (.accepted (captain.acceptAnswer msg)) with ⟨route, dst, hanswer⟩
      have houts : packetsOf ((if (captain.acceptAnswer msg).reply then
          [.note (.accepted msg.msgHeader.slotId msg.ballotId msg.propValue)] else []) ++
            captain.answer msg.msgHeader.nodeId (.accepted (captain.acceptAnswer msg))) =
          [{ route, dst, msg := .accepted (captain.acceptAnswer msg) }] := by
        rw [packetsOf_append, hanswer]
        split <;> rfl
      by_cases hslot : msg.msgHeader.slotId = slot
      · subst hslot
        rw [if_pos rfl] at hpromised
        rcases handleMsgAccept_promised (captain.acceptorOf msg.msgHeader.slotId) captain.view msg
          packet.dst rfl with ⟨hreply, hafter⟩
        have hletter : packet.letter? msg.msgHeader.slotId =
            some (request true msg.ballotId packet.dst) := by
          simp [Packet.letter?, hpacket]
        refine .answers hletter rfl rfl hreply ?_ (hpromised ▸ hafter)
        rw [houts]
        simp [letters, Packet.letter?, acceptedLetter, acceptAnswer, request, hnodeId]
      · rw [if_neg (Ne.symm hslot)] at hpromised
        refine .other (by simp [Packet.letter?, hpacket, hslot]) ?_ (by rw [hpromised])
        rw [houts]
        simp [letters, Packet.letter?, acceptAnswer, hslot]

end Captain

end NDNPaxos
