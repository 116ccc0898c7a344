import Mathlib.Tactic

/-!
# Values and messages

The records of `ndnpaxos.proto` and the enumerations of `internal_types.hpp`.
A message's type is its constructor, so the `msg_type` field of the header is
not repeated; the optional fields that no handler reads (`integrity`,
`last_slot`, `last_value`) are left out.

`node_id_t`, `slot_id_t`, `ballot_id_t` and `value_id_t` are natural numbers
here.  A 64-bit ballot wraps around only after `2 ^ 48` restarts of one
proposer.  Where the source converts to the 16 bits of `node_id_t`, or lets an
`int` count slots, the conversion or the bound is part of the definition.
-/

namespace NDNPaxos

abbrev Bytes := List UInt8

/-- An `ndn::Name` as its list of components. -/
abbrev Name := List Bytes

def bytesOf (text : String) : Bytes := text.toUTF8.data.toList

/-- The conversion of a wider integer to the 16-bit `node_id_t`. -/
def toNodeId (value : ℕ) : ℕ := value % 2 ^ 16

theorem toNodeId_of_lt {value : ℕ} (h : value < 2 ^ 16) : toNodeId value = value :=
  Nat.mod_eq_of_lt h

inductive CmdType where
  | setMaster
  | replyDecide
  | replyTeach
deriving DecidableEq, Repr

/-- A field that was never set reads as its protobuf default. -/
structure PropValue where
  id : ℕ := 0
  data : Bytes := []
  cmdType : Option CmdType := none
deriving DecidableEq, Repr

structure MsgHeader where
  nodeId : ℕ
  slotId : ℕ
deriving DecidableEq, Repr

structure MsgPrepare where
  msgHeader : MsgHeader
  ballotId : ℕ
deriving DecidableEq, Repr

structure MsgAckPrepare where
  msgHeader : MsgHeader
  ballotId : ℕ
  reply : Bool
  maxBallotId : ℕ
  maxPropValue : Option PropValue
deriving DecidableEq, Repr

structure MsgAccept where
  msgHeader : MsgHeader
  ballotId : ℕ
  propValue : PropValue
deriving DecidableEq, Repr

structure MsgAckAccept where
  msgHeader : MsgHeader
  ballotId : ℕ
  reply : Bool
deriving DecidableEq, Repr

structure MsgDecide where
  msgHeader : MsgHeader
  valueId : ℕ
deriving DecidableEq, Repr

structure MsgLearn where
  msgHeader : MsgHeader
deriving DecidableEq, Repr

structure MsgTeach where
  msgHeader : MsgHeader
  propValue : PropValue
deriving DecidableEq, Repr

structure MsgCommit where
  msgHeader : MsgHeader
  propValue : PropValue
deriving DecidableEq, Repr

structure MsgCommand where
  msgHeader : MsgHeader
  cmdType : CmdType
deriving DecidableEq, Repr

/-- A protobuf message together with its `MsgType`. -/
inductive Message where
  | prepare (msg : MsgPrepare)
  | promise (msg : MsgAckPrepare)
  | accept (msg : MsgAccept)
  | accepted (msg : MsgAckAccept)
  | decide (msg : MsgDecide)
  | learn (msg : MsgLearn)
  | teach (msg : MsgTeach)
  | commit (msg : MsgCommit)
  | command (msg : MsgCommand)
deriving DecidableEq, Repr

def Message.msgHeader : Message → MsgHeader
  | .prepare msg => msg.msgHeader
  | .promise msg => msg.msgHeader
  | .accept msg => msg.msgHeader
  | .accepted msg => msg.msgHeader
  | .decide msg => msg.msgHeader
  | .learn msg => msg.msgHeader
  | .teach msg => msg.msgHeader
  | .commit msg => msg.msgHeader
  | .command msg => msg.msgHeader

/-- What a proposer reports to its captain about an acknowledgement. -/
inductive AckType where
  | drop
  | notEnough
  | continuePhase
  | restart
  | choose
deriving DecidableEq, Repr

inductive ProposerStatus where
  | init
  | phaseI
  | phaseII
  | chosen
  | done
  | die
  | empty
deriving DecidableEq, Repr

end NDNPaxos
