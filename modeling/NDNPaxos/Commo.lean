import NDNPaxos.Captain
import Mathlib.Tactic.IntervalCases

/-!
# Received strings

`Commo::deal_msg` hands a received string to the captain: its last character
is the message type, the rest is parsed by protobuf.  `ParseFromString` is a
parameter, one function for each type of message; the handler never looks at
its result, so a string that does not parse is handled with whatever fields
were set and with the defaults of the others.
-/

namespace NDNPaxos

namespace Protobuf

end Protobuf

end NDNPaxos
