import NDNPaxos.ChosenLog
import NDNPaxos.WaitingQueue
import NDNPaxos.Agreement
import NDNPaxos.ValuePlaces
import NDNPaxos.InformedClients
import NDNPaxos.Learning
import NDNPaxos.Forwarding
import NDNPaxos.Handshake
import NDNPaxos.Ballots
import NDNPaxos.AcceptorAnswers
import NDNPaxos.ValueSelection
import NDNPaxos.ReadQuorum
import NDNPaxos.AcceptShards
import NDNPaxos.MasterView
import NDNPaxos.LearnerShards
import NDNPaxos.Commo
import NDNPaxos.CodecBounds
import NDNPaxos.RemoteInput
import NDNPaxos.Letters
import NDNPaxos.Restarts
import NDNPaxos.NdnName
import NDNPaxos.CommitInterests
import NDNPaxos.Bookkeeping
import NDNPaxos.Library.Accumulator
import NDNPaxos.CodecMemory
import NDNPaxos.ShardAgreement
import NDNPaxos.DatabaseAtRest
import NDNPaxos.CommitOrder
import NDNPaxos.Traffic
import NDNPaxos.MessageBudget
import NDNPaxos.Convergence
