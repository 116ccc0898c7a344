import NDNPaxos.Captain
import NDNPaxos.Library.PartialMachine
import Mathlib.Logic.Function.Basic

/-!
# A cluster and its runs

The nodes of a cluster, each a captain with the log of its outputs so far, and
the packets in flight.  A run interleaves calls of the application with
deliveries of packets in any order; packets may also be lost or duplicated.
A packet stays a packet when a node sends it to itself, so the runs contain
those in which it is handled at once, as `Commo` does in a larger cluster,
and those in which it waits, as in the pool of a one-node cluster.
-/

namespace NDNPaxos

structure Node where
  captain : Captain
  log : List Output := []

def Node.after (node : Node) (result : Captain × List Output) : Node :=
  { captain := result.1, log := node.log ++ result.2 }

structure Deployment where
  config : Config
  windowSize : ℕ → ℕ := fun _ => 1
  callback : ℕ → Bool := fun _ => false
  callbackFull : ℕ → Bool := fun _ => false
  callbackLatency : ℕ → Bool := fun _ => false

def Deployment.node (deployment : Deployment) (i : ℕ) : Node :=
  { captain := { Captain.new deployment.config i (deployment.windowSize i) with
      callback := deployment.callback i
      callbackFull := deployment.callbackFull i
      callbackLatency := deployment.callbackLatency i } }

structure Cluster where
  nodes : ℕ → Node
  net : List Packet

inductive Action where
  | call (node : ℕ) (call : Call)
  /-- The packet at this place of the network is handled.  It arrives under
  the given NDN name, and the callbacks it triggers make the given calls. -/
  | deliver (index : ℕ) (dataName : Name) (app : AppCalls)
  | lose (index : ℕ)
  | duplicate (index : ℕ)
deriving DecidableEq, Repr

/-- Deliveries one after the other, under one name and with callbacks that call nothing. -/
def deliveries (dataName : Name) (indices : List ℕ) : List Action :=
  indices.map fun index => .deliver index dataName {}

def Output.packet? : Output → Option Packet
  | .send packet => some packet
  | .note _ => none

def packetsOf (outs : List Output) : List Packet := outs.filterMap Output.packet?

namespace Cluster

/-- Node `i` moves to the given result; its packets join the given network. -/
def act (cluster : Cluster) (i : ℕ) (net : List Packet)
    (result : Captain × List Output) : Cluster :=
  { nodes := Function.update cluster.nodes i ((cluster.nodes i).after result)
    net := net ++ packetsOf result.2 }

/-- A direct call of `handle_msg` has the default name, `dumName_`. -/
def arrivalName (captain : Captain) (packet : Packet) (dataName : Name) : Name :=
  if packet.route = .self then captain.dumName else dataName

def step (deployment : Deployment) (cluster : Cluster) : Action → Option Cluster
  | .call i call =>
      if i < deployment.config.size then do
        let result ← (cluster.nodes i).captain.call call
        return cluster.act i cluster.net result
      else none
  | .deliver index dataName app => do
      let packet ← cluster.net[index]?
      if packet.dst < deployment.config.size then
        let captain := (cluster.nodes packet.dst).captain
        let result ← captain.handleMsg packet.msg (arrivalName captain packet dataName) app
        return cluster.act packet.dst (cluster.net.eraseIdx index) result
      else none
  | .lose index =>
      if index < cluster.net.length then
        some { cluster with net := cluster.net.eraseIdx index }
      else none
  | .duplicate index => do
      let packet ← cluster.net[index]?
      return { cluster with net := cluster.net ++ [packet] }

/-- What `Commo` does in a cluster of several nodes: an own message is handled
before anything else, and the node that starts as the master has a filter for
commits only, so that no Interest under its own name arrives there. -/
def ByCommo (deployment : Deployment) (cluster : Cluster) : Action → Prop
  | .deliver index _ _ => ∀ packet ∈ cluster.net[index]?,
      packet.route = .self ∨
        (∀ other ∈ cluster.net, other.route ≠ .self) ∧
          (packet.route = .interest → packet.dst ≠ deployment.config.masterId)
  | _ => ∀ other ∈ cluster.net, other.route ≠ .self

instance decidableByCommo (deployment : Deployment) (cluster : Cluster) (action : Action) :
    Decidable (ByCommo deployment cluster action) :=
  Action.casesOn (motive := fun action => Decidable (ByCommo deployment cluster action)) action
    (fun _ _ => inferInstanceAs (Decidable (∀ other ∈ cluster.net, _)))
    (fun index _ _ => inferInstanceAs (Decidable (∀ packet ∈ cluster.net[index]?, _)))
    (fun _ => inferInstanceAs (Decidable (∀ other ∈ cluster.net, _)))
    (fun _ => inferInstanceAs (Decidable (∀ other ∈ cluster.net, _)))

/-! ## Branches of a step -/

variable {deployment : Deployment} {cluster next : Cluster}

theorem step_call {i : ℕ} {call : Call}
    (hstep : cluster.step deployment (.call i call) = some next) :
    i < deployment.config.size ∧ ∃ final outs,
      (cluster.nodes i).captain.call call = some (final, outs) ∧
        cluster.act i cluster.net (final, outs) = next := by
  simp only [step] at hstep
  split at hstep
  next hi =>
    simp only [Option.bind_eq_bind, Option.bind_eq_some_iff, pure, Option.some.injEq,
      Prod.exists] at hstep
    exact ⟨hi, hstep⟩
  next => simp at hstep

theorem step_deliver {index : ℕ} {dataName : Name} {app : AppCalls}
    (hstep : cluster.step deployment (.deliver index dataName app) = some next) :
    ∃ packet, cluster.net[index]? = some packet ∧ packet.dst < deployment.config.size ∧
      ∃ final outs, (cluster.nodes packet.dst).captain.handleMsg packet.msg
          (arrivalName (cluster.nodes packet.dst).captain packet dataName) app =
            some (final, outs) ∧
        cluster.act packet.dst (cluster.net.eraseIdx index) (final, outs) = next := by
  simp only [step, Option.bind_eq_bind, Option.bind_eq_some_iff] at hstep
  rcases hstep with ⟨packet, hpacket, hstep⟩
  split at hstep
  next hi =>
    simp only [Option.bind_eq_some_iff, pure, Option.some.injEq, Prod.exists] at hstep
    exact ⟨packet, hpacket, hi, hstep⟩
  next => simp at hstep

theorem step_lose {index : ℕ} (hstep : cluster.step deployment (.lose index) = some next) :
    index < cluster.net.length ∧ { cluster with net := cluster.net.eraseIdx index } = next := by
  simp only [step] at hstep
  split at hstep
  next hlt => exact ⟨hlt, Option.some.inj hstep⟩
  next => simp at hstep

theorem step_duplicate {index : ℕ}
    (hstep : cluster.step deployment (.duplicate index) = some next) :
    ∃ packet, cluster.net[index]? = some packet ∧
      { cluster with net := cluster.net ++ [packet] } = next := by
  simpa only [step, Option.bind_eq_bind, Option.bind_eq_some_iff, pure,
    Option.some.injEq] using hstep

end Cluster

namespace Deployment

def machine (deployment : Deployment) : PartialMachine Cluster Action :=
  { step := Cluster.step deployment }

def initial (deployment : Deployment) : Cluster :=
  { nodes := deployment.node, net := [] }

def run (deployment : Deployment) (actions : List Action) : Option Cluster :=
  deployment.machine.run deployment.initial actions

/-- The runs that `Commo` lets happen.  Results are about all runs; where one fails,
it fails in a run of this kind. -/
def RunByCommo (deployment : Deployment) (actions : List Action) : Prop :=
  deployment.machine.RunMeets (Cluster.ByCommo deployment) deployment.initial actions

instance decidableRunByCommo (deployment : Deployment) (actions : List Action) :
    Decidable (deployment.RunByCommo actions) :=
  deployment.machine.decidableRunMeets (Cluster.ByCommo deployment) deployment.initial actions

end Deployment

end NDNPaxos
