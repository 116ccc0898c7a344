import NDNPaxos.MoveFrames
import Mathlib.Tactic

/-!
# Runs of a single node

A node on its own, which is called by its application and handles whatever
messages arrive, in any order and from anybody.  Properties of the waiting
queues hold for every such run, so they are stated here and not for a cluster.
-/

namespace NDNPaxos

inductive NodeAction where
  | call (call : Call)
  | handle (msg : Message) (dataName : Name) (app : AppCalls)
deriving DecidableEq, Repr

def Node.step (node : Node) : NodeAction → Option Node
  | .call call => (node.captain.call call).map node.after
  | .handle msg dataName app => (node.captain.handleMsg msg dataName app).map node.after

def Node.machine : PartialMachine Node NodeAction := { step := Node.step }

def NodeAction.calls : NodeAction → List Call
  | .call made => [made]
  | .handle _ _ app => app.latency ++ app.apply

def Deployment.runNode (deployment : Deployment) (i : ℕ) (actions : List NodeAction) :
    Option Node :=
  Node.machine.run (deployment.node i) actions

/-! ## Conditions on the steps of a run -/

/-- Which calls the application makes, and which proposers may retire when a
message arrives under the given name. -/
structure StepCondition where
  calls : Call → Prop := fun _ => True
  retires : Name → ProposerInfo → Prop := fun _ _ => True

namespace StepCondition

variable (condition : StepCondition)

/-- The condition on handling a message that arrives under a name. -/
def OnMessage (captain : Captain) (msg : Message) (dataName : Name) (app : AppCalls) : Prop :=
  (∀ call ∈ app.latency ++ app.apply, condition.calls call) ∧
    ∀ slot info, captain.chooses msg = some (slot, info) → condition.retires dataName info

def OnNode (node : Node) : NodeAction → Prop
  | .call call => condition.calls call
  | .handle msg dataName app => condition.OnMessage node.captain msg dataName app

/-- The weakest setting of a move under the condition. -/
def setting (received : Message → Prop) (dataName : Name) : Captain.Setting where
  received := received
  calls := condition.calls
  retires := fun _ info => condition.retires dataName info
  dataName := dataName

/-- The setting allows only calls and retirements that meet the condition. -/
structure Covers (setting : Captain.Setting) : Prop where
  calls : ∀ call, setting.calls call → condition.calls call
  retires : ∀ slot info, setting.retires slot info → condition.retires setting.dataName info

theorem covers_setting (received : Message → Prop) (dataName : Name) :
    condition.Covers (condition.setting received dataName) where
  calls := fun _ hcall => hcall
  retires := fun _ _ hretires => hretires

end StepCondition

/-- Every move under the condition preserves the property of a captain and
its log, whatever messages arrive. -/
def PreservedAtNode (condition : StepCondition)
    (invariant : Captain → List Output → Prop) : Prop :=
  ∀ captain log setting outs final, captain.WellKept → condition.Covers setting →
    invariant captain log → Captain.Move setting captain outs final →
      invariant final (log ++ outs)

theorem Deployment.node_wellKept (deployment : Deployment) (i : ℕ) :
    (deployment.node i).captain.WellKept := by
  refine ⟨⟨rfl, le_rfl⟩, ?_⟩
  intro slot info hinfo
  simp [Deployment.node, Captain.new] at hinfo

section RunRule

variable {condition : StepCondition} {invariant : Captain → List Output → Prop}

theorem Captain.Move.wellKept {setting : Captain.Setting} {captain final : Captain}
    {outs : List Output} (hkept : captain.WellKept)
    (hmove : Captain.Move setting captain outs final) : final.WellKept :=
  hmove.slotMoves.preserves Captain.WellKept (fun _ _ _ hkept hslot => hslot.wellKept hkept) hkept

theorem Captain.Move.sameNode {setting : Captain.Setting} {captain final : Captain}
    {outs : List Output} (hkept : captain.WellKept)
    (hmove : Captain.Move setting captain outs final) : Captain.SameNode captain final := by
  refine (hmove.slotMoves.preserves
    (fun next => next.WellKept ∧ Captain.SameNode captain next) ?_ ⟨hkept, rfl, rfl, rfl⟩).2
  rintro next outs final ⟨hkept, hsame⟩ hslot
  have hstep := hslot.sameNode hkept.shape
  exact ⟨hslot.wellKept hkept, hstep.config.trans hsame.config, hstep.nodeId.trans hsame.nodeId,
    hstep.windowSize.trans hsame.windowSize⟩

theorem PreservedAtNode.chain (hpreserved : PreservedAtNode condition invariant)
    {received : Message → Prop} {dataName : Name} {captain final : Captain}
    {log outs : List Output} (hkept : captain.WellKept) (hinvariant : invariant captain log)
    (hchain : OutputChain (Captain.Move (condition.setting received dataName))
      captain outs final) :
    final.WellKept ∧ invariant final (log ++ outs) := by
  refine hchain.invariant (fun captain log => captain.WellKept ∧ invariant captain log) ?_
    ⟨hkept, hinvariant⟩
  rintro captain log outs final ⟨hkept, hinvariant⟩ hmove
  exact ⟨hmove.wellKept hkept,
    hpreserved captain log _ outs final hkept (condition.covers_setting received dataName)
      hinvariant hmove⟩

theorem Node.step_preserves (hpreserved : PreservedAtNode condition invariant)
    {node next : Node} {action : NodeAction} (hholds : condition.OnNode node action)
    (hkept : node.captain.WellKept) (hinvariant : invariant node.captain node.log)
    (hstep : node.step action = some next) :
    next.captain.WellKept ∧ invariant next.captain next.log := by
  cases action with
  | call call =>
      simp only [Node.step, Option.map_eq_some_iff, Prod.exists] at hstep
      obtain ⟨final, outs, hcall, rfl⟩ := hstep
      have hchain : OutputChain
          (Captain.Move (condition.setting (fun _ => True) [])) _ outs final :=
        Captain.call_moves hholds hcall
      exact hpreserved.chain hkept hinvariant hchain
  | handle msg dataName app =>
      simp only [Node.step, Option.map_eq_some_iff, Prod.exists] at hstep
      obtain ⟨final, outs, hhandle, rfl⟩ := hstep
      have hchain : OutputChain
          (Captain.Move (condition.setting (fun _ => True) dataName)) _ outs final :=
        Captain.handleMsg_moves hkept trivial hholds.2 hholds.1 hhandle
      exact hpreserved.chain hkept hinvariant hchain

/-- An invariant of all moves holds at the end of every run of a node. -/
theorem Deployment.invariant_of_runNode (hpreserved : PreservedAtNode condition invariant)
    {deployment : Deployment} {i : ℕ}
    (hinitial : invariant (deployment.node i).captain []) {actions : List NodeAction}
    {final : Node}
    (hmeets : Node.machine.RunMeets condition.OnNode (deployment.node i) actions)
    (hrun : deployment.runNode i actions = some final) :
    invariant final.captain final.log := by
  have hstart : (deployment.node i).captain.WellKept ∧
      invariant (deployment.node i).captain (deployment.node i).log :=
    ⟨deployment.node_wellKept i, hinitial⟩
  refine (PartialMachine.invariant_of_runMeets
    (fun node : Node => node.captain.WellKept ∧ invariant node.captain node.log)
    ?_ hstart hmeets hrun).2
  rintro node action next hholds ⟨hkept, hinvariant⟩ hstep
  exact Node.step_preserves hpreserved hholds hkept hinvariant hstep

end RunRule

end NDNPaxos
