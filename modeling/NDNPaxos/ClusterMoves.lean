import NDNPaxos.NodeMoves
import Mathlib.Tactic

/-!
# Runs as moves of single nodes

A packet in flight was put out by some node, so the messages a node can handle
are among those that the logs show as sent to it.  A property of all nodes and
their logs therefore holds in every run as soon as every move of one node
preserves it, whatever has been sent to that node.
-/

namespace NDNPaxos

def Sends (log : List Output) (dst : ℕ) (msg : Message) : Prop :=
  ∃ packet, .send packet ∈ log ∧ packet.dst = dst ∧ packet.msg = msg

theorem sends_append {log outs : List Output} {dst : ℕ} {msg : Message} :
    Sends (log ++ outs) dst msg ↔ Sends log dst msg ∨ Sends outs dst msg := by
  simp only [Sends, List.mem_append, or_and_right, exists_or]

theorem not_sends_of_kind {outs : List Output} {dst : ℕ} {msg : Message}
    (hkinds : ∀ out ∈ outs, out.kind ≠ msg.kind) : ¬ Sends outs dst msg := by
  rintro ⟨packet, hmem, _, rfl⟩
  exact hkinds _ hmem rfl

def Received (size : ℕ) (nodes : ℕ → Node) (i : ℕ) (msg : Message) : Prop :=
  ∃ j < size, Sends (nodes j).log i msg

def actOn (nodes : ℕ → Node) (i : ℕ) (result : Captain × List Output) : ℕ → Node :=
  Function.update nodes i ((nodes i).after result)

@[simp] theorem actOn_self (nodes : ℕ → Node) (i : ℕ) (result : Captain × List Output) :
    actOn nodes i result i = (nodes i).after result := by
  simp [actOn]

theorem actOn_ne (nodes : ℕ → Node) {i j : ℕ} (hne : j ≠ i)
    (result : Captain × List Output) : actOn nodes i result j = nodes j := by
  simp [actOn, hne]

theorem mem_log_actOn {nodes : ℕ → Node} {i j : ℕ} {final : Captain} {outs : List Output}
    {out : Output} :
    out ∈ (actOn nodes i (final, outs) j).log ↔
      out ∈ (nodes j).log ∨ j = i ∧ out ∈ outs := by
  by_cases heq : j = i
  · subst heq
    simp [Node.after]
  · simp [actOn_ne nodes heq, heq]

theorem Received.actOn {size : ℕ} {nodes : ℕ → Node} {i j : ℕ} {msg : Message}
    (hreceived : Received size nodes i msg) (result : Captain × List Output) :
    Received size (actOn nodes j result) i msg := by
  obtain ⟨k, hk, packet, hmem, hdst, hmsg⟩ := hreceived
  exact ⟨k, hk, packet, mem_log_actOn.mpr (.inl hmem), hdst, hmsg⟩

namespace Deployment

/-- What every node keeps in every run. -/
structure Keeps (deployment : Deployment) (nodes : ℕ → Node) : Prop where
  wellKept : ∀ i < deployment.config.size, (nodes i).captain.WellKept
  config : ∀ i < deployment.config.size, (nodes i).captain.view.config = deployment.config
  nodeId : ∀ i < deployment.config.size, (nodes i).captain.view.nodeId = i
  windowSize : ∀ i < deployment.config.size,
    (nodes i).captain.windowSize = deployment.windowSize i

theorem keeps_initial (deployment : Deployment) : deployment.Keeps deployment.node where
  wellKept := fun i _ => deployment.node_wellKept i
  config := fun _ _ => rfl
  nodeId := by
    intro i hi
    exact if_neg (by omega)
  windowSize := fun _ _ => rfl

theorem Keeps.whoami {deployment : Deployment} {nodes : ℕ → Node}
    (hkeeps : deployment.Keeps nodes) {i : ℕ} (hi : i < deployment.config.size) :
    (nodes i).captain.whoami = i := hkeeps.nodeId i hi

theorem Keeps.whoami_lt {deployment : Deployment} {nodes : ℕ → Node}
    (hkeeps : deployment.Keeps nodes) {i : ℕ} (hi : i < deployment.config.size) :
    (nodes i).captain.whoami < 2 ^ 16 := by
  have hsize := deployment.config.size_le
  rw [hkeeps.whoami hi]
  omega

theorem Keeps.mode {deployment : Deployment} {nodes : ℕ → Node}
    (hkeeps : deployment.Keeps nodes) {i : ℕ} (hi : i < deployment.config.size) :
    (nodes i).captain.mode = deployment.config.mode := by
  rw [Captain.mode, View.mode, hkeeps.config i hi]

theorem Keeps.slotMove {deployment : Deployment} {nodes : ℕ → Node} {i : ℕ}
    {setting : Captain.Setting} {outs : List Output} {final : Captain}
    (hkeeps : deployment.Keeps nodes) (hi : i < deployment.config.size)
    (hmove : Captain.SlotMove setting (nodes i).captain outs final) :
    deployment.Keeps (actOn nodes i (final, outs)) := by
  have hkept := hkeeps.wellKept i hi
  have hsame := hmove.sameNode hkept.shape
  refine ⟨?_, ?_, ?_, ?_⟩ <;> intro j hj <;> by_cases heq : j = i
  · subst heq
    simpa [Node.after] using hmove.wellKept hkept
  · simpa [actOn_ne nodes heq] using hkeeps.wellKept j hj
  · subst heq
    simpa [Node.after] using hsame.config.trans (hkeeps.config j hj)
  · simpa [actOn_ne nodes heq] using hkeeps.config j hj
  · subst heq
    simpa [Node.after] using hsame.nodeId.trans (hkeeps.nodeId j hj)
  · simpa [actOn_ne nodes heq] using hkeeps.nodeId j hj
  · subst heq
    simpa [Node.after] using hsame.windowSize.trans (hkeeps.windowSize j hj)
  · simpa [actOn_ne nodes heq] using hkeeps.windowSize j hj

end Deployment

/-! ## Conditions on the steps of a run -/

/-- The moves of node `i` that the condition and the messages sent so far allow. -/
structure StepCondition.Allows (condition : StepCondition) (size : ℕ) (nodes : ℕ → Node)
    (i : ℕ) (setting : Captain.Setting) : Prop extends condition.Covers setting where
  received : ∀ msg, setting.received msg → Received size nodes i msg

theorem StepCondition.Allows.actOn {condition : StepCondition} {size : ℕ}
    {nodes : ℕ → Node} {i : ℕ} {setting : Captain.Setting}
    (hallows : condition.Allows size nodes i setting) (result : Captain × List Output) :
    condition.Allows size (actOn nodes i result) i setting where
  received := fun msg hreceived => (hallows.received msg hreceived).actOn result
  calls := hallows.calls
  retires := hallows.retires

def StepCondition.Holds (condition : StepCondition) (cluster : Cluster) : Action → Prop
  | .call _ call => condition.calls call
  | .deliver index dataName app =>
      ∀ packet, cluster.net[index]? = some packet →
        condition.OnMessage (cluster.nodes packet.dst).captain packet.msg
          (Cluster.arrivalName (cluster.nodes packet.dst).captain packet dataName) app
  | .lose _ => True
  | .duplicate _ => True

instance decidableOnMessage (condition : StepCondition) [DecidablePred condition.calls]
    [∀ dataName, DecidablePred (condition.retires dataName)] (captain : Captain)
    (msg : Message) (dataName : Name) (app : AppCalls) :
    Decidable (condition.OnMessage captain msg dataName app) :=
  decidable_of_iff ((∀ call ∈ app.latency ++ app.apply, condition.calls call) ∧
    ∀ entry ∈ captain.chooses msg, condition.retires dataName entry.2)
    (and_congr_right fun _ => Prod.forall)

instance decidableHolds (condition : StepCondition) [DecidablePred condition.calls]
    [∀ dataName, DecidablePred (condition.retires dataName)] (cluster : Cluster)
    (action : Action) : Decidable (condition.Holds cluster action) :=
  Action.casesOn (motive := fun action => Decidable (condition.Holds cluster action))
    action (fun _ call => inferInstanceAs (Decidable (condition.calls call)))
    (fun index dataName app =>
      inferInstanceAs (Decidable (∀ packet ∈ cluster.net[index]?, condition.OnMessage
        (cluster.nodes packet.dst).captain packet.msg
        (Cluster.arrivalName (cluster.nodes packet.dst).captain packet dataName) app)))
    (fun _ => inferInstanceAs (Decidable True)) (fun _ => inferInstanceAs (Decidable True))

/-! ## The run rule -/

def Action.calls : Action → List Call
  | .call _ made => [made]
  | .deliver _ _ app => app.latency ++ app.apply
  | .lose _ => []
  | .duplicate _ => []

def Cluster.SentBy (size : ℕ) (cluster : Cluster) : Prop :=
  ∀ packet ∈ cluster.net, ∃ i < size, .send packet ∈ (cluster.nodes i).log

theorem mem_packetsOf {outs : List Output} {packet : Packet} :
    packet ∈ packetsOf outs ↔ .send packet ∈ outs := by
  rw [packetsOf, List.mem_filterMap]
  constructor
  · rintro ⟨out, hmem, hpacket⟩
    cases out with
    | send sent =>
        rw [Output.packet?, Option.some.injEq] at hpacket
        exact hpacket ▸ hmem
    | note event => simp [Output.packet?] at hpacket
  · intro hmem
    exact ⟨.send packet, hmem, rfl⟩

theorem Cluster.SentBy.act {size : ℕ} {cluster : Cluster} (hsent : cluster.SentBy size)
    {i : ℕ} (hi : i < size) {net : List Packet} (hnet : ∀ packet ∈ net, packet ∈ cluster.net)
    (result : Captain × List Output) : (cluster.act i net result).SentBy size := by
  intro packet hmem
  rcases List.mem_append.mp hmem with hold | hnew
  · obtain ⟨j, hj, hlog⟩ := hsent packet (hnet packet hold)
    exact ⟨j, hj, mem_log_actOn.mpr (.inl hlog)⟩
  · exact ⟨i, hi, mem_log_actOn.mpr (.inr ⟨rfl, mem_packetsOf.mp hnew⟩)⟩

section RunRule

variable {deployment : Deployment} {condition : StepCondition}
  {invariant : (ℕ → Node) → Prop}

/-- Every move that the condition allows preserves the property. -/
def PreservedByMoves (deployment : Deployment) (condition : StepCondition)
    (invariant : (ℕ → Node) → Prop) : Prop :=
  ∀ nodes i setting outs final, i < deployment.config.size → deployment.Keeps nodes →
    condition.Allows deployment.config.size nodes i setting → invariant nodes →
    Captain.Move setting (nodes i).captain outs final → invariant (actOn nodes i (final, outs))

def PreservedBySlotMoves (deployment : Deployment) (condition : StepCondition)
    (invariant : (ℕ → Node) → Prop) : Prop :=
  ∀ nodes i setting outs final, i < deployment.config.size → deployment.Keeps nodes →
    condition.Allows deployment.config.size nodes i setting → invariant nodes →
    Captain.SlotMove setting (nodes i).captain outs final →
      invariant (actOn nodes i (final, outs))

theorem PreservedBySlotMoves.and {invariant' : (ℕ → Node) → Prop}
    (hfirst : PreservedBySlotMoves deployment condition invariant)
    (hsecond : ∀ nodes i setting outs final, i < deployment.config.size →
      deployment.Keeps nodes → condition.Allows deployment.config.size nodes i setting →
      invariant nodes → invariant (actOn nodes i (final, outs)) → invariant' nodes →
      Captain.SlotMove setting (nodes i).captain outs final →
        invariant' (actOn nodes i (final, outs))) :
    PreservedBySlotMoves deployment condition fun nodes => invariant nodes ∧ invariant' nodes := by
  rintro nodes i setting outs final hi hkeeps hallows ⟨hinvariant, hinvariant'⟩ hmove
  have hafter := hfirst nodes i setting outs final hi hkeeps hallows hinvariant hmove
  exact ⟨hafter, hsecond nodes i setting outs final hi hkeeps hallows hinvariant hafter
    hinvariant' hmove⟩

theorem forall_actOn {size : ℕ} (holds : ℕ → Captain → List Output → Prop)
    {nodes : ℕ → Node} {i : ℕ} {final : Captain} {outs : List Output}
    (hall : ∀ j < size, holds j (nodes j).captain (nodes j).log)
    (hmoved : holds i final ((nodes i).log ++ outs)) :
    ∀ j < size, holds j (actOn nodes i (final, outs) j).captain
      (actOn nodes i (final, outs) j).log := by
  intro j hj
  by_cases heq : j = i
  · subst heq
    simpa [Node.after] using hmoved
  · simpa [actOn_ne nodes heq] using hall j hj

/-- Slot moves preserve the property of a captain, its log and what it can
have received. -/
def PreservedLocally (invariant : (Message → Prop) → Captain → List Output → Prop) : Prop :=
  ∀ received setting captain log outs final, captain.WellKept → captain.whoami < 2 ^ 16 →
    (∀ msg, Captain.Setting.received setting msg → received msg) →
    invariant received captain log → Captain.SlotMove setting captain outs final →
      invariant received final (log ++ outs)

/-- A property that every node has on its own. -/
def AtEachNode (size : ℕ) (invariant : (Message → Prop) → Captain → List Output → Prop)
    (nodes : ℕ → Node) : Prop :=
  ∀ i < size, invariant (Received size nodes i) (nodes i).captain (nodes i).log

theorem PreservedLocally.atEachNode
    {invariant : (Message → Prop) → Captain → List Output → Prop}
    (hpreserved : PreservedLocally invariant)
    (hmono : ∀ received received' captain log, (∀ msg, received msg → received' msg) →
      invariant received captain log → invariant received' captain log) :
    PreservedBySlotMoves deployment condition
      (AtEachNode deployment.config.size invariant) := by
  intro nodes i setting outs final hi hkeeps hallows hinvariant hmove j hj
  have hgrow : ∀ msg, Received deployment.config.size nodes j msg →
      Received deployment.config.size (actOn nodes i (final, outs)) j msg :=
    fun msg hreceived => hreceived.actOn _
  apply hmono _ _ _ _ hgrow
  refine forall_actOn (fun j => invariant (Received deployment.config.size nodes j))
    hinvariant ?_ j hj
  exact hpreserved _ setting _ _ outs final (hkeeps.wellKept i hi) (hkeeps.whoami_lt hi)
    hallows.received (hinvariant i hi) hmove

theorem PreservedAtNode.moves {invariant : Captain → List Output → Prop}
    (hpreserved : PreservedAtNode condition invariant) :
    PreservedByMoves deployment condition fun nodes =>
      ∀ i < deployment.config.size, invariant (nodes i).captain (nodes i).log := by
  intro nodes i setting outs final hi hkeeps hallows hinvariant hmove
  refine forall_actOn (fun _ => invariant) hinvariant ?_
  exact hpreserved _ _ setting outs final (hkeeps.wellKept i hi) hallows.toCovers
    (hinvariant i hi) hmove

theorem actOn_update (nodes : ℕ → Node) (i : ℕ) (captain : Captain)
    (log outs : List Output) (final : Captain) :
    actOn (Function.update nodes i { captain, log }) i (final, outs) =
      Function.update nodes i { captain := final, log := log ++ outs } := by
  simp [actOn, Node.after]

theorem chain_preserves (invariant : (ℕ → Node) → Prop)
    {step : Captain → List Output → Captain → Prop} {i : ℕ}
    (hstep : ∀ nodes outs final, invariant nodes → step (nodes i).captain outs final →
      invariant (actOn nodes i (final, outs)))
    {nodes : ℕ → Node} {outs : List Output} {final : Captain} (hinvariant : invariant nodes)
    (hchain : OutputChain step (nodes i).captain outs final) :
    invariant (actOn nodes i (final, outs)) := by
  have hstart : invariant (Function.update nodes i
      { captain := (nodes i).captain, log := (nodes i).log }) := by
    simpa using hinvariant
  have hstepAt : ∀ captain log outs final,
      invariant (Function.update nodes i { captain, log }) → step captain outs final →
        invariant (Function.update nodes i { captain := final, log := log ++ outs }) := by
    intro captain log outs final hbefore hmove
    rw [← actOn_update nodes i captain]
    exact hstep _ outs final hbefore (by simpa using hmove)
  exact hchain.invariant
    (fun captain log => invariant (Function.update nodes i { captain, log })) hstepAt hstart

theorem Deployment.Keeps.move {nodes : ℕ → Node} {i : ℕ} {setting : Captain.Setting}
    {outs : List Output} {final : Captain} (hkeeps : deployment.Keeps nodes)
    (hi : i < deployment.config.size)
    (hmove : Captain.Move setting (nodes i).captain outs final) :
    deployment.Keeps (actOn nodes i (final, outs)) :=
  chain_preserves deployment.Keeps (fun _ _ _ hkeeps hslot => hkeeps.slotMove hi hslot)
    hkeeps hmove.slotMoves

theorem PreservedBySlotMoves.moves
    (hpreserved : PreservedBySlotMoves deployment condition invariant) :
    PreservedByMoves deployment condition invariant := by
  intro nodes i setting outs final hi hkeeps hallows hinvariant hmove
  refine (chain_preserves
    (fun nodes => deployment.Keeps nodes ∧
      condition.Allows deployment.config.size nodes i setting ∧ invariant nodes)
    ?_ ⟨hkeeps, hallows, hinvariant⟩ hmove.slotMoves).2.2
  rintro nodes outs final ⟨hkeeps, hallows, hinvariant⟩ hslot
  exact ⟨hkeeps.slotMove hi hslot, hallows.actOn _,
    hpreserved nodes i setting outs final hi hkeeps hallows hinvariant hslot⟩

theorem PreservedByMoves.chain
    (hpreserved : PreservedByMoves deployment condition invariant)
    {nodes : ℕ → Node} {i : ℕ} {setting : Captain.Setting} {outs : List Output}
    {final : Captain} (hi : i < deployment.config.size) (hkeeps : deployment.Keeps nodes)
    (hallows : condition.Allows deployment.config.size nodes i setting)
    (hinvariant : invariant nodes)
    (hchain : OutputChain (Captain.Move setting) (nodes i).captain outs final) :
    deployment.Keeps (actOn nodes i (final, outs)) ∧
      invariant (actOn nodes i (final, outs)) := by
  have hall := chain_preserves
    (fun nodes => deployment.Keeps nodes ∧
      condition.Allows deployment.config.size nodes i setting ∧ invariant nodes)
    ?_ ⟨hkeeps, hallows, hinvariant⟩ hchain
  · exact ⟨hall.1, hall.2.2⟩
  rintro nodes outs final ⟨hkeeps, hallows, hinvariant⟩ hmove
  exact ⟨hkeeps.move hi hmove, hallows.actOn _,
    hpreserved nodes i setting outs final hi hkeeps hallows hinvariant hmove⟩

/-- What every state of a run has, for an invariant of all moves. -/
structure Reaches (deployment : Deployment) (invariant : (ℕ → Node) → Prop)
    (cluster : Cluster) : Prop where
  keeps : deployment.Keeps cluster.nodes
  sent : cluster.SentBy deployment.config.size
  invariant : invariant cluster.nodes

def callSetting (made : Call) : Captain.Setting where
  received := fun _ => False
  calls := (· = made)
  retires := fun _ _ => False

def packetSetting (captain : Captain) (packet : Packet) (dataName : Name) (app : AppCalls) :
    Captain.Setting where
  received := (· = packet.msg)
  calls := (· ∈ app.latency ++ app.apply)
  retires := fun slot info => captain.chooses packet.msg = some (slot, info)
  dataName := Cluster.arrivalName captain packet dataName

inductive Cluster.StepSetting (cluster : Cluster) : Action → ℕ → Captain.Setting → Prop where
  | call {i : ℕ} {made : Call} : StepSetting cluster (.call i made) i (callSetting made)
  | deliver {index : ℕ} {dataName : Name} {app : AppCalls} {packet : Packet}
      (hpacket : cluster.net[index]? = some packet) :
      StepSetting cluster (.deliver index dataName app) packet.dst
        (packetSetting (cluster.nodes packet.dst).captain packet dataName app)

/-- A step leaves the nodes alone or is a chain of moves of one of them. -/
inductive Cluster.StepCases (deployment : Deployment) (cluster : Cluster) (action : Action)
    (next : Cluster) : Prop where
  | network (hnodes : next.nodes = cluster.nodes)
  | node {i : ℕ} {setting : Captain.Setting} {outs : List Output} {final : Captain}
      (hi : i < deployment.config.size) (hsetting : cluster.StepSetting action i setting)
      (hchain : OutputChain (Captain.Move setting) (cluster.nodes i).captain outs final)
      (hnodes : next.nodes = actOn cluster.nodes i (final, outs))

theorem Cluster.step_cases {cluster next : Cluster} {action : Action}
    (hkeeps : deployment.Keeps cluster.nodes) (hsent : cluster.SentBy deployment.config.size)
    (hstep : cluster.step deployment action = some next) :
    next.SentBy deployment.config.size ∧ cluster.StepCases deployment action next := by
  cases action with
  | call i call =>
      rcases Cluster.step_call hstep with ⟨hi, final, outs, hcall, rfl⟩
      have hchain : OutputChain (Captain.Move (callSetting call)) _ outs final :=
        Captain.call_moves rfl hcall
      exact ⟨hsent.act hi (fun _ hmem => hmem) _, .node hi .call hchain rfl⟩
  | deliver index dataName app =>
      rcases Cluster.step_deliver hstep with ⟨packet, hpacket, hi, final, outs, hhandle, rfl⟩
      let setting := packetSetting (cluster.nodes packet.dst).captain packet dataName app
      have hreceived : setting.received packet.msg := rfl
      have hchain : OutputChain (Captain.Move setting) _ outs final :=
        Captain.handleMsg_moves (hkeeps.wellKept packet.dst hi) hreceived
          (fun _ _ hchooses => hchooses) (fun _ hmem => hmem) hhandle
      exact ⟨hsent.act hi (fun _ hmem => List.mem_of_mem_eraseIdx hmem) _,
        .node hi (.deliver hpacket) hchain rfl⟩
  | lose index =>
      rcases Cluster.step_lose hstep with ⟨_, rfl⟩
      exact ⟨fun packet hmem => hsent packet (List.mem_of_mem_eraseIdx hmem), .network rfl⟩
  | duplicate index =>
      rcases Cluster.step_duplicate hstep with ⟨packet, hpacket, rfl⟩
      refine ⟨?_, .network rfl⟩
      intro sent hmem
      rcases List.mem_append.mp hmem with hold | hnew
      · exact hsent sent hold
      · rw [List.mem_singleton.mp hnew]
        exact hsent packet (List.mem_of_getElem? hpacket)

theorem Cluster.StepSetting.received {cluster : Cluster} {action : Action} {i : ℕ}
    {setting : Captain.Setting} (hsetting : cluster.StepSetting action i setting)
    (hsent : cluster.SentBy deployment.config.size) {msg : Message}
    (hmsg : setting.received msg) : Received deployment.config.size cluster.nodes i msg := by
  cases hsetting with
  | call => exact hmsg.elim
  | @deliver index dataName app packet hpacket =>
      rcases hsent packet (List.mem_of_getElem? hpacket) with ⟨j, hj, hlog⟩
      have heq : msg = packet.msg := hmsg
      exact ⟨j, hj, packet, hlog, rfl, heq.symm⟩

theorem Cluster.StepSetting.allows {cluster : Cluster} {action : Action} {i : ℕ}
    {setting : Captain.Setting} (hsetting : cluster.StepSetting action i setting)
    (hsent : cluster.SentBy deployment.config.size)
    (hholds : condition.Holds cluster action) :
    condition.Allows deployment.config.size cluster.nodes i setting := by
  have hreceived := fun msg => @Cluster.StepSetting.received _ _ _ _ _ hsetting hsent msg
  cases hsetting with
  | @call i made =>
      refine ⟨⟨?_, fun _ _ hretires => hretires.elim⟩, hreceived⟩
      intro call hcall
      have heq : call = made := hcall
      rw [heq]
      exact hholds
  | @deliver index dataName app packet hpacket =>
      rcases hholds packet hpacket with ⟨hcalls, hretires⟩
      exact ⟨⟨hcalls, hretires⟩, hreceived⟩

theorem Reaches.step (hpreserved : PreservedByMoves deployment condition invariant)
    {cluster next : Cluster} {action : Action} (hholds : condition.Holds cluster action)
    (hreaches : Reaches deployment invariant cluster)
    (hstep : cluster.step deployment action = some next) :
    Reaches deployment invariant next := by
  rcases Cluster.step_cases hreaches.keeps hreaches.sent hstep with ⟨hsent, hcases⟩
  cases hcases with
  | network hnodes =>
      exact ⟨hnodes ▸ hreaches.keeps, hsent, hnodes ▸ hreaches.invariant⟩
  | node hi hsetting hchain hnodes =>
      have hallows := hsetting.allows hreaches.sent hholds
      rcases hpreserved.chain hi hreaches.keeps hallows hreaches.invariant hchain with
        ⟨hkeeps, hinvariant⟩
      exact ⟨hnodes ▸ hkeeps, hsent, hnodes ▸ hinvariant⟩

theorem holds_anything (cluster : Cluster) (action : Action) :
    StepCondition.Holds {} cluster action := by
  cases action with
  | call i made => trivial
  | deliver index dataName app => exact fun _ _ => ⟨fun _ _ => trivial, fun _ _ _ => trivial⟩
  | lose index => trivial
  | duplicate index => trivial

theorem runMeets_anything (deployment : Deployment) (actions : List Action) :
    deployment.machine.RunMeets (StepCondition.Holds {}) deployment.initial actions :=
  PartialMachine.runMeets_of_forall (fun action _ cluster => holds_anything cluster action) _

/-- An invariant of all moves holds at the end of every run under the condition. -/
theorem reaches_of_run (hpreserved : PreservedByMoves deployment condition invariant)
    (hinitial : invariant deployment.node) {actions : List Action} {final : Cluster}
    (hmeets : deployment.machine.RunMeets condition.Holds deployment.initial actions)
    (hrun : deployment.run actions = some final) :
    Reaches deployment invariant final := by
  have hstart : Reaches deployment invariant deployment.initial :=
    ⟨deployment.keeps_initial, fun packet hmem => absurd hmem List.not_mem_nil, hinitial⟩
  refine PartialMachine.invariant_of_runMeets (Reaches deployment invariant) ?_ hstart
    hmeets hrun
  exact fun cluster action next hholds hreaches hstep => hreaches.step hpreserved hholds hstep

/-! ## Conditions on the captain that handles a message -/

def Handles (meets : Captain → Message → Prop) (cluster : Cluster) : Action → Prop
  | .call _ _ => True
  | .deliver index _ _ => ∀ packet ∈ cluster.net[index]?,
      meets (cluster.nodes packet.dst).captain packet.msg
  | .lose _ => True
  | .duplicate _ => True

instance decidableHandles (meets : Captain → Message → Prop)
    [∀ captain msg, Decidable (meets captain msg)] (cluster : Cluster) (action : Action) :
    Decidable (Handles meets cluster action) :=
  Action.casesOn (motive := fun action => Decidable (Handles meets cluster action))
    action (fun _ _ => inferInstanceAs (Decidable True))
    (fun index _ _ => inferInstanceAs (Decidable (∀ packet ∈ cluster.net[index]?,
      meets (cluster.nodes packet.dst).captain packet.msg)))
    (fun _ => inferInstanceAs (Decidable True)) (fun _ => inferInstanceAs (Decidable True))

/-- One message at most is handled, and the condition holds of the captain before. -/
structure HandledBy (meets : Captain → Message → Prop) (size : ℕ) (nodes : ℕ → Node) (i : ℕ)
    (setting : Captain.Setting) : Prop where
  received : ∀ msg, setting.received msg →
    Received size nodes i msg ∧ meets (nodes i).captain msg
  single : ∀ msg msg', setting.received msg → setting.received msg' → msg = msg'
  retires : ∀ slot info, setting.retires slot info →
    ∃ msg, setting.received msg ∧ (nodes i).captain.chooses msg = some (slot, info)

/-- Every chain of moves that starts in a captain that meets the condition
preserves the property. -/
def PreservedByHandling (deployment : Deployment) (meets : Captain → Message → Prop)
    (invariant : (ℕ → Node) → Prop) : Prop :=
  ∀ nodes i setting outs final, i < deployment.config.size → deployment.Keeps nodes →
    HandledBy meets deployment.config.size nodes i setting → invariant nodes →
    OutputChain (Captain.SlotMove setting) (nodes i).captain outs final →
      invariant (actOn nodes i (final, outs))

theorem Cluster.StepSetting.handledBy {meets : Captain → Message → Prop} {cluster : Cluster}
    {action : Action} {i : ℕ} {setting : Captain.Setting}
    (hsetting : cluster.StepSetting action i setting)
    (hsent : cluster.SentBy deployment.config.size) (hmeets : Handles meets cluster action) :
    HandledBy meets deployment.config.size cluster.nodes i setting := by
  have hreceived := fun msg => @Cluster.StepSetting.received _ _ _ _ _ hsetting hsent msg
  cases hsetting with
  | call => exact ⟨fun _ hmsg => hmsg.elim, fun _ _ hmsg => hmsg.elim, fun _ _ h => h.elim⟩
  | @deliver index dataName app packet hpacket =>
      constructor
      · intro msg hmsg
        have heq : msg = packet.msg := hmsg
        refine ⟨hreceived msg hmsg, ?_⟩
        rw [heq]
        exact hmeets packet hpacket
      · intro msg msg' hmsg hmsg'
        have heq : msg = packet.msg := hmsg
        have heq' : msg' = packet.msg := hmsg'
        rw [heq, heq']
      · exact fun slot info hchooses => ⟨packet.msg, rfl, hchooses⟩

/-- An invariant of all chains holds at the end of every run under the condition. -/
theorem reaches_of_handling {meets : Captain → Message → Prop}
    (hpreserved : PreservedByHandling deployment meets invariant)
    (hinitial : invariant deployment.node) {actions : List Action} {final : Cluster}
    (hmeets : deployment.machine.RunMeets (Handles meets) deployment.initial actions)
    (hrun : deployment.run actions = some final) :
    Reaches deployment invariant final := by
  have hstart : Reaches deployment invariant deployment.initial :=
    ⟨deployment.keeps_initial, fun packet hmem => absurd hmem List.not_mem_nil, hinitial⟩
  apply PartialMachine.invariant_of_runMeets (Reaches deployment invariant) _ hstart hmeets hrun
  intro cluster action next hholds hreaches hstep
  rcases Cluster.step_cases hreaches.keeps hreaches.sent hstep with ⟨hsent, hcases⟩
  cases hcases with
  | network hnodes =>
      exact ⟨hnodes ▸ hreaches.keeps, hsent, hnodes ▸ hreaches.invariant⟩
  | @node i setting outs final hi hsetting hchain hnodes =>
      have hslots : OutputChain (Captain.SlotMove setting) (cluster.nodes i).captain outs final :=
        hchain.bind fun _ _ _ hmove => hmove.slotMoves
      have hinvariant := hpreserved _ i setting outs final hi hreaches.keeps
        (hsetting.handledBy hreaches.sent hholds) hreaches.invariant hslots
      have hkeeps := chain_preserves deployment.Keeps
        (fun _ _ _ hkeeps hmove => hkeeps.move hi hmove) hreaches.keeps hchain
      exact ⟨hnodes ▸ hkeeps, hsent, hnodes ▸ hinvariant⟩

end RunRule

/-! ## A node's part of a run -/

section Projection

variable {deployment : Deployment} {condition : StepCondition}

theorem Cluster.step_node {cluster next : Cluster} {action : Action} (i : ℕ)
    (hholds : condition.Holds cluster action)
    (hstep : cluster.step deployment action = some next) :
    next.nodes i = cluster.nodes i ∨
      ∃ nodeAction, condition.OnNode (cluster.nodes i) nodeAction ∧
        (cluster.nodes i).step nodeAction = some (next.nodes i) := by
  have hact : ∀ {j : ℕ} {net : List Packet} {result : Captain × List Output}
      {nodeAction : NodeAction}, condition.OnNode (cluster.nodes j) nodeAction →
      (cluster.nodes j).step nodeAction = some ((cluster.nodes j).after result) →
      (cluster.act j net result).nodes i = cluster.nodes i ∨
        ∃ nodeAction, condition.OnNode (cluster.nodes i) nodeAction ∧
          (cluster.nodes i).step nodeAction = some ((cluster.act j net result).nodes i) := by
    intro j net result nodeAction hmeets hnode
    by_cases heq : i = j
    · subst heq
      exact .inr ⟨nodeAction, hmeets, by simpa [Cluster.act] using hnode⟩
    · exact .inl (by simp [Cluster.act, heq])
  cases action with
  | call j made =>
      rcases Cluster.step_call hstep with ⟨_, captain, outs, hcall, rfl⟩
      exact hact (show condition.OnNode _ (.call made) from hholds) (by simp [Node.step, hcall])
  | deliver index dataName app =>
      rcases Cluster.step_deliver hstep with ⟨packet, hpacket, _, captain, outs, hhandle, rfl⟩
      exact hact (show condition.OnNode _ (.handle packet.msg _ app) from hholds packet hpacket)
        (by simp [Node.step, hhandle])
  | lose index =>
      rcases Cluster.step_lose hstep with ⟨_, hstep⟩
      exact .inl (by rw [← hstep])
  | duplicate index =>
      rcases Cluster.step_duplicate hstep with ⟨packet, _, rfl⟩
      exact .inl rfl

/-- Each node of a cluster goes through a run of its own. -/
theorem runNode_of_run {actions : List Action} {final : Cluster} {i : ℕ}
    (hmeets : deployment.machine.RunMeets condition.Holds deployment.initial actions)
    (hrun : deployment.run actions = some final) :
    ∃ steps, deployment.runNode i steps = some (final.nodes i) ∧
      Node.machine.RunMeets condition.OnNode (deployment.node i) steps := by
  have hproject : ∀ (cluster : Cluster) (actions : List Action),
      deployment.machine.RunMeets condition.Holds cluster actions →
      deployment.machine.run cluster actions = some final →
        ∃ steps, Node.machine.run (cluster.nodes i) steps = some (final.nodes i) ∧
          Node.machine.RunMeets condition.OnNode (cluster.nodes i) steps := by
    intro cluster actions hmeets hrun
    induction actions generalizing cluster with
    | nil =>
        rw [PartialMachine.run_nil, Option.some.injEq] at hrun
        exact ⟨[], by rw [PartialMachine.run_nil, hrun], trivial⟩
    | cons action rest ih =>
        rcases PartialMachine.run_cons_eq_some.mp hrun with ⟨next, hstep, hrest⟩
        rcases ih next (hmeets.tail hstep) hrest with ⟨steps, hsteps, hstepsMeet⟩
        rcases Cluster.step_node i hmeets.head hstep with hsame | ⟨nodeAction, hmeet, hnode⟩
        · rw [← hsame]
          exact ⟨steps, hsteps, hstepsMeet⟩
        · exact ⟨nodeAction :: steps, PartialMachine.run_cons_eq_some.mpr ⟨_, hnode, hsteps⟩,
            .cons hmeet hnode hstepsMeet⟩
  exact hproject deployment.initial actions hmeets hrun

end Projection

end NDNPaxos
