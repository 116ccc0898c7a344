import NDNPaxos.ReplicatedDatabase
import NDNPaxos.AtRest
import Mathlib.Tactic

/-!
# The database at rest

A statement is handed to the captain of the master at once or goes there in a COMMIT.
What was handed to the master and what is on its way there are therefore the
statements, and copies of them that the network has made.  When nothing is in flight
any more, every database has executed one history that has each statement in it.
-/

namespace NDNPaxos

/-! ## Requests to the master -/

/-- The statement of a COMMIT on its way to the master. -/
def Packet.request? (master : ℕ) (packet : Packet) : Option Bytes :=
  match packet.msg with
  | .commit msg => if packet.dst = master then some msg.propValue.data else none
  | _ => none

def requestsTo (master : ℕ) (net : List Packet) : List Bytes :=
  net.filterMap (Packet.request? master)

/-- The statements that were handed to a captain. -/
def handedData (log : List Output) : List Bytes :=
  ((handed log).map Prod.fst).map PropValue.data

theorem handedData_append (log outs : List Output) :
    handedData (log ++ outs) = handedData log ++ handedData outs := by
  rw [handedData, handed_append, List.map_append, List.map_append]
  rfl

theorem Packet.request?_eq_some {master : ℕ} {packet : Packet} {sql : Bytes} :
    packet.request? master = some sql ↔
      ∃ msg, packet.msg = .commit msg ∧ packet.dst = master ∧ msg.propValue.data = sql := by
  unfold Packet.request?
  split
  next msg hmsg => simp [hmsg]
  next hother =>
    refine iff_of_false (by simp) ?_
    rintro ⟨msg, hmsg, _⟩
    exact hother msg hmsg

@[simp] theorem requestsTo_nil (master : ℕ) : requestsTo master [] = [] := rfl

theorem requestsTo_append (master : ℕ) (net sent : List Packet) :
    requestsTo master (net ++ sent) = requestsTo master net ++ requestsTo master sent :=
  List.filterMap_append

theorem requestsTo_eq_nil {master : ℕ} {net : List Packet}
    (hnet : ∀ packet ∈ net, ∀ msg, packet.msg = .commit msg → packet.dst ≠ master) :
    requestsTo master net = [] := by
  rw [requestsTo, List.filterMap_eq_nil_iff]
  intro packet hmem
  rw [Option.eq_none_iff_forall_ne_some]
  intro sql hrequest
  rcases Packet.request?_eq_some.mp hrequest with ⟨msg, hmsg, hdst, _⟩
  exact hnet packet hmem msg hmsg hdst

theorem requestsTo_eraseIdx {master index : ℕ} {net : List Packet} {packet : Packet}
    (hpacket : net[index]? = some packet) :
    (requestsTo master net).Perm
      ((packet.request? master).toList ++ requestsTo master (net.eraseIdx index)) := by
  rcases List.getElem?_eq_some_iff.mp hpacket with ⟨hlt, hget⟩
  have hperm := (List.getElem_cons_eraseIdx_perm hlt).filterMap (Packet.request? master)
  rw [hget, List.filterMap_cons] at hperm
  refine hperm.symm.trans (.of_eq ?_)
  cases packet.request? master <;> rfl

/-! ## What a step hands over and asks for -/

namespace Captain

variable {captain final : Captain} {outs : List Output}

theorem no_commit_of_kinds (hkinds : ∀ out ∈ outs, out.kind ≠ .forwarding) {packet : Packet}
    (hmem : packet ∈ packetsOf outs) {msg : MsgCommit} : packet.msg ≠ .commit msg := by
  intro hmsg
  apply hkinds _ (mem_packetsOf.mp hmem)
  rw [Output.kind, hmsg]
  rfl

theorem CommitStep.hands {value : PropValue} {dataName ref : Name}
    (hstep : CommitStep captain value dataName final outs ref) :
    handedData outs = [value.data] ∧ ∀ out ∈ outs, out.kind ≠ .forwarding := by
  rcases hstep.kinds with ⟨sent, rfl, hsent⟩
  constructor
  · have hnone : handed sent = [] := handed_eq_nil fun out hmem => by
      rcases hsent out hmem with hkind | hkind <;> simp [hkind]
    rw [handedData, ← List.singleton_append, handed_append, hnone]
    rfl
  · intro out hmem
    rcases List.mem_cons.mp hmem with rfl | hmem
    · simp [Output.kind, Event.kind]
    · rcases hsent out hmem with hkind | hkind <;> simp [hkind]

theorem commitData_hands {sql : Bytes} (hmaster : captain.view.ifMaster = true)
    (hcall : captain.commitData sql none = some (final, outs)) :
    handedData outs = [sql] ∧ ∀ out ∈ outs, out.kind ≠ .forwarding := by
  simp only [commitData, hmaster, if_true] at hcall
  rcases commitRef_step hcall with ⟨next, ref, hstep, rfl⟩
  exact hstep.hands

theorem commitData_asks {sql : Bytes} (hmaster : captain.view.ifMaster = false)
    (hcall : captain.commitData sql none = some (final, outs)) :
    ∃ msg, packetsOf outs =
        [{ route := .interest, dst := toNodeId captain.view.masterId, msg := .commit msg }] ∧
      msg.propValue.data = sql ∧ msg.msgHeader.nodeId = captain.whoami := by
  simp only [commitData, hmaster, Bool.false_eq_true, if_false, Option.bind_eq_bind,
    Option.bind_eq_some_iff, pure, Option.some.injEq, Prod.mk.injEq] at hcall
  rcases hcall with ⟨sent, hsend, _, rfl⟩
  rw [sendInterest_eq_some hsend]
  exact ⟨_, rfl, rfl, rfl⟩

theorem handleCommit_hands {msg : MsgCommit} (hmaster : captain.view.ifMaster = true)
    (hhandle : captain.handleCommit msg = some (final, outs)) :
    handedData outs = [msg.propValue.data] ∧
      ∀ packet ∈ packetsOf outs, ∀ echo, packet.msg = .commit echo →
        echo = msg ∧ packet.dst = toNodeId msg.msgHeader.nodeId := by
  simp only [handleCommit, hmaster, if_true, Option.bind_eq_bind, Option.bind_eq_some_iff,
    Prod.exists, pure, Option.some.injEq, Prod.mk.injEq] at hhandle
  rcases hhandle with ⟨next, committed, hcommit, rfl, rfl⟩
  rcases commitRef_step hcommit with ⟨next, ref, hstep, rfl⟩
  refine ⟨hstep.hands.1, ?_⟩
  intro packet hmem echo hmsg
  rcases List.mem_cons.mp (mem_packetsOf.mp hmem) with heq | hmem
  · rw [Output.send.injEq] at heq
    subst heq
    exact ⟨(Message.commit.inj hmsg).symm, rfl⟩
  · rcases List.mem_cons.mp hmem with heq | hmem
    · simp at heq
    · exact absurd hmsg (no_commit_of_kinds hstep.hands.2 (mem_packetsOf.mpr hmem))

theorem handleCommit_sends_nothing {msg : MsgCommit} (hmaster : captain.view.ifMaster = false)
    (hhandle : captain.handleCommit msg = some (final, outs)) : packetsOf outs = [] := by
  simp only [handleCommit, hmaster, Bool.false_eq_true, if_false, Option.some.injEq,
    Prod.mk.injEq] at hhandle
  rcases hhandle with ⟨_, rfl⟩
  rfl

/-- A handler sends no COMMIT but the one that it handles. -/
theorem handleMsg_echoes {msg : Message} {dataName : Name} (hkept : captain.WellKept)
    (hhandle : captain.handleMsg msg dataName {} = some (final, outs)) {packet : Packet}
    (hmem : packet ∈ packetsOf outs) {echo : MsgCommit} (hmsg : packet.msg = .commit echo) :
    msg = .commit echo := by
  by_cases hcommit : ∃ asked, msg = .commit asked
  · obtain ⟨asked, rfl⟩ := hcommit
    unfold handleMsg at hhandle
    split at hhandle
    next =>
      rw [Option.some.injEq, Prod.mk.injEq] at hhandle
      rw [← hhandle.2] at hmem
      simp at hmem
    next =>
      cases hmaster : captain.view.ifMaster with
      | true => rw [((handleCommit_hands hmaster hhandle).2 packet hmem echo hmsg).1]
      | false =>
          rw [handleCommit_sends_nothing hmaster hhandle] at hmem
          simp at hmem
  · rw [not_exists] at hcommit
    have hquiet := (handleMsg_quiet hkept hcommit hhandle).2
    exact absurd hmsg (no_commit_of_kinds (fun out hout => (hquiet out hout).2) hmem)

end Captain

/-! ## Every statement is accounted for -/

def Action.isDuplicate : Action → Bool
  | .duplicate _ => true
  | _ => false

/-- How many packets the network has duplicated. -/
def duplicatesOf (actions : List Action) : ℕ := actions.countP Action.isDuplicate

theorem duplicatesOf_append (actions actions' : List Action) :
    duplicatesOf (actions ++ actions') = duplicatesOf actions + duplicatesOf actions' :=
  List.countP_append

theorem duplicatesOf_eq_zero {actions : List Action}
    (hnone : ∀ action ∈ actions, ∀ index, action ≠ .duplicate index) :
    duplicatesOf actions = 0 := by
  rw [duplicatesOf, List.countP_eq_zero]
  intro action hmem
  cases action with
  | duplicate index => exact absurd rfl (hnone _ hmem index)
  | _ => simp [Action.isDuplicate]

/-- What was handed to the master and what is on its way there is what was handed to
`commit`, and copies. -/
def Accounted (config : Config) (given copies : List Bytes) (cluster : Cluster) : Prop :=
  (handedData (cluster.nodes config.masterId).log ++
    requestsTo config.masterId cluster.net).Perm (given ++ copies)

/-- A COMMIT is from another node than the master. -/
def CommitsAsked (config : Config) (net : List Packet) : Prop :=
  ∀ packet ∈ net, ∀ msg, packet.msg = .commit msg →
    msg.msgHeader.nodeId < config.size ∧ msg.msgHeader.nodeId ≠ config.masterId

namespace Accounted

variable {config : Config} {given copies : List Bytes} {cluster : Cluster}

theorem initial (deployment : Deployment) :
    Accounted deployment.config [] [] deployment.initial := List.Perm.nil

theorem act (haccounted : Accounted config given copies cluster) {i : ℕ} {net : List Packet}
    {final : Captain} {outs : List Output} {more : List Bytes}
    (hmoved : ((if i = config.masterId then handedData outs else []) ++
      (requestsTo config.masterId net ++ requestsTo config.masterId (packetsOf outs))).Perm
        (more ++ requestsTo config.masterId cluster.net)) :
    Accounted config (given ++ more) copies (cluster.act i net (final, outs)) := by
  have hlog : handedData (actOn cluster.nodes i (final, outs) config.masterId).log =
      handedData (cluster.nodes config.masterId).log ++
        if i = config.masterId then handedData outs else [] := by
    by_cases hself : i = config.masterId
    · rw [← hself, actOn_self, if_pos rfl]
      exact handedData_append _ _
    · rw [actOn_ne _ (Ne.symm hself), if_neg hself, List.append_nil]
  unfold Accounted at haccounted ⊢
  change (handedData (actOn cluster.nodes i (final, outs) config.masterId).log ++
    requestsTo config.masterId (net ++ packetsOf outs)).Perm _
  rw [hlog, requestsTo_append]
  rw [← Multiset.coe_eq_coe] at haccounted hmoved ⊢
  simp only [← Multiset.coe_add] at haccounted hmoved ⊢
  rw [add_assoc, hmoved, add_left_comm, haccounted]
  abel

theorem duplicate (haccounted : Accounted config given copies cluster) (packet : Packet) :
    Accounted config given (copies ++ (packet.request? config.masterId).toList)
      { cluster with net := cluster.net ++ [packet] } := by
  have hcopy : requestsTo config.masterId [packet] =
      (packet.request? config.masterId).toList := by
    rw [requestsTo, List.filterMap_cons]
    cases packet.request? config.masterId <;> rfl
  unfold Accounted at haccounted ⊢
  rw [requestsTo_append, hcopy, ← List.append_assoc, ← List.append_assoc]
  exact haccounted.append_right _

/-- A copied request is one of the statements or a copy itself. -/
theorem request_mem (haccounted : Accounted config given copies cluster) {packet : Packet}
    (hpacket : packet ∈ cluster.net) :
    ∀ sql ∈ (packet.request? config.masterId).toList, sql ∈ given ++ copies := by
  intro sql hsql
  rw [Option.mem_toList] at hsql
  have hrequest : sql ∈ requestsTo config.masterId cluster.net :=
    List.mem_filterMap.mpr ⟨packet, hpacket, hsql⟩
  exact List.Perm.mem_iff haccounted |>.mp (List.mem_append_right _ hrequest)

end Accounted

section Step

variable {deployment : Deployment} {actions : List Action} {mid next : Cluster}
  {allowed : Bytes → Prop} {given copies : List Bytes}
  (hshards : deployment.config.mode ≠ .rs)
  (hrun : deployment.run actions = some mid)
  (hcalls : ∀ action ∈ actions, DBManager.Calls action)
  (hstatements : Statements deployment.config allowed mid.nodes)
  (hmaster : deployment.config.masterId < deployment.config.size)

include hshards hrun hcalls hstatements

theorem ifMaster_iff {i : ℕ} (hi : i < deployment.config.size) :
    (mid.nodes i).captain.view.ifMaster = true ↔ i = deployment.config.masterId := by
  rcases knowledge_of_run hshards hrun with ⟨hkeeps, _⟩
  rw [View.ifMaster, beq_iff_eq, hkeeps.nodeId i hi,
    masterId_of_statements hrun hcalls hstatements hshards hi]

theorem not_ifMaster {i : ℕ} (hi : i < deployment.config.size)
    (hother : i ≠ deployment.config.masterId) : (mid.nodes i).captain.view.ifMaster = false :=
  Bool.eq_false_iff.mpr (mt (ifMaster_iff hshards hrun hcalls hstatements hi).mp hother)

/-- Whom a step asks for commits. -/
theorem CommitsAsked.step (hasked : CommitsAsked deployment.config mid.net) {action : Action}
    (haction : DBManager.Calls action) (hstep : mid.step deployment action = some next) :
    CommitsAsked deployment.config next.net := by
  obtain ⟨hkeeps, _⟩ := knowledge_of_run hshards hrun
  cases action with
  | call i made =>
      obtain ⟨sql, rfl⟩ := haction
      obtain ⟨hi, final, outs, hcall, rfl⟩ := Cluster.step_call hstep
      have hiff := ifMaster_iff hshards hrun hcalls hstatements hi
      change (mid.nodes i).captain.commitData sql none = some (final, outs) at hcall
      refine List.forall_mem_append.mpr ⟨hasked, fun packet hmem msg hmsg => ?_⟩
      by_cases hself : i = deployment.config.masterId
      · have hkinds := (Captain.commitData_hands (hiff.mpr hself) hcall).2
        exact absurd hmsg (Captain.no_commit_of_kinds hkinds hmem)
      · have hifMaster := not_ifMaster hshards hrun hcalls hstatements hi hself
        obtain ⟨asked, hsent, _, hnode⟩ := Captain.commitData_asks hifMaster hcall
        rw [hsent, List.mem_singleton] at hmem
        subst hmem
        rw [← Message.commit.inj hmsg, hnode, hkeeps.whoami hi]
        exact ⟨hi, hself⟩
  | deliver index dataName app =>
      obtain rfl : app = {} := haction
      obtain ⟨packet, hpacket, hi, final, outs, hhandle, rfl⟩ := Cluster.step_deliver hstep
      have hkept : CommitsAsked deployment.config (mid.net.eraseIdx index) :=
        fun other hmem => hasked other (List.mem_of_mem_eraseIdx hmem)
      refine List.forall_mem_append.mpr ⟨hkept, fun echo hmem msg hmsg => ?_⟩
      have hrequest := Captain.handleMsg_echoes (hkeeps.wellKept _ hi) hhandle hmem hmsg
      exact hasked packet (List.mem_of_getElem? hpacket) msg hrequest
  | lose index =>
      obtain ⟨_, rfl⟩ := Cluster.step_lose hstep
      exact fun packet hmem => hasked packet (List.mem_of_mem_eraseIdx hmem)
  | duplicate index =>
      obtain ⟨packet, hpacket, rfl⟩ := Cluster.step_duplicate hstep
      refine List.forall_mem_append.mpr ⟨hasked, List.forall_mem_singleton.mpr ?_⟩
      exact hasked packet (List.mem_of_getElem? hpacket)

theorem Accounted.call (haccounted : Accounted deployment.config given copies mid) {i : ℕ}
    {sql : Bytes} (hmaster : deployment.config.masterId < deployment.config.size)
    (hstep : mid.step deployment (.call i (DBManager.commit sql)) = some next) :
    Accounted deployment.config (given ++ [sql]) copies next := by
  rcases Cluster.step_call hstep with ⟨hi, final, outs, hcall, rfl⟩
  have hiff := ifMaster_iff hshards hrun hcalls hstatements hi
  change (mid.nodes i).captain.commitData sql none = some (final, outs) at hcall
  apply haccounted.act
  by_cases hself : i = deployment.config.masterId
  · obtain ⟨hhanded, hkinds⟩ := Captain.commitData_hands (hiff.mpr hself) hcall
    have hnone : requestsTo deployment.config.masterId (packetsOf outs) = [] :=
      requestsTo_eq_nil fun packet hmem msg hmsg =>
        absurd hmsg (Captain.no_commit_of_kinds hkinds hmem)
    rw [if_pos hself, hhanded, hnone, List.append_nil]
  · have hifMaster := not_ifMaster hshards hrun hcalls hstatements hi hself
    obtain ⟨msg, hsent, hdata, _⟩ := Captain.commitData_asks hifMaster hcall
    have hsize := deployment.config.size_le
    have hrequest : requestsTo deployment.config.masterId (packetsOf outs) = [sql] := by
      rw [hsent, masterId_of_statements hrun hcalls hstatements hshards hi,
        toNodeId_of_lt (by omega), ← hdata]
      simp [requestsTo, Packet.request?]
    rw [if_neg hself, hrequest, List.nil_append]
    exact List.perm_append_comm

theorem Accounted.deliver (haccounted : Accounted deployment.config given copies mid)
    (hasked : CommitsAsked deployment.config mid.net)
    (hwork : ∀ i < deployment.config.size, (mid.nodes i).captain.work = true) {index : ℕ}
    {dataName : Name} (hstep : mid.step deployment (.deliver index dataName {}) = some next) :
    Accounted deployment.config given copies next := by
  rcases Cluster.step_deliver hstep with ⟨packet, hpacket, hi, final, outs, hhandle, rfl⟩
  rcases knowledge_of_run hshards hrun with ⟨hkeeps, _⟩
  have hiff := ifMaster_iff hshards hrun hcalls hstatements hi
  have herased : ((packet.request? deployment.config.masterId).toList ++
      requestsTo deployment.config.masterId (mid.net.eraseIdx index)).Perm
        (requestsTo deployment.config.masterId mid.net) := (requestsTo_eraseIdx hpacket).symm
  suffices hmoved : Accounted deployment.config (given ++ []) copies
      (mid.act packet.dst (mid.net.eraseIdx index) (final, outs)) by
    rwa [List.append_nil] at hmoved
  apply haccounted.act
  by_cases hcommit : ∃ msg, packet.msg = .commit msg
  · rcases hcommit with ⟨msg, hmsg⟩
    rw [hmsg, Captain.handleMsg, if_neg (by simp [hwork _ hi])] at hhandle
    by_cases hself : packet.dst = deployment.config.masterId
    · obtain ⟨hhanded, hechoes⟩ := Captain.handleCommit_hands (hiff.mpr hself) hhandle
      have hrequest : packet.request? deployment.config.masterId = some msg.propValue.data :=
        Packet.request?_eq_some.mpr ⟨msg, hmsg, hself, rfl⟩
      have hnone : requestsTo deployment.config.masterId (packetsOf outs) = [] := by
        apply requestsTo_eq_nil
        intro echo hecho asked hmsg'
        have hnode := hasked packet (List.mem_of_getElem? hpacket) msg hmsg
        have hsize := deployment.config.size_le
        rw [(hechoes echo hecho asked hmsg').2, toNodeId_of_lt (by omega)]
        exact hnode.2
      rw [hrequest] at herased
      rw [if_pos hself, hhanded, hnone, List.append_nil]
      exact herased
    · have hifMaster := not_ifMaster hshards hrun hcalls hstatements hi hself
      have hnone := Captain.handleCommit_sends_nothing hifMaster hhandle
      have hrequest : packet.request? deployment.config.masterId = none := by
        rw [Packet.request?, hmsg]
        exact if_neg hself
      rw [hrequest] at herased
      rw [if_neg hself, hnone, requestsTo_nil, List.append_nil]
      exact herased
  · rw [not_exists] at hcommit
    have hquiet := (Captain.handleMsg_quiet (hkeeps.wellKept _ hi) hcommit hhandle).2
    have hsent : ∀ other ∈ packetsOf outs, ∀ msg, other.msg ≠ .commit msg :=
      fun other hother msg => Captain.no_commit_of_kinds (fun out hout => (hquiet out hout).2)
        hother
    have hhanded : handedData outs = [] := by
      rw [handedData, handed_eq_nil fun out hout => (hquiet out hout).1]
      rfl
    have hrequest : packet.request? deployment.config.masterId = none := by
      rw [Packet.request?]
      split
      next msg hmsg => exact absurd hmsg (hcommit msg)
      next => rfl
    rw [hrequest] at herased
    rw [hhanded, ite_self, requestsTo_eq_nil fun other hother msg hmsg =>
      absurd hmsg (hsent other hother msg), List.append_nil]
    exact herased

include hmaster

theorem Accounted.step (haccounted : Accounted deployment.config given copies mid)
    (hasked : CommitsAsked deployment.config mid.net)
    (hwork : ∀ i < deployment.config.size, (mid.nodes i).captain.work = true) {action : Action}
    (haction : DBManager.Calls action) (hdelivers : ∀ index, action ≠ .lose index)
    (hstep : mid.step deployment action = some next) :
    ∃ more, Accounted deployment.config (given ++ (DBManager.sql? action).toList)
        (copies ++ more) next ∧ (∀ sql ∈ more, sql ∈ given ++ copies) ∧
      more.length ≤ duplicatesOf [action] := by
  cases action with
  | call i made =>
      rcases haction with ⟨sql, rfl⟩
      refine ⟨[], ?_, by simp, Nat.zero_le _⟩
      rw [List.append_nil]
      exact haccounted.call hshards hrun hcalls hstatements hmaster hstep
  | deliver index dataName app =>
      have happ : app = {} := haction
      subst happ
      refine ⟨[], ?_, by simp, Nat.zero_le _⟩
      change Accounted _ (given ++ []) (copies ++ []) _
      rw [List.append_nil, List.append_nil]
      exact haccounted.deliver hshards hrun hcalls hstatements hasked hwork hstep
  | lose index => exact absurd rfl (hdelivers index)
  | duplicate index =>
      rcases Cluster.step_duplicate hstep with ⟨packet, hpacket, rfl⟩
      have hfound := List.mem_of_getElem? hpacket
      refine ⟨(packet.request? deployment.config.masterId).toList, ?_,
        haccounted.request_mem hfound, Option.length_toList_le⟩
      change Accounted _ (given ++ []) _ _
      rw [List.append_nil]
      exact haccounted.duplicate packet

end Step

theorem DBManager.statementsOf_append (actions actions' : List Action) :
    statementsOf (actions ++ actions') = statementsOf actions ++ statementsOf actions' :=
  List.filterMap_append

theorem DBManager.statementsOf_singleton (action : Action) :
    statementsOf [action] = (sql? action).toList := by
  rw [statementsOf, List.filterMap_cons]
  cases sql? action <;> rfl

theorem DBManager.lossless_of_calls {actions : List Action}
    (hcalls : ∀ action ∈ actions, Calls action)
    (hdelivers : ∀ action ∈ actions, ∀ index, action ≠ .lose index) : Lossless actions := by
  intro action hmem
  refine ⟨hdelivers action hmem, fun hcrash => ?_⟩
  rcases (hcalls action hmem).eq_commit hcrash with ⟨sql, heq⟩
  simp [commit] at heq

theorem asked_of_run {deployment : Deployment} (hshards : deployment.config.mode ≠ .rs)
    {actions : List Action} {final : Cluster} (hrun : deployment.run actions = some final)
    (hcalls : ∀ action ∈ actions, DBManager.Calls action) :
    CommitsAsked deployment.config final.net := by
  induction actions using List.reverseRecOn generalizing final with
  | nil =>
      have hstart : deployment.initial = final := Option.some.inj hrun
      rw [← hstart]
      exact fun _ hmem => absurd hmem List.not_mem_nil
  | append_singleton past action ih =>
      obtain ⟨mid, hmid, hlast⟩ := PartialMachine.run_append_eq_some.mp hrun
      rw [PartialMachine.run_singleton] at hlast
      rw [List.forall_mem_append, List.forall_mem_singleton] at hcalls
      have hstatements : Statements deployment.config (fun _ => True) mid.nodes :=
        statements_of_run hshards hmid hcalls.1 fun _ _ => trivial
      exact (ih hmid hcalls.1).step hshards hmid hcalls.1 hstatements hcalls.2 hlast

/-- In every run without losses, what is not a statement is a copy of one. -/
theorem accounted_of_run {deployment : Deployment} (hshards : deployment.config.mode ≠ .rs)
    (hmaster : deployment.config.masterId < deployment.config.size) {actions : List Action}
    {final : Cluster} (hrun : deployment.run actions = some final)
    (hcalls : ∀ action ∈ actions, DBManager.Calls action)
    (hdelivers : ∀ action ∈ actions, ∀ index, action ≠ .lose index) :
    ∃ copies, Accounted deployment.config (DBManager.statementsOf actions) copies final ∧
      (∀ sql ∈ copies, sql ∈ DBManager.statementsOf actions) ∧
      copies.length ≤ duplicatesOf actions := by
  induction actions using List.reverseRecOn generalizing final with
  | nil =>
      have hstart : deployment.initial = final := Option.some.inj hrun
      rw [← hstart]
      exact ⟨[], .initial deployment, by simp, Nat.zero_le _⟩
  | append_singleton past action ih =>
      rcases PartialMachine.run_append_eq_some.mp hrun with ⟨mid, hmid, hlast⟩
      rw [PartialMachine.run_singleton] at hlast
      rw [List.forall_mem_append, List.forall_mem_singleton] at hcalls hdelivers
      rcases ih hmid hcalls.1 hdelivers.1 with ⟨copies, haccounted, hcopies, hlength⟩
      have hstatements : Statements deployment.config (fun _ => True) mid.nodes :=
        statements_of_run hshards hmid hcalls.1 fun _ _ => trivial
      have hreachable := Config.reachable deployment.config fun hrs => absurd hrs hshards
      have hwork := (attended_of_run hreachable
        (DBManager.lossless_of_calls hcalls.1 hdelivers.1) hmid).reaches.invariant.1.work
      have hasked := asked_of_run hshards hmid hcalls.1
      rcases haccounted.step hshards hmid hcalls.1 hstatements hmaster hasked hwork hcalls.2
        hdelivers.2 hlast with ⟨more, hnext, hmore, hkept⟩
      rw [DBManager.statementsOf_append, DBManager.statementsOf_singleton, duplicatesOf_append]
      refine ⟨_, hnext, ?_, ?_⟩
      · intro sql hsql
        apply List.mem_append_left
        rcases List.mem_append.mp hsql with hold | hnew
        · exact hcopies sql hold
        · rcases List.mem_append.mp (hmore sql hnew) with hstatement | hcopy
          · exact hstatement
          · exact hcopies sql hcopy
      · rw [List.length_append]
        exact Nat.add_le_add hlength hkept

/-! ## One history with every statement -/

section Rest

variable {deployment : Deployment} {actions : List Action} {final : Cluster}
  (hreachable : deployment.config.Reachable) (hrun : deployment.run actions = some final)
  (hlossless : Lossless actions) (hrest : final.net = [])
  (hcalls : ∀ action ∈ actions, ∀ call ∈ action.calls, ∀ value, call ≠ .masterChange value)
  (hagreeing : deployment.Agreeing final.nodes) (hshards : deployment.config.mode ≠ .rs)
  (hids : IdsIdentify deployment.config.size final.nodes)

include hreachable hrun hlossless hrest hcalls hagreeing hshards hids

/-- Where one node opens all slots, it has retired what is delivered under its own ids. -/
theorem mem_delivered_iff_retired {i : ℕ} (hi : i < deployment.config.size)
    (honly : ∀ j < deployment.config.size, ∀ slot value,
      Opened (final.nodes j).log slot value → j = i) (slot : ℕ) (value : PropValue) :
    (slot, value) ∈ (final.nodes i).captain.delivered ↔
      (slot, value) ∈ ownRetirements (final.nodes i).log := by
  rcases knowledge_of_run hshards hrun with ⟨_, _, hknowledge, hgiven⟩
  have hsame : ∀ {other other'},
      Decided deployment.config.size final.nodes slot other →
      Decided deployment.config.size final.nodes slot other' → other = other' :=
    fun hdecided hdecided' => hdecided.eq_of_idsIdentify hrun hagreeing hdecided' hshards hids
  constructor
  · intro hmem
    have hdecided : Decided deployment.config.size final.nodes slot value :=
      ⟨i, hi, .inr (Captain.mem_delivered.mp hmem).2.2⟩
    rcases (hknowledge.decided hdecided).1 with ⟨j, hj, hopened⟩
    obtain rfl := honly j hj slot value hopened
    rcases (learned_at_rest hreachable hrun hlossless hrest hcalls hj hopened).1 with
      ⟨chosen, hchose⟩
    have hchosen := hsame hdecided ⟨j, hj, .inl ⟨value, hchose⟩⟩
    exact mem_ownRetirements.mpr ⟨chosen, hchose, by rw [← hchosen]⟩
  · intro hmem
    rcases mem_ownRetirements.mp hmem with ⟨chosen, hchose, hid⟩
    have hdecided : Decided deployment.config.size final.nodes slot chosen :=
      ⟨i, hi, .inl ⟨value, hchose⟩⟩
    have hhanded : value ∈ (handed (final.nodes i).log).map Prod.fst :=
      (places_of_run hrun hcalls i hi).1.mem_iff.mpr
        (List.mem_append_right _ (List.mem_map_of_mem hmem))
    rcases List.mem_map.mp hhanded with ⟨⟨_, name⟩, hcommit, rfl⟩
    rcases (hknowledge.decided hdecided).1 with ⟨j, hj, hopened⟩
    have hchosen := hids j hj i hi _ _ ((hgiven j hj).opened slot chosen hopened)
      (.inl ⟨name, mem_handed.mp hcommit⟩) hid
    subst hchosen
    have hdelivered := deliveredId_of_decided hreachable hrun hlossless hrest hcalls hagreeing
      hdecided hi
    rcases List.mem_map.mp hdelivered with ⟨⟨found, stored⟩, hstored, heq⟩
    rw [Prod.mk.injEq] at heq
    rcases heq with ⟨rfl, _⟩
    have hmem' := Captain.mem_delivered.mp hstored
    rwa [hsame ⟨i, hi, .inr hmem'.2.2⟩ hdecided] at hstored

/-- The delivered values are the values that were handed to the only opener. -/
theorem delivered_perm_handed {i : ℕ} (hi : i < deployment.config.size)
    (hwindow : ∀ i < deployment.config.size, 0 < deployment.windowSize i)
    (honly : ∀ j < deployment.config.size, ∀ slot value,
      Opened (final.nodes j).log slot value → j = i) :
    ((final.nodes i).captain.delivered.map Prod.snd).Perm
      ((handed (final.nodes i).log).map Prod.fst) := by
  have hretired := retired_perm_at_rest hreachable hrun hlossless hrest hcalls hwindow hi
  refine List.Perm.trans (List.Perm.map _ ?_) hretired.symm
  rw [List.perm_ext_iff_of_nodup]
  · rintro ⟨slot, value⟩
    exact mem_delivered_iff_retired hreachable hrun hlossless hrest hcalls hagreeing hshards hids
      hi honly slot value
  · exact (logRefined_of_run hrun hi).deliversLog.replica.nodup_commands
  · exact List.Nodup.of_map _ (places_of_run hrun hcalls i hi).2.1.retired

end Rest

/-- All databases are the result of one history, made of the statements and copies. -/
theorem history_at_rest (config : Config) (winSize : ℕ → ℕ) (hshards : config.mode ≠ .rs)
    (hmaster : config.masterId < config.size) (hwindow : ∀ i < config.size, 0 < winSize i)
    {actions : List Action} {final : Cluster}
    (hrun : (DBManager.deployment config winSize).run actions = some final)
    (hcalls : ∀ action ∈ actions, DBManager.Calls action)
    (hdelivers : ∀ action ∈ actions, ∀ index, action ≠ .lose index) (hrest : final.net = []) :
    ∃ history copies : List Bytes,
      (∀ i < config.size, ∀ (Database : Type*) (exec : Database → Bytes → Database)
        (opened : Database), DBManager.databaseOf exec opened (final.nodes i).log =
          history.foldl exec opened) ∧
      history.Perm ((DBManager.statementsOf actions ++ copies).map DBManager.cStr) ∧
      (∀ sql ∈ copies, sql ∈ DBManager.statementsOf actions) ∧
      copies.length ≤ duplicatesOf actions := by
  have hstatements : Statements config (fun _ => True) final.nodes :=
    statements_of_run hshards hrun hcalls fun _ _ => trivial
  rcases accounted_of_run hshards hmaster hrun hcalls hdelivers with
    ⟨copies, haccounted, hcopies, hlength⟩
  have hreachable := config.reachable fun hrs => absurd hrs hshards
  have hlossless := DBManager.lossless_of_calls hcalls hdelivers
  have hcalls' := DBManager.noMasterChange_of_calls hcalls
  have hagreeing := agreeing_of_statements hrun hcalls hstatements hshards
  have hids := idsIdentify_of_statements hrun hcalls hstatements
  refine ⟨(final.nodes config.masterId).captain.delivered.map
    fun entry => DBManager.cStr entry.2.data, copies, ?_, ?_, hcopies, hlength⟩
  · intro i hi Database exec opened
    have hsame := delivered_eq_at_rest hreachable hrun hlossless hrest hcalls' hagreeing hi hmaster
      id fun slot value value' hdecided hdecided' =>
        hdecided.eq_of_idsIdentify hrun hagreeing hdecided' hshards hids
    simp only [id_eq, Prod.mk.eta, List.map_id'] at hsame
    rw [← hsame]
    exact DBManager.databaseOf_delivered hrun hi exec opened
  · have hall := haccounted
    rw [Accounted, hrest, requestsTo_nil, List.append_nil] at hall
    have hperm := delivered_perm_handed hreachable hrun hlossless hrest hcalls' hagreeing hshards
      hids hmaster hwindow (opener_of_statements hrun hcalls hstatements hshards)
    have hstrings := ((hperm.map PropValue.data).trans hall).map DBManager.cStr
    rwa [List.map_map, List.map_map] at hstrings

/-- When nothing was lost and nothing is in flight, all databases have executed one
history, in which each statement is as often as it was handed to `commit` and, where
packets were duplicated, perhaps more often. -/
theorem databases_at_rest (config : Config) (winSize : ℕ → ℕ) (hshards : config.mode ≠ .rs)
    (hmaster : config.masterId < config.size) (hwindow : ∀ i < config.size, 0 < winSize i)
    (actions : List Action) (final : Cluster)
    (hrun : (DBManager.deployment config winSize).run actions = some final)
    (hcalls : ∀ action ∈ actions, DBManager.Calls action)
    (hdelivers : ∀ action ∈ actions, ∀ index, action ≠ .lose index) (hrest : final.net = []) :
    ∃ history copies : List Bytes,
      (∀ i < config.size, ∀ (Database : Type*) (exec : Database → Bytes → Database)
        (opened : Database), DBManager.databaseOf exec opened (final.nodes i).log =
          history.foldl exec opened) ∧
      history.Perm ((DBManager.statementsOf actions ++ copies).map DBManager.cStr) ∧
      (∀ sql ∈ copies, sql ∈ DBManager.statementsOf actions) ∧
      ((∀ action ∈ actions, ∀ index, action ≠ .duplicate index) → copies = []) := by
  obtain ⟨history, copies, hsame, hperm, hcopies, hlength⟩ :=
    history_at_rest config winSize hshards hmaster hwindow hrun hcalls hdelivers hrest
  refine ⟨history, copies, hsame, hperm, hcopies, fun hnone => ?_⟩
  rw [duplicatesOf_eq_zero hnone] at hlength
  exact List.length_eq_zero_iff.mp (Nat.le_zero.mp hlength)

/-- A statement of each node; that of the master comes first. -/
theorem databases_at_rest_twoNodes :
    ∃ final, (DBManager.deployment (twoNodes .multi) fun _ => 1).run
        (.call 1 (DBManager.commit [65]) :: .call 0 (DBManager.commit [66, 0, 67]) ::
          List.replicate 14 (.deliver 0 [] {})) = some final ∧
      ∃ history : List Bytes, history.Perm [[65], [66]] ∧ ∀ i < 2,
        DBManager.databaseOf (fun db sql => db ++ [sql]) [] (final.nodes i).log =
          history.foldl (fun db sql => db ++ [sql]) [] := by
  have hfinal : ((DBManager.deployment (twoNodes .multi) fun _ => 1).run
      (.call 1 (DBManager.commit [65]) :: .call 0 (DBManager.commit [66, 0, 67]) ::
        List.replicate 14 (.deliver 0 [] {}))).map (fun final => final.net.isEmpty) =
      some true := by
    decide
  rcases Option.map_eq_some_iff.mp hfinal with ⟨final, hrun, hrest⟩
  have hcalls : ∀ action ∈ (.call 1 (DBManager.commit [65]) ::
      .call 0 (DBManager.commit [66, 0, 67]) :: List.replicate 14 (.deliver 0 [] {}) :
        List Action), DBManager.Calls action := by
    simp [DBManager.Calls]
  rcases databases_at_rest (twoNodes .multi) (fun _ => 1) (by decide) (by decide)
    (fun _ _ => Nat.one_pos) _ final hrun hcalls (by simp) (List.isEmpty_iff.mp hrest) with
    ⟨history, copies, hsame, hperm, _, hnone⟩
  rw [hnone (by simp)] at hperm
  exact ⟨final, hrun, history, hperm, fun i hi => hsame i hi _ _ []⟩

end NDNPaxos
