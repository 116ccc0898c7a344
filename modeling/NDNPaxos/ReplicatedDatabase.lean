import NDNPaxos.ReplicatedLog
import NDNPaxos.MasterView
import Mathlib.Tactic

/-!
# The replicated database

`DBManager` puts a database on top of a captain: `commit` hands a statement to the
captain, and `callback_full_` executes every delivered value.  As nobody commits a
SET_MASTER value, the configured master stays the only node that opens slots, and
`commit(std::string&)` numbers the statements apart.  All databases are therefore states
of one serial history, in all builds that deliver whole values.
-/

namespace NDNPaxos

open Replication

/-! ## The manager -/

namespace DBManager

/-- The constructor sets `callback_latency_`, which does nothing, and `callback_full_`. -/
def deployment (config : Config) (winSize : ℕ → ℕ) : Deployment where
  config := config
  windowSize := winSize
  callbackFull := fun _ => true
  callbackLatency := fun _ => true

def commit (sql : Bytes) : Call := .commitData sql none

/-- `data().c_str()`, which ends before the first NUL. -/
def cStr (data : Bytes) : Bytes := data.takeWhile (· ≠ 0)

section Execution

variable {Database : Type*} (exec : Database → Bytes → Database)

/-- `exec` is what `sqlite3_exec` makes of the database, also when it fails. -/
def countExeLatency (db : Database) (_slot : ℕ) (value : PropValue) (_nodeId : ℕ) : Database :=
  exec db (cStr value.data)

def callbackOn (db : Database) : Output → Database
  | .note (.callbackFull slot value nodeId) => countExeLatency exec db slot value nodeId
  | _ => db

/-- The database after the callbacks that the log shows. -/
def databaseOf (opened : Database) (log : List Output) : Database :=
  log.foldl (callbackOn exec) opened

theorem databaseOf_deliveriesOf (opened : Database) (log : List Output) :
    databaseOf exec opened (deliveriesOf log) = databaseOf exec opened log := by
  have hskip : ∀ db out, out.isDelivery = false → callbackOn exec db out = db := by
    intro db out hout
    cases out with
    | send packet => rfl
    | note event => cases event <;> first | rfl | simp [Output.isDelivery] at hout
  unfold databaseOf deliveriesOf
  induction log generalizing opened with
  | nil => rfl
  | cons out rest ih =>
      cases hout : out.isDelivery with
      | true => simpa [hout] using ih _
      | false => simpa [hout, hskip _ _ hout] using ih _

theorem databaseOf_deliveryEvents (opened : Database) {captain : Captain}
    (hfull : captain.callbackFull = true) (delivered : List (ℕ × PropValue)) :
    databaseOf exec opened (captain.deliveryEvents delivered) =
      (delivered.map fun entry => cStr entry.2.data).foldl exec opened := by
  unfold databaseOf
  induction delivered generalizing opened with
  | nil => rfl
  | cons entry rest ih =>
      have hentry : (captain.deliveryEvents [entry]).foldl (callbackOn exec) opened =
          exec opened (cStr entry.2.data) := by
        rw [Captain.deliveryEvents, List.flatMap_singleton, if_pos hfull]
        cases hplain : captain.callback <;> rfl
      have hsplit : captain.deliveryEvents (entry :: rest) =
          captain.deliveryEvents [entry] ++ captain.deliveryEvents rest :=
        captain.deliveryEvents_append [entry] rest
      rw [hsplit, List.foldl_append, hentry]
      exact ih _

end Execution

/-- The application calls nothing but `commit`; both callbacks call nothing. -/
def Calls : Action → Prop
  | .call _ call => ∃ sql, call = commit sql
  | .deliver _ _ app => app = {}
  | .lose _ => True
  | .duplicate _ => True

def sql? : Action → Option Bytes
  | .call _ (.commitData sql _) => some sql
  | _ => none

/-- The statements that were handed to `commit`. -/
def statementsOf (actions : List Action) : List Bytes := actions.filterMap sql?

theorem Calls.eq_commit {action : Action} (hcalls : Calls action) {call : Call}
    (hmem : call ∈ action.calls) : ∃ sql, call = commit sql := by
  cases action with
  | call i made =>
      rw [List.mem_singleton.mp hmem]
      exact hcalls
  | deliver index dataName app =>
      have happ : app = {} := hcalls
      simp [Action.calls, happ] at hmem
  | lose index => simp [Action.calls] at hmem
  | duplicate index => simp [Action.calls] at hmem

theorem noMasterChange_of_calls {actions : List Action}
    (hcalls : ∀ action ∈ actions, Calls action) :
    ∀ action ∈ actions, ∀ call ∈ action.calls, ∀ value, call ≠ .masterChange value := by
  rintro action hmem call hcall value rfl
  rcases (hcalls action hmem).eq_commit hcall with ⟨sql, heq⟩
  simp [commit] at heq

end DBManager

/-! ## Statements on their way -/

/-- The value that a node commits, forwards, or sends in a COMMIT. -/
def statement? : Output → Option PropValue
  | .note (.commit value _) => some value
  | .note (.forward value) => some value
  | .send { msg := .commit msg, .. } => some msg.propValue
  | _ => none

def Handled (log : List Output) (value : PropValue) : Prop :=
  ∃ out ∈ log, statement? out = some value

theorem handled_append {log outs : List Output} {value : PropValue} :
    Handled (log ++ outs) value ↔ Handled log value ∨ Handled outs value := by
  simp only [Handled, List.mem_append, or_and_right, exists_or]

theorem statement_eq_none_of_kind {out : Output} (hhanded : out.kind ≠ .handed)
    (hforwarding : out.kind ≠ .forwarding) : statement? out = none := by
  cases out with
  | send packet =>
      rcases packet with ⟨route, dst, msg⟩
      cases msg <;> first | rfl | exact absurd rfl hforwarding
  | note event =>
      cases event <;> first | rfl | exact absurd rfl hhanded | exact absurd rfl hforwarding

namespace Captain

variable {setting : Setting} {captain final : Captain} {outs : List Output}

/-- The outputs handle only values that meet the condition, and the master commits. -/
structure HandlesOnly (allowed : PropValue → Prop) (captain : Captain) (outs : List Output) :
    Prop where
  values : ∀ value, Handled outs value → allowed value
  master : ∀ value name, .note (.commit value name) ∈ outs → captain.view.ifMaster = true

theorem handlesOnly_of_kinds {allowed : PropValue → Prop}
    (hkinds : ∀ out ∈ outs, out.kind ≠ .handed ∧ out.kind ≠ .forwarding) :
    HandlesOnly allowed captain outs := by
  constructor
  · rintro value ⟨out, hmem, hout⟩
    rw [statement_eq_none_of_kind (hkinds out hmem).1 (hkinds out hmem).2] at hout
    simp at hout
  · intro value name hmem
    exact absurd rfl (hkinds _ hmem).1

theorem CommitStep.handlesOnly {value : PropValue} {dataName ref : Name}
    (hmaster : captain.view.ifMaster = true)
    (hstep : CommitStep captain value dataName final outs ref) :
    HandlesOnly (· = value) captain outs := by
  rcases hstep.kinds with ⟨sent, rfl, hsent⟩
  refine ⟨?_, fun _ _ _ => hmaster⟩
  rintro other ⟨out, hmem, hout⟩
  rcases List.mem_cons.mp hmem with rfl | hmem
  · exact (Option.some.inj hout).symm
  · rw [statement_eq_none_of_kind] at hout
    · simp at hout
    · rcases hsent out hmem with hkind | hkind <;> simp [hkind]
    · rcases hsent out hmem with hkind | hkind <;> simp [hkind]

theorem CommitStep.valueId {value : PropValue} {dataName ref : Name}
    (hstep : CommitStep captain value dataName final outs ref) :
    final.valueId = captain.valueId := by
  cases hstep with
  | dropped hfull => rfl
  | waits hfull => rfl
  | opens hroom hempty => rw [openSlot_eq]
  | passes hroom hwaiting hpop =>
      rw [openSlot_eq, popFront_frame hpop]
      rfl

theorem commitData_handlesOnly {sql : Bytes} {name : Option Name}
    (hcall : captain.commitData sql name = some (final, outs)) :
    final.valueId = captain.valueId + 2 ^ 16 ∧
      HandlesOnly (· = { id := captain.valueId + 2 ^ 16, data := sql }) captain outs := by
  unfold commitData at hcall
  cases hmaster : captain.view.ifMaster with
  | true =>
      simp only [hmaster, if_true] at hcall
      rcases commitRef_step hcall with ⟨next, ref, hstep, rfl⟩
      have hnumbered : ({ captain with valueId := captain.valueId + 2 ^ 16 } :
          Captain).view.ifMaster = true := hmaster
      have honly := hstep.handlesOnly hnumbered
      exact ⟨hstep.valueId, honly.values, fun _ _ _ => hmaster⟩
  | false =>
      simp only [hmaster, Bool.false_eq_true, if_false, Option.bind_eq_bind,
        Option.bind_eq_some_iff, pure, Option.some.injEq, Prod.mk.injEq] at hcall
      rcases hcall with ⟨sent, hsend, rfl, rfl⟩
      rw [sendInterest_eq_some hsend]
      refine ⟨rfl, ?_, ?_⟩
      · rintro value ⟨out, hmem, hout⟩
        simp only [List.mem_cons, List.not_mem_nil, or_false] at hmem
        rcases hmem with rfl | rfl <;> exact (Option.some.inj hout).symm
      · intro value dataName hmem
        simp at hmem

theorem handleCommit_handlesOnly {msg : MsgCommit}
    (hhandle : captain.handleCommit msg = some (final, outs)) :
    final.valueId = captain.valueId ∧ HandlesOnly (· = msg.propValue) captain outs := by
  unfold handleCommit at hhandle
  cases hmaster : captain.view.ifMaster with
  | true =>
      simp only [hmaster, if_true, Option.bind_eq_bind, Option.bind_eq_some_iff, Prod.exists,
        pure, Option.some.injEq, Prod.mk.injEq] at hhandle
      rcases hhandle with ⟨next, committed, hcommit, rfl, rfl⟩
      rcases commitRef_step hcommit with ⟨next, ref, hstep, rfl⟩
      have honly := hstep.handlesOnly hmaster
      refine ⟨hstep.valueId, ?_, fun _ _ _ => hmaster⟩
      rintro value ⟨out, hmem, hout⟩
      simp only [sendData, List.singleton_append, List.mem_cons] at hmem
      rcases hmem with rfl | rfl | hmem
      · exact (Option.some.inj hout).symm
      · simp [statement?] at hout
      · exact honly.values value ⟨out, hmem, hout⟩
  | false =>
      simp only [hmaster, Bool.false_eq_true, if_false, Option.some.injEq, Prod.mk.injEq] at hhandle
      rcases hhandle with ⟨rfl, rfl⟩
      refine ⟨rfl, ?_, ?_⟩
      · rintro value ⟨out, hmem, hout⟩
        rw [List.mem_singleton.mp hmem] at hout
        simp [statement?] at hout
      · intro value name hmem
        simp at hmem

theorem FinishStep.valueId {slot : ℕ} {info : ProposerInfo} {chosen : PropValue}
    {dataName : Name} (hstep : FinishStep captain slot info chosen dataName final outs) :
    final.valueId = captain.valueId := by
  cases hstep with
  | idle hown hempty => rfl
  | next hown hpop =>
      rw [openSlot_eq, popFront_frame hpop]
      rfl
  | recommit hforeign =>
      rw [openSlot_eq]
      rfl

/-- Without calls and COMMIT messages, a move has nothing to do with statements. -/
theorem Move.quiet (hshape : LogShape captain) (hcalls : ∀ call, ¬ setting.calls call)
    (hcommits : ∀ msg, ¬ setting.received (.commit msg))
    (hmove : Move setting captain outs final) :
    final.valueId = captain.valueId ∧
      ∀ out ∈ outs, out.kind ≠ .handed ∧ out.kind ≠ .forwarding := by
  cases hmove with
  | base hmove =>
      cases hmove with
      | forwarding hmove =>
          cases hmove with
          | crash hcall => exact absurd hcall (hcalls _)
          | forward hcall hmaster hid hsend => exact absurd hcall (hcalls _)
          | echo hreceived hmaster => exact absurd hreceived (hcommits _)
          | reply hreceived hmaster => exact absurd hreceived (hcommits _)
      | acceptor hmove =>
          rw [hmove.spec.1]
          exact ⟨rfl, fun out hmem => by simp [hmove.spec.2 out hmem]⟩
      | proposer hmove =>
          rw [hmove.spec.1]
          exact ⟨rfl, fun out hmem => by simp [hmove.spec.2.2 out hmem]⟩
      | learner hmove =>
          rw [(hmove.spec hshape).1]
          refine ⟨rfl, ?_⟩
          intro out hmem
          rcases (hmove.spec hshape).2.2 out hmem with hkind | hkind <;> simp [hkind]
  | commit hsource hstep =>
      cases hsource with
      | called hcall => exact absurd hcall (hcalls _)
      | changed hcall => exact absurd hcall (hcalls _)
      | numbered hcall hid => exact absurd hcall (hcalls _)
      | requested hreceived hvalue => exact absurd hreceived (hcommits _)
  | command hcall hmaster hid => exact absurd hcall (hcalls _)
  | finish hinfo hstatus hvalue hstored hretires hstep =>
      refine ⟨hstep.valueId, ?_⟩
      intro out hmem
      rcases List.mem_append.mp hmem with hannounced | hfinish
      · simp [kind_of_mem_announce hannounced]
      · rcases hstep.kinds with ⟨sent, rfl, hsent⟩
        rcases List.mem_cons.mp hfinish with rfl | hfinish
        · simp [Output.kind, Event.kind]
        · rcases hsent out hfinish with hkind | hkind <;> simp [hkind]

theorem quiet_of_chain (hkept : captain.WellKept) (hcalls : ∀ call, ¬ setting.calls call)
    (hcommits : ∀ msg, ¬ setting.received (.commit msg))
    (hchain : OutputChain (Move setting) captain outs final) :
    final.valueId = captain.valueId ∧
      ∀ out ∈ outs, out.kind ≠ .handed ∧ out.kind ≠ .forwarding := by
  let invariant (next : Captain) (log : List Output) := next.WellKept ∧
    next.valueId = captain.valueId ∧ ∀ out ∈ log, out.kind ≠ .handed ∧ out.kind ≠ .forwarding
  suffices hall : invariant final ([] ++ outs) from hall.2
  refine hchain.invariant invariant ?_ ⟨hkept, rfl, by simp⟩
  rintro next log outs last ⟨hkept, hvalueId, hkinds⟩ hmove
  have hquiet := hmove.quiet hkept.shape hcalls hcommits
  refine ⟨hmove.wellKept hkept, hquiet.1.trans hvalueId, ?_⟩
  intro out hmem
  rcases List.mem_append.mp hmem with hold | hnew
  · exact hkinds out hold
  · exact hquiet.2 out hnew

theorem handleMsg_quiet {msg : Message} {dataName : Name} (hkept : captain.WellKept)
    (hcommits : ∀ asked, msg ≠ .commit asked)
    (hhandle : captain.handleMsg msg dataName {} = some (final, outs)) :
    final.valueId = captain.valueId ∧
      ∀ out ∈ outs, out.kind ≠ .handed ∧ out.kind ≠ .forwarding := by
  let setting : Setting := { received := (· = msg), calls := fun _ => False, dataName }
  have hchain : OutputChain (Move setting) captain outs final :=
    handleMsg_moves hkept rfl (fun _ _ _ => trivial) (by simp) hhandle
  have hreceived : ∀ asked, ¬ setting.received (.commit asked) :=
    fun asked hasked => hcommits asked hasked.symm
  exact quiet_of_chain hkept (fun _ => not_false) hreceived hchain

end Captain

/-! ## Statements in a run -/

/-- All statements of the cluster: who has numbered them, and who commits them. -/
structure Statements (config : Config) (given : Bytes → Prop) (nodes : ℕ → Node) : Prop where
  numbered : ∀ i < config.size, (nodes i).captain.valueId % 2 ^ 16 = i
  plain : ∀ i < config.size, ∀ value, Handled (nodes i).log value →
    value.cmdType = none ∧ given value.data
  below : ∀ i < config.size, ∀ value, Handled (nodes i).log value →
    ∃ j < config.size, value.id % 2 ^ 16 = j ∧ value.id ≤ (nodes j).captain.valueId
  unique : ∀ i < config.size, ∀ j < config.size, ∀ value value',
    Handled (nodes i).log value → Handled (nodes j).log value' → value.id = value'.id →
      value = value'
  onlyMaster : ∀ i < config.size, ∀ value name,
    .note (.commit value name) ∈ (nodes i).log → i = config.masterId

theorem statements_initial (deployment : Deployment) (given : Bytes → Prop) :
    Statements deployment.config given deployment.node := by
  have hnone : ∀ i value, ¬ Handled (deployment.node i).log value := by
    rintro i value ⟨out, hmem, _⟩
    simp [Deployment.node] at hmem
  constructor
  · intro i hi
    have hsize := deployment.config.size_le
    have hnot : ¬ deployment.config.size ≤ i := by omega
    change (if deployment.config.size ≤ i then 0 else i) % 2 ^ 16 = i
    rw [if_neg hnot, Nat.mod_eq_of_lt (by omega)]
  · exact fun i _ value hhandled => absurd hhandled (hnone i value)
  · exact fun i _ value hhandled => absurd hhandled (hnone i value)
  · exact fun i _ j _ value value' hhandled => absurd hhandled (hnone i value)
  · intro i _ value name hmem
    simp [Deployment.node] at hmem

theorem handled_actOn {nodes : ℕ → Node} {i j : ℕ} {final : Captain} {outs : List Output}
    {value : PropValue} :
    Handled (actOn nodes i (final, outs) j).log value ↔
      Handled (nodes j).log value ∨ j = i ∧ Handled outs value := by
  by_cases heq : j = i
  · subst heq
    simp [Node.after, handled_append]
  · simp [actOn_ne nodes heq, heq]

namespace Statements

variable {config : Config} {given : Bytes → Prop} {nodes : ℕ → Node} {i : ℕ}
  {final : Captain} {outs : List Output}

theorem commits_actOn (hstatements : Statements config given nodes)
    (hmaster : ∀ value name, .note (.commit value name) ∈ outs → i = config.masterId) :
    ∀ j < config.size, ∀ value name,
      .note (.commit value name) ∈ (actOn nodes i (final, outs) j).log → j = config.masterId := by
  intro j hj value name hmem
  rcases mem_log_actOn.mp hmem with hold | ⟨rfl, hnew⟩
  · exact hstatements.onlyMaster j hj value name hold
  · exact hmaster value name hnew

/-- A step that handles only statements that are on their way already. -/
theorem passes (hstatements : Statements config given nodes)
    (hvalueId : final.valueId = (nodes i).captain.valueId)
    (hvalues : ∀ value, Handled outs value → ∃ j < config.size, Handled (nodes j).log value)
    (hmaster : ∀ value name, .note (.commit value name) ∈ outs → i = config.masterId) :
    Statements config given (actOn nodes i (final, outs)) := by
  have hids : ∀ j, (actOn nodes i (final, outs) j).captain.valueId =
      (nodes j).captain.valueId := by
    intro j
    by_cases heq : j = i
    · subst heq
      simpa [Node.after] using hvalueId
    · rw [actOn_ne nodes heq]
  have hsource : ∀ j < config.size, ∀ value,
      Handled (actOn nodes i (final, outs) j).log value →
        ∃ k < config.size, Handled (nodes k).log value := by
    intro j hj value hhandled
    rcases handled_actOn.mp hhandled with hold | ⟨_, hnew⟩
    · exact ⟨j, hj, hold⟩
    · exact hvalues value hnew
  constructor
  · intro j hj
    rw [hids]
    exact hstatements.numbered j hj
  · intro j hj value hhandled
    rcases hsource j hj value hhandled with ⟨k, hk, hold⟩
    exact hstatements.plain k hk value hold
  · intro j hj value hhandled
    rcases hsource j hj value hhandled with ⟨k, hk, hold⟩
    rcases hstatements.below k hk value hold with ⟨l, hl, hnode, hle⟩
    exact ⟨l, hl, hnode, by rwa [hids]⟩
  · intro j hj j' hj' value value' hhandled hhandled'
    rcases hsource j hj value hhandled with ⟨k, hk, hold⟩
    rcases hsource j' hj' value' hhandled' with ⟨k', hk', hold'⟩
    exact hstatements.unique k hk k' hk' value value' hold hold'
  · exact hstatements.commits_actOn hmaster

/-- A step that numbers a new statement. -/
theorem numbers (hstatements : Statements config given nodes) (hi : i < config.size)
    {sql : Bytes} (hgiven : given sql)
    (hvalueId : final.valueId = (nodes i).captain.valueId + 2 ^ 16)
    (hvalues : ∀ value, Handled outs value →
      value = { id := (nodes i).captain.valueId + 2 ^ 16, data := sql })
    (hmaster : ∀ value name, .note (.commit value name) ∈ outs → i = config.masterId) :
    Statements config given (actOn nodes i (final, outs)) := by
  have hnumber := hstatements.numbered i hi
  have hids : ∀ j, (nodes j).captain.valueId ≤
      (actOn nodes i (final, outs) j).captain.valueId := by
    intro j
    by_cases heq : j = i
    · subst heq
      rw [actOn_self, Node.after, hvalueId]
      omega
    · rw [actOn_ne nodes heq]
  have hown : (actOn nodes i (final, outs) i).captain.valueId =
      (nodes i).captain.valueId + 2 ^ 16 := by
    rw [actOn_self, Node.after, hvalueId]
  -- No statement that is on its way has the new id.
  have hfresh : ∀ j < config.size, ∀ value, Handled (nodes j).log value →
      value.id ≠ (nodes i).captain.valueId + 2 ^ 16 := by
    intro j hj value hhandled hid
    rcases hstatements.below j hj value hhandled with ⟨k, hk, hnode, hle⟩
    rw [hid, Nat.add_mod_right, hnumber] at hnode
    subst hnode
    omega
  constructor
  · intro j hj
    by_cases heq : j = i
    · subst heq
      rw [hown, Nat.add_mod_right, hnumber]
    · rw [actOn_ne nodes heq]
      exact hstatements.numbered j hj
  · intro j hj value hhandled
    rcases handled_actOn.mp hhandled with hold | ⟨_, hnew⟩
    · exact hstatements.plain j hj value hold
    · rw [hvalues value hnew]
      exact ⟨rfl, hgiven⟩
  · intro j hj value hhandled
    rcases handled_actOn.mp hhandled with hold | ⟨_, hnew⟩
    · rcases hstatements.below j hj value hold with ⟨k, hk, hnode, hle⟩
      exact ⟨k, hk, hnode, hle.trans (hids k)⟩
    · rw [hvalues value hnew]
      exact ⟨i, hi, by rw [Nat.add_mod_right, hnumber], hown.ge⟩
  · intro j hj k hk value value' hhandled hhandled' hid
    rcases handled_actOn.mp hhandled with hold | ⟨_, hnew⟩ <;>
      rcases handled_actOn.mp hhandled' with hold' | ⟨_, hnew'⟩
    · exact hstatements.unique j hj k hk value value' hold hold' hid
    · rw [hvalues value' hnew'] at hid
      exact absurd hid (hfresh j hj value hold)
    · rw [hvalues value hnew] at hid
      exact absurd hid.symm (hfresh k hk value' hold')
    · rw [hvalues value hnew, hvalues value' hnew']
  · exact hstatements.commits_actOn hmaster

end Statements

/-! ## The master stays -/

section Master

variable {deployment : Deployment} {actions : List Action} {final : Cluster}
  {given : Bytes → Prop} (hrun : deployment.run actions = some final)
  (hcalls : ∀ action ∈ actions, DBManager.Calls action)
  (hstatements : Statements deployment.config given final.nodes)

include hrun hcalls hstatements

theorem handled_of_given {i : ℕ} (hi : i < deployment.config.size) {value : PropValue}
    (hgiven : Given (final.nodes i).log value) :
    Handled (final.nodes i).log value ∧ i = deployment.config.masterId := by
  have hquiet := (reaches_of_run noCommand_preserved.moves (fun i _ value hmem => by
    simp [Deployment.node] at hmem) (runMeets_of_calls deployment
      (DBManager.noMasterChange_of_calls hcalls)) hrun).invariant
  rcases hgiven with ⟨name, hmem⟩ | hmem
  · exact ⟨⟨_, hmem, rfl⟩, hstatements.onlyMaster i hi value name hmem⟩
  · exact absurd hmem (hquiet i hi value)

theorem masterId_of_statements (hshards : deployment.config.mode ≠ .rs) {i : ℕ}
    (hi : i < deployment.config.size) :
    (final.nodes i).captain.view.masterId = deployment.config.masterId := by
  rcases knowledge_of_run hshards hrun with ⟨_, _, hknowledge, hgiven⟩
  rw [(logRefined_of_run hrun hi).deliversLog.masterId]
  apply masterAfter_eq_self
  intro entry hmem hcommand
  have hstored := (mem_deliveredFrom hmem).2
  rcases (hknowledge.decided ⟨i, hi, .inr hstored⟩).1 with ⟨j, hj, hopened⟩
  have hhandled := (handled_of_given hrun hcalls hstatements hj
    ((hgiven j hj).opened entry.1 entry.2 hopened)).1
  rw [(hstatements.plain j hj entry.2 hhandled).1] at hcommand
  simp at hcommand

end Master

theorem handled_of_sent {size : ℕ} {cluster : Cluster} (hsent : cluster.SentBy size)
    {packet : Packet} (hmem : packet ∈ cluster.net) {msg : MsgCommit}
    (hmsg : packet.msg = .commit msg) :
    ∃ j < size, Handled (cluster.nodes j).log msg.propValue := by
  rcases hsent packet hmem with ⟨j, hj, hlog⟩
  refine ⟨j, hj, .send packet, hlog, ?_⟩
  rcases packet with ⟨route, dst, _⟩
  subst hmsg
  rfl

section Step

variable {deployment : Deployment} {actions : List Action} {mid next : Cluster}
  {given : Bytes → Prop} (hshards : deployment.config.mode ≠ .rs)
  (hrun : deployment.run actions = some mid)
  (hcalls : ∀ action ∈ actions, DBManager.Calls action)
  (hstatements : Statements deployment.config given mid.nodes)

include hshards hrun hcalls hstatements

theorem eq_master_of_ifMaster {i : ℕ} (hi : i < deployment.config.size)
    (hmaster : (mid.nodes i).captain.view.ifMaster = true) : i = deployment.config.masterId := by
  rcases knowledge_of_run hshards hrun with ⟨hkeeps, _⟩
  rw [View.ifMaster, beq_iff_eq, hkeeps.nodeId i hi,
    masterId_of_statements hrun hcalls hstatements hshards hi] at hmaster
  exact hmaster

theorem statements_step {action : Action} (haction : DBManager.Calls action)
    (hgiven : ∀ sql ∈ DBManager.sql? action, given sql)
    (hstep : mid.step deployment action = some next) :
    Statements deployment.config given next.nodes := by
  have hreaches := reaches_of_run (logRefined_preserved deployment {}).moves
    (fun i _ => logRefined_initial deployment i) (runMeets_anything deployment actions) hrun
  cases action with
  | call i made =>
      rcases haction with ⟨sql, rfl⟩
      rcases Cluster.step_call hstep with ⟨hi, final, outs, hcall, rfl⟩
      rcases Captain.commitData_handlesOnly hcall with ⟨hvalueId, honly⟩
      exact hstatements.numbers hi (hgiven sql rfl) hvalueId honly.values fun value name hmem =>
        eq_master_of_ifMaster hshards hrun hcalls hstatements hi (honly.master value name hmem)
  | deliver index dataName app =>
      have happ : app = {} := haction
      subst happ
      rcases Cluster.step_deliver hstep with ⟨packet, hpacket, hi, final, outs, hhandle, rfl⟩
      have hkept := hreaches.keeps.wellKept packet.dst hi
      by_cases hcommit : ∃ msg, packet.msg = .commit msg
      · rcases hcommit with ⟨msg, hmsg⟩
        rcases handled_of_sent hreaches.sent (List.mem_of_getElem? hpacket) hmsg with
          ⟨j, hj, hhandled⟩
        rw [hmsg, Captain.handleMsg] at hhandle
        split at hhandle
        next =>
          rw [Option.some.injEq, Prod.mk.injEq] at hhandle
          rcases hhandle with ⟨rfl, rfl⟩
          refine hstatements.passes rfl ?_ (by simp)
          rintro value ⟨out, hmem, _⟩
          simp at hmem
        next =>
          rcases Captain.handleCommit_handlesOnly hhandle with ⟨hvalueId, honly⟩
          refine hstatements.passes hvalueId ?_ fun value name hmem =>
            eq_master_of_ifMaster hshards hrun hcalls hstatements hi (honly.master value name hmem)
          intro value hvalue
          exact ⟨j, hj, by rwa [honly.values value hvalue]⟩
      · have hquiet := Captain.handleMsg_quiet hkept (fun msg hmsg => hcommit ⟨msg, hmsg⟩) hhandle
        have honly : Captain.HandlesOnly (fun _ => False) (mid.nodes packet.dst).captain outs :=
          Captain.handlesOnly_of_kinds hquiet.2
        refine hstatements.passes hquiet.1 (fun value hvalue => (honly.values value hvalue).elim) ?_
        intro value name hmem
        exact absurd rfl (hquiet.2 _ hmem).1
  | lose index =>
      rcases Cluster.step_lose hstep with ⟨_, rfl⟩
      exact hstatements
  | duplicate index =>
      rcases Cluster.step_duplicate hstep with ⟨packet, _, rfl⟩
      exact hstatements

end Step

theorem statements_of_run {deployment : Deployment} (hshards : deployment.config.mode ≠ .rs)
    {given : Bytes → Prop} {actions : List Action} {final : Cluster}
    (hrun : deployment.run actions = some final)
    (hcalls : ∀ action ∈ actions, DBManager.Calls action)
    (hgiven : ∀ sql ∈ DBManager.statementsOf actions, given sql) :
    Statements deployment.config given final.nodes := by
  induction actions using List.reverseRecOn generalizing final with
  | nil =>
      have hstart : deployment.initial = final := Option.some.inj hrun
      rw [← hstart]
      exact statements_initial deployment given
  | append_singleton past action ih =>
      rcases PartialMachine.run_append_eq_some.mp hrun with ⟨mid, hmid, hlast⟩
      rw [PartialMachine.run_singleton] at hlast
      have hpast : ∀ action ∈ past, DBManager.Calls action :=
        fun action hmem => hcalls action (List.mem_append_left _ hmem)
      rw [DBManager.statementsOf, List.filterMap_append] at hgiven
      have hstatements := ih hmid hpast
        fun sql hmem => hgiven sql (List.mem_append_left _ hmem)
      refine statements_step hshards hmid hpast hstatements
        (hcalls action (List.mem_append_right _ (List.mem_singleton_self _))) ?_ hlast
      intro sql hsql
      refine hgiven sql (List.mem_append_right _ ?_)
      exact List.mem_filterMap.mpr ⟨action, List.mem_singleton_self _, hsql⟩

/-! ## One serial history -/

section History

variable {deployment : Deployment} {actions : List Action} {final : Cluster}
  {given : Bytes → Prop} (hrun : deployment.run actions = some final)
  (hcalls : ∀ action ∈ actions, DBManager.Calls action)
  (hstatements : Statements deployment.config given final.nodes)

include hrun hcalls hstatements

theorem idsIdentify_of_statements : IdsIdentify deployment.config.size final.nodes := by
  intro i hi j hj value value' hgiven hgiven' hid
  exact hstatements.unique i hi j hj value value'
    (handled_of_given hrun hcalls hstatements hi hgiven).1
    (handled_of_given hrun hcalls hstatements hj hgiven').1 hid

theorem opener_of_statements (hshards : deployment.config.mode ≠ .rs) :
    ∀ i < deployment.config.size, ∀ slot value,
      Opened (final.nodes i).log slot value → i = deployment.config.masterId := by
  intro i hi slot value hopened
  rcases knowledge_of_run hshards hrun with ⟨_, _, _, hgiven⟩
  exact (handled_of_given hrun hcalls hstatements hi
    ((hgiven i hi).opened slot value hopened)).2

/-- Only the master opens slots, so no smaller node opens a slot of a larger one. -/
theorem agreeing_of_statements (hshards : deployment.config.mode ≠ .rs) :
    deployment.Agreeing final.nodes := by
  have hopener := opener_of_statements hrun hcalls hstatements hshards
  have hlease : LeaseRespected deployment.config final.nodes := by
    rintro slot node hnode lower hlt ⟨value, name, hfirst⟩ ⟨value', hopened⟩
    have hhigh := hopener node hnode slot value ⟨name, 1, hfirst⟩
    have hlow := hopener lower (hlt.trans hnode) slot value' hopened
    omega
  unfold Deployment.Agreeing
  cases hmode : deployment.config.mode with
  | basic => trivial
  | quorum => trivial
  | multi => exact hlease
  | rs => exact absurd hmode hshards

end History

theorem DBManager.databaseOf_delivered {config : Config} {winSize : ℕ → ℕ}
    {actions : List Action} {final : Cluster}
    (hrun : (deployment config winSize).run actions = some final) {i : ℕ} (hi : i < config.size)
    {Database : Type*} (exec : Database → Bytes → Database) (opened : Database) :
    databaseOf exec opened (final.nodes i).log =
      ((final.nodes i).captain.delivered.map fun entry => cStr entry.2.data).foldl exec
        opened := by
  rw [← databaseOf_deliveriesOf, (logRefined_of_run hrun hi).deliversLog.deliveries_eq]
  exact databaseOf_deliveryEvents exec opened rfl _

/-- The databases of all nodes at all times are states of one serial history of
statements that were handed to `commit`. -/
theorem databases_serial (config : Config) (winSize : ℕ → ℕ) (hshards : config.mode ≠ .rs)
    (actions : List Action) (final : Cluster)
    (hrun : (DBManager.deployment config winSize).run actions = some final)
    (hcalls : ∀ action ∈ actions, DBManager.Calls action) :
    ∃ history : List Bytes,
      (∀ sql ∈ history, ∃ given ∈ DBManager.statementsOf actions, sql = DBManager.cStr given) ∧
      ∀ past rest mid, actions = past ++ rest →
        (DBManager.deployment config winSize).run past = some mid → ∀ i < config.size,
          (mid.nodes i).captain.maxChosenWithoutHole ≤ history.length ∧
          ∀ (Database : Type*) (exec : Database → Bytes → Database) (opened : Database),
            DBManager.databaseOf exec opened (mid.nodes i).log =
              (history.take (mid.nodes i).captain.maxChosenWithoutHole).foldl exec opened := by
  have hstatements : Statements config (· ∈ DBManager.statementsOf actions) final.nodes :=
    statements_of_run hshards hrun hcalls fun _ hmem => hmem
  rcases Finset.exists_max_image (Finset.range config.size)
    (fun i => (final.nodes i).captain.maxChosenWithoutHole)
    ⟨0, Finset.mem_range.mpr config.size_pos⟩ with ⟨longest, hlongest, hmax⟩
  rw [Finset.mem_range] at hlongest
  refine ⟨(final.nodes longest).captain.delivered.map fun entry => DBManager.cStr entry.2.data,
    ?_, ?_⟩
  · intro sql hmem
    rcases List.mem_map.mp hmem with ⟨entry, hentry, rfl⟩
    rcases knowledge_of_run hshards hrun with ⟨_, _, hknowledge, hgiven⟩
    rcases (hknowledge.decided ⟨longest, hlongest, .inr (mem_deliveredFrom hentry).2⟩).1 with
      ⟨j, hj, hopened⟩
    have hhandled := (handled_of_given hrun hcalls hstatements hj
      ((hgiven j hj).opened entry.1 entry.2 hopened)).1
    exact ⟨_, (hstatements.plain j hj entry.2 hhandled).2, rfl⟩
  · rintro past rest mid rfl hmid i hi
    have hgrown := (keepsLog_of_run hmid hrun hi).hole_le
    have hle := hgrown.trans (hmax i (Finset.mem_range.mpr hi))
    have hearly := (logRefined_of_run hmid hi).deliversLog
    have hlate := (logRefined_of_run hrun hlongest).deliversLog
    have hcomparable := delivered_comparable_of_ids hmid hrun
      (agreeing_of_statements hrun hcalls hstatements hshards) hi hlongest hshards
      (idsIdentify_of_statements hrun hcalls hstatements)
    rw [← hearly.length_delivered, ← hlate.length_delivered] at hle
    rcases hcomparable.extends hle with ⟨more, hmore⟩
    rw [hmore, List.map_append, ← hearly.length_delivered]
    refine ⟨by simp, ?_⟩
    intro Database exec opened
    rw [List.take_left' (List.length_map _)]
    exact DBManager.databaseOf_delivered hmid hi exec opened

/-- Node 1 forwards a statement to the master, which has another one of its own. -/
theorem databases_serial_twoNodes :
    ∃ final, (DBManager.deployment (twoNodes .multi) fun _ => 1).run
        (.call 1 (DBManager.commit [65]) :: .call 0 (DBManager.commit [66, 0, 67]) ::
          List.replicate 12 (.deliver 0 [] {})) = some final ∧
      (final.nodes 0).captain.maxChosenWithoutHole = 2 ∧
      (final.nodes 1).captain.maxChosenWithoutHole = 1 ∧
      ∃ history : List Bytes, 2 ≤ history.length ∧
        DBManager.databaseOf (fun db sql => db ++ [sql]) [] (final.nodes 1).log =
          (history.take 1).foldl (fun db sql => db ++ [sql]) [] := by
  have hfinal : ((DBManager.deployment (twoNodes .multi) fun _ => 1).run
      (.call 1 (DBManager.commit [65]) :: .call 0 (DBManager.commit [66, 0, 67]) ::
        List.replicate 12 (.deliver 0 [] {}))).map
        (fun final => ((final.nodes 0).captain.maxChosenWithoutHole,
          (final.nodes 1).captain.maxChosenWithoutHole)) = some (2, 1) := by
    decide
  rcases Option.map_eq_some_iff.mp hfinal with ⟨final, hrun, hcounts⟩
  rw [Prod.mk.injEq] at hcounts
  have hcalls : ∀ action ∈ (.call 1 (DBManager.commit [65]) ::
      .call 0 (DBManager.commit [66, 0, 67]) :: List.replicate 12 (.deliver 0 [] {}) :
        List Action), DBManager.Calls action := by
    simp [DBManager.Calls]
  rcases databases_serial (twoNodes .multi) (fun _ => 1) (by decide) _ final hrun hcalls with
    ⟨history, _, hserial⟩
  have hall := hserial _ [] final (List.append_nil _).symm hrun
  refine ⟨final, hrun, hcounts.1, hcounts.2, history, ?_, ?_⟩
  · exact hcounts.1 ▸ (hall 0 (by decide)).1
  · have hnode := (hall 1 (by decide)).2 (List Bytes) (fun db sql => db ++ [sql]) []
    rwa [hcounts.2] at hnode

end NDNPaxos
