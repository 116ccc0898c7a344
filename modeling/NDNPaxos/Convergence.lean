import NDNPaxos.CommitOrder
import NDNPaxos.MessageBudget
import NDNPaxos.Traffic
import Mathlib.Tactic

/-!
# Convergence

Whichever packet is delivered next, its node handles it, and the delivery uses up one of
those that remain.  When the application pauses and nothing is lost, the deliveries
therefore come to an end in any order, and all databases have executed all statements.
-/

namespace NDNPaxos

/-! ## The slots of a run -/

/-- Under the lease a node opens at most one slot for each value that it was handed. -/
theorem maxSlot_le_handed {config : Config} {captain : Captain} {log : List Output}
    (hqueue : captain.QueueInvariant log) (hleased : ∀ out ∈ log, out.Leased config) :
    captain.maxSlot ≤ (handed log).length := by
  have hopened : (openedSlots log).length = captain.maxSlot := by
    rw [hqueue.opened, List.length_range']
  have hslots := congrArg List.length (openings_fst log)
  have hvalues := congrArg List.length (openings_snd hleased)
  have hhanded := congrArg List.length hqueue.fifo
  simp only [List.length_map, List.length_append] at hslots hvalues hhanded
  omega

section Runs

variable {deployment : Deployment} {actions : List Action} {final : Cluster}
  (hmode : deployment.config.mode = .multi)
  (hmaster : deployment.config.masterId < deployment.config.size)
  (hrun : deployment.run actions = some final)
  (hcalls : ∀ action ∈ actions, DBManager.Calls action)
  (hdelivers : ∀ action ∈ actions, ∀ index, action ≠ .lose index)

include hmode hmaster hrun hcalls hdelivers

theorem slotsUpTo_of_calls :
    SlotsUpTo deployment.config.size
      ((DBManager.statementsOf actions).length + duplicatesOf actions) final.nodes := by
  have hshards : deployment.config.mode ≠ .rs := by simp [hmode]
  have hstatements : Statements deployment.config (fun _ => True) final.nodes :=
    statements_of_run hshards hrun hcalls fun _ _ => trivial
  obtain ⟨copies, haccounted, _, hcopies⟩ :=
    accounted_of_run hshards hmaster hrun hcalls hdelivers
  intro i hi
  have hqueue := (queues_of_run hrun (DBManager.noMasterChange_of_calls hcalls) i hi).1
  have hle := maxSlot_le_handed hqueue (leaseHeld_of_calls hmode hrun hcalls i hi).2
  by_cases hself : i = deployment.config.masterId
  · have hlength := List.Perm.length_eq haccounted
    rw [← hself, List.length_append, List.length_append, handedData, List.length_map,
      List.length_map] at hlength
    omega
  · have hnone : handed (final.nodes i).log = [] := by
      rw [List.eq_nil_iff_forall_not_mem]
      rintro ⟨value, name⟩ hmem
      exact hself (hstatements.onlyMaster i hi value name (mem_handed.mp hmem))
    rw [hnone, List.length_nil] at hle
    omega

/-- A cluster that was given so few statements is never stuck. -/
theorem exists_deliver_of_calls
    (hfew : (DBManager.statementsOf actions).length + duplicatesOf actions < 2 ^ 31 - 1)
    {index : ℕ} (hindex : index < final.net.length) (dataName : Name) :
    ∃ next, final.step deployment (.deliver index dataName {}) = some next := by
  have hshards : deployment.config.mode ≠ .rs := by simp [hmode]
  have hqueues := queues_of_run hrun (DBManager.noMasterChange_of_calls hcalls)
  exact (inOrder_of_run hfew hshards hrun).exists_deliver hfew hshards
    (slotsUpTo_of_calls hmode hmaster hrun hcalls hdelivers)
    (fun i hi => Captain.canPop_of_paired (hqueues i hi).1.paired) hindex dataName
    (final.appEnds_nothing index)

end Runs

/-! ## Deliveries only -/

/-- A step that hands the packet to its node, whose callbacks call nothing. -/
def Action.Delivers (action : Action) : Prop :=
  ∃ index dataName, action = .deliver index dataName {}

section Delivers

variable {actions more : List Action} (hmore : ∀ action ∈ more, action.Delivers)

include hmore

theorem statementsOf_delivers :
    DBManager.statementsOf (actions ++ more) = DBManager.statementsOf actions := by
  have hnone : DBManager.statementsOf more = [] := by
    rw [DBManager.statementsOf, List.filterMap_eq_nil_iff]
    intro action hmem
    obtain ⟨_, _, rfl⟩ := hmore action hmem
    rfl
  rw [DBManager.statementsOf_append, hnone, List.append_nil]

theorem duplicatesOf_delivers : duplicatesOf (actions ++ more) = duplicatesOf actions := by
  have hnone : duplicatesOf more = 0 := by
    apply duplicatesOf_eq_zero
    intro action hmem index
    obtain ⟨_, _, rfl⟩ := hmore action hmem
    simp
  rw [duplicatesOf_append, hnone, add_zero]

theorem deliverCount_delivers :
    deliverCount (actions ++ more) = deliverCount actions + more.length := by
  have hall : deliverCount more = more.length := by
    rw [deliverCount, List.countP_eq_length]
    intro action hmem
    obtain ⟨_, _, rfl⟩ := hmore action hmem
    rfl
  rw [deliverCount_append, hall]

theorem calls_delivers (hcalls : ∀ action ∈ actions, DBManager.Calls action) :
    ∀ action ∈ actions ++ more, DBManager.Calls action := by
  refine List.forall_mem_append.mpr ⟨hcalls, fun action hmem => ?_⟩
  obtain ⟨_, _, rfl⟩ := hmore action hmem
  exact rfl

theorem lossless_delivers (hdelivers : ∀ action ∈ actions, ∀ index, action ≠ .lose index) :
    ∀ action ∈ actions ++ more, ∀ index, action ≠ .lose index := by
  refine List.forall_mem_append.mpr ⟨hdelivers, fun action hmem index => ?_⟩
  obtain ⟨_, _, rfl⟩ := hmore action hmem
  simp

end Delivers

/-- Deliveries in any order come to an end. -/
theorem exists_rest {deployment : Deployment} (hmode : deployment.config.mode = .multi)
    (hmaster : deployment.config.masterId < deployment.config.size) {actions : List Action}
    {final : Cluster} (hrun : deployment.run actions = some final)
    (hcalls : ∀ action ∈ actions, DBManager.Calls action)
    (hdelivers : ∀ action ∈ actions, ∀ index, action ≠ .lose index)
    (hfew : (DBManager.statementsOf actions).length + duplicatesOf actions < 2 ^ 31 - 1)
    (choose : Cluster → ℕ × Name)
    (hchoose : ∀ cluster : Cluster, cluster.net ≠ [] → (choose cluster).1 < cluster.net.length) :
    ∃ more rest, deployment.machine.run final more = some rest ∧ rest.net = [] ∧
      ∀ entry ∈ deployment.machine.steps final more,
        entry.2 = .deliver (choose entry.1).1 (choose entry.1).2 {} := by
  let reached (cluster : Cluster) : Prop := ∃ more : List Action,
    deployment.run (actions ++ more) = some cluster ∧ ∀ action ∈ more, action.Delivers
  let rank (cluster : Cluster) : ℕ := (cluster.remaining deployment.config).toNat
  let delivery (cluster : Cluster) : Action :=
    .deliver (choose cluster).1 (choose cluster).2 {}
  have hprogress : ∀ cluster, reached cluster → ¬ cluster.net = [] →
      ∃ next, deployment.machine.step cluster (delivery cluster) = some next ∧
        reached next ∧ rank next < rank cluster := by
    rintro cluster ⟨more, hmid, hmore⟩ hflight
    have hall := calls_delivers hmore hcalls
    obtain ⟨next, hstep⟩ := exists_deliver_of_calls hmode hmaster hmid hall
      (lossless_delivers hmore hdelivers)
      (by rwa [statementsOf_delivers hmore, duplicatesOf_delivers hmore])
      (hchoose cluster hflight) (choose cluster).2
    refine ⟨next, hstep, ⟨more ++ [delivery cluster], ?_, ?_⟩, ?_⟩
    · rw [← List.append_assoc]
      exact PartialMachine.run_append_eq_some.mpr
        ⟨cluster, hmid, (PartialMachine.run_singleton _ _).trans hstep⟩
    · exact List.forall_mem_append.mpr ⟨hmore, List.forall_mem_singleton.mpr ⟨_, _, rfl⟩⟩
    · have hdelivery : DBManager.Calls (delivery cluster) := rfl
      have hspent : next.remaining deployment.config ≤
          cluster.remaining deployment.config + -1 :=
        Cluster.remaining_step hmode hmid hall hdelivery hstep
      have hnonneg := next.length_le_remaining deployment.config
      change (next.remaining deployment.config).toNat <
        (cluster.remaining deployment.config).toNat
      omega
  have hstart : reached final := ⟨[], by rwa [List.append_nil], by simp⟩
  obtain ⟨more, rest, hmore, _, hrest, hchosen⟩ := PartialMachine.exists_run_to_end reached
    (fun cluster => cluster.net = []) rank delivery hprogress hstart
  exact ⟨more, rest, hmore, hrest, hchosen⟩

/-- From every point of a run without losses, deliveries alone, in whatever order the
packets are picked, lead to rest in a bounded number of steps; then all databases have
executed one history of all statements. -/
theorem deliveries_settle (config : Config) (winSize : ℕ → ℕ) (hmode : config.mode = .multi)
    (hmaster : config.masterId < config.size) (hwindow : ∀ i < config.size, 0 < winSize i)
    (actions : List Action) (final : Cluster)
    (hrun : (DBManager.deployment config winSize).run actions = some final)
    (hcalls : ∀ action ∈ actions, DBManager.Calls action)
    (hdelivers : ∀ action ∈ actions, ∀ index, action ≠ .lose index)
    (hfew : (DBManager.statementsOf actions).length + duplicatesOf actions < 2 ^ 31 - 1)
    (choose : Cluster → ℕ × Name)
    (hchoose : ∀ cluster : Cluster, cluster.net ≠ [] → (choose cluster).1 < cluster.net.length) :
    ∃ more rest, (DBManager.deployment config winSize).machine.run final more = some rest ∧
      (∀ entry ∈ (DBManager.deployment config winSize).machine.steps final more,
        entry.2 = .deliver (choose entry.1).1 (choose entry.1).2 {}) ∧
      deliverCount actions + more.length ≤ (4 * config.quorumSize + config.size + 3) *
        ((DBManager.statementsOf actions).length + duplicatesOf actions) ∧
      rest.net = [] ∧
      ∃ history copies : List Bytes,
        (∀ i < config.size, ∀ (Database : Type*) (exec : Database → Bytes → Database)
          (opened : Database), DBManager.databaseOf exec opened (rest.nodes i).log =
            history.foldl exec opened) ∧
        history.Perm ((DBManager.statementsOf actions ++ copies).map DBManager.cStr) ∧
        (∀ sql ∈ copies, sql ∈ DBManager.statementsOf actions) ∧
        copies.length ≤ duplicatesOf actions := by
  obtain ⟨more, rest, hmore, hrest, hchosen⟩ := exists_rest (by exact hmode) (by exact hmaster)
    hrun hcalls hdelivers hfew choose hchoose
  have hlabels : ∀ action ∈ more, action.Delivers := by
    intro action hmem
    rw [← PartialMachine.map_snd_steps hmore, List.mem_map] at hmem
    obtain ⟨entry, hentry, rfl⟩ := hmem
    exact ⟨_, _, hchosen entry hentry⟩
  have hwhole : (DBManager.deployment config winSize).run (actions ++ more) = some rest :=
    PartialMachine.run_append_eq_some.mpr ⟨final, hrun, hmore⟩
  have hall := calls_delivers hlabels hcalls
  have hhistory := history_at_rest config winSize (by simp [hmode]) hmaster hwindow hwhole hall
    (lossless_delivers hlabels hdelivers) hrest
  have hbound := deliverCount_le (by exact hmode) hwhole hall
  rw [statementsOf_delivers hlabels, duplicatesOf_delivers hlabels] at hhistory hbound
  rw [deliverCount_delivers hlabels, hrest] at hbound
  exact ⟨more, rest, hmore, hchosen, hbound, hrest, hhistory⟩

/-- The COMMIT of node 1 is duplicated; then the newest packet is always delivered first. -/
theorem deliveries_settle_twoNodes :
    ∃ final more rest, (DBManager.deployment (twoNodes .multi) fun _ => 1).run
        [.call 1 (DBManager.commit [65]), .call 0 (DBManager.commit [66]), .duplicate 0] =
          some final ∧
      (DBManager.deployment (twoNodes .multi) fun _ => 1).machine.run final more = some rest ∧
      more.length ≤ 39 ∧ rest.net = [] ∧ ∃ history copies : List Bytes,
        history.Perm ([[65], [66]] ++ copies) ∧ copies.length ≤ 1 ∧ ∀ i < 2,
          DBManager.databaseOf (fun db sql => db ++ [sql]) [] (rest.nodes i).log =
            history.foldl (fun db sql => db ++ [sql]) [] := by
  have hfinal : ((DBManager.deployment (twoNodes .multi) fun _ => 1).run
      [.call 1 (DBManager.commit [65]), .call 0 (DBManager.commit [66]),
        .duplicate 0]).isSome = true := by
    decide
  obtain ⟨final, hrun⟩ := Option.isSome_iff_exists.mp hfinal
  have hnewest : ∀ cluster : Cluster, cluster.net ≠ [] →
      cluster.net.length - 1 < cluster.net.length := by
    intro cluster hflight
    have hpos := List.length_pos_iff.mpr hflight
    omega
  obtain ⟨more, rest, hmore, _, hbound, hrest, history, copies, hsame, hperm, hcopies, hlength⟩ :=
    deliveries_settle (twoNodes .multi) (fun _ => 1) rfl (by decide) (fun _ _ => Nat.one_pos) _
      final hrun (by simp [DBManager.Calls]) (by simp) (by decide)
      (fun cluster => (cluster.net.length - 1, [])) hnewest
  refine ⟨final, more, rest, hrun, hmore, ?_, hrest, history, copies.map DBManager.cStr, ?_, ?_,
    fun i hi => hsame i hi _ _ []⟩
  · exact (Nat.zero_add _).symm.le.trans hbound
  · rw [List.map_append] at hperm
    exact hperm
  · rw [List.length_map]
    exact hlength

end NDNPaxos
