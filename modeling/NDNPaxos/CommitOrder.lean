import NDNPaxos.AtRest
import NDNPaxos.StableLease
import Mathlib.Tactic

/-!
# The order of commits

A stable master opens the slots one after the other for the values that wait longest,
and under the lease each slot keeps its value.  The log of every node is therefore the
sequence of the values handed to the master, in the order in which they were handed over.
-/

namespace NDNPaxos

/-! ## The slots that a node has opened -/

def opening? : Output → Option (ℕ × PropValue)
  | .note (.propose slot value _ _) => some (slot, value)
  | _ => none

def openings (log : List Output) : List (ℕ × PropValue) := log.filterMap opening?

theorem mem_openings {log : List Output} {slot : ℕ} {value : PropValue}
    (hopened : Opened log slot value) : (slot, value) ∈ openings log := by
  obtain ⟨name, tryTime, hmem⟩ := hopened
  exact List.mem_filterMap.mpr ⟨_, hmem, rfl⟩

theorem openings_fst (log : List Output) : (openings log).map Prod.fst = openedSlots log := by
  rw [openings, openedSlots, List.map_filterMap]
  apply List.filterMap_congr
  intro out _
  cases out with
  | send packet => rfl
  | note event => cases event <;> rfl

/-- Under the lease every opening is the first one of its value. -/
theorem openings_snd {config : Config} {log : List Output}
    (hleased : ∀ out ∈ log, out.Leased config) :
    (openings log).map Prod.snd = (firstProposals log).map Prod.fst := by
  rw [openings, firstProposals, List.map_filterMap, List.map_filterMap]
  apply List.filterMap_congr
  intro out hmem
  cases out with
  | send packet => rfl
  | note event =>
      cases event with
      | propose slot value name tryTime =>
          have hfirst : tryTime = 1 := hleased _ hmem
          subst hfirst
          rfl
      | _ => rfl

/-- The queue and the counter of slots run side by side. -/
theorem handed_of_opened {config : Config} {captain : Captain} {log : List Output}
    (hqueue : captain.QueueInvariant log) (hleased : ∀ out ∈ log, out.Leased config) {slot : ℕ}
    {value : PropValue} (hopened : Opened log slot value) :
    ((handed log).map Prod.fst)[slot - 1]? = some value := by
  obtain ⟨place, hplace⟩ := List.mem_iff_getElem?.mp (mem_openings hopened)
  have hslot : (openedSlots log)[place]? = some slot := by
    rw [← openings_fst, List.getElem?_map, hplace, Option.map_some]
  have hvalue : ((firstProposals log).map Prod.fst)[place]? = some value := by
    rw [← openings_snd hleased, List.getElem?_map, hplace, Option.map_some]
  obtain ⟨hlt, hget⟩ := List.getElem?_eq_some_iff.mp (hqueue.opened ▸ hslot)
  rw [List.getElem_range'] at hget
  have hplace' : slot - 1 = place := by omega
  obtain ⟨hbound, _⟩ := List.getElem?_eq_some_iff.mp hvalue
  rw [hqueue.fifo, List.map_append, hplace', List.getElem?_append_left hbound]
  exact hvalue

/-- Under a stable master each node has delivered exactly the first values that were
handed to the master, in the order of the commits, whatever the network does. -/
theorem delivered_in_order (deployment : Deployment) (hmode : deployment.config.mode = .multi)
    (actions : List Action) (final : Cluster) (hrun : deployment.run actions = some final)
    (hcalls : ∀ action ∈ actions, ∀ call ∈ action.calls, ∀ value, call ≠ .masterChange value)
    (hmaster : OpenedByMaster deployment.config final.nodes) (i : ℕ)
    (hi : i < deployment.config.size) :
    (final.nodes i).captain.delivered.map Prod.snd =
      ((handed (final.nodes deployment.config.masterId).log).map Prod.fst).take
        (final.nodes i).captain.maxChosenWithoutHole := by
  have hheld := leaseHeld_of_run hmode hrun hmaster
  have hqueues := queues_of_run hrun hcalls
  have hshards : deployment.config.mode ≠ .rs := by simp [hmode]
  obtain ⟨_, _, hknowledge, _⟩ := knowledge_of_run hshards hrun
  let replica := (logRefined_of_run hrun hi).deliversLog.replica
  apply replica.commands_eq_take
  intro slot value _ hvalue
  obtain ⟨j, hj, hopened⟩ := (hknowledge.decided ⟨i, hi, .inr hvalue⟩).1
  obtain rfl := hmaster j hj slot value hopened
  exact handed_of_opened (hqueues _ hj).1 (hheld _ hj).2 hopened

/-- Two commits of the master; the second waits for the first.  The answer of node 1 to
the first ACCEPT comes twice. -/
theorem delivered_in_order_twoNodes :
    ∃ final, Deployment.run { config := twoNodes .multi }
        [.call 0 (.commit { id := 65536 } (some [])), .call 0 (.commit { id := 131072 } (some [])),
          .deliver 0 [] {}, .deliver 0 [] {}, .duplicate 1, .deliver 0 [] {},
          .deliver 0 [] {}] = some final ∧
      (final.nodes 0).captain.delivered.map Prod.snd =
        ((handed (final.nodes 0).log).map Prod.fst).take
          (final.nodes 0).captain.maxChosenWithoutHole ∧
      (final.nodes 0).captain.maxChosenWithoutHole = 1 := by
  have hfinal : (Deployment.run { config := twoNodes .multi }
      [.call 0 (.commit { id := 65536 } (some [])), .call 0 (.commit { id := 131072 } (some [])),
        .deliver 0 [] {}, .deliver 0 [] {}, .duplicate 1, .deliver 0 [] {},
        .deliver 0 [] {}]).map (fun final => (openedSlots (final.nodes 1).log,
          (final.nodes 0).captain.maxChosenWithoutHole)) = some ([], 1) := by
    decide
  obtain ⟨final, hrun, hseen⟩ := Option.map_eq_some_iff.mp hfinal
  rw [Prod.mk.injEq] at hseen
  have hmaster : OpenedByMaster (twoNodes .multi) final.nodes := by
    refine openedByMaster_of_openedSlots fun i hi hother => ?_
    have hone : i = 1 := by
      change i < 2 at hi
      change i ≠ 0 at hother
      omega
    rw [hone, hseen.1]
  exact ⟨final, hrun, delivered_in_order { config := twoNodes .multi } rfl _ final hrun
    (by simp [Action.calls]) hmaster 0 (by decide), hseen.2⟩

end NDNPaxos
