import NDNPaxos.ProposerHistory
import Mathlib.Tactic

/-!
# Values that a node was given

A node proposes only values that it was given: those handed to `commit` and
the commands that `master_change` queues.
-/

namespace NDNPaxos

def Given (log : List Output) (value : PropValue) : Prop :=
  (∃ name, .note (.commit value name) ∈ log) ∨ .note (.command value) ∈ log

def given? : Output → Option PropValue
  | .note (.commit value _) => some value
  | .note (.command value) => some value
  | _ => none

def givenValues (log : List Output) : List PropValue := log.filterMap given?

theorem given_iff {log : List Output} {value : PropValue} :
    Given log value ↔ value ∈ givenValues log := by
  rw [givenValues, List.mem_filterMap]
  constructor
  · rintro (⟨name, hmem⟩ | hmem)
    · exact ⟨_, hmem, rfl⟩
    · exact ⟨_, hmem, rfl⟩
  · rintro ⟨out, hmem, hgiven⟩
    unfold given? at hgiven
    split at hgiven
    · rw [Option.some.injEq] at hgiven
      exact .inl ⟨_, hgiven ▸ hmem⟩
    · rw [Option.some.injEq] at hgiven
      exact .inr (hgiven ▸ hmem)
    · simp at hgiven

theorem Given.append {log : List Output} {value : PropValue} (hgiven : Given log value)
    (outs : List Output) : Given (log ++ outs) value := by
  rcases hgiven with ⟨name, hmem⟩ | hmem
  · exact .inl ⟨name, List.mem_append_left _ hmem⟩
  · exact .inr (List.mem_append_left _ hmem)

/-- Waiting, proposed and opened values were given to the node. -/
structure GivenValues (captain : Captain) (log : List Output) : Prop where
  waiting : ∀ value ∈ captain.tocommitValues, Given log value
  proposers : ∀ (slot : ℕ) info, captain.proposers[slot]? = some info →
    Given log info.currProposer.initValue
  opened : ∀ slot value, Opened log slot value → Given log value

namespace GivenValues

variable {captain final : Captain} {log outs : List Output}

theorem quiet (hgiven : GivenValues captain log) (hkinds : ∀ out ∈ outs, out.kind ≠ .opened)
    (hwaiting : ∀ value ∈ final.tocommitValues, Given (log ++ outs) value)
    (hentries : ∀ (slot : ℕ) info, final.proposers[slot]? = some info →
      ∃ old, captain.proposers[slot]? = some old ∧ old.entry = info.entry) :
    GivenValues final (log ++ outs) where
  waiting := hwaiting
  proposers := by
    intro slot info hinfo
    rcases hentries slot info hinfo with ⟨old, hold, hentry⟩
    simp only [ProposerInfo.entry, Prod.mk.injEq] at hentry
    rw [← hentry.2.2]
    exact (hgiven.proposers slot old hold).append outs
  opened := by
    rintro slot value ⟨name, tryTime, hmem⟩
    rcases List.mem_append.mp hmem with hold | hnew
    · exact (hgiven.opened slot value ⟨name, tryTime, hold⟩).append outs
    · exact absurd rfl (hkinds _ hnew)

theorem opening (hgiven : GivenValues captain log) {value : PropValue} {name : Name}
    {tryTime : ℕ} {skipPhaseI : Bool} (hvalue : Given log value) :
    GivenValues (captain.openSlot value name tryTime skipPhaseI).1
      (log ++ (captain.openSlot value name tryTime skipPhaseI).2) := by
  constructor
  · intro other hmem
    rw [Captain.openSlot_eq] at hmem
    exact (hgiven.waiting other hmem).append _
  · intro slot info hinfo
    rw [Captain.openSlot_eq] at hinfo
    rcases OrderedMap.insert_cases hinfo with ⟨_, rfl⟩ | ⟨_, hold⟩
    · rw [Captain.newProposer_initValue]
      exact hvalue.append _
    · exact (hgiven.proposers slot info hold).append _
  · intro slot other hopened
    rcases opened_append.mp hopened with hold | ⟨name', tryTime', hmem⟩
    · exact (hgiven.opened slot other hold).append _
    · rw [Captain.openSlot_eq] at hmem
      rcases List.mem_cons.mp hmem with heq | hsent
      · rw [Output.note.injEq, Event.propose.injEq] at heq
        rw [heq.2.1]
        exact hvalue.append _
      · rcases Captain.mem_broadcastMsg hsent with ⟨packet, heq, _⟩
        simp at heq

theorem commitStep (hgiven : GivenValues captain log) {value : PropValue}
    {dataName ref : Name} (hstep : Captain.CommitStep captain value dataName final outs ref) :
    GivenValues final (log ++ outs) := by
  have hvalue : Given (log ++ [.note (.commit value dataName)]) value :=
    .inl ⟨dataName, List.mem_append_right _ (List.mem_singleton_self _)⟩
  have hpushed : ∀ other ∈ (captain.pushBack value dataName).tocommitValues,
      Given (log ++ [.note (.commit value dataName)]) other := by
    intro other hmem
    rcases List.mem_append.mp hmem with hold | hnew
    · exact (hgiven.waiting other hold).append _
    · rw [List.mem_singleton.mp hnew]
      exact hvalue
  have hcalled : GivenValues (captain.pushBack value dataName)
      (log ++ [.note (.commit value dataName)]) :=
    hgiven.quiet (by simp [Output.kind, Event.kind]) hpushed fun _ info hinfo => ⟨info, hinfo, rfl⟩
  have hsame : GivenValues captain (log ++ [.note (.commit value dataName)]) :=
    hgiven.quiet (by simp [Output.kind, Event.kind])
      (fun other hmem => (hgiven.waiting other hmem).append _)
      fun _ info hinfo => ⟨info, hinfo, rfl⟩
  cases hstep with
  | dropped hfull => exact hsame
  | waits hfull => exact hcalled
  | opens hroom hempty =>
      rw [List.append_cons]
      exact hsame.opening hvalue
  | @passes front frontName popped hroom hwaiting hpop =>
      rcases Captain.popFront_eq_some hpop with ⟨values, names, hvalues, _, rfl⟩
      rw [List.append_cons]
      have hpopped : GivenValues { captain.pushBack value dataName with
          tocommitValues := values, tocommitClients := names }
          (log ++ [.note (.commit value dataName)]) :=
        ⟨fun other hmem => hcalled.waiting other (hvalues ▸ List.mem_cons_of_mem _ hmem),
          hcalled.proposers, hcalled.opened⟩
      exact hpopped.opening (hcalled.waiting front (hvalues ▸ List.mem_cons_self ..))

theorem finishStep (hgiven : GivenValues captain log) {slot : ℕ} {info : ProposerInfo}
    {value : PropValue} {dataName : Name} (hinfo : captain.proposers[slot]? = some info)
    (hstep : Captain.FinishStep captain slot info value dataName final outs) :
    GivenValues final (log ++ outs) := by
  have hclosed : GivenValues (captain.withoutProposer slot)
      (log ++ [.note (.chose slot value info.currProposer.initValue)]) := by
    refine hgiven.quiet (by simp [Output.kind, Event.kind])
      (fun other hmem => (hgiven.waiting other hmem).append _) ?_
    exact fun other info' hother => ⟨info', OrderedMap.of_erase hother, rfl⟩
  cases hstep with
  | idle hown hempty => exact hclosed
  | @next front frontName popped hown hpop =>
      rcases Captain.popFront_eq_some hpop with ⟨values, names, hvalues, _, rfl⟩
      rw [List.append_cons]
      have hpopped : GivenValues { captain.withoutProposer slot with
          tocommitValues := values, tocommitClients := names }
          (log ++ [.note (.chose slot value info.currProposer.initValue)]) :=
        ⟨fun other hmem => hclosed.waiting other (hvalues ▸ List.mem_cons_of_mem _ hmem),
          hclosed.proposers, hclosed.opened⟩
      exact hpopped.opening (hclosed.waiting front (hvalues ▸ List.mem_cons_self ..))
  | recommit hforeign =>
      rw [List.append_cons]
      exact hclosed.opening ((hgiven.proposers slot info hinfo).append _)

theorem preserved : PreservedAtNode {} GivenValues := by
  intro captain log setting outs final hkept _ hgiven hmove
  have hwaiting : ∀ outs, ∀ value ∈ captain.tocommitValues, Given (log ++ outs) value :=
    fun outs value hmem => (hgiven.waiting value hmem).append outs
  cases hmove with
  | base hmove =>
      have hframe := hmove.frame hkept.shape
      refine hgiven.quiet (fun out hmem => (hmove.kinds hkept.shape hmem).2.1) ?_ ?_
      · rw [hframe.tocommitValues]
        exact hwaiting outs
      · intro slot info hinfo
        have hentry := hframe.entries slot
        rw [hinfo, Option.map_some, eq_comm, Option.map_eq_some_iff] at hentry
        exact hentry
  | commit hsource hstep =>
      have hnext := hgiven.commitStep hstep
      exact ⟨hnext.waiting, hnext.proposers, hnext.opened⟩
  | @command value command hcall hmaster hid =>
      refine hgiven.quiet (by simp [Output.kind, Event.kind]) ?_
        fun _ info hinfo => ⟨info, hinfo, rfl⟩
      intro other hmem
      rcases List.mem_append.mp hmem with hold | hnew
      · exact hwaiting _ other hold
      · rw [List.mem_singleton.mp hnew]
        exact .inr (List.mem_append_right _ (List.mem_singleton_self _))
  | @finish slot info value stored outs final hinfo hstatus hvalue hstored hretires hstep =>
      have hannounced : GivenValues captain (log ++ captain.announce slot value) :=
        hgiven.quiet (fun out hmem => by simp [Captain.kind_of_mem_announce hmem])
          (hwaiting _) fun _ info hinfo => ⟨info, hinfo, rfl⟩
      rw [← List.append_assoc]
      exact hannounced.finishStep hinfo hstep

end GivenValues

theorem givenValues_initial (deployment : Deployment) (i : ℕ) :
    GivenValues (deployment.node i).captain [] where
  waiting := fun value hmem => absurd hmem List.not_mem_nil
  proposers := by
    intro slot info hinfo
    simp [Deployment.node, Captain.new] at hinfo
  opened := by
    rintro slot value ⟨name, tryTime, hmem⟩
    simp at hmem

end NDNPaxos
