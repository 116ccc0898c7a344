import NDNPaxos.NodeMoves
import Mathlib.Tactic

/-!
# Window and waiting queues

Values that find the window full wait in a queue, their client names in
another.  The abstract picture is one queue of pairs: what has been handed to
`commit` so far is what has been given a first proposer followed by what still
waits, in one order.  The picture is lost when `master_change` runs on a node
that is not the master, since it queues a command without a name.
-/

namespace NDNPaxos

/-! ## What a log says about commits and proposals -/

def handed? : Output → Option (PropValue × Name)
  | .note (.commit value name) => some (value, name)
  | _ => none

def handed (log : List Output) : List (PropValue × Name) := log.filterMap handed?

def firstProposal? : Output → Option (PropValue × Name)
  | .note (.propose _ value name 1) => some (value, name)
  | _ => none

def firstProposals (log : List Output) : List (PropValue × Name) :=
  log.filterMap firstProposal?

def openedSlot? : Output → Option ℕ
  | .note (.propose slot _ _ _) => some slot
  | _ => none

def openedSlots (log : List Output) : List ℕ := log.filterMap openedSlot?

def NoCommand (log : List Output) : Prop := ∀ value, .note (.command value) ∉ log

theorem handed_append (log outs : List Output) :
    handed (log ++ outs) = handed log ++ handed outs := List.filterMap_append

theorem firstProposals_append (log outs : List Output) :
    firstProposals (log ++ outs) = firstProposals log ++ firstProposals outs :=
  List.filterMap_append

theorem openedSlots_append (log outs : List Output) :
    openedSlots (log ++ outs) = openedSlots log ++ openedSlots outs := List.filterMap_append

theorem handed_eq_nil {outs : List Output} (hkinds : ∀ out ∈ outs, out.kind ≠ .handed) :
    handed outs = [] := by
  rw [handed, List.filterMap_eq_nil_iff]
  intro out hmem
  have hkind := hkinds out hmem
  unfold handed?
  split
  · exact absurd rfl hkind
  · rfl

theorem firstProposals_eq_nil {outs : List Output}
    (hkinds : ∀ out ∈ outs, out.kind ≠ .opened) : firstProposals outs = [] := by
  rw [firstProposals, List.filterMap_eq_nil_iff]
  intro out hmem
  have hkind := hkinds out hmem
  unfold firstProposal?
  split
  · exact absurd rfl hkind
  · rfl

theorem openedSlots_eq_nil {outs : List Output}
    (hkinds : ∀ out ∈ outs, out.kind ≠ .opened) : openedSlots outs = [] := by
  rw [openedSlots, List.filterMap_eq_nil_iff]
  intro out hmem
  have hkind := hkinds out hmem
  unfold openedSlot?
  split
  · exact absurd rfl hkind
  · rfl

theorem NoCommand.left {log outs : List Output} (hquiet : NoCommand (log ++ outs)) :
    NoCommand log := fun value hmem => hquiet value (List.mem_append_left _ hmem)

namespace Captain

section OpenSlot

variable (captain : Captain) (value : PropValue) (name : Name) (tryTime : ℕ)
  (skipPhaseI : Bool)

@[simp] theorem handed_openSlot :
    handed (captain.openSlot value name tryTime skipPhaseI).2 = [] := by
  rw [openSlot_eq]
  apply handed_eq_nil
  intro out hmem
  rcases List.mem_cons.mp hmem with rfl | hsent
  · simp [Output.kind, Event.kind]
  · simp [kinds_opening captain value skipPhaseI hsent]

@[simp] theorem firstProposals_openSlot_one :
    firstProposals (captain.openSlot value name 1 skipPhaseI).2 = [(value, name)] := by
  have hsent : firstProposals
      (captain.broadcastMsg (captain.openingMsg value skipPhaseI)) = [] := by
    apply firstProposals_eq_nil
    intro out hmem
    simp [kinds_opening captain value skipPhaseI hmem]
  rw [firstProposals] at hsent
  rw [openSlot_eq, firstProposals, List.filterMap_cons, firstProposal?, hsent]

theorem firstProposals_openSlot_later (hlater : tryTime ≠ 1) :
    firstProposals (captain.openSlot value name tryTime skipPhaseI).2 = [] := by
  rw [openSlot_eq, firstProposals, List.filterMap_eq_nil_iff]
  intro out hmem
  rcases List.mem_cons.mp hmem with rfl | hsent
  · unfold firstProposal?
    split
    next heq =>
      simp only [Output.note.injEq, Event.propose.injEq] at heq
      exact absurd heq.2.2.2 hlater
    next => rfl
  · obtain ⟨packet, rfl, _⟩ := mem_broadcastMsg hsent
    rfl

@[simp] theorem openedSlots_openSlot :
    openedSlots (captain.openSlot value name tryTime skipPhaseI).2 =
      [captain.maxSlot + 1] := by
  have hsent : openedSlots
      (captain.broadcastMsg (captain.openingMsg value skipPhaseI)) = [] := by
    apply openedSlots_eq_nil
    intro out hmem
    simp [kinds_opening captain value skipPhaseI hmem]
  rw [openedSlots] at hsent
  rw [openSlot_eq, openedSlots, List.filterMap_cons, openedSlot?, hsent]

end OpenSlot

/-! ## The invariant -/

/-- The two queues as one queue of pairs. -/
def waiting (captain : Captain) : List (PropValue × Name) :=
  captain.tocommitValues.zip captain.tocommitClients

structure QueueInvariant (captain : Captain) (log : List Output) : Prop where
  size_le : captain.proposers.size ≤ captain.windowSize
  full : captain.tocommitValues ≠ [] → captain.proposers.size = captain.windowSize
  paired : captain.tocommitValues.length = captain.tocommitClients.length
  fifo : handed log = firstProposals log ++ captain.waiting
  opened : openedSlots log = List.range' 1 captain.maxSlot
  tried : ∀ (slot : ℕ) info, captain.proposers[slot]? = some info → 0 < info.tryTime
  dumName : captain.dumName = []

theorem QueueInvariant.initial (deployment : Deployment) (i : ℕ) :
    QueueInvariant (deployment.node i).captain [] where
  size_le := Nat.zero_le _
  full := fun hne => absurd rfl hne
  paired := rfl
  fifo := rfl
  opened := rfl
  tried := by
    intro slot info hinfo
    simp [Deployment.node, Captain.new] at hinfo
  dumName := rfl

theorem QueueInvariant.base {captain final : Captain} {log outs : List Output}
    {setting : Setting} (hqueue : QueueInvariant captain log) (hshape : LogShape captain)
    (hmove : BaseMove setting captain outs final) : QueueInvariant final (log ++ outs) := by
  have hframe := hmove.frame hshape
  have hsize : final.proposers.size = captain.proposers.size :=
    OrderedMap.size_eq hframe.entries
  have hhanded : handed outs = [] :=
    handed_eq_nil fun out hmem => (hmove.kinds hshape hmem).1
  have hfirst : firstProposals outs = [] :=
    firstProposals_eq_nil fun out hmem => (hmove.kinds hshape hmem).2.1
  have hslots : openedSlots outs = [] :=
    openedSlots_eq_nil fun out hmem => (hmove.kinds hshape hmem).2.1
  refine ⟨?_, ?_, ?_, ?_, ?_, ?_, ?_⟩
  · rw [hsize, hframe.windowSize]
    exact hqueue.size_le
  · rw [hsize, hframe.windowSize, hframe.tocommitValues]
    exact hqueue.full
  · rw [hframe.tocommitValues, hframe.tocommitClients]
    exact hqueue.paired
  · rw [handed_append, firstProposals_append, hhanded, hfirst, List.append_nil,
      List.append_nil, waiting, hframe.tocommitValues, hframe.tocommitClients]
    exact hqueue.fifo
  · rw [openedSlots_append, hslots, List.append_nil, hframe.maxSlot]
    exact hqueue.opened
  · intro slot info hinfo
    have hentry := hframe.entries slot
    rw [hinfo, Option.map_some, eq_comm, Option.map_eq_some_iff] at hentry
    obtain ⟨old, hold, heq⟩ := hentry
    simp only [ProposerInfo.entry, Prod.mk.injEq] at heq
    rw [← heq.1]
    exact hqueue.tried slot old hold
  · rw [hframe.dumName]
    exact hqueue.dumName

theorem newSlot_free {captain : Captain} (hkept : captain.WellKept) :
    captain.proposers[captain.maxSlot + 1]? = none := by
  cases hinfo : captain.proposers[captain.maxSlot + 1]? with
  | none => rfl
  | some info =>
      have hle := (hkept.keys _ info hinfo).2
      omega

theorem QueueInvariant.opening {captain : Captain} {log : List Output} {value : PropValue}
    {name : Name} {tryTime : ℕ} {skipPhaseI : Bool}
    (hfree : captain.proposers[captain.maxSlot + 1]? = none)
    (hroom : captain.proposers.size < captain.windowSize)
    (hfull : captain.tocommitValues ≠ [] →
      captain.proposers.size + 1 = captain.windowSize)
    (hpaired : captain.tocommitValues.length = captain.tocommitClients.length)
    (hfifo : handed log = firstProposals log ++
      (firstProposals (captain.openSlot value name tryTime skipPhaseI).2 ++ captain.waiting))
    (hopened : openedSlots log = List.range' 1 captain.maxSlot)
    (htried : ∀ (slot : ℕ) info, captain.proposers[slot]? = some info → 0 < info.tryTime)
    (htry : 0 < tryTime) (hdumName : captain.dumName = []) :
    QueueInvariant (captain.openSlot value name tryTime skipPhaseI).1
      (log ++ (captain.openSlot value name tryTime skipPhaseI).2) := by
  have hsize := OrderedMap.size_insert hfree
    (captain.newProposer value name tryTime skipPhaseI)
  have hslots := openedSlots_openSlot captain value name tryTime skipPhaseI
  have hhanded := handed_openSlot captain value name tryTime skipPhaseI
  generalize hresult : captain.openSlot value name tryTime skipPhaseI = result at *
  rw [openSlot_eq] at hresult
  obtain ⟨final, outs⟩ := result
  simp only [Prod.mk.injEq] at hresult
  obtain ⟨rfl, _⟩ := hresult
  refine ⟨?_, ?_, hpaired, ?_, ?_, ?_, hdumName⟩
  · rw [hsize]
    exact hroom
  · intro hwaiting
    rw [hsize]
    exact hfull hwaiting
  · rw [handed_append, firstProposals_append, hhanded, List.append_nil, List.append_assoc]
    exact hfifo
  · rw [openedSlots_append, hopened, hslots, List.range'_concat]
    simp [Nat.add_comm]
  · intro slot info hinfo
    rcases OrderedMap.insert_cases hinfo with ⟨_, rfl⟩ | ⟨_, hold⟩
    · rw [newProposer_tryTime]
      exact htry
    · exact htried slot info hold

theorem QueueInvariant.rename {captain : Captain} {log : List Output} {valueId : ℕ}
    {dumName : Name} (hqueue : QueueInvariant captain log) (hname : dumName = []) :
    QueueInvariant { captain with valueId, dumName } log :=
  { hqueue with dumName := hname }

/-- What each branch of `commit` does to the picture.  A value is never
dropped, and a commit that finds room finds the queue empty. -/
theorem QueueInvariant.commitStep {captain next : Captain} {log outs : List Output}
    {value : PropValue} {dataName ref : Name} (hqueue : QueueInvariant captain log)
    (hkept : captain.WellKept) (hstep : CommitStep captain value dataName next outs ref) :
    QueueInvariant next (log ++ outs) ∧ next.dumName = captain.dumName ∧ ref = dataName := by
  have hhanded : handed (log ++ [.note (.commit value dataName)]) =
      handed log ++ [(value, dataName)] := handed_append ..
  have hfirst : firstProposals (log ++ [.note (.commit value dataName)]) =
      firstProposals log := by
    rw [firstProposals_append]
    exact List.append_nil _
  have hslots : openedSlots (log ++ [.note (.commit value dataName)]) = openedSlots log := by
    rw [openedSlots_append]
    exact List.append_nil _
  cases hstep with
  | dropped hfull => exact absurd hqueue.size_le (by omega)
  | waits hfull =>
      refine ⟨⟨hqueue.size_le, fun _ => hfull, ?_, ?_, ?_, hqueue.tried, hqueue.dumName⟩,
        rfl, rfl⟩
      · simp [pushBack, hqueue.paired]
      · rw [hhanded, hfirst, hqueue.fifo, List.append_assoc]
        simp [waiting, pushBack, List.zip_append hqueue.paired]
      · rw [hslots]
        exact hqueue.opened
  | opens hroom hempty =>
      have hnone : captain.waiting = [] := by simp [waiting, hempty]
      refine ⟨?_, by rw [openSlot_eq], rfl⟩
      rw [List.append_cons]
      refine QueueInvariant.opening (newSlot_free hkept) hroom ?_ hqueue.paired ?_ ?_
        hqueue.tried Nat.one_pos hqueue.dumName
      · exact fun hne => absurd hempty hne
      · rw [hhanded, hfirst, hqueue.fifo, hnone]
        simp
      · rw [hslots]
        exact hqueue.opened
  | passes hroom hwaiting hpop => exact absurd (hqueue.full hwaiting) hroom.ne

theorem QueueInvariant.commit {captain next : Captain} {log outs : List Output}
    {value : PropValue} {name : Option Name} {valueId : ℕ} {ref : Name}
    (hqueue : QueueInvariant captain log) (hkept : captain.WellKept)
    (hstep : CommitStep captain value (captain.supplied name) next outs ref) :
    QueueInvariant
      { next with valueId, dumName := if name.isNone then ref else next.dumName }
      (log ++ outs) := by
  obtain ⟨hnext, hdumName, href⟩ := hqueue.commitStep hkept hstep
  refine hnext.rename ?_
  cases name with
  | none =>
      rw [href]
      exact hqueue.dumName
  | some name => exact hdumName.trans hqueue.dumName

/-- The end of CHOOSE fills the place of the retired proposer from the queue,
or with the same value again. -/
theorem QueueInvariant.finish {captain final : Captain} {log outs : List Output} {slot : ℕ}
    {info : ProposerInfo} {value : PropValue} {dataName : Name}
    (hqueue : QueueInvariant captain log) (hkept : captain.WellKept)
    (hinfo : captain.proposers[slot]? = some info)
    (hstep : FinishStep captain slot info value dataName final outs) :
    QueueInvariant final (log ++ (captain.announce slot value ++ outs)) := by
  let before := log ++ captain.announce slot value ++
    [.note (.chose slot value info.currProposer.initValue)]
  have hquiet : ∀ out ∈ captain.announce slot value ++
      [.note (.chose slot value info.currProposer.initValue)],
      out.kind ≠ .handed ∧ out.kind ≠ .opened := by
    intro out hmem
    rcases List.mem_append.mp hmem with hsent | hnote
    · simp [kind_of_mem_announce hsent]
    · simp [List.mem_singleton.mp hnote, Output.kind, Event.kind]
  have hhanded : handed before = handed log := by
    simp only [before, List.append_assoc]
    rw [handed_append, handed_eq_nil fun out hmem => (hquiet out hmem).1, List.append_nil]
  have hfirst : firstProposals before = firstProposals log := by
    simp only [before, List.append_assoc]
    rw [firstProposals_append, firstProposals_eq_nil fun out hmem => (hquiet out hmem).2,
      List.append_nil]
  have hslots : openedSlots before = openedSlots log := by
    simp only [before, List.append_assoc]
    rw [openedSlots_append, openedSlots_eq_nil fun out hmem => (hquiet out hmem).2,
      List.append_nil]
  have hsize := OrderedMap.size_erase hinfo
  have hle := hqueue.size_le
  have htried : ∀ (other : ℕ) info',
      (captain.withoutProposer slot).proposers[other]? = some info' → 0 < info'.tryTime :=
    OrderedMap.forall_erase hqueue.tried
  have hfree : (captain.withoutProposer slot).proposers[captain.maxSlot + 1]? = none := by
    rw [withoutProposer, Std.TreeMap.getElem?_erase, newSlot_free hkept, ite_self]
  cases hstep with
  | idle hown hempty =>
      rw [← List.append_assoc]
      change QueueInvariant _ before
      refine ⟨?_, fun hne => absurd hempty hne, hqueue.paired, ?_, ?_, htried, hqueue.dumName⟩
      · change (captain.proposers.erase slot).size ≤ captain.windowSize
        omega
      · rw [hhanded, hfirst]
        exact hqueue.fifo
      · rw [hslots]
        exact hqueue.opened
  | @next front frontName popped hown hpop =>
      obtain ⟨values, names, hvalues, hnames, rfl⟩ := popFront_eq_some hpop
      have hwindow := hqueue.full (by
        intro hempty
        rw [withoutProposer] at hvalues
        simp [hempty] at hvalues)
      have hpaired := hqueue.paired
      have hfifo := hqueue.fifo
      change captain.tocommitValues = front :: values at hvalues
      change captain.tocommitClients = frontName :: names at hnames
      rw [waiting, hvalues, hnames, List.zip_cons_cons] at hfifo
      rw [hvalues, hnames, List.length_cons, List.length_cons] at hpaired
      rw [List.append_cons, ← List.append_assoc, ← List.append_assoc]
      change QueueInvariant _ (before ++ _)
      refine QueueInvariant.opening hfree ?_ ?_ ?_ ?_ ?_ htried Nat.one_pos hqueue.dumName
      · change (captain.proposers.erase slot).size < captain.windowSize
        omega
      · intro _
        change (captain.proposers.erase slot).size + 1 = captain.windowSize
        omega
      · exact Nat.succ.inj hpaired
      · rw [hhanded, hfirst, hfifo]
        simp [waiting]
      · rw [hslots]
        exact hqueue.opened
  | recommit hforeign =>
      rw [List.append_cons, ← List.append_assoc, ← List.append_assoc]
      change QueueInvariant _ (before ++ _)
      have htry := hqueue.tried slot info hinfo
      refine QueueInvariant.opening hfree ?_ ?_ hqueue.paired ?_ ?_ htried (Nat.succ_pos _)
        hqueue.dumName
      · change (captain.proposers.erase slot).size < captain.windowSize
        omega
      · intro hwaiting
        change (captain.proposers.erase slot).size + 1 = captain.windowSize
        have hwindow := hqueue.full hwaiting
        omega
      · rw [hhanded, hfirst, firstProposals_openSlot_later _ _ _ _ _ (by omega),
          List.nil_append]
        exact hqueue.fifo
      · rw [hslots]
        exact hqueue.opened

theorem QueueInvariant.move {setting : Setting} {captain final : Captain}
    {log outs : List Output} (hqueue : QueueInvariant captain log)
    (hkept : captain.WellKept)
    (hcommand : (∀ value, ¬ setting.calls (.masterChange value)) ∨ NoCommand outs)
    (hmove : Move setting captain outs final) : QueueInvariant final (log ++ outs) := by
  cases hmove with
  | base hmove => exact hqueue.base hkept.shape hmove
  | commit hsource hstep => exact hqueue.commit hkept hstep
  | @command value command hcall hmaster hid =>
      rcases hcommand with hnever | hquiet
      · exact absurd hcall (hnever value)
      · exact absurd (List.mem_singleton_self _) (hquiet command)
  | finish hinfo hstatus hvalue hstored hretires hstep => exact hqueue.finish hkept hinfo hstep

end Captain

/-! ## Window and order of the proposals -/

def StepCondition.noMasterChange : StepCondition where
  calls := fun call => ∀ value, call ≠ .masterChange value

theorem noCommand_preserved :
    PreservedAtNode StepCondition.noMasterChange fun _ log => NoCommand log := by
  intro captain log setting outs final hkept hcovers hquiet hmove value hmem
  rcases List.mem_append.mp hmem with hold | hnew
  · exact hquiet value hold
  · rcases hmove.masterChange_of_command hkept.shape hnew with ⟨made, hcall, _⟩
    exact hcovers.calls _ hcall made rfl

theorem runMeets_noMasterChange {actions : List NodeAction}
    (hcalls : ∀ action ∈ actions, ∀ call ∈ action.calls, ∀ value, call ≠ .masterChange value)
    (node : Node) : Node.machine.RunMeets StepCondition.noMasterChange.OnNode node actions := by
  apply PartialMachine.runMeets_of_forall
  intro action hmem node
  cases action with
  | call call => exact hcalls _ hmem call (List.mem_singleton_self call)
  | handle msg dataName app => exact ⟨hcalls _ hmem, fun _ _ _ => trivial⟩

/-- The window is never overfull, a value waits only while it is full, and the
values get their first proposers in the order of the commits, in slots that
increase. -/
theorem commit_window_fifo (deployment : Deployment) (i : ℕ) (actions : List NodeAction)
    (final : Node) (hrun : deployment.runNode i actions = some final)
    (hcalls : ∀ action ∈ actions, ∀ call ∈ action.calls,
      ∀ value, call ≠ .masterChange value) :
    final.captain.proposers.size ≤ deployment.windowSize i ∧
      (final.captain.tocommitValues ≠ [] →
        final.captain.proposers.size = deployment.windowSize i) ∧
      (handed final.log).map Prod.fst =
        (firstProposals final.log).map Prod.fst ++ final.captain.tocommitValues ∧
      (openedSlots final.log).Pairwise (· < ·) := by
  have hpreserved : PreservedAtNode StepCondition.noMasterChange fun captain log =>
      captain.QueueInvariant log ∧ captain.windowSize = deployment.windowSize i := by
    rintro captain log setting outs final hkept hcovers ⟨hqueue, hwindow⟩ hmove
    refine ⟨hqueue.move hkept (.inl ?_) hmove, (hmove.sameNode hkept).windowSize.trans hwindow⟩
    exact fun value hcall => hcovers.calls _ hcall value rfl
  obtain ⟨hqueue, hwindow⟩ := Deployment.invariant_of_runNode hpreserved
    ⟨Captain.QueueInvariant.initial deployment i, rfl⟩
    (runMeets_noMasterChange hcalls _) hrun
  refine ⟨hwindow ▸ hqueue.size_le, hwindow ▸ hqueue.full, ?_, ?_⟩
  · rw [hqueue.fifo, List.map_append, Captain.waiting, List.map_fst_zip hqueue.paired.le]
  · rw [hqueue.opened]
    exact List.pairwise_lt_range'

theorem commit_window_fifo_twoNodes :
    ∃ final, Deployment.runNode { config := twoNodes .basic } 0
        [.call (.commit { id := 65536 } (some [[1]])),
          .call (.commit { id := 131072 } (some [[2]]))] = some final ∧
      final.captain.tocommitValues = [{ id := 131072 }] ∧ final.captain.proposers.size = 1 := by
  have hvalues : (Deployment.runNode { config := twoNodes .basic } 0
      [.call (.commit { id := 65536 } (some [[1]])),
        .call (.commit { id := 131072 } (some [[2]]))]).map
          (fun node => node.captain.tocommitValues) = some [{ id := 131072 }] := by
    decide
  obtain ⟨final, hrun, hvalues⟩ := Option.map_eq_some_iff.mp hvalues
  obtain ⟨_, hfull, _⟩ := commit_window_fifo { config := twoNodes .basic } 0 _ final hrun
    (by simp [NodeAction.calls])
  exact ⟨final, hrun, hvalues, hfull (by simp [hvalues])⟩

/-! ## The two queues as one -/

def ProposerInfo.Lost (info : ProposerInfo) : Prop :=
  info.currProposer.currValue.map PropValue.id ≠ some info.currProposer.initValue.id

/-- A value that lost its slot is proposed again while a message is handled
that arrived under the name of the value's client. -/
def StepCondition.ownName : StepCondition where
  retires := fun dataName info => info.Lost → dataName = info.clientName

/-- The queues have one length and hold the handed pairs that were not yet
proposed, so taking from the front is always possible. -/
structure QueuesPaired (node : Node) : Prop where
  length : node.captain.tocommitValues.length = node.captain.tocommitClients.length
  supplied : handed node.log = firstProposals node.log ++ node.captain.waiting
  dumName : node.captain.dumName = []
  commits : ∀ value name, (node.captain.commitRef value name).isSome
  finishes : ∀ slot info value dataName,
    (node.captain.finishChoose slot info value dataName).isSome

/-- Every value is proposed under a name it was handed over with. -/
def ProposedUnderOwnName (log : List Output) : Prop :=
  ∀ slot value name tryTime,
    .note (.propose slot value name tryTime) ∈ log → (value, name) ∈ handed log

namespace Captain

theorem popFront_isSome {captain : Captain} (hvalues : captain.tocommitValues ≠ [])
    (hclients : captain.tocommitClients ≠ []) : captain.popFront.isSome := by
  obtain ⟨front, values, hvalues⟩ := List.exists_cons_of_ne_nil hvalues
  obtain ⟨frontName, names, hnames⟩ := List.exists_cons_of_ne_nil hclients
  simp [popFront, hvalues, hnames]

theorem commit_isSome (captain : Captain) (value : PropValue) (dataName : Name) :
    (captain.commit value dataName).isSome := by
  have hpop : (captain.pushBack value dataName).popFront.isSome :=
    popFront_isSome (by simp [pushBack]) (by simp [pushBack])
  obtain ⟨⟨front, frontName, popped⟩, hpop⟩ := Option.isSome_iff_exists.mp hpop
  unfold commit
  split
  · rfl
  · split
    · rfl
    · split
      · simp [hpop]
      · rfl

theorem commitRef_isSome (captain : Captain) (value : PropValue) (name : Option Name) :
    (captain.commitRef value name).isSome := by
  cases name with
  | none =>
      obtain ⟨result, hresult⟩ :=
        Option.isSome_iff_exists.mp (captain.commit_isSome value captain.dumName)
      simp [commitRef, hresult]
  | some name =>
      obtain ⟨result, hresult⟩ :=
        Option.isSome_iff_exists.mp (captain.commit_isSome value name)
      simp [commitRef, hresult]

def CanPop (captain : Captain) : Prop :=
  captain.tocommitValues = [] ∨ captain.tocommitClients ≠ []

theorem canPop_of_paired {captain : Captain}
    (hlength : captain.tocommitValues.length = captain.tocommitClients.length) :
    captain.CanPop := by
  by_cases hwaiting : captain.tocommitValues = []
  · exact .inl hwaiting
  · right
    intro hempty
    rw [hempty, List.length_nil, List.length_eq_zero_iff] at hlength
    exact hwaiting hlength

theorem finishChoose_isSome {captain : Captain} {info : ProposerInfo} {value : PropValue}
    (hcanPop : value.id = info.currProposer.initValue.id → captain.CanPop) (slot : ℕ)
    (dataName : Name) : (captain.finishChoose slot info value dataName).isSome := by
  unfold finishChoose
  by_cases hown : value.id = info.currProposer.initValue.id
  · by_cases hwaiting : captain.tocommitValues = []
    · simp [Proposer.getInitValue, hown, hwaiting]
    · have hpop : ({ captain with
          proposers := captain.proposers.erase slot } : Captain).popFront.isSome :=
        popFront_isSome hwaiting ((hcanPop hown).resolve_left hwaiting)
      obtain ⟨⟨front, frontName, popped⟩, hpop⟩ := Option.isSome_iff_exists.mp hpop
      simp [Proposer.getInitValue, hown, hwaiting, hpop]
  · simp [Proposer.getInitValue, hown]

structure OwnNames (captain : Captain) (log : List Output) : Prop where
  proposed : ProposedUnderOwnName log
  entries : ∀ (slot : ℕ) info, captain.proposers[slot]? = some info →
    (info.currProposer.initValue, info.clientName) ∈ handed log

theorem OwnNames.quiet {captain final : Captain} {log outs : List Output}
    (hnames : OwnNames captain log) (hkinds : ∀ out ∈ outs, out.kind ≠ .opened)
    (hentries : ∀ (slot : ℕ) info, final.proposers[slot]? = some info →
      ∃ old, captain.proposers[slot]? = some old ∧ old.entry = info.entry) :
    OwnNames final (log ++ outs) := by
  refine ⟨?_, ?_⟩
  · intro slot value name tryTime hmem
    rw [handed_append]
    rcases List.mem_append.mp hmem with hold | hnew
    · exact List.mem_append_left _ (hnames.proposed slot value name tryTime hold)
    · exact absurd rfl (hkinds _ hnew)
  · intro slot info hinfo
    obtain ⟨old, hold, hentry⟩ := hentries slot info hinfo
    simp only [ProposerInfo.entry, Prod.mk.injEq] at hentry
    rw [handed_append, ← hentry.2.1, ← hentry.2.2]
    exact List.mem_append_left _ (hnames.entries slot old hold)

theorem OwnNames.opening {captain : Captain} {log : List Output} {value : PropValue}
    {name : Name} {tryTime : ℕ} {skipPhaseI : Bool} (hnames : OwnNames captain log)
    (hhanded : (value, name) ∈ handed log) :
    OwnNames (captain.openSlot value name tryTime skipPhaseI).1
      (log ++ (captain.openSlot value name tryTime skipPhaseI).2) := by
  refine ⟨?_, ?_⟩
  · intro slot value' name' tryTime' hmem
    rw [handed_append, handed_openSlot, List.append_nil]
    rcases List.mem_append.mp hmem with hold | hnew
    · exact hnames.proposed slot value' name' tryTime' hold
    · rw [openSlot_eq] at hnew
      rcases List.mem_cons.mp hnew with heq | hsent
      · simp only [Output.note.injEq, Event.propose.injEq] at heq
        obtain ⟨_, rfl, rfl, _⟩ := heq
        exact hhanded
      · obtain ⟨packet, heq, _⟩ := mem_broadcastMsg hsent
        simp at heq
  · intro slot info hinfo
    rw [handed_append, handed_openSlot, List.append_nil]
    rw [openSlot_eq] at hinfo
    rcases OrderedMap.insert_cases hinfo with ⟨_, rfl⟩ | ⟨_, hold⟩
    · rw [newProposer_initValue, newProposer_clientName]
      exact hhanded
    · exact hnames.entries slot info hold

theorem OwnNames.commitStep {captain next : Captain} {log outs : List Output}
    {value : PropValue} {dataName ref : Name} (hqueue : QueueInvariant captain log)
    (hnames : OwnNames captain log)
    (hstep : CommitStep captain value dataName next outs ref) :
    OwnNames next (log ++ outs) := by
  have hcalled : OwnNames captain (log ++ [.note (.commit value dataName)]) :=
    hnames.quiet (by simp [Output.kind, Event.kind]) fun _ info hinfo => ⟨info, hinfo, rfl⟩
  cases hstep with
  | dropped hfull => exact hcalled
  | waits hfull => exact ⟨hcalled.proposed, hcalled.entries⟩
  | opens hroom hempty =>
      rw [List.append_cons]
      refine hcalled.opening ?_
      rw [handed_append]
      exact List.mem_append_right _ (List.mem_singleton_self _)
  | passes hroom hwaiting hpop => exact absurd (hqueue.full hwaiting) hroom.ne

theorem OwnNames.finish {captain final : Captain} {log outs : List Output} {slot : ℕ}
    {info : ProposerInfo} {value : PropValue} {dataName : Name}
    (hqueue : QueueInvariant captain log) (hnames : OwnNames captain log)
    (hinfo : captain.proposers[slot]? = some info)
    (hvalue : info.currProposer.currValue = some value)
    (hown : info.Lost → dataName = info.clientName)
    (hstep : FinishStep captain slot info value dataName final outs) :
    OwnNames final (log ++ (captain.announce slot value ++ outs)) := by
  have hclosed : OwnNames (captain.withoutProposer slot) (log ++
      (captain.announce slot value ++
        [.note (.chose slot value info.currProposer.initValue)])) := by
    refine hnames.quiet ?_ ?_
    · intro out hmem
      rcases List.mem_append.mp hmem with hsent | hnote
      · simp [kind_of_mem_announce hsent]
      · simp [List.mem_singleton.mp hnote, Output.kind, Event.kind]
    · exact fun other info' hother => ⟨info', OrderedMap.of_erase hother, rfl⟩
  cases hstep with
  | idle hown' hempty => exact hclosed
  | @next front frontName popped hown' hpop =>
      obtain ⟨values, names, hvalues, hclients, rfl⟩ := popFront_eq_some hpop
      change captain.tocommitValues = front :: values at hvalues
      change captain.tocommitClients = frontName :: names at hclients
      rw [List.append_cons, ← List.append_assoc, ← List.append_assoc]
      rw [← List.append_assoc] at hclosed
      refine OwnNames.opening ⟨hclosed.proposed, hclosed.entries⟩ ?_
      rw [List.append_assoc, handed_append, hqueue.fifo, waiting, hvalues, hclients]
      simp
  | recommit hforeign =>
      rw [List.append_cons, ← List.append_assoc, ← List.append_assoc]
      rw [← List.append_assoc] at hclosed
      have hlost : info.Lost := by
        unfold ProposerInfo.Lost
        rw [hvalue]
        simpa using hforeign
      refine hclosed.opening ?_
      rw [hown hlost, List.append_assoc, handed_append]
      exact List.mem_append_left _ (hnames.entries slot info hinfo)

theorem OwnNames.move {captain final : Captain} {log outs : List Output} {setting : Setting}
    (hkept : captain.WellKept) (hcovers : StepCondition.ownName.Covers setting)
    (hqueue : QueueInvariant captain log) (hnames : OwnNames captain log)
    (hmove : Move setting captain outs final) : OwnNames final (log ++ outs) := by
  cases hmove with
  | base hmove =>
      refine hnames.quiet (fun out hmem => (hmove.kinds hkept.shape hmem).2.1) ?_
      intro slot info hinfo
      have hentry := (hmove.frame hkept.shape).entries slot
      rw [hinfo, Option.map_some, eq_comm, Option.map_eq_some_iff] at hentry
      exact hentry
  | commit hsource hstep =>
      have hnext := OwnNames.commitStep hqueue hnames hstep
      exact ⟨hnext.proposed, hnext.entries⟩
  | command hcall hmaster hid =>
      exact hnames.quiet (by simp [Output.kind, Event.kind])
        fun _ info hinfo => ⟨info, hinfo, rfl⟩
  | finish hinfo hstatus hvalue hstored hretires hstep =>
      exact OwnNames.finish hqueue hnames hinfo hvalue (hcovers.retires _ _ hretires) hstep

end Captain

theorem ownNames_preserved : PreservedAtNode StepCondition.ownName fun captain log =>
    NoCommand log → captain.QueueInvariant log ∧ captain.OwnNames log := by
  intro captain log setting outs final hkept hcovers hboth hmove hquiet
  obtain ⟨hqueue, hown⟩ := hboth hquiet.left
  refine ⟨hqueue.move hkept (.inr ?_) hmove, hown.move hkept hcovers hqueue hmove⟩
  exact fun value hmem => hquiet value (List.mem_append_right _ hmem)

theorem ownNames_initial (deployment : Deployment) (i : ℕ) :
    (deployment.node i).captain.OwnNames [] where
  proposed := by
    intro slot value name tryTime hmem
    simp at hmem
  entries := by
    intro slot info hinfo
    simp [Deployment.node, Captain.new] at hinfo

/-- As long as `master_change` queues no command, the queues are one queue of
the handed pairs; and when lost values come back under their clients' names,
every proposal is made under a name its value was handed over with. -/
theorem queuesPaired_of_noCommand (deployment : Deployment) (i : ℕ)
    (actions : List NodeAction) (final : Node)
    (hrun : deployment.runNode i actions = some final) (hquiet : NoCommand final.log) :
    QueuesPaired final ∧
      (Node.machine.RunMeets StepCondition.ownName.OnNode (deployment.node i) actions →
        ProposedUnderOwnName final.log) := by
  have hpaired : PreservedAtNode {} fun captain log =>
      NoCommand log → captain.QueueInvariant log := by
    intro captain log setting outs final hkept hcovers hqueue hmove hquiet
    refine (hqueue hquiet.left).move hkept (.inr ?_) hmove
    exact fun value hmem => hquiet value (List.mem_append_right _ hmem)
  have hqueue := Deployment.invariant_of_runNode hpaired
    (fun _ => Captain.QueueInvariant.initial deployment i)
    (PartialMachine.runMeets_of_forall (by
      intro action _ node
      cases action with
      | call made => trivial
      | handle msg dataName app => exact ⟨fun _ _ => trivial, fun _ _ _ => trivial⟩) _)
    hrun hquiet
  refine ⟨⟨hqueue.paired, hqueue.fifo, hqueue.dumName, ?_, ?_⟩, ?_⟩
  · exact final.captain.commitRef_isSome
  · intro slot info value dataName
    exact Captain.finishChoose_isSome (fun _ => Captain.canPop_of_paired hqueue.paired) slot
      dataName
  · intro hmeets
    exact (Deployment.invariant_of_runNode ownNames_preserved
      (fun _ => ⟨Captain.QueueInvariant.initial deployment i, ownNames_initial deployment i⟩)
      hmeets hrun hquiet).2.proposed

theorem queuesPaired_of_noCommand_twoNodes :
    ∃ final, Deployment.runNode { config := twoNodes .basic } 0
        [.call (.commit { id := 65536 } (some [[1]])), .call (.masterChange { id := 131072 })] =
          some final ∧
      QueuesPaired final ∧ ProposedUnderOwnName final.log := by
  have hquiet : (Deployment.runNode { config := twoNodes .basic } 0
      [.call (.commit { id := 65536 } (some [[1]])), .call (.masterChange { id := 131072 })]).map
        (fun node => node.log.filter fun out => out.kind = .handed) =
          some [.note (.commit { id := 65536 } [[1]]), .note (.commit { id := 131072 } [])] := by
    decide
  rcases Option.map_eq_some_iff.mp hquiet with ⟨final, hrun, hquiet⟩
  have hnone : NoCommand final.log := by
    intro value hmem
    have hhanded : .note (.command value) ∈ final.log.filter fun out => out.kind = .handed :=
      List.mem_filter.mpr ⟨hmem, rfl⟩
    simp [hquiet] at hhanded
  rcases queuesPaired_of_noCommand { config := twoNodes .basic } 0 _ final hrun hnone with
    ⟨hpaired, hnames⟩
  refine ⟨final, hrun, hpaired, hnames ?_⟩
  exact PartialMachine.runMeets_of_forall (by simp [StepCondition.OnNode, StepCondition.ownName]) _

/-- On a node that is not the master, `master_change` leaves one more value
than names, and the next `front()` of the names is undefined. -/
theorem queuesPaired_masterChange_counterexample :
    ∃ final, Deployment.runNode { config := twoNodes .basic } 1
        [.call (.masterChange { id := 65537 })] = some final ∧
      ¬ QueuesPaired final ∧ final.captain.tocommitValues = [{ id := 65537 }] ∧
      final.captain.tocommitClients = [] ∧ final.captain.popFront = none := by
  have hqueues : (Deployment.runNode { config := twoNodes .basic } 1
      [.call (.masterChange { id := 65537 })]).map
        (fun node => (node.captain.tocommitValues, node.captain.tocommitClients)) =
          some ([{ id := 65537 }], []) := by
    decide
  obtain ⟨final, hrun, hqueues⟩ := Option.map_eq_some_iff.mp hqueues
  rw [Prod.mk.injEq] at hqueues
  obtain ⟨hvalues, hclients⟩ := hqueues
  refine ⟨final, hrun, ?_, hvalues, hclients, ?_⟩
  · intro hpaired
    have hlength := hpaired.length
    simp [hvalues, hclients] at hlength
  · simp [Captain.popFront, hvalues, hclients]

end NDNPaxos
