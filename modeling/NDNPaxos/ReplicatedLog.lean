import NDNPaxos.Library.Replication
import NDNPaxos.ShardAgreement
import Mathlib.Tactic

/-!
# The replicated log

In every run the log of a node and the callbacks of its application are those of some
sequence of `add_chosen_value` calls, so the callbacks get the gap-free prefix of the
log, in order and once.  Where the values of a slot agree, the nodes are replicas: what
one has delivered at some time and what another has delivered at another time are
prefixes of one sequence.
-/

namespace NDNPaxos

open Replication

def Output.isDelivery : Output → Bool
  | .note (.callbackFull _ _ _) => true
  | .note (.callback _ _) => true
  | _ => false

/-- The calls of `callback_full_` and `callback_`, in their order. -/
def deliveriesOf (log : List Output) : List Output := log.filter Output.isDelivery

theorem isDelivery_of_kind {out : Output} (hkind : out.kind ≠ .client) :
    out.isDelivery = false := by
  cases out with
  | send packet => rfl
  | note event => cases event <;> first | rfl | exact absurd rfl hkind

theorem deliveriesOf_append (log outs : List Output) :
    deliveriesOf (log ++ outs) = deliveriesOf log ++ deliveriesOf outs :=
  List.filter_append ..

theorem deliveriesOf_eq_nil {outs : List Output}
    (hquiet : ∀ out ∈ outs, out.isDelivery = false) : deliveriesOf outs = [] := by
  rw [deliveriesOf, List.filter_eq_nil_iff]
  intro out hmem
  simp [hquiet out hmem]

namespace Captain

variable {setting : Setting} {start captain final : Captain} {log outs : List Output}

/-- What the application has been given, with the slots. -/
def delivered (captain : Captain) : List (ℕ × PropValue) :=
  deliveredFrom captain.chosenAt 0 captain.maxChosenWithoutHole

theorem deliveriesOf_deliveryEvents (captain : Captain) (delivered : List (ℕ × PropValue)) :
    deliveriesOf (captain.deliveryEvents delivered) = captain.deliveryEvents delivered := by
  rw [deliveriesOf, List.filter_eq_self]
  intro out hmem
  rcases List.mem_flatMap.mp hmem with ⟨entry, _, hout⟩
  rcases List.mem_append.mp hout with hfull | hplain
  · split at hfull
    · rw [List.mem_singleton.mp hfull]
      rfl
    · simp at hfull
  · split at hplain
    · rw [List.mem_singleton.mp hplain]
      rfl
    · simp at hplain

/-! ## Moves that do not learn -/

/-- The log, the master and the callbacks are as before. -/
structure SameLog (before after : Captain) : Prop where
  chosenValues : after.chosenValues = before.chosenValues
  maxChosen : after.maxChosen = before.maxChosen
  maxChosenWithoutHole : after.maxChosenWithoutHole = before.maxChosenWithoutHole
  masterId : after.view.masterId = before.view.masterId
  callback : after.callback = before.callback
  callbackFull : after.callbackFull = before.callbackFull

theorem SameLog.refl (captain : Captain) : SameLog captain captain :=
  ⟨rfl, rfl, rfl, rfl, rfl, rfl⟩

theorem SameLog.chosenAt (hsame : SameLog captain final) (slot : ℕ) :
    final.chosenAt slot = captain.chosenAt slot := by
  rw [Captain.chosenAt, hsame.chosenValues]
  rfl

/-- A move is a call of `add_chosen_value`, or it leaves the log alone. -/
theorem SlotMove.log_cases (hmove : SlotMove setting captain outs final) :
    (∃ slot value, captain.addChosenValue slot value = some (final, outs)) ∨
      SameLog captain final ∧ ∀ out ∈ outs, out.isDelivery = false := by
  have hquiet : ∀ {outs : List Output}, (∀ out ∈ outs, out.kind ≠ .client) →
      ∀ out ∈ outs, out.isDelivery = false :=
    fun hkinds out hmem => isDelivery_of_kind (hkinds out hmem)
  cases hmove with
  | base hmove =>
      cases hmove with
      | forwarding hmove =>
          right
          rw [hmove.spec.1]
          exact ⟨⟨rfl, rfl, rfl, rfl, rfl, rfl⟩,
            hquiet fun out hmem => by simp [hmove.spec.2 out hmem]⟩
      | acceptor hmove =>
          right
          rw [hmove.spec.1]
          exact ⟨⟨rfl, rfl, rfl, rfl, rfl, rfl⟩,
            hquiet fun out hmem => by simp [hmove.spec.2 out hmem]⟩
      | proposer hmove =>
          right
          rw [hmove.spec.1]
          exact ⟨⟨rfl, rfl, rfl, rfl, rfl, rfl⟩,
            hquiet fun out hmem => by simp [hmove.spec.2.2 out hmem]⟩
      | learner hmove =>
          cases hmove with
          | tell hinfo hstatus hvalue hown hretires =>
              refine .inr ⟨SameLog.refl _, ?_⟩
              intro out hmem
              rcases List.mem_cons.mp hmem with rfl | hlatency
              · rfl
              · split at hlatency
                · rw [List.mem_singleton.mp hlatency]
                  rfl
                · simp at hlatency
          | learn hlearn hadd => exact .inl ⟨_, _, hadd⟩
          | teach hmsg hstored hteach hsend =>
              refine .inr ⟨SameLog.refl _, hquiet ?_⟩
              intro out hmem
              rcases answerLearn_msg hteach with ⟨msg, rfl, _⟩
              simp [kind_of_mem_sendInterest hsend hmem, Message.kind]
          | inquire hmsg =>
              refine .inr ⟨SameLog.refl _, hquiet ?_⟩
              intro out hmem
              simp [kind_of_mem_sendData hmem, Message.kind]
  | queue hframe hkind =>
      right
      rw [hframe]
      exact ⟨⟨rfl, rfl, rfl, rfl, rfl, rfl⟩, hquiet fun out hmem => by simp [hkind out hmem]⟩
  | opens value name tryTime hskip =>
      right
      refine ⟨?_, hquiet ?_⟩
      · rw [openSlot_eq]
        exact ⟨rfl, rfl, rfl, rfl, rfl, rfl⟩
      · intro out hmem
        rcases kind_of_mem_openSlot hmem with hkind | hkind <;> simp [hkind]
  | announce hinfo hstatus hvalue hstored hretires =>
      refine .inr ⟨SameLog.refl _, hquiet ?_⟩
      intro out hmem
      simp [kind_of_mem_announce hmem]
  | close hinfo hstatus hvalue =>
      refine .inr ⟨⟨rfl, rfl, rfl, rfl, rfl, rfl⟩, hquiet ?_⟩
      intro out hmem
      simp [List.mem_singleton.mp hmem, Output.kind, Event.kind]

/-! ## The log of a node in a run -/

theorem slot_le_of_addChosenValue {slot : ℕ} {value : PropValue}
    (hadd : captain.addChosenValue slot value = some (final, outs)) :
    slot ≤ captain.maxChosen ∨ slot < 2 ^ 31 := by
  by_contra hneither
  rw [not_or] at hneither
  rw [addChosenValue, if_neg hneither.1, if_neg hneither.2] at hadd
  simp at hadd

/-- What a node holds and has delivered is what a sequence of `add_chosen_value`
calls leaves behind. -/
structure LogRefined (start captain : Captain) (log : List Output) : Prop where
  callback : captain.callback = start.callback
  callbackFull : captain.callbackFull = start.callbackFull
  calls : ∃ calls, (∀ call ∈ calls, call.1 < 2 ^ 31) ∧
    IsLogOf start calls captain (deliveriesOf log)

theorem SameLog.isLogOf {calls : List (ℕ × PropValue)} {delivered : List Output}
    (hsame : SameLog captain final) (hlog : IsLogOf start calls captain delivered) :
    IsLogOf start calls final delivered where
  length := by rw [hsame.chosenValues, hsame.maxChosen, hlog.length]
  maxChosen := hsame.maxChosen.trans hlog.maxChosen
  chosenAt := fun slot => (hsame.chosenAt slot).trans (hlog.chosenAt slot)
  hole_le := by
    rw [hsame.maxChosenWithoutHole, hsame.maxChosen]
    exact hlog.hole_le
  gapFree := by
    rw [hsame.maxChosenWithoutHole]
    exact hlog.gapFree
  hole := by
    rw [hsame.maxChosenWithoutHole]
    exact hlog.hole
  delivered := by
    rw [hsame.maxChosenWithoutHole]
    exact hlog.delivered
  masterId := by
    rw [hsame.maxChosenWithoutHole, hsame.masterId]
    exact hlog.masterId

/-- The step of the abstract log for a node whose other members have changed. -/
theorem LogRefined.learn (hrefined : LogRefined start captain log) {slot : ℕ}
    {value : PropValue} (hadd : captain.addChosenValue slot value = some (final, outs)) :
    LogRefined start final (log ++ outs) := by
  rcases hrefined with ⟨hcallback, hfull, calls, hbound, hlog⟩
  have hslot : slot < 2 ^ 31 := by
    have hmax : largestSlot calls ≤ 2 ^ 31 - 1 :=
      largestSlot_le fun call hmem => Nat.le_sub_one_of_lt (hbound call hmem)
    have hle := slot_le_of_addChosenValue hadd
    rw [hlog.maxChosen] at hle
    omega
  -- The start may have the other members of the node: the log does not depend on them.
  let here : Captain := { captain with view := { captain.view with
    masterId := start.view.masterId } }
  have hcalled : here.callback = start.callback := hcallback
  have hcalledFull : here.callbackFull = start.callbackFull := hfull
  have hhere : IsLogOf here calls captain (deliveriesOf log) := by
    refine ⟨hlog.length, hlog.maxChosen, hlog.chosenAt, hlog.hole_le, hlog.gapFree, hlog.hole,
      ?_, hlog.masterId⟩
    rw [hcalled, hcalledFull]
    exact hlog.delivered
  rcases hhere.step rfl hslot value with ⟨final', more, hadd', hframe, hstep⟩
  rw [hadd, Option.some.injEq, Prod.mk.injEq] at hadd'
  rcases hadd' with ⟨rfl, rfl⟩
  have houts : deliveriesOf outs = outs := by
    rcases addChosenValue_learned ⟨hlog.length, hlog.hole_le⟩ hadd with ⟨_, _, _, delivered, rfl⟩
    exact deliveriesOf_deliveryEvents captain delivered
  rw [← houts, ← deliveriesOf_append] at hstep
  have hdelivered := hstep.delivered
  rw [hcalled, hcalledFull] at hdelivered
  refine ⟨?_, ?_, _, ?_, hstep.length, hstep.maxChosen, hstep.chosenAt, hstep.hole_le,
    hstep.gapFree, hstep.hole, hdelivered, hstep.masterId⟩
  · rw [hframe]
    exact hcallback
  · rw [hframe]
    exact hfull
  · intro call hmem
    rcases List.mem_append.mp hmem with hold | hnew
    · exact hbound call hold
    · rw [List.mem_singleton.mp hnew]
      exact hslot

theorem LogRefined.slotMove (hrefined : LogRefined start captain log)
    (hmove : SlotMove setting captain outs final) : LogRefined start final (log ++ outs) := by
  rcases hmove.log_cases with ⟨slot, value, hadd⟩ | ⟨hsame, hquiet⟩
  · exact hrefined.learn hadd
  · rcases hrefined with ⟨hcallback, hfull, calls, hbound, hlog⟩
    refine ⟨hsame.callback.trans hcallback, hsame.callbackFull.trans hfull, calls, hbound, ?_⟩
    rw [deliveriesOf_append, deliveriesOf_eq_nil hquiet, List.append_nil]
    exact hsame.isLogOf hlog

/-! ## A node as a replica -/

theorem IsLogOf.deliveredFrom_eq {calls : List (ℕ × PropValue)} {delivered : List Output}
    (hlog : IsLogOf start calls captain delivered) (count : ℕ) :
    deliveredFrom (firstValue calls) 0 count = deliveredFrom captain.chosenAt 0 count :=
  deliveredFrom_congr fun slot _ _ => (hlog.chosenAt slot).symm

/-- The gap-free prefix of the log has been delivered, in order and once, and the
master is the one that the delivered commands have set. -/
structure DeliversLog (start captain : Captain) (log : List Output) : Prop where
  filled : ∀ slot, 0 < slot → slot ≤ captain.maxChosenWithoutHole →
    (captain.chosenAt slot).isSome
  hole : captain.chosenAt (captain.maxChosenWithoutHole + 1) = none
  delivered : deliveriesOf log =
    (List.range' 1 captain.maxChosenWithoutHole).flatMap fun slot =>
      (captain.chosenAt slot).toList.flatMap fun value =>
        (if start.callbackFull then
          [.note (.callbackFull slot value (toNodeId value.id))] else []) ++
        (if start.callback then [.note (.callback slot value.data)] else [])
  masterId : captain.view.masterId = masterAfter start.view.masterId captain.delivered

theorem LogRefined.deliversLog (hrefined : LogRefined start captain log) :
    DeliversLog start captain log := by
  rcases hrefined with ⟨_, _, calls, _, hlog⟩
  constructor
  · intro slot hpos hle
    rw [hlog.chosenAt]
    exact hlog.gapFree slot hpos hle
  · rw [hlog.chosenAt]
    exact hlog.hole
  · rw [hlog.delivered]
    simp only [← hlog.chosenAt]
  · rw [hlog.masterId, hlog.deliveredFrom_eq]
    rfl

theorem DeliversLog.deliveries_eq (hdelivers : DeliversLog start captain log) :
    deliveriesOf log = start.deliveryEvents captain.delivered :=
  hdelivers.delivered.trans (start.deliveryEvents_deliveredFrom _ _).symm

def DeliversLog.replica (hdelivers : DeliversLog start captain log) :
    Replica PropValue where
  value := captain.chosenAt
  executed := captain.maxChosenWithoutHole
  filled := hdelivers.filled

theorem DeliversLog.length_delivered (hdelivers : DeliversLog start captain log) :
    captain.delivered.length = captain.maxChosenWithoutHole :=
  hdelivers.replica.length_commands

/-! ## What later moves keep -/

/-- The captain has kept what was stored and delivered. -/
structure KeepsLog (before after : Captain) : Prop where
  kept : ∀ slot value, before.chosenAt slot = some value → after.chosenAt slot = some value
  hole_le : before.maxChosenWithoutHole ≤ after.maxChosenWithoutHole

theorem KeepsLog.refl (captain : Captain) : KeepsLog captain captain :=
  ⟨fun _ _ hvalue => hvalue, le_rfl⟩

theorem KeepsLog.trans {first second third : Captain} (h₁ : KeepsLog first second)
    (h₂ : KeepsLog second third) : KeepsLog first third :=
  ⟨fun slot value hvalue => h₂.kept slot value (h₁.kept slot value hvalue),
    h₁.hole_le.trans h₂.hole_le⟩

theorem keepsLog_of_addChosenValue (hshape : LogShape captain) {slot : ℕ} {value : PropValue}
    (hadd : captain.addChosenValue slot value = some (final, outs)) :
    KeepsLog captain final := by
  have hslot := slot_le_of_addChosenValue hadd
  rcases addChosenValue_spec hshape hslot value with
    ⟨stored, final', outs', hstored, happlied, heq, _⟩
  rw [hadd, Option.some.injEq, Prod.mk.injEq] at heq
  rcases heq with ⟨rfl, rfl⟩
  constructor
  · intro other value' hvalue'
    rw [chosenAt, happlied.chosenValues]
    change stored.chosenAt other = _
    rw [hstored.chosenAt, hvalue', Option.some_or]
  · rw [← hstored.hole]
    exact happlied.le

theorem SlotMove.keepsLog (hshape : LogShape captain)
    (hmove : SlotMove setting captain outs final) : KeepsLog captain final := by
  rcases hmove.log_cases with ⟨slot, value, hadd⟩ | ⟨hsame, _⟩
  · exact keepsLog_of_addChosenValue hshape hadd
  · constructor
    · intro slot value hvalue
      rw [hsame.chosenAt, hvalue]
    · exact hsame.maxChosenWithoutHole.ge

end Captain

/-! ## Every node in every run -/

theorem logRefined_initial (deployment : Deployment) (i : ℕ) :
    Captain.LogRefined (deployment.node i).captain (deployment.node i).captain
      (deployment.node i).log :=
  ⟨rfl, rfl, [], by simp, (deployment.node_freshLog i).isLogOf⟩

theorem logRefined_preserved (deployment : Deployment) (condition : StepCondition) :
    PreservedBySlotMoves deployment condition fun nodes => ∀ i < deployment.config.size,
      Captain.LogRefined (deployment.node i).captain (nodes i).captain (nodes i).log := by
  intro nodes i setting outs final hi _ _ hrefined hmove
  exact forall_actOn (fun i => Captain.LogRefined (deployment.node i).captain) hrefined
    ((hrefined i hi).slotMove hmove)

theorem keepsLog_preserved {deployment : Deployment} (condition : StepCondition)
    (past : ℕ → Node) :
    PreservedBySlotMoves deployment condition fun nodes => ∀ i < deployment.config.size,
      Captain.KeepsLog (past i).captain (nodes i).captain := by
  intro nodes i setting outs final hi hkeeps _ hpast hmove
  exact forall_actOn (fun i captain _ => Captain.KeepsLog (past i).captain captain) hpast
    ((hpast i hi).trans (hmove.keepsLog (hkeeps.wellKept i hi).shape))

theorem logRefined_of_run {deployment : Deployment} {actions : List Action} {final : Cluster}
    (hrun : deployment.run actions = some final) {i : ℕ} (hi : i < deployment.config.size) :
    Captain.LogRefined (deployment.node i).captain (final.nodes i).captain (final.nodes i).log :=
  (reaches_of_run (logRefined_preserved deployment {}).moves
    (fun i _ => logRefined_initial deployment i) (runMeets_anything deployment actions)
    hrun).invariant i hi

/-- In every run, whatever the callbacks call, a node has delivered the gap-free
prefix of its log, in order and once. -/
theorem deliversLog_of_run (deployment : Deployment) (actions : List Action) (final : Cluster)
    (hrun : deployment.run actions = some final) (i : ℕ) (hi : i < deployment.config.size) :
    Captain.DeliversLog (deployment.node i).captain (final.nodes i).captain
      (final.nodes i).log :=
  (logRefined_of_run hrun hi).deliversLog

theorem deliversLog_twoNodes :
    ∃ final, Deployment.run { config := twoNodes .basic, callback := fun _ => true }
        (.call 1 (.commit { id := 65537, data := [7] } (some [[1]])) ::
          List.replicate 10 (.deliver 0 [] {})) = some final ∧
      deliveriesOf (final.nodes 0).log = [.note (.callback 1 [7])] := by
  have hfinal : (Deployment.run { config := twoNodes .basic, callback := fun _ => true }
      (.call 1 (.commit { id := 65537, data := [7] } (some [[1]])) ::
        List.replicate 10 (.deliver 0 [] {}))).map
        (fun final => (final.nodes 0).captain.delivered) =
      some [(1, { id := 65537, data := [7] })] := by
    decide
  rcases Option.map_eq_some_iff.mp hfinal with ⟨final, hrun, hdelivered⟩
  refine ⟨final, hrun, ?_⟩
  rw [(deliversLog_of_run { config := twoNodes .basic, callback := fun _ => true } _ final hrun 0
    (by decide)).deliveries_eq, hdelivered]
  rfl

/-! ## One log for all nodes -/

/-- What the nodes of each build need for agreement. -/
def Deployment.Agreeing (deployment : Deployment) (nodes : ℕ → Node) : Prop :=
  match deployment.config.mode with
  | .basic => True
  | .quorum => True
  | .multi => LeaseRespected deployment.config nodes
  | .rs => deployment.config.rsParams.Meet deployment.config.size

theorem Paxos.chosenId_unique_of_lease {config : Config} {nodes : ℕ → Node}
    (hpaxos : Paxos config nodes) (hlease : LeaseRespected config nodes) {slot id id' : ℕ}
    (hchosen : ChosenId config nodes slot id) (hchosen' : ChosenId config nodes slot id') :
    id = id' := by
  rcases hchosen with ⟨ballot, hchosen⟩
  rcases hchosen' with ⟨ballot', hchosen'⟩
  have hsound := hpaxos.sound slot
    (fun i => i < config.size ∧ ∃ value, Opened (nodes i).log slot value)
    (fun i => i < config.size ∧ ∃ value, OpenedFirst (nodes i).log slot value)
    ⟨fun i hi value hopened => ⟨hi, value, hopened⟩,
      fun i hi value hopened => ⟨hi, value, hopened⟩⟩
    (fun _ node hfirst lower hlt hopener =>
      hlease slot node hfirst.1 lower hlt hfirst.2 hopener.2)
  exact hsound.agreement config.intersecting_quorum hchosen hchosen'

section Agreeing

variable {deployment : Deployment} {actions : List Action} {final : Cluster}
  (hrun : deployment.run actions = some final) (hagreeing : deployment.Agreeing final.nodes)
  {slot : ℕ} {value value' : PropValue}
  (hdecided : Decided deployment.config.size final.nodes slot value)
  (hdecided' : Decided deployment.config.size final.nodes slot value')

include hrun hagreeing hdecided hdecided'

theorem Decided.ids_eq : value.id = value'.id := by
  have hknown : deployment.config.mode ≠ .rs →
      Paxos deployment.config final.nodes ∧
        ChosenId deployment.config final.nodes slot value.id ∧
        ChosenId deployment.config final.nodes slot value'.id := by
    intro hshards
    rcases knowledge_of_run hshards hrun with ⟨_, hpaxos, hknowledge, _⟩
    exact ⟨hpaxos, (hknowledge.decided hdecided).2, (hknowledge.decided hdecided').2⟩
  cases hmode : deployment.config.mode with
  | basic => exact (hdecided.same (.inl hmode) hrun hdecided').1
  | quorum => exact (hdecided.same (.inr hmode) hrun hdecided').1
  | multi =>
      rcases hknown (by simp [hmode]) with ⟨hpaxos, hchosen, hchosen'⟩
      rw [Deployment.Agreeing, hmode] at hagreeing
      exact hpaxos.chosenId_unique_of_lease hagreeing hchosen hchosen'
  | rs =>
      rw [Deployment.Agreeing, hmode] at hagreeing
      exact decided_ids_eq hmode hrun hagreeing hdecided hdecided'

theorem Decided.eq_of_idsIdentify (hshards : deployment.config.mode ≠ .rs)
    (hids : IdsIdentify deployment.config.size final.nodes) : value = value' := by
  rcases knowledge_of_run hshards hrun with ⟨_, _, hknowledge, hgiven⟩
  rcases (hknowledge.decided hdecided).1 with ⟨i, hi, hopened⟩
  rcases (hknowledge.decided hdecided').1 with ⟨j, hj, hopened'⟩
  exact hids i hi j hj value value' ((hgiven i hi).opened slot value hopened)
    ((hgiven j hj).opened slot value' hopened') (hdecided.ids_eq hrun hagreeing hdecided')

end Agreeing

/-- The slots that a node has delivered, with the ids of their values. -/
def Captain.deliveredIds (captain : Captain) : List (ℕ × ℕ) :=
  captain.delivered.map fun entry => (entry.1, entry.2.id)

section Times

variable {deployment : Deployment} {actions more : List Action} {mid final : Cluster}
  (hrun : deployment.run actions = some mid)
  (hmore : deployment.run (actions ++ more) = some final)

include hrun hmore

theorem keepsLog_of_run {i : ℕ} (hi : i < deployment.config.size) :
    Captain.KeepsLog (mid.nodes i).captain (final.nodes i).captain := by
  rcases PartialMachine.run_append_eq_some.mp hmore with ⟨next, hfirst, hrest⟩
  have hnext : mid = next := Option.some.inj (hrun.symm.trans hfirst)
  subst hnext
  have hstart := reaches_of_run (keepsLog_preserved {} deployment.node).moves
    (fun i _ => Captain.KeepsLog.refl _) (runMeets_anything deployment actions) hrun
  have hmid : Reaches deployment (fun nodes => ∀ i < deployment.config.size,
      Captain.KeepsLog (mid.nodes i).captain (nodes i).captain) mid :=
    ⟨hstart.keeps, hstart.sent, fun i _ => Captain.KeepsLog.refl _⟩
  refine (PartialMachine.invariant_of_runMeets (Reaches deployment _)
    (fun cluster action next hholds hreaches hstep =>
      hreaches.step (keepsLog_preserved {} mid.nodes).moves hholds hstep)
    hmid (PartialMachine.runMeets_of_forall (fun action _ cluster =>
      holds_anything cluster action) _) hrest).invariant i hi

theorem delivered_comparable_of_agree {i j : ℕ} (hi : i < deployment.config.size)
    (hj : j < deployment.config.size) {Part : Type*} (look : PropValue → Part)
    (hsame : ∀ slot value value', (final.nodes i).captain.chosenAt slot = some value →
      (final.nodes j).captain.chosenAt slot = some value' → look value = look value') :
    Comparable ((mid.nodes i).captain.delivered.map fun entry => (entry.1, look entry.2))
      ((final.nodes j).captain.delivered.map fun entry => (entry.1, look entry.2)) := by
  have hkeeps := keepsLog_of_run hrun hmore hi
  let early := (logRefined_of_run hrun hi).deliversLog.replica.map look
  let late := (logRefined_of_run hmore hi).deliversLog.replica.map look
  let other := (logRefined_of_run hmore hj).deliversLog.replica.map look
  have hgrows : early.Grows late := by
    refine ⟨?_, hkeeps.hole_le⟩
    intro slot part hpart
    rcases Option.map_eq_some_iff.mp hpart with ⟨value, hvalue, rfl⟩
    exact Option.map_eq_some_iff.mpr ⟨value, hkeeps.kept slot value hvalue, rfl⟩
  have hagrees : late.Agrees other := by
    intro slot part part' hpart hpart'
    rcases Option.map_eq_some_iff.mp hpart with ⟨value, hvalue, rfl⟩
    rcases Option.map_eq_some_iff.mp hpart' with ⟨value', hvalue', rfl⟩
    exact hsame slot value value' hvalue hvalue'
  have hcomparable := hgrows.commands_comparable hagrees
  simp only [early, other, Replica.commands_map] at hcomparable
  exact hcomparable

theorem delivered_comparable_of_ids (hagreeing : deployment.Agreeing final.nodes) {i j : ℕ}
    (hi : i < deployment.config.size) (hj : j < deployment.config.size)
    (hshards : deployment.config.mode ≠ .rs)
    (hids : IdsIdentify deployment.config.size final.nodes) :
    Comparable (mid.nodes i).captain.delivered (final.nodes j).captain.delivered := by
  have hcomparable := delivered_comparable_of_agree hrun hmore hi hj id
    fun slot value value' hvalue hvalue' =>
      Decided.eq_of_idsIdentify hmore hagreeing ⟨i, hi, .inr hvalue⟩ ⟨j, hj, .inr hvalue'⟩
        hshards hids
  simpa only [id_eq, Prod.mk.eta, List.map_id'] using hcomparable

end Times

/-- What one node has delivered and what another node has delivered later are
prefixes of one sequence, by their ids and, where ids identify values, as a whole. -/
theorem delivered_comparable (deployment : Deployment) (actions more : List Action)
    (mid final : Cluster) (hrun : deployment.run actions = some mid)
    (hmore : deployment.run (actions ++ more) = some final)
    (hagreeing : deployment.Agreeing final.nodes) (i j : ℕ) (hi : i < deployment.config.size)
    (hj : j < deployment.config.size) :
    Comparable (mid.nodes i).captain.deliveredIds (final.nodes j).captain.deliveredIds ∧
      (deployment.config.mode ≠ .rs → IdsIdentify deployment.config.size final.nodes →
        Comparable (mid.nodes i).captain.delivered (final.nodes j).captain.delivered ∧
        ((mid.nodes i).captain.maxChosenWithoutHole =
            (final.nodes j).captain.maxChosenWithoutHole →
          (mid.nodes i).captain.view.masterId = (final.nodes j).captain.view.masterId)) := by
  constructor
  · apply delivered_comparable_of_agree hrun hmore hi hj PropValue.id
    intro slot value value' hvalue hvalue'
    exact Decided.ids_eq hmore hagreeing ⟨i, hi, .inr hvalue⟩ ⟨j, hj, .inr hvalue'⟩
  · intro hshards hids
    have hcomparable := delivered_comparable_of_ids hrun hmore hagreeing hi hj hshards hids
    refine ⟨hcomparable, ?_⟩
    intro hcount
    have hearly := (logRefined_of_run hrun hi).deliversLog
    have hlate := (logRefined_of_run hmore hj).deliversLog
    rw [← hearly.length_delivered, ← hlate.length_delivered] at hcount
    rw [hearly.masterId, hlate.masterId, hcomparable.eq_of_length hcount]
    rfl

/-- Node 1 makes itself the master and has delivered its command before node 0 has. -/
theorem delivered_comparable_twoNodes :
    ∃ mid final, Deployment.run { config := twoNodes .basic }
        (.call 1 (.commit { id := 65537, cmdType := some .setMaster } (some [[1]])) ::
          List.replicate 8 (.deliver 0 [] {})) = some mid ∧
      Deployment.run { config := twoNodes .basic }
        ((.call 1 (.commit { id := 65537, cmdType := some .setMaster } (some [[1]])) ::
          List.replicate 8 (.deliver 0 [] {})) ++ List.replicate 2 (.deliver 0 [] {})) =
            some final ∧
      (mid.nodes 1).captain.deliveredIds = [(1, 65537)] ∧
      (mid.nodes 0).captain.deliveredIds = [] ∧
      Comparable [(1, 65537)] (final.nodes 0).captain.deliveredIds := by
  have hmid : (Deployment.run { config := twoNodes .basic }
      (.call 1 (.commit { id := 65537, cmdType := some .setMaster } (some [[1]])) ::
        List.replicate 8 (.deliver 0 [] {}))).map
        (fun mid => ((mid.nodes 1).captain.deliveredIds, (mid.nodes 0).captain.deliveredIds)) =
      some ([(1, 65537)], []) := by
    decide
  have hfinal : (Deployment.run { config := twoNodes .basic }
      ((.call 1 (.commit { id := 65537, cmdType := some .setMaster } (some [[1]])) ::
        List.replicate 8 (.deliver 0 [] {})) ++ List.replicate 2 (.deliver 0 [] {}))).isSome := by
    decide
  rcases Option.map_eq_some_iff.mp hmid with ⟨mid, hrun, hdelivered⟩
  rcases Option.isSome_iff_exists.mp hfinal with ⟨final, hmore⟩
  rw [Prod.mk.injEq] at hdelivered
  have hcomparable := delivered_comparable { config := twoNodes .basic } _ _ mid final hrun hmore
    trivial 1 0 (by decide) (by decide)
  rw [hdelivered.1] at hcomparable
  exact ⟨mid, final, hrun, hmore, hdelivered.1, hdelivered.2, hcomparable.1⟩

end NDNPaxos
