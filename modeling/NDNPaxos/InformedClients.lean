import NDNPaxos.ValuePlaces
import Mathlib.Tactic

/-!
# Informed clients

A node informs the client of a value while it handles the message that makes
the value's proposer retire under its own id, and only then.  The client's name
is the right one as long as a proposer that lost its slot was handed on under
it: the code takes the name of the handled message instead.
-/

namespace NDNPaxos

def informed? : Output → Option (ℕ × Name)
  | .note (.informClient slot _ name) => some (slot, name)
  | _ => none

def informed (log : List Output) : List (ℕ × Name) := log.filterMap informed?

theorem informed_append (log outs : List Output) :
    informed (log ++ outs) = informed log ++ informed outs := List.filterMap_append

theorem informed_eq_nil {outs : List Output} (hkinds : ∀ out ∈ outs, out.kind ≠ .client) :
    informed outs = [] := by
  rw [informed, List.filterMap_eq_nil_iff]
  intro out hmem
  have hkind := hkinds out hmem
  unfold informed?
  split
  · exact absurd rfl hkind
  · rfl

theorem mem_informed {log : List Output} {slot : ℕ} {name : Name} :
    (slot, name) ∈ informed log ↔ ∃ tryTime, .note (.informClient slot tryTime name) ∈ log := by
  rw [informed, List.mem_filterMap]
  constructor
  · rintro ⟨out, hmem, hout⟩
    unfold informed? at hout
    split at hout
    · rw [Option.some.injEq, Prod.mk.injEq] at hout
      rcases hout with ⟨rfl, rfl⟩
      exact ⟨_, hmem⟩
    · simp at hout
  · rintro ⟨tryTime, hmem⟩
    exact ⟨_, hmem, rfl⟩

namespace Captain

theorem informed_deliveryEvents (captain : Captain) (delivered : List (ℕ × PropValue)) :
    informed (captain.deliveryEvents delivered) = [] := by
  rw [informed, List.filterMap_eq_nil_iff]
  intro out hmem
  rw [deliveryEvents, List.mem_flatMap] at hmem
  rcases hmem with ⟨entry, _, hout⟩
  rcases List.mem_append.mp hout with hfull | hplain
  · split at hfull
    · rw [List.mem_singleton.mp hfull]
      rfl
    · simp at hfull
  · split at hplain
    · rw [List.mem_singleton.mp hplain]
      rfl
    · simp at hplain

def Silent (outs : List Output) : Prop := informed outs = [] ∧ ownRetirements outs = []

theorem Silent.append {outs outs' : List Output} (hfirst : Silent outs)
    (hsecond : Silent outs') : Silent (outs ++ outs') := by
  rw [Silent, informed_append, ownRetirements_append, hfirst.1, hfirst.2, hsecond.1, hsecond.2]
  exact ⟨rfl, rfl⟩

theorem silent_of_kinds {outs : List Output}
    (hkinds : ∀ out ∈ outs, out.kind ≠ .client ∧ out.kind ≠ .retired) : Silent outs :=
  ⟨informed_eq_nil fun out hmem => (hkinds out hmem).1,
    ownRetirements_eq_nil fun out hmem => (hkinds out hmem).2⟩

theorem silent_openSlot (captain : Captain) (value : PropValue) (name : Name) (tryTime : ℕ)
    (skipPhaseI : Bool) : Silent (captain.openSlot value name tryTime skipPhaseI).2 := by
  apply silent_of_kinds
  intro out hmem
  rcases kind_of_mem_openSlot hmem with hkind | hkind <;> simp [hkind]

theorem silent_cons {event : Event} (hclient : event.kind ≠ .client)
    (hretired : event.kind ≠ .retired) {outs : List Output} (hsilent : Silent outs) :
    Silent (.note event :: outs) := by
  have hnote : Silent [.note event] := by
    apply silent_of_kinds
    intro out hmem
    rw [List.mem_singleton.mp hmem]
    exact ⟨hclient, hretired⟩
  exact hnote.append hsilent

theorem Move.silent {setting : Setting} {captain final : Captain} {outs : List Output}
    (hnever : ∀ slot info, ¬ setting.retires slot info) (hshape : LogShape captain)
    (hmove : Move setting captain outs final) : Silent outs := by
  cases hmove with
  | base hmove =>
      cases hmove with
      | forwarding hmove => exact silent_of_kinds fun out hmem => by simp [hmove.spec.2 out hmem]
      | acceptor hmove => exact silent_of_kinds fun out hmem => by simp [hmove.spec.2 out hmem]
      | proposer hmove => exact silent_of_kinds fun out hmem => by simp [hmove.spec.2.2 out hmem]
      | learner hmove =>
          cases hmove with
          | tell hinfo hstatus hvalue hown hretires => exact absurd hretires (hnever _ _)
          | learn hlearn hadd =>
              rcases addChosenValue_learned hshape hadd with ⟨_, _, _, delivered, rfl⟩
              refine ⟨informed_deliveryEvents _ _, ownRetirements_eq_nil ?_⟩
              intro out hmem
              simp [kind_of_mem_deliveryEvents hmem]
          | teach hreceived hstored hteach hsend =>
              rcases answerLearn_msg hteach with ⟨msg, rfl, _⟩
              apply silent_of_kinds
              intro out hmem
              simp [kind_of_mem_sendInterest hsend hmem, Message.kind]
          | inquire hreceived =>
              apply silent_of_kinds
              intro out hmem
              simp [kind_of_mem_sendData hmem, Message.kind]
  | commit hsource hstep =>
      rcases hstep.kinds with ⟨sent, rfl, hsent⟩
      refine silent_cons (by simp [Event.kind]) (by simp [Event.kind]) (silent_of_kinds ?_)
      intro out hmem
      rcases hsent out hmem with hkind | hkind <;> simp [hkind]
  | command hcall hmaster hid =>
      exact silent_cons (by simp [Event.kind]) (by simp [Event.kind]) ⟨rfl, rfl⟩
  | finish hinfo hstatus hvalue hstored hretires hstep => exact absurd hretires (hnever _ _)

theorem silent_of_moves {setting : Setting} {captain final : Captain} {outs : List Output}
    (hnever : ∀ slot info, ¬ setting.retires slot info) (hkept : captain.WellKept)
    (hchain : OutputChain (Move setting) captain outs final) : Silent outs := by
  induction hchain with
  | nil => exact ⟨rfl, rfl⟩
  | cons hmove _ ih => exact (hmove.silent hnever hkept.shape).append (ih (hmove.wellKept hkept))

/-- A setting in which no proposer retires. -/
def retireless (dataName : Name) : Setting where
  retires := fun _ _ => False
  dataName := dataName

theorem runCalls_silent {captain final : Captain} {calls : List Call} {outs : List Output}
    (hkept : captain.WellKept) (hrun : captain.runCalls calls = some (final, outs)) :
    Silent outs ∧ final.WellKept := by
  have hchain : OutputChain (Move (retireless [])) captain outs final :=
    runCalls_moves (fun _ _ => trivial) hrun
  exact ⟨silent_of_moves (fun _ _ h => h) hkept hchain,
    hchain.preserves WellKept (fun _ _ _ hkept hmove => hmove.wellKept hkept) hkept⟩

/-- Either nothing is told and retired, or the client of one live proposer is
told and this proposer retires under its own id. -/
inductive Notices (captain : Captain) (outs : List Output) : Prop where
  | silent (hsilent : Silent outs)
  | own {slot : ℕ} {info : ProposerInfo} (hinfo : captain.proposers[slot]? = some info)
      (hinformed : informed outs = [(slot, info.clientName)])
      (hretired : ownRetirements outs = [(slot, info.currProposer.initValue)])

theorem silent_announce (captain : Captain) (slot : ℕ) (chosen : PropValue) :
    Silent (captain.announce slot chosen) := by
  apply silent_of_kinds
  intro out hmem
  simp [kind_of_mem_announce hmem]

theorem choose_notices {captain final : Captain} {slot : ℕ} {info : ProposerInfo}
    {chosen : PropValue} {dataName : Name} {app : AppCalls} {outs : List Output}
    (hkept : (captain.setProposer slot { info with proposerStatus := .chosen }).WellKept)
    (hchoose : captain.choose slot info chosen dataName app = some (final, outs)) :
    if chosen.id = info.currProposer.initValue.id then
      informed outs = [(slot, info.clientName)] ∧
        ownRetirements outs = [(slot, info.currProposer.initValue)]
    else Silent outs := by
  simp only [choose, Option.bind_eq_bind, Option.bind_eq_some_iff, Prod.exists, pure,
    Option.some.injEq, Prod.mk.injEq] at hchoose
  rcases hchoose with ⟨c₂, told, hnotify, c₃, applied, hadd, c₄, called, hcalls, c₅, finished,
    hfinish, rfl, rfl⟩
  have htold : c₂.WellKept ∧
      informed told = (if chosen.id = info.currProposer.initValue.id then
        [(slot, info.clientName)] else []) ∧ ownRetirements told = [] := by
    simp only [notifyOwn, Proposer.getInitValue] at hnotify
    by_cases hown : chosen.id = info.currProposer.initValue.id
    · simp only [hown, if_true] at hnotify ⊢
      split at hnotify
      · simp only [Option.bind_eq_bind, Option.bind_eq_some_iff, Prod.exists, pure,
          Option.some.injEq, Prod.mk.injEq] at hnotify
        rcases hnotify with ⟨next, outs', hrun, rfl, rfl⟩
        rcases runCalls_silent hkept hrun with ⟨hsilent, hnext⟩
        refine ⟨hnext, ?_, ?_⟩
        · change (slot, info.clientName) :: informed outs' = _
          rw [hsilent.1]
        · exact hsilent.2
      · rw [Option.some.injEq, Prod.mk.injEq] at hnotify
        rcases hnotify with ⟨rfl, rfl⟩
        exact ⟨hkept, rfl, rfl⟩
    · simp only [hown, if_false, Option.some.injEq, Prod.mk.injEq] at hnotify ⊢
      rcases hnotify with ⟨rfl, rfl⟩
      exact ⟨hkept, rfl, rfl⟩
  rcases htold with ⟨hkept₂, htold, htoldRetired⟩
  rcases addChosenValue_learned hkept₂.shape hadd with ⟨hframe, hshape₃, _, delivered, rfl⟩
  have hkept₃ : c₃.WellKept := ⟨hshape₃, by rw [hframe]; exact hkept₂.keys⟩
  have hcalled := (runCalls_silent hkept₃ hcalls).1
  have happlied : Silent (c₂.deliveryEvents delivered) := by
    refine ⟨informed_deliveryEvents _ _, ownRetirements_eq_nil ?_⟩
    intro out hmem
    simp [kind_of_mem_deliveryEvents hmem]
  have hannounced := silent_announce c₄ slot chosen
  have hfinished : informed finished = [] ∧
      ownRetirements finished = (if chosen.id = info.currProposer.initValue.id then
        [(slot, info.currProposer.initValue)] else []) := by
    have hnote : ∀ outs', Silent outs' →
        informed (.note (.chose slot chosen info.currProposer.initValue) :: outs') = [] ∧
          ownRetirements (.note (.chose slot chosen info.currProposer.initValue) :: outs') =
            (if chosen.id = info.currProposer.initValue.id then
              [(slot, info.currProposer.initValue)] else []) := by
      rintro outs' ⟨hinformed, hretired⟩
      constructor
      · exact hinformed
      · rw [← List.singleton_append, ownRetirements_append, hretired, List.append_nil]
        by_cases hown : chosen.id = info.currProposer.initValue.id <;>
          simp [ownRetirements, ownRetirement?, hown]
    cases finishChoose_step hfinish with
    | idle hown hempty => exact hnote [] ⟨rfl, rfl⟩
    | next hown hpop => exact hnote _ (silent_openSlot _ _ _ _ _)
    | recommit hforeign => exact hnote _ (silent_openSlot _ _ _ _ _)
  rw [Silent]
  simp only [informed_append, ownRetirements_append, htold, htoldRetired, happlied.1,
    happlied.2, hcalled.1, hcalled.2, hannounced.1, hannounced.2, hfinished.1, hfinished.2,
    List.append_nil, List.nil_append]
  split <;> exact ⟨rfl, rfl⟩

theorem handleMsg_notices {captain final : Captain} {msg : Message} {dataName : Name}
    {app : AppCalls} {outs : List Output} (hkept : captain.WellKept)
    (hhandle : captain.handleMsg msg dataName app = some (final, outs)) :
    Notices captain outs := by
  cases hchooses : captain.chooses msg with
  | none =>
      have hchain : OutputChain (Move (retireless dataName)) captain outs final := by
        refine handleMsg_moves hkept trivial ?_ (fun _ _ => trivial) hhandle
        intro slot info hsome
        simp [hchooses] at hsome
      exact .silent (silent_of_moves (fun _ _ h => h) hkept hchain)
  | some entry =>
      rcases entry with ⟨slot, info⟩
      cases msg with
      | accepted msg =>
          simp only [chooses] at hchooses
          split at hchooses
          next before hbefore =>
            split at hchooses
            next hbranch =>
              rcases hbranch with ⟨hwork, hphase, hchoose⟩
              cases hack : before.currProposer.handleMsgAccepted msg with
              | mk ack proposer =>
                  simp only [hack] at hchoose
                  subst hchoose
                  simp only [handleMsg, hwork, Bool.true_eq_false, if_false, handleAccepted,
                    hbefore, hphase, if_true, hack] at hhandle
                  have hinit := acceptedStep_initValue hack
                  have hnotices := choose_notices ?_ hhandle
                  · simp only [hinit] at hnotices
                    split at hnotices
                    · exact .own hbefore hnotices.1 hnotices.2
                    · exact .silent hnotices
                  · refine ⟨⟨hkept.shape.length, hkept.shape.hole_le⟩, ?_⟩
                    exact OrderedMap.forall_insert hkept.keys (hkept.keys _ before hbefore)
            next => simp at hchooses
          next => simp at hchooses
      | _ => simp [chooses] at hchooses

/-- The own retirements of a node, each told to a client under whose name the
value was handed over. -/
def Told (log : List Output) : Prop :=
  List.Forall₂ (fun notice retired => notice.1 = retired.1 ∧ (retired.2, notice.2) ∈ handed log)
    (informed log) (ownRetirements log)

theorem Told.after {log outs : List Output} {captain : Captain} (htold : Told log)
    (hnames : OwnNames captain log) (hnotices : Notices captain outs) : Told (log ++ outs) := by
  have hold : List.Forall₂
      (fun notice retired => notice.1 = retired.1 ∧ (retired.2, notice.2) ∈ handed (log ++ outs))
      (informed log) (ownRetirements log) := by
    refine htold.imp ?_
    rintro notice retired ⟨hslot, hmem⟩
    rw [handed_append]
    exact ⟨hslot, List.mem_append_left _ hmem⟩
  unfold Told
  rw [informed_append, ownRetirements_append]
  cases hnotices with
  | silent hsilent =>
      rw [hsilent.1, hsilent.2, List.append_nil, List.append_nil]
      exact hold
  | @own slot info hinfo hinformed hretired =>
      rw [hinformed, hretired]
      refine List.rel_append hold (.cons ⟨rfl, ?_⟩ .nil)
      rw [handed_append]
      exact List.mem_append_left _ (hnames.entries slot info hinfo)

end Captain

/-- In a run of a node in which every lost value comes back under its client's
name, clients are told about own retirements, and about nothing else. -/
theorem told_of_runNode {deployment : Deployment} {i : ℕ} {actions : List NodeAction}
    {final : Node}
    (hmeets : Node.machine.RunMeets StepCondition.ownName.OnNode (deployment.node i) actions)
    (hrun : deployment.runNode i actions = some final) (hquiet : NoCommand final.log) :
    Captain.Told final.log := by
  let invariant : Captain → List Output → Prop := fun captain log =>
    NoCommand log → captain.QueueInvariant log ∧ captain.OwnNames log
  have hstart : ((deployment.node i).captain.WellKept ∧
      invariant (deployment.node i).captain (deployment.node i).log) ∧
      (NoCommand (deployment.node i).log → Captain.Told (deployment.node i).log) :=
    ⟨⟨deployment.node_wellKept i, fun _ =>
      ⟨Captain.QueueInvariant.initial deployment i, ownNames_initial deployment i⟩⟩,
      fun _ => .nil⟩
  refine (PartialMachine.invariant_of_runMeets
    (fun node : Node => (node.captain.WellKept ∧ invariant node.captain node.log) ∧
      (NoCommand node.log → Captain.Told node.log))
    ?_ hstart hmeets hrun).2 hquiet
  rintro node action next hholds ⟨⟨hkept, hinvariant⟩, htold⟩ hstep
  refine ⟨Node.step_preserves ownNames_preserved hholds hkept hinvariant hstep, ?_⟩
  intro hquiet
  have hlog : ∃ outs, next.log = node.log ++ outs ∧ Captain.Notices node.captain outs := by
    change node.step action = some next at hstep
    cases action with
    | call made =>
        simp only [Node.step, Option.map_eq_some_iff, Prod.exists] at hstep
        rcases hstep with ⟨captain, outs, hcall, rfl⟩
        have hchain : OutputChain (Captain.Move (Captain.retireless [])) _ outs captain :=
          Captain.call_moves trivial hcall
        exact ⟨outs, rfl, .silent (Captain.silent_of_moves (fun _ _ h => h) hkept hchain)⟩
    | handle msg dataName app =>
        simp only [Node.step, Option.map_eq_some_iff, Prod.exists] at hstep
        rcases hstep with ⟨captain, outs, hhandle, rfl⟩
        exact ⟨outs, rfl, Captain.handleMsg_notices hkept hhandle⟩
  rcases hlog with ⟨outs, hlog, hnotices⟩
  rw [hlog] at hquiet ⊢
  exact (htold hquiet.left).after (hinvariant hquiet.left).2 hnotices

/-! ## The right client, once -/

/-- The number of times a client was told about a slot that the value's
proposer retired from. -/
def noticesFor (log : List Output) (value : PropValue) : ℕ :=
  (informed log).countP fun notice => (notice.1, value) ∈ ownRetirements log

theorem noticesFor_eq {log : List Output} (htold : Captain.Told log)
    (hnodup : ((ownRetirements log).map Prod.fst).Nodup) (value : PropValue) :
    noticesFor log value = ((ownRetirements log).map Prod.snd).count value := by
  have hslots : (informed log).map Prod.fst = (ownRetirements log).map Prod.fst := by
    rw [← List.forall₂_eq_eq_eq, List.forall₂_map_left_iff, List.forall₂_map_right_iff]
    exact htold.imp fun _ _ h => h.1
  have hcount : noticesFor log value =
      ((informed log).map Prod.fst).countP fun slot => (slot, value) ∈ ownRetirements log := by
    rw [List.countP_map]
    rfl
  rw [hcount, hslots, List.countP_map, List.count_eq_countP, List.countP_map]
  apply List.countP_congr
  rintro ⟨slot, retired⟩ hmem
  simp only [Function.comp_apply, decide_eq_true_eq, beq_iff_eq]
  constructor
  · intro hvalue
    exact congrArg Prod.snd (List.inj_on_of_nodup_map hnodup hmem hvalue rfl)
  · rintro rfl
    exact hmem

/-- As long as every value that loses its slot comes back under its client's
name, a client is only told about a value it committed on this node, once, as
soon as the value's proposer has retired under its own id. -/
theorem clients_informed (deployment : Deployment)
    (hmode : deployment.config.mode = .basic ∨ deployment.config.mode = .quorum)
    (actions : List Action) (final : Cluster) (hrun : deployment.run actions = some final)
    (hcalls : ∀ action ∈ actions, ∀ call ∈ action.calls, ∀ value, call ≠ .masterChange value)
    (honce : HandedOnce deployment.config.size final.nodes)
    (hmeets : deployment.machine.RunMeets StepCondition.ownName.Holds deployment.initial actions)
    (i : ℕ) (hi : i < deployment.config.size) :
    (∀ slot tryTime name, .note (.informClient slot tryTime name) ∈ (final.nodes i).log →
      ∃ value, Decided deployment.config.size final.nodes slot value ∧
        .note (.commit value name) ∈ (final.nodes i).log) ∧
    ∀ value name, .note (.commit value name) ∈ (final.nodes i).log →
      noticesFor (final.nodes i).log value ≤ 1 ∧
        ((∃ slot, (slot, value) ∈ ownRetirements (final.nodes i).log) →
          noticesFor (final.nodes i).log value = 1) := by
  have hshards : deployment.config.mode ≠ .rs := by
    rcases hmode with h | h <;> simp [h]
  have hplaces := places_of_run hrun hcalls
  rcases hplaces i hi with ⟨hplaced, haccounted, hquiet⟩
  rcases knowledge_of_run hshards hrun with ⟨_, _, hknowledge, hgiven⟩
  rcases runNode_of_run hmeets hrun with ⟨steps, hsteps, hstepsMeet⟩
  have htold := told_of_runNode hstepsMeet hsteps hquiet
  constructor
  · intro slot tryTime name hmem
    have hnotice := mem_informed.mpr ⟨tryTime, hmem⟩
    rcases List.forall₂_iff_get.mp htold with ⟨hlength, hpairs⟩
    rcases List.mem_iff_get.mp hnotice with ⟨place, hget⟩
    have hpair := hpairs place.1 place.2 (hlength ▸ place.2)
    rw [hget] at hpair
    rcases hpair with ⟨hslot, hhanded⟩
    let retired := (ownRetirements (final.nodes i).log).get ⟨place.1, hlength ▸ place.2⟩
    have hretired : (slot, retired.2) ∈ ownRetirements (final.nodes i).log := by
      have hretiredMem := List.get_mem (ownRetirements (final.nodes i).log)
        ⟨place.1, hlength ▸ place.2⟩
      rw [show slot = retired.1 from hslot]
      exact hretiredMem
    rcases mem_ownRetirements.mp hretired with ⟨chosen, hchose, hid⟩
    -- The chosen value is the node's own one, since ids identify values.
    have hsame : chosen = retired.2 := by
      rcases ((hknowledge.opened hi).2.chose slot chosen retired.2 hchose).1 with ⟨j, hj, hopened⟩
      rcases (hgiven j hj).opened slot chosen hopened with ⟨other, hcommit⟩ | hcommand
      · exact congrArg Prod.fst (honce.same hj hi (mem_handed.mpr hcommit) hhanded hid).2
      · exact absurd hcommand ((hplaces j hj).2.2 chosen)
    refine ⟨retired.2, ⟨i, hi, .inl ⟨retired.2, ?_⟩⟩, mem_handed.mp hhanded⟩
    rw [hsame] at hchose
    exact hchose
  · intro value name hcommit
    rw [noticesFor_eq htold haccounted.retired]
    have hone := one_place hplaced (honce.nodup hi) (mem_handed.mpr hcommit)
    simp only [placesOf, List.mem_cons, Prod.mk.injEq, List.not_mem_nil, or_false] at hone
    refine ⟨by omega, ?_⟩
    rintro ⟨slot, hretired⟩
    have hpos : 0 < ((ownRetirements (final.nodes i).log).map Prod.snd).count value :=
      List.count_pos_iff.mpr (List.mem_map.mpr ⟨_, hretired, rfl⟩)
    omega

/-- The step condition looks at one proposer, so it can be checked. -/
theorem StepCondition.ownName_onMessage_iff {captain : Captain} {msg : Message}
    {dataName : Name} {app : AppCalls} :
    StepCondition.ownName.OnMessage captain msg dataName app ↔
      (captain.chooses msg).all (fun entry =>
        entry.2.currProposer.currValue.map PropValue.id ==
            some entry.2.currProposer.initValue.id ||
          dataName == entry.2.clientName) = true := by
  rw [Option.all_eq_true]
  constructor
  · rintro ⟨_, hretires⟩ ⟨slot, info⟩ hchooses
    have hname := hretires slot info hchooses
    by_cases hlost : info.Lost
    · simp [hname hlost]
    · simp [not_not.mp hlost]
  · intro hall
    refine ⟨fun _ _ => trivial, ?_⟩
    intro slot info hchooses hlost
    have hentry := hall (slot, info) hchooses
    rw [Bool.or_eq_true, beq_iff_eq, beq_iff_eq] at hentry
    rcases hentry with hown | hname
    · exact absurd hown hlost
    · exact hname

instance decidableOwnNameHolds (cluster : Cluster) (action : Action) :
    Decidable (StepCondition.ownName.Holds cluster action) :=
  Action.casesOn (motive := fun action => Decidable (StepCondition.ownName.Holds cluster action))
    action (fun _ _ => inferInstanceAs (Decidable True))
    (fun index dataName app =>
      have : ∀ packet : Packet, Decidable (StepCondition.ownName.OnMessage
          (cluster.nodes packet.dst).captain packet.msg
          (Cluster.arrivalName (cluster.nodes packet.dst).captain packet dataName) app) :=
        fun _ => decidable_of_iff _ StepCondition.ownName_onMessage_iff.symm
      inferInstanceAs (Decidable (∀ packet ∈ cluster.net[index]?, StepCondition.ownName.OnMessage
        (cluster.nodes packet.dst).captain packet.msg
        (Cluster.arrivalName (cluster.nodes packet.dst).captain packet dataName) app)))
    (fun _ => inferInstanceAs (Decidable True)) (fun _ => inferInstanceAs (Decidable True))

/-- Node 2 loses slot 1 to node 1 and gets its value chosen in slot 2; the messages
arrive under the given name. -/
def lostSlot (dataName : Name) : List Action :=
  .call 1 (.commit { id := 65537 } (some [[1]])) ::
    deliveries dataName [1, 2, 1, 1, 2, 3, 2, 2, 3] ++
  .call 2 (.commit { id := 65538 } (some [[2]])) ::
    deliveries dataName [6, 6, 5, 5, 7, 7, 6, 6, 8, 10, 10, 9, 9, 11, 11, 10, 10, 12]

theorem clients_informed_lostSlot :
    ∃ final, Deployment.run { config := threeNodes .basic } (lostSlot [[2]]) = some final ∧
      .note (.chose 1 { id := 65537 } { id := 65538 }) ∈ (final.nodes 2).log ∧
      .note (.informClient 2 2 [[2]]) ∈ (final.nodes 2).log ∧
      noticesFor (final.nodes 2).log { id := 65538 } = 1 := by
  have hmeets : ({ config := threeNodes .basic } : Deployment).machine.RunMeets
      StepCondition.ownName.Holds ({ config := threeNodes .basic } : Deployment).initial
      (lostSlot [[2]]) := by
    decide +kernel
  have hfinal : (Deployment.run { config := threeNodes .basic } (lostSlot [[2]])).map
        (fun final => (([.chose 1 { id := 65537 } { id := 65538 }, .informClient 2 2 [[2]],
            .commit { id := 65538 } [[2]]] : List Event).all fun event =>
              (final.nodes 2).log.contains (.note event),
          ownRetirements (final.nodes 2).log,
          [0, 1, 2].map fun i => (handed (final.nodes i).log).map fun pair => pair.1.id)) =
      some (true, [(2, { id := 65538 })], [[], [65537], [65538]]) := by
    decide +kernel
  rcases Option.map_eq_some_iff.mp hfinal with ⟨final, hrun, hfinal⟩
  simp only [Prod.mk.injEq, List.all_cons, List.all_nil, Bool.and_true, Bool.and_eq_true,
    List.contains_iff_mem, List.map_cons, List.map_nil, List.cons.injEq] at hfinal
  rcases hfinal with ⟨⟨hlost, hinformed, hcommit⟩, hretired, hids₀, hids₁, hids₂, _⟩
  have honce : HandedOnce 3 final.nodes := by
    refine .of_ids (fun i => if i = 0 then [] else [65536 + i]) ?_ ?_ ?_
    · intro i hi
      interval_cases i
      · exact hids₀
      · exact hids₁
      · exact hids₂
    · intro i hi
      interval_cases i <;> simp
    · intro i hi j hj id hmem hmem'
      interval_cases i <;> interval_cases j <;> simp_all
  have hclients := clients_informed { config := threeNodes .basic } (.inl rfl) _ final hrun
    (by simp [lostSlot, deliveries, Action.calls]) honce hmeets 2 (by decide)
  have hslot : ∃ slot, (slot, { id := 65538 }) ∈ ownRetirements (final.nodes 2).log :=
    ⟨2, by simp [hretired]⟩
  exact ⟨final, hrun, hlost, hinformed, (hclients.2 _ _ hcommit).2 hslot⟩

/-- Node 2 loses slot 1, proposes its value again under the name of the message
that ended the slot, and tells this name instead of its client. -/
theorem clients_informed_lostSlot_counterexample :
    ∃ final, Deployment.run { config := threeNodes .basic } (lostSlot [[7]]) = some final ∧
      Deployment.RunByCommo { config := threeNodes .basic } (lostSlot [[7]]) ∧
      .note (.informClient 2 2 [[7]]) ∈ (final.nodes 2).log ∧
      ∀ value, .note (.commit value [[7]]) ∉ (final.nodes 2).log := by
  have hfinal : (Deployment.run { config := threeNodes .basic } (lostSlot [[7]])).map
        (fun final => ((final.nodes 2).log.contains (.note (.informClient 2 2 [[7]])),
          (handed (final.nodes 2).log).map Prod.snd)) =
      some (true, [[[2]]]) := by
    decide +kernel
  rcases Option.map_eq_some_iff.mp hfinal with ⟨final, hrun, hfinal⟩
  rw [Prod.mk.injEq] at hfinal
  refine ⟨final, hrun, by decide +kernel, List.contains_iff_mem.mp hfinal.1, ?_⟩
  intro value hmem
  have hname : ([[7]] : Name) ∈ (handed (final.nodes 2).log).map Prod.snd :=
    List.mem_map.mpr ⟨_, mem_handed.mpr hmem, rfl⟩
  rw [hfinal.2] at hname
  simp at hname

end NDNPaxos
