import NDNPaxos.Agreement
import Mathlib.Data.List.Count
import Mathlib.Tactic

/-!
# Where a committed value is

On its node, a value handed to `commit` waits in the queue, is the initial value
of one live proposer, or has been retired under its own id.  A proposer that
loses its slot hands its value on to a later slot, so a value may be opened in
many slots, but it is chosen in one slot at most.
-/

namespace NDNPaxos

def ownRetirement? : Output → Option (ℕ × PropValue)
  | .note (.chose slot chosen init) => if chosen.id = init.id then some (slot, init) else none
  | _ => none

def ownRetirements (log : List Output) : List (ℕ × PropValue) := log.filterMap ownRetirement?

theorem ownRetirements_append (log outs : List Output) :
    ownRetirements (log ++ outs) = ownRetirements log ++ ownRetirements outs :=
  List.filterMap_append

theorem ownRetirements_eq_nil {outs : List Output}
    (hkinds : ∀ out ∈ outs, out.kind ≠ .retired) : ownRetirements outs = [] := by
  rw [ownRetirements, List.filterMap_eq_nil_iff]
  intro out hmem
  have hkind := hkinds out hmem
  unfold ownRetirement?
  split
  · exact absurd rfl hkind
  · rfl

theorem mem_ownRetirements {log : List Output} {slot : ℕ} {init : PropValue} :
    (slot, init) ∈ ownRetirements log ↔
      ∃ chosen, .note (.chose slot chosen init) ∈ log ∧ chosen.id = init.id := by
  rw [ownRetirements, List.mem_filterMap]
  constructor
  · rintro ⟨out, hmem, hretired⟩
    unfold ownRetirement? at hretired
    split at hretired
    next slot' chosen init' =>
      split at hretired
      next hid =>
        rw [Option.some.injEq, Prod.mk.injEq] at hretired
        rcases hretired with ⟨rfl, rfl⟩
        exact ⟨chosen, hmem, hid⟩
      next => simp at hretired
    next => simp at hretired
  · rintro ⟨chosen, hmem, hid⟩
    exact ⟨_, hmem, by simp [ownRetirement?, hid]⟩

namespace Captain

def liveValues (captain : Captain) : List (ℕ × PropValue) :=
  OrderedMap.entries (fun info => info.currProposer.initValue) captain.proposers

theorem mem_liveValues {captain : Captain} {slot : ℕ} {value : PropValue} :
    (slot, value) ∈ captain.liveValues ↔
      ∃ info, captain.proposers[slot]? = some info ∧ info.currProposer.initValue = value := by
  rw [liveValues, OrderedMap.mem_entries, Option.map_eq_some_iff]

/-- All handed values are in the three places, each as often as it was handed. -/
def ValuesPlaced (captain : Captain) (log : List Output) : Prop :=
  ((handed log).map Prod.fst).Perm
    (captain.tocommitValues ++ captain.liveValues.map Prod.snd ++
      (ownRetirements log).map Prod.snd)

variable {captain final : Captain} {log outs : List Output} {setting : Setting}

theorem ValuesPlaced.base (hplaced : ValuesPlaced captain log) (hshape : LogShape captain)
    (hmove : BaseMove setting captain outs final) : ValuesPlaced final (log ++ outs) := by
  have hframe := hmove.frame hshape
  have hlive : final.liveValues.Perm captain.liveValues := by
    apply OrderedMap.entries_perm
    intro slot
    have hentry := congrArg (Option.map fun entry => entry.2.2) (hframe.entries slot)
    simpa [Option.map_map, Function.comp_def, ProposerInfo.entry] using hentry
  unfold ValuesPlaced
  rw [handed_append, handed_eq_nil fun out hmem => (hmove.kinds hshape hmem).1, List.append_nil,
    ownRetirements_append, ownRetirements_eq_nil fun out hmem => (hmove.kinds hshape hmem).2.2,
    List.append_nil, hframe.tocommitValues]
  exact hplaced.trans (((hlive.symm.map Prod.snd).append_left _).append_right _)

theorem liveValues_openSlot (hfree : captain.proposers[captain.maxSlot + 1]? = none)
    (value : PropValue) (name : Name) (tryTime : ℕ) (skipPhaseI : Bool) :
    ((captain.openSlot value name tryTime skipPhaseI).1.liveValues.map Prod.snd).Perm
      (value :: captain.liveValues.map Prod.snd) := by
  rw [openSlot_eq]
  have hinsert := (OrderedMap.entries_insert (fun info : ProposerInfo =>
    info.currProposer.initValue) hfree (captain.newProposer value name tryTime skipPhaseI)).map
      Prod.snd
  rwa [newProposer_initValue] at hinsert

@[simp] theorem ownRetirements_openSlot (value : PropValue) (name : Name) (tryTime : ℕ)
    (skipPhaseI : Bool) :
    ownRetirements (captain.openSlot value name tryTime skipPhaseI).2 = [] := by
  apply ownRetirements_eq_nil
  intro out hmem
  rcases kind_of_mem_openSlot hmem with hkind | hkind <;> simp [hkind]

theorem openSlot_tocommitValues (value : PropValue) (name : Name) (tryTime : ℕ)
    (skipPhaseI : Bool) :
    (captain.openSlot value name tryTime skipPhaseI).1.tocommitValues =
      captain.tocommitValues := by
  rw [openSlot_eq]

theorem ValuesPlaced.opening (hfree : captain.proposers[captain.maxSlot + 1]? = none)
    {value : PropValue} {name : Name} {tryTime : ℕ} {skipPhaseI : Bool}
    (hplaced : ((handed log).map Prod.fst).Perm (value ::
      (captain.tocommitValues ++ captain.liveValues.map Prod.snd ++
        (ownRetirements log).map Prod.snd))) :
    ValuesPlaced (captain.openSlot value name tryTime skipPhaseI).1
      (log ++ (captain.openSlot value name tryTime skipPhaseI).2) := by
  unfold ValuesPlaced
  rw [handed_append, handed_openSlot, List.append_nil, ownRetirements_append,
    ownRetirements_openSlot, List.append_nil, openSlot_tocommitValues]
  refine hplaced.trans ?_
  rw [List.append_assoc, List.append_assoc]
  have hopened := liveValues_openSlot hfree value name tryTime skipPhaseI
  refine List.perm_middle.symm.trans (List.Perm.append_left _ ?_)
  exact (hopened.symm.append_right _)

theorem ValuesPlaced.commitStep {value : PropValue} {dataName ref : Name}
    (hplaced : ValuesPlaced captain log) (hqueue : QueueInvariant captain log)
    (hkept : captain.WellKept) (hstep : CommitStep captain value dataName final outs ref) :
    ValuesPlaced final (log ++ outs) := by
  have hhanded : (handed (log ++ [.note (.commit value dataName)])).map Prod.fst =
      (handed log).map Prod.fst ++ [value] := by
    rw [handed_append, List.map_append]
    rfl
  have hretired : ownRetirements (log ++ [.note (.commit value dataName)]) =
      ownRetirements log := by
    rw [ownRetirements_append]
    exact List.append_nil _
  have hadded : ((handed (log ++ [.note (.commit value dataName)])).map Prod.fst).Perm
      (value :: (captain.tocommitValues ++ captain.liveValues.map Prod.snd ++
        (ownRetirements (log ++ [.note (.commit value dataName)])).map Prod.snd)) := by
    rw [hhanded, hretired]
    exact (List.perm_append_singleton _ _).trans (hplaced.cons value)
  cases hstep with
  | dropped hfull => exact absurd hqueue.size_le (by omega)
  | waits hfull =>
      refine hadded.trans ?_
      change List.Perm _ (captain.tocommitValues ++ [value] ++ captain.liveValues.map Prod.snd ++ _)
      rw [List.append_assoc, List.append_assoc, List.append_assoc]
      exact List.perm_middle.symm
  | opens hroom hempty =>
      rw [List.append_cons]
      exact ValuesPlaced.opening (newSlot_free hkept) hadded
  | passes hroom hwaiting hpop => exact absurd (hqueue.full hwaiting) hroom.ne

theorem ValuesPlaced.finish {slot : ℕ} {info : ProposerInfo} {value : PropValue}
    {dataName : Name} (hplaced : ValuesPlaced captain log) (hkept : captain.WellKept)
    (hinfo : captain.proposers[slot]? = some info)
    (hstep : FinishStep captain slot info value dataName final outs) :
    ValuesPlaced final (log ++ outs) := by
  let init := info.currProposer.initValue
  have herase : (captain.liveValues.map Prod.snd).Perm
      (init :: (captain.withoutProposer slot).liveValues.map Prod.snd) :=
    (OrderedMap.entries_erase (fun info : ProposerInfo =>
      info.currProposer.initValue) hinfo).map Prod.snd
  have hfree : (captain.withoutProposer slot).proposers[captain.maxSlot + 1]? = none := by
    rw [withoutProposer, Std.TreeMap.getElem?_erase, newSlot_free hkept, ite_self]
  have hhanded : handed (log ++ [.note (.chose slot value init)]) = handed log := by
    rw [handed_append]
    exact List.append_nil _
  -- The closed proposer's value has left the live ones.
  have hclosed : ((handed log).map Prod.fst).Perm (init ::
      (captain.tocommitValues ++ (captain.withoutProposer slot).liveValues.map Prod.snd ++
        (ownRetirements log).map Prod.snd)) := by
    refine hplaced.trans ?_
    rw [List.append_assoc, List.append_assoc]
    refine (List.Perm.append_left _ (herase.append_right _)).trans ?_
    exact List.perm_middle
  have hown : value.id = init.id →
      ownRetirements (log ++ [.note (.chose slot value init)]) =
        ownRetirements log ++ [(slot, init)] := by
    intro hid
    rw [ownRetirements_append]
    simp [ownRetirements, ownRetirement?, hid]
  have hretired : value.id = init.id → ValuesPlaced (captain.withoutProposer slot)
      (log ++ [.note (.chose slot value init)]) := by
    intro hid
    unfold ValuesPlaced
    rw [hhanded, hown hid, List.map_append, ← List.append_assoc]
    exact hclosed.trans (List.perm_append_singleton _ _).symm
  cases hstep with
  | idle hid hempty => exact hretired hid
  | @next front frontName popped hid hpop =>
      rcases popFront_eq_some hpop with ⟨values, names, hvalues, _, rfl⟩
      have hplaced' := hretired hid
      unfold ValuesPlaced at hplaced'
      rw [hvalues] at hplaced'
      rw [List.append_cons]
      exact @ValuesPlaced.opening { captain.withoutProposer slot with
        tocommitValues := values, tocommitClients := names } _ hfree _ _ _ _ hplaced'
  | recommit hforeign =>
      rw [List.append_cons]
      refine ValuesPlaced.opening hfree ?_
      have hnone : ownRetirements (log ++ [.note (.chose slot value init)]) =
          ownRetirements log := by
        rw [ownRetirements_append]
        simp [ownRetirements, ownRetirement?, init, hforeign]
      change ((handed (log ++ [.note (.chose slot value init)])).map Prod.fst).Perm _
      rw [hhanded]
      change List.Perm _ (init :: (_ ++ _ ++
        (ownRetirements (log ++ [.note (.chose slot value init)])).map Prod.snd))
      rw [hnone]
      exact hclosed

theorem ValuesPlaced.move (hplaced : ValuesPlaced captain log)
    (hqueue : QueueInvariant captain log) (hkept : captain.WellKept)
    (hcommand : ∀ value, ¬ setting.calls (.masterChange value))
    (hmove : Move setting captain outs final) : ValuesPlaced final (log ++ outs) := by
  cases hmove with
  | base hmove => exact hplaced.base hkept.shape hmove
  | commit hsource hstep =>
      have hnext := hplaced.commitStep hqueue hkept hstep
      exact hnext
  | command hcall hmaster hid => exact absurd hcall (hcommand _)
  | @finish slot info value stored outs final hinfo hstatus hvalue hstored hretires hstep =>
      have hhanded : handed (captain.announce slot value) = [] :=
        handed_eq_nil fun out hmem => by simp [kind_of_mem_announce hmem]
      have hretired : ownRetirements (captain.announce slot value) = [] :=
        ownRetirements_eq_nil fun out hmem => by simp [kind_of_mem_announce hmem]
      have hannounced : ValuesPlaced captain (log ++ captain.announce slot value) := by
        unfold ValuesPlaced
        rw [handed_append, hhanded, List.append_nil, ownRetirements_append, hretired,
          List.append_nil]
        exact hplaced
      rw [← List.append_assoc]
      exact hannounced.finish hkept hinfo hstep

/-! ## Opened slots -/

/-- A slot opened for a value is live with it or was closed, once. -/
structure SlotsAccounted (captain : Captain) (log : List Output) : Prop where
  opened : ∀ slot value, Opened log slot value → (slot, value) ∈ captain.liveValues ∨
    ∃ chosen, .note (.chose slot chosen value) ∈ log
  closed : ∀ slot chosen value, .note (.chose slot chosen value) ∈ log →
    slot ≤ captain.maxSlot ∧ captain.proposers[slot]? = none
  retired : ((ownRetirements log).map Prod.fst).Nodup

theorem SlotsAccounted.initial (deployment : Deployment) (i : ℕ) :
    SlotsAccounted (deployment.node i).captain [] where
  opened := by
    rintro slot value ⟨name, tryTime, hmem⟩
    simp at hmem
  closed := by
    intro slot chosen value hmem
    simp at hmem
  retired := List.nodup_nil

theorem SlotsAccounted.quiet (haccounted : SlotsAccounted captain log)
    (hopened : ∀ out ∈ outs, out.kind ≠ .opened) (hretired : ∀ out ∈ outs, out.kind ≠ .retired)
    (hmaxSlot : final.maxSlot = captain.maxSlot)
    (hentries : ∀ slot : ℕ, (final.proposers[slot]?).map ProposerInfo.entry =
      (captain.proposers[slot]?).map ProposerInfo.entry) :
    SlotsAccounted final (log ++ outs) := by
  constructor
  · rintro slot value ⟨name, tryTime, hmem⟩
    rcases List.mem_append.mp hmem with hold | hnew
    · rcases haccounted.opened slot value ⟨name, tryTime, hold⟩ with hlive | ⟨chosen, hclosed⟩
      · rcases mem_liveValues.mp hlive with ⟨info, hinfo, hinit⟩
        have hentry := hentries slot
        rw [hinfo, Option.map_some, Option.map_eq_some_iff] at hentry
        rcases hentry with ⟨info', hinfo', hsame⟩
        simp only [ProposerInfo.entry, Prod.mk.injEq] at hsame
        exact .inl (mem_liveValues.mpr ⟨info', hinfo', hsame.2.2.trans hinit⟩)
      · exact .inr ⟨chosen, List.mem_append_left _ hclosed⟩
    · exact absurd rfl (hopened _ hnew)
  · intro slot chosen value hmem
    rcases List.mem_append.mp hmem with hold | hnew
    · rcases haccounted.closed slot chosen value hold with ⟨hle, hnone⟩
      have hentry := hentries slot
      rw [hnone, Option.map_none, Option.map_eq_none_iff] at hentry
      exact ⟨hmaxSlot ▸ hle, hentry⟩
    · exact absurd rfl (hretired _ hnew)
  · rw [ownRetirements_append, ownRetirements_eq_nil hretired, List.append_nil]
    exact haccounted.retired

theorem SlotsAccounted.opens (haccounted : SlotsAccounted captain log)
    (hkept : captain.WellKept) (value : PropValue) (name : Name) (tryTime : ℕ)
    (skipPhaseI : Bool) :
    SlotsAccounted (captain.openSlot value name tryTime skipPhaseI).1
      (log ++ (captain.openSlot value name tryTime skipPhaseI).2) := by
  constructor
  · intro slot value' hopened
    rcases opened_append.mp hopened with hold | ⟨name', tryTime', hmem⟩
    · rcases haccounted.opened slot value' hold with hlive | ⟨chosen, hclosed⟩
      · rcases mem_liveValues.mp hlive with ⟨info, hinfo, hinit⟩
        refine .inl (mem_liveValues.mpr ⟨info, ?_, hinit⟩)
        have hle := (hkept.keys slot info hinfo).2
        rw [openSlot_eq, Std.TreeMap.getElem?_insert, ← hinfo]
        simp only [Std.LawfulEqCmp.compare_eq_iff_eq]
        rw [if_neg (by omega)]
      · exact .inr ⟨chosen, List.mem_append_left _ hclosed⟩
    · rw [openSlot_eq] at hmem
      rcases List.mem_cons.mp hmem with heq | hsent
      · rw [Output.note.injEq, Event.propose.injEq] at heq
        rcases heq with ⟨rfl, rfl, _⟩
        refine .inl (mem_liveValues.mpr ⟨captain.newProposer value' name tryTime skipPhaseI,
          ?_, by simp⟩)
        rw [openSlot_eq]
        simp
      · rcases mem_broadcastMsg hsent with ⟨packet, heq, _⟩
        simp at heq
  · intro slot chosen value' hmem
    rcases List.mem_append.mp hmem with hold | hnew
    · rcases haccounted.closed slot chosen value' hold with ⟨hle, hnone⟩
      rw [openSlot_eq]
      refine ⟨Nat.le_succ_of_le hle, ?_⟩
      rw [Std.TreeMap.getElem?_insert, hnone]
      simp only [Std.LawfulEqCmp.compare_eq_iff_eq]
      rw [if_neg (by omega)]
    · rcases kind_of_mem_openSlot hnew with hkind | hkind <;>
        simp [Output.kind, Event.kind] at hkind
  · rw [ownRetirements_append, ownRetirements_openSlot, List.append_nil]
    exact haccounted.retired

theorem SlotsAccounted.close {slot : ℕ} {info : ProposerInfo}
    (haccounted : SlotsAccounted captain log) (hkept : captain.WellKept)
    (hinfo : captain.proposers[slot]? = some info) (value : PropValue) :
    SlotsAccounted (captain.withoutProposer slot)
      (log ++ [.note (.chose slot value info.currProposer.initValue)]) := by
  constructor
  · intro other value' hopened
    rcases opened_append.mp hopened with hold | ⟨name, tryTime, hmem⟩
    · rcases haccounted.opened other value' hold with hlive | ⟨chosen, hclosed⟩
      · rcases mem_liveValues.mp hlive with ⟨info', hinfo', hinit⟩
        by_cases heq : slot = other
        · subst heq
          rw [hinfo, Option.some.injEq] at hinfo'
          subst hinfo'
          rw [← hinit]
          exact .inr ⟨value, List.mem_append_right _ (List.mem_singleton_self _)⟩
        · refine .inl (mem_liveValues.mpr ⟨info', ?_, hinit⟩)
          rw [withoutProposer, Std.TreeMap.getElem?_erase, ← hinfo']
          simp [heq]
      · exact .inr ⟨chosen, List.mem_append_left _ hclosed⟩
    · simp at hmem
  · intro other chosen value' hmem
    rcases List.mem_append.mp hmem with hold | hnew
    · rcases haccounted.closed other chosen value' hold with ⟨hle, hnone⟩
      refine ⟨hle, ?_⟩
      rw [withoutProposer, Std.TreeMap.getElem?_erase, hnone, ite_self]
    · rw [List.mem_singleton, Output.note.injEq, Event.chose.injEq] at hnew
      rw [hnew.1]
      exact ⟨(hkept.keys slot info hinfo).2, by simp [withoutProposer]⟩
  · rw [ownRetirements_append, List.map_append, List.nodup_append]
    refine ⟨haccounted.retired, ?_, ?_⟩
    · by_cases hid : value.id = info.currProposer.initValue.id <;>
        simp [ownRetirements, ownRetirement?, hid]
    · intro other hother other' hother' heq
      subst heq
      rcases List.mem_map.mp hother with ⟨⟨key, init⟩, hmem, rfl⟩
      rcases List.mem_map.mp hother' with ⟨⟨key', init'⟩, hmem', heq⟩
      rcases mem_ownRetirements.mp hmem with ⟨chosen, hclosed, _⟩
      rcases mem_ownRetirements.mp hmem' with ⟨chosen', hnew, _⟩
      rw [List.mem_singleton, Output.note.injEq, Event.chose.injEq] at hnew
      have hnone := (haccounted.closed key chosen init hclosed).2
      change key' = key at heq
      rw [← heq, hnew.1, hinfo] at hnone
      simp at hnone

theorem slotsAccounted_preserved :
    PreservedLocally fun _ captain log => SlotsAccounted captain log := by
  intro received setting captain log outs final hkept hwhoami hreceived haccounted hmove
  cases hmove with
  | base hmove =>
      exact haccounted.quiet (fun out hmem => (hmove.kinds hkept.shape hmem).2.1)
        (fun out hmem => (hmove.kinds hkept.shape hmem).2.2) (hmove.frame hkept.shape).maxSlot
        (hmove.frame hkept.shape).entries
  | queue hframe hkind =>
      refine haccounted.quiet (fun out hmem => by simp [hkind out hmem])
        (fun out hmem => by simp [hkind out hmem]) (by rw [hframe]) ?_
      intro slot
      rw [hframe]
  | announce hinfo hstatus hvalue hstored hretires =>
      exact haccounted.quiet (fun out hmem => by simp [kind_of_mem_announce hmem])
        (fun out hmem => by simp [kind_of_mem_announce hmem]) rfl fun _ => rfl
  | @opens value name tryTime skipPhaseI hskip =>
      exact haccounted.opens hkept value name tryTime skipPhaseI
  | @close slot info value hinfo hstatus hvalue => exact haccounted.close hkept hinfo value

end Captain

/-! ## Values that are handed once -/

/-- Every value is handed to one `commit` of one node, under an id of its own. -/
structure HandedOnce (size : ℕ) (nodes : ℕ → Node) : Prop where
  once : ∀ i < size, ((handed (nodes i).log).map fun pair => pair.1.id).Nodup
  apart : ∀ i < size, ∀ j < size, ∀ pair ∈ handed (nodes i).log,
    ∀ pair' ∈ handed (nodes j).log, pair.1.id = pair'.1.id → i = j

theorem HandedOnce.same {size : ℕ} {nodes : ℕ → Node} (honce : HandedOnce size nodes) {i j : ℕ}
    (hi : i < size) (hj : j < size) {pair pair' : PropValue × Name}
    (hpair : pair ∈ handed (nodes i).log) (hpair' : pair' ∈ handed (nodes j).log)
    (hid : pair.1.id = pair'.1.id) : i = j ∧ pair = pair' := by
  have heq := honce.apart i hi j hj pair hpair pair' hpair' hid
  subst heq
  exact ⟨rfl, List.inj_on_of_nodup_map (honce.once i hi) hpair hpair' hid⟩

theorem HandedOnce.of_ids {size : ℕ} {nodes : ℕ → Node} (ids : ℕ → List ℕ)
    (hids : ∀ i < size, (handed (nodes i).log).map (fun pair => pair.1.id) = ids i)
    (honce : ∀ i < size, (ids i).Nodup)
    (hapart : ∀ i < size, ∀ j < size, ∀ id ∈ ids i, id ∈ ids j → i = j) :
    HandedOnce size nodes where
  once := by
    intro i hi
    rw [hids i hi]
    exact honce i hi
  apart := by
    intro i hi j hj pair hpair pair' hpair' hid
    have hmem := List.mem_map_of_mem (f := fun pair : PropValue × Name => pair.1.id) hpair
    have hmem' := List.mem_map_of_mem (f := fun pair : PropValue × Name => pair.1.id) hpair'
    rw [hids i hi] at hmem
    rw [hids j hj, ← hid] at hmem'
    exact hapart i hi j hj _ hmem hmem'

theorem mem_handed {log : List Output} {value : PropValue} {name : Name} :
    (value, name) ∈ handed log ↔ .note (.commit value name) ∈ log := by
  rw [handed, List.mem_filterMap]
  constructor
  · rintro ⟨out, hmem, hout⟩
    unfold handed? at hout
    split at hout
    · rw [Option.some.injEq, Prod.mk.injEq] at hout
      rcases hout with ⟨rfl, rfl⟩
      exact hmem
    · simp at hout
  · intro hmem
    exact ⟨_, hmem, rfl⟩

/-- The numbers of times the value waits, is the initial value of a live
proposer, and has been retired under its own id. -/
def placesOf (node : Node) (value : PropValue) : ℕ × ℕ × ℕ :=
  (node.captain.tocommitValues.count value,
    (node.captain.liveValues.map Prod.snd).count value,
    ((ownRetirements node.log).map Prod.snd).count value)

/-- The queue, the live proposers and the retired values of a node, in every
run without `master_change` on other nodes than the master. -/
theorem places_of_run {deployment : Deployment} {actions : List Action} {final : Cluster}
    (hrun : deployment.run actions = some final)
    (hcalls : ∀ action ∈ actions, ∀ call ∈ action.calls, ∀ value, call ≠ .masterChange value) :
    ∀ i < deployment.config.size,
      (final.nodes i).captain.ValuesPlaced (final.nodes i).log ∧
        (final.nodes i).captain.SlotsAccounted (final.nodes i).log ∧
        NoCommand (final.nodes i).log := by
  have hmeets := runMeets_of_calls deployment hcalls
  have hplaced : PreservedAtNode StepCondition.noMasterChange fun captain log =>
      captain.QueueInvariant log ∧ captain.ValuesPlaced log := by
    rintro captain log setting outs final hkept hcovers ⟨hqueue, hplaced⟩ hmove
    have hcommand : ∀ value, ¬ setting.calls (.masterChange value) :=
      fun value hcall => hcovers.calls _ hcall value rfl
    exact ⟨hqueue.move hkept (.inl hcommand) hmove, hplaced.move hqueue hkept hcommand hmove⟩
  have hplacedFinal := (reaches_of_run hplaced.moves (fun i _ =>
    ⟨Captain.QueueInvariant.initial deployment i, List.Perm.refl _⟩) hmeets hrun).invariant
  have haccounted := (reaches_of_run
    (Captain.slotsAccounted_preserved.atEachNode fun _ _ _ _ _ h => h).moves
    (fun i _ => Captain.SlotsAccounted.initial deployment i) hmeets hrun).invariant
  have hquiet := (reaches_of_run noCommand_preserved.moves (fun i _ value hmem => by
    simp [Deployment.node] at hmem) hmeets hrun).invariant
  exact fun i hi => ⟨(hplacedFinal i hi).2, haccounted i hi, hquiet i hi⟩

theorem HandedOnce.nodup {size : ℕ} {nodes : ℕ → Node} (honce : HandedOnce size nodes) {i : ℕ}
    (hi : i < size) : ((handed (nodes i).log).map Prod.fst).Nodup := by
  have hids := honce.once i hi
  rw [← Function.comp_def PropValue.id Prod.fst, ← List.map_map] at hids
  exact hids.of_map

theorem one_place {node : Node} (hplaced : node.captain.ValuesPlaced node.log)
    (hnodup : ((handed node.log).map Prod.fst).Nodup) {value : PropValue} {name : Name}
    (hpair : (value, name) ∈ handed node.log) :
    placesOf node value ∈ [(1, 0, 0), (0, 1, 0), (0, 0, 1)] := by
  have hmem : value ∈ (handed node.log).map Prod.fst := List.mem_map.mpr ⟨_, hpair, rfl⟩
  have hcount := hplaced.count_eq value
  rw [List.count_eq_one_of_mem hnodup hmem, List.count_append, List.count_append] at hcount
  simp only [placesOf, List.mem_cons, Prod.mk.injEq, List.not_mem_nil, or_false]
  omega

/-- No value is lost or chosen twice: a value handed over is in exactly one
place of its node, and it is chosen for at most one slot. -/
theorem committed_once (deployment : Deployment)
    (hmode : deployment.config.mode = .basic ∨ deployment.config.mode = .quorum)
    (actions : List Action) (final : Cluster) (hrun : deployment.run actions = some final)
    (hcalls : ∀ action ∈ actions, ∀ call ∈ action.calls, ∀ value, call ≠ .masterChange value)
    (honce : HandedOnce deployment.config.size final.nodes) (i : ℕ)
    (hi : i < deployment.config.size) (value : PropValue) (name : Name)
    (hhanded : .note (.commit value name) ∈ (final.nodes i).log) :
    placesOf (final.nodes i) value ∈ [(1, 0, 0), (0, 1, 0), (0, 0, 1)] ∧
      ∀ slot slot', ChosenId deployment.config final.nodes slot value.id →
        ChosenId deployment.config final.nodes slot' value.id → slot = slot' := by
  have hshards : deployment.config.mode ≠ .rs := by
    rcases hmode with h | h <;> simp [h]
  have hmulti : deployment.config.mode ≠ .multi := by
    rcases hmode with h | h <;> simp [h]
  rcases knowledge_of_run hshards hrun with ⟨_, hpaxos, hknowledge, hgiven⟩
  have hplaces := places_of_run hrun hcalls
  rcases hplaces i hi with ⟨hplaced, haccounted, _⟩
  have hpair := mem_handed.mpr hhanded
  have hnodup := honce.nodup hi
  constructor
  · exact one_place hplaced hnodup hpair
  · -- Where the value is chosen it was opened by its node and not lost.
    have hkeptAt : ∀ slot, ChosenId deployment.config final.nodes slot value.id →
        (slot, value) ∈ (final.nodes i).captain.liveValues ++
          ownRetirements (final.nodes i).log := by
      intro slot hchosen
      rcases id hchosen with ⟨ballot, members, hmembers, hvoted⟩
      rcases deployment.config.intersecting_quorum members members hmembers hmembers with
        ⟨voter, hvoter, _⟩
      rcases hvoted voter hvoter with ⟨hlt, accepted, haccepted, hid⟩
      rcases (hknowledge.opened hlt).1.accepted slot ballot accepted haccepted with
        ⟨j, hj, hopened⟩
      have hopener : j = i ∧ accepted = value := by
        rcases (hgiven j hj).opened slot accepted hopened with ⟨other, hcommit⟩ | hcommand
        · rcases honce.same hj hi (mem_handed.mpr hcommit) hpair hid with ⟨heq, hsame⟩
          exact ⟨heq, congrArg Prod.fst hsame⟩
        · exact absurd hcommand ((hplaces j hj).2.2 accepted)
      rcases hopener with ⟨rfl, rfl⟩
      rcases haccounted.opened slot accepted hopened with hlive | ⟨chosen, hclosed⟩
      · exact List.mem_append_left _ hlive
      · have hother := ((hknowledge.opened hj).2.chose slot chosen accepted hclosed).2
        exact List.mem_append_right _ (mem_ownRetirements.mpr
          ⟨chosen, hclosed, hpaxos.chosenId_unique hmulti hother hchosen⟩)
    intro slot slot' hchosen hchosen'
    have hplaceNodup := hplaced.nodup_iff.mp hnodup
    rw [List.append_assoc, ← List.map_append] at hplaceNodup
    have heq := List.inj_on_of_nodup_map (List.nodup_append.mp hplaceNodup).2.1
      (hkeptAt slot hchosen) (hkeptAt slot' hchosen') rfl
    exact congrArg Prod.fst heq

/-- Node 0 loses slot 1 to node 1 and opens slot 2 for the same value. -/
theorem committed_once_twoNodes :
    ∃ final, Deployment.run { config := twoNodes .basic }
        (.call 1 (.commit { id := 65537 } (some [[1]])) ::
          .call 0 (.commit { id := 65536 } (some [[2]])) ::
            List.replicate 30 (.deliver 0 [] {})) = some final ∧
      openedSlots (final.nodes 0).log = [1, 2] ∧
      placesOf (final.nodes 0) { id := 65536 } ∈ [(1, 0, 0), (0, 1, 0), (0, 0, 1)] := by
  have hfinal : (Deployment.run { config := twoNodes .basic }
      (.call 1 (.commit { id := 65537 } (some [[1]])) ::
        .call 0 (.commit { id := 65536 } (some [[2]])) ::
          List.replicate 30 (.deliver 0 [] {}))).map
        (fun final => (openedSlots (final.nodes 0).log,
          (handed (final.nodes 0).log).map (fun pair => pair.1.id),
          (handed (final.nodes 1).log).map (fun pair => pair.1.id),
          (final.nodes 0).log.contains (.note (.commit { id := 65536 } [[2]])))) =
      some ([1, 2], [65536], [65537], true) := by
    set_option maxRecDepth 10000 in
    decide
  rcases Option.map_eq_some_iff.mp hfinal with ⟨final, hrun, hfinal⟩
  simp only [Prod.mk.injEq] at hfinal
  rcases hfinal with ⟨hopened, hids₀, hids₁, hcommit⟩
  have honce : HandedOnce 2 final.nodes := by
    refine .of_ids (fun i => [65536 + i]) ?_ (fun i _ => List.nodup_singleton _) ?_
    · intro i hi
      interval_cases i
      · exact hids₀
      · exact hids₁
    · intro i hi j hj id hmem hmem'
      rw [List.mem_singleton] at hmem hmem'
      omega
  have hplaces := committed_once { config := twoNodes .basic } (.inl rfl) _ final hrun
    (by simp [Action.calls]) honce 0 (by decide) { id := 65536 } [[2]]
    (List.contains_iff_mem.mp hcommit)
  exact ⟨final, hrun, hopened, hplaces.1⟩

end NDNPaxos
