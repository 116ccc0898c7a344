import Mathlib.Algebra.BigOperators.Group.List.Basic
import Mathlib.Algebra.Order.Monoid.Unbundled.Basic
import Mathlib.Tactic.Common

/-!
# Runs of a partial machine

A machine whose labels may be disabled in a state.  Rules carry facts from single
steps to whole runs: an invariant, an invariant under a condition that every step
of the run meets, one that looks at the steps taken so far, and a simulation by a
machine that may take several steps for one.
-/

structure PartialMachine (State Label : Type*) where
  step : State → Label → Option State

namespace PartialMachine

variable {State Label : Type*} (machine : PartialMachine State Label)

def run : State → List Label → Option State
  | state, [] => some state
  | state, label :: rest =>
      match machine.step state label with
      | none => none
      | some next => run next rest

/-- Every step of the run from `state` is taken under the condition. -/
def RunMeets (condition : State → Label → Prop) : State → List Label → Prop
  | _, [] => True
  | state, label :: rest =>
      condition state label ∧
        match machine.step state label with
        | none => True
        | some next => RunMeets condition next rest

def steps : State → List Label → List (State × Label)
  | _, [] => []
  | state, label :: rest =>
      (state, label) ::
        match machine.step state label with
        | none => []
        | some next => steps next rest

instance decidableRunMeets (condition : State → Label → Prop)
    [∀ state label, Decidable (condition state label)] :
    ∀ state labels, Decidable (machine.RunMeets condition state labels)
  | _, [] => inferInstanceAs (Decidable True)
  | state, label :: rest =>
      have : Decidable
          (match machine.step state label with
            | none => True
            | some next => machine.RunMeets condition next rest) :=
        match machine.step state label with
        | none => inferInstanceAs (Decidable True)
        | some next => decidableRunMeets condition next rest
      inferInstanceAs (Decidable (_ ∧ _))

variable {machine}

@[simp] theorem run_nil (state : State) : machine.run state [] = some state := rfl

theorem run_cons_eq_some {state final : State} {label : Label} {rest : List Label} :
    machine.run state (label :: rest) = some final ↔
      ∃ next, machine.step state label = some next ∧ machine.run next rest = some final := by
  rw [run]
  cases hstep : machine.step state label with
  | none => simp
  | some next => simp

theorem run_singleton (state : State) (label : Label) :
    machine.run state [label] = machine.step state label := by
  rw [run]
  cases machine.step state label <;> rfl

theorem run_append_eq_some {state final : State} {labels labels' : List Label} :
    machine.run state (labels ++ labels') = some final ↔
      ∃ next, machine.run state labels = some next ∧ machine.run next labels' = some final := by
  induction labels generalizing state with
  | nil => simp
  | cons label rest ih =>
      simp only [List.cons_append, run_cons_eq_some, ih]
      constructor
      · rintro ⟨next, hstep, last, hrest, hfinal⟩
        exact ⟨last, ⟨next, hstep, hrest⟩, hfinal⟩
      · rintro ⟨last, ⟨next, hstep, hrest⟩, hfinal⟩
        exact ⟨next, hstep, last, hrest, hfinal⟩

theorem RunMeets.head {condition : State → Label → Prop} {state : State} {label : Label}
    {rest : List Label} (h : machine.RunMeets condition state (label :: rest)) :
    condition state label := h.1

theorem RunMeets.tail {condition : State → Label → Prop} {state next : State}
    {label : Label} {rest : List Label}
    (h : machine.RunMeets condition state (label :: rest))
    (hstep : machine.step state label = some next) :
    machine.RunMeets condition next rest := by
  have htail := h.2
  rw [hstep] at htail
  exact htail

theorem RunMeets.cons {condition : State → Label → Prop} {state next : State} {label : Label}
    {rest : List Label} (hlabel : condition state label)
    (hstep : machine.step state label = some next)
    (hrest : machine.RunMeets condition next rest) :
    machine.RunMeets condition state (label :: rest) := by
  refine ⟨hlabel, ?_⟩
  rw [hstep]
  exact hrest

theorem RunMeets.and {condition condition' : State → Label → Prop} {state : State}
    {labels : List Label} (h : machine.RunMeets condition state labels)
    (h' : machine.RunMeets condition' state labels) :
    machine.RunMeets (fun state label => condition state label ∧ condition' state label)
      state labels := by
  induction labels generalizing state with
  | nil => trivial
  | cons label rest ih =>
      refine ⟨⟨h.head, h'.head⟩, ?_⟩
      cases hstep : machine.step state label with
      | none => trivial
      | some next => exact ih (h.tail hstep) (h'.tail hstep)

/-- An invariant that every step under the condition preserves holds at the
end of every run whose steps all meet the condition. -/
theorem invariant_of_runMeets {condition : State → Label → Prop}
    (invariant : State → Prop)
    (hpreserved : ∀ state label next, condition state label → invariant state →
      machine.step state label = some next → invariant next)
    {state final : State} {labels : List Label} (hinitial : invariant state)
    (hmeets : machine.RunMeets condition state labels)
    (hrun : machine.run state labels = some final) : invariant final := by
  induction labels generalizing state with
  | nil =>
      rw [run_nil, Option.some.injEq] at hrun
      exact hrun ▸ hinitial
  | cons label rest ih =>
      obtain ⟨next, hstep, hrest⟩ := run_cons_eq_some.mp hrun
      have hnext := hpreserved state label next hmeets.head hinitial hstep
      exact ih hnext (hmeets.tail hstep) hrest

/-- The same for an invariant that looks at the steps taken so far. -/
theorem invariant_of_steps {condition : State → Label → Prop}
    (invariant : List (State × Label) → State → Prop)
    (hpreserved : ∀ past state label next, condition state label → invariant past state →
      machine.step state label = some next → invariant (past ++ [(state, label)]) next)
    {state final : State} {labels : List Label} (hinitial : invariant [] state)
    (hmeets : machine.RunMeets condition state labels)
    (hrun : machine.run state labels = some final) :
    invariant (machine.steps state labels) final := by
  have hpast : ∀ past state, invariant past state →
      machine.RunMeets condition state labels → machine.run state labels = some final →
        invariant (past ++ machine.steps state labels) final := by
    clear hinitial hmeets hrun
    induction labels with
    | nil =>
        intro past state hstate _ hrun
        rw [run_nil, Option.some.injEq] at hrun
        rwa [steps, List.append_nil, ← hrun]
    | cons label rest ih =>
        intro past state hstate hmeets hrun
        obtain ⟨next, hstep, hrest⟩ := run_cons_eq_some.mp hrun
        have hnext := hpreserved past state label next hmeets.head hstate hstep
        have hfinal := ih _ next hnext (hmeets.tail hstep) hrest
        rw [List.append_assoc, List.singleton_append] at hfinal
        rwa [steps, hstep]
  simpa using hpast [] state hinitial hmeets hrun

theorem runMeets_of_forall {condition : State → Label → Prop} {labels : List Label}
    (h : ∀ label ∈ labels, ∀ state, condition state label) (state : State) :
    machine.RunMeets condition state labels := by
  induction labels generalizing state with
  | nil => trivial
  | cons label rest ih =>
      refine ⟨h label (List.mem_cons_self ..) state, ?_⟩
      cases machine.step state label with
      | none => trivial
      | some next => exact ih (fun label hmem => h label (List.mem_cons_of_mem _ hmem)) next

/-- An invariant that every step preserves holds at the end of every run. -/
theorem invariant_of_run (invariant : State → Prop)
    (hpreserved : ∀ state label next, invariant state →
      machine.step state label = some next → invariant next)
    {state final : State} {labels : List Label} (hinitial : invariant state)
    (hrun : machine.run state labels = some final) : invariant final := by
  have hmeets : machine.RunMeets (fun _ _ => True) state labels :=
    runMeets_of_forall (fun _ _ _ => trivial) state
  exact invariant_of_runMeets invariant
    (fun state label next _ => hpreserved state label next) hinitial hmeets hrun

theorem map_snd_steps {state final : State} {labels : List Label}
    (hrun : machine.run state labels = some final) :
    (machine.steps state labels).map Prod.snd = labels := by
  induction labels generalizing state with
  | nil => rfl
  | cons label rest ih =>
      obtain ⟨next, hstep, hrest⟩ := run_cons_eq_some.mp hrun
      rw [steps, hstep, List.map_cons, ih hrest]

/-! ## Ranks -/

/-- What the labels of a run bring bounds the rank at its end. -/
theorem rank_le_of_run {Amount : Type*} [AddMonoid Amount] [Preorder Amount]
    [AddRightMono Amount] {condition : Label → Prop} (invariant : State → Prop)
    (rank : State → Amount) (gain : Label → Amount)
    (hstep : ∀ state label next, condition label → invariant state →
      machine.step state label = some next →
        invariant next ∧ rank next ≤ rank state + gain label)
    {state final : State} {labels : List Label} (hinitial : invariant state)
    (hlabels : ∀ label ∈ labels, condition label)
    (hrun : machine.run state labels = some final) :
    rank final ≤ rank state + (labels.map gain).sum := by
  induction labels generalizing state with
  | nil =>
      rw [run_nil, Option.some.injEq] at hrun
      rw [hrun, List.map_nil, List.sum_nil, add_zero]
  | cons label rest ih =>
      rw [List.forall_mem_cons] at hlabels
      obtain ⟨next, hnext, hrest⟩ := run_cons_eq_some.mp hrun
      obtain ⟨hinvariant, hle⟩ := hstep state label next hlabels.1 hinitial hnext
      calc rank final
          ≤ rank next + (rest.map gain).sum := ih hinvariant hlabels.2 hrest
        _ ≤ rank state + gain label + (rest.map gain).sum := by gcongr
        _ = rank state + ((label :: rest).map gain).sum := by
          rw [List.map_cons, List.sum_cons, add_assoc]

/-- A machine that can go on with a smaller rank until it is done comes to its end,
however the labels are chosen. -/
theorem exists_run_to_end (invariant done : State → Prop) (rank : State → ℕ)
    (choose : State → Label)
    (hprogress : ∀ state, invariant state → ¬ done state →
      ∃ next, machine.step state (choose state) = some next ∧ invariant next ∧
        rank next < rank state)
    {state : State} (hinitial : invariant state) :
    ∃ labels final, machine.run state labels = some final ∧ invariant final ∧ done final ∧
      ∀ entry ∈ machine.steps state labels, entry.2 = choose entry.1 := by
  induction hrank : rank state using Nat.strong_induction_on generalizing state with
  | h amount ih =>
      by_cases hdone : done state
      · exact ⟨[], state, rfl, hinitial, hdone, by simp [steps]⟩
      · obtain ⟨next, hstep, hnext, hlt⟩ := hprogress state hinitial hdone
        obtain ⟨labels, final, hrun, hfinal, hend, hchosen⟩ := ih _ (hrank ▸ hlt) hnext rfl
        refine ⟨choose state :: labels, final, run_cons_eq_some.mpr ⟨next, hstep, hrun⟩, hfinal,
          hend, ?_⟩
        rw [steps, hstep]
        exact List.forall_mem_cons.mpr ⟨rfl, hchosen⟩

/-! ## Simulation -/

def Leads (machine : PartialMachine State Label) (state final : State) : Prop :=
  ∃ labels, machine.run state labels = some final

theorem Leads.refl (state : State) : machine.Leads state state := ⟨[], rfl⟩

theorem Leads.single {state next : State} {label : Label}
    (hstep : machine.step state label = some next) : machine.Leads state next := by
  refine ⟨[label], ?_⟩
  rw [run_singleton, hstep]

theorem Leads.trans {state next final : State} (hfirst : machine.Leads state next)
    (hrest : machine.Leads next final) : machine.Leads state final := by
  rcases hfirst with ⟨labels, hrun⟩
  rcases hrest with ⟨labels', hrun'⟩
  exact ⟨labels ++ labels', run_append_eq_some.mpr ⟨next, hrun, hrun'⟩⟩

/-- What follows every step follows every run. -/
theorem leads_of_run {State' Label' : Type*} {machine' : PartialMachine State' Label'}
    (view : State → State')
    (hsimulates : ∀ state label next, machine.step state label = some next →
      machine'.Leads (view state) (view next))
    {state final : State} {labels : List Label} (hrun : machine.run state labels = some final) :
    machine'.Leads (view state) (view final) :=
  invariant_of_run (fun reached => machine'.Leads (view state) (view reached))
    (fun reached label next hbefore hstep => hbefore.trans (hsimulates reached label next hstep))
    (.refl _) hrun

end PartialMachine
