import NDNPaxos.Forwarding
import NDNPaxos.NodeMoves
import Mathlib.Data.Finset.Basic
import Mathlib.Tactic

/-!
# The forwarding handshake

Threads of one node that forward a value and wait for its reply.  Each thread
sends its COMMIT, resets `commit_ok_` under the mutex and waits on the condition
variable; the reply handler sets `commit_ok_` and wakes one waiter.  The flag
belongs to all calls together and is reset after the message has left, so a
reply must not come before the reset of its call, must wake its own call, and
this call must return before another one resets the flag.
-/

namespace NDNPaxos

/-- The calls of `commit(std::string&)` on a node that is not the master, by the
ids of their values, each in one phase, and the ids whose replies were handled. -/
structure Handshake where
  sent : Finset ℕ := ∅
  waiting : Finset ℕ := ∅
  /-- Notified, but the flag has not been looked at again. -/
  woken : Finset ℕ := ∅
  returned : Finset ℕ := ∅
  handled : Finset ℕ := ∅
  commitOk : Bool := false

inductive HandshakeStep where
  | send (id : ℕ)
  /-- `commit_ok_` is reset, and as it is now false the call waits. -/
  | reset (id : ℕ)
  /-- The reply to a value is handled; `notify_one` wakes the given call. -/
  | reply (id : ℕ) (wakes : Option ℕ)
  /-- `add_callback` applies a SET_MASTER that names this node. -/
  | promote (wakes : Option ℕ)
  /-- A woken call looks at the flag. -/
  | resume (id : ℕ)
deriving DecidableEq, Repr

namespace Handshake

def calls (handshake : Handshake) : Finset ℕ :=
  handshake.sent ∪ handshake.waiting ∪ handshake.woken ∪ handshake.returned

/-- `commit_ok_ = true` and `notify_one()`, which wakes nobody only when nobody
waits. -/
def notify (handshake : Handshake) : Option ℕ → Option Handshake
  | none => if handshake.waiting = ∅ then some { handshake with commitOk := true } else none
  | some id =>
      if id ∈ handshake.waiting then
        some { handshake with
          waiting := handshake.waiting.erase id
          woken := insert id handshake.woken
          commitOk := true }
      else none

def step (handshake : Handshake) : HandshakeStep → Option Handshake
  | .send id =>
      if id ∈ handshake.calls then none
      else some { handshake with sent := insert id handshake.sent }
  | .reset id =>
      if id ∈ handshake.sent then
        some { handshake with
          sent := handshake.sent.erase id
          waiting := insert id handshake.waiting
          commitOk := false }
      else none
  | .reply id wakes => { handshake with handled := insert id handshake.handled }.notify wakes
  | .promote wakes => handshake.notify wakes
  | .resume id =>
      if id ∈ handshake.woken then
        some (if handshake.commitOk then
          { handshake with
            woken := handshake.woken.erase id
            returned := insert id handshake.returned }
        else
          { handshake with
            woken := handshake.woken.erase id
            waiting := insert id handshake.waiting })
      else none

def machine : PartialMachine Handshake HandshakeStep := { step }

/-- A value is new when it is sent, no call resets the flag before the woken
calls have returned, and a reply wakes its own call; it may wake nobody when this
call is not about to wait. -/
def Orderly (handshake : Handshake) : HandshakeStep → Prop
  | .send id => id ∉ handshake.handled
  | .reset _ => handshake.woken = ∅
  | .reply id wakes => wakes = some id ∨ wakes = none ∧ id ∉ handshake.sent
  | .promote wakes => wakes = none
  | .resume _ => True

instance decidableOrderly (handshake : Handshake) :
    (step : HandshakeStep) → Decidable (handshake.Orderly step)
  | .send _ => inferInstanceAs (Decidable (_ ∉ _))
  | .reset _ => inferInstanceAs (Decidable (_ = _))
  | .reply _ _ => inferInstanceAs (Decidable (_ ∨ _))
  | .promote _ => inferInstanceAs (Decidable (_ = _))
  | .resume _ => inferInstanceAs (Decidable True)

/-! ## Orderly runs -/

/-- Replies have been handled for the calls that were woken and for no others,
and the flag stays set until these have returned. -/
structure Settled (handshake : Handshake) : Prop where
  handled : ∀ id, id ∈ handshake.woken ∨ id ∈ handshake.returned → id ∈ handshake.handled
  sent : ∀ id ∈ handshake.sent, id ∉ handshake.waiting ∧ id ∉ handshake.handled
  waiting : ∀ id ∈ handshake.waiting, id ∉ handshake.handled
  woken : handshake.woken.Nonempty → handshake.commitOk = true

variable {handshake next : Handshake} {action : HandshakeStep}

theorem mem_calls {id : ℕ} : id ∈ handshake.calls ↔ id ∈ handshake.sent ∨
    id ∈ handshake.waiting ∨ id ∈ handshake.woken ∨ id ∈ handshake.returned := by
  simp [calls]

theorem settled_initial : Settled {} where
  handled := by simp
  sent := by simp
  waiting := by simp
  woken := fun hsome => absurd hsome Finset.not_nonempty_empty

theorem Settled.step (hsettled : handshake.Settled) (horderly : handshake.Orderly action)
    (hstep : handshake.step action = some next) : next.Settled := by
  rcases hsettled with ⟨hhandled, hsent, hwaiting, hwoken⟩
  cases action with
  | send id =>
      simp only [Handshake.step] at hstep
      split at hstep
      · simp at hstep
      next hfresh =>
        rw [Option.some.injEq] at hstep
        subst hstep
        rw [mem_calls, not_or, not_or] at hfresh
        refine ⟨hhandled, ?_, hwaiting, hwoken⟩
        intro other hmem
        rcases Finset.mem_insert.mp hmem with rfl | hold
        · exact ⟨hfresh.2.1, horderly⟩
        · exact hsent other hold
  | reset id =>
      simp only [Handshake.step] at hstep
      split at hstep
      next hmem =>
        rw [Option.some.injEq] at hstep
        subst hstep
        refine ⟨hhandled, ?_, ?_, ?_⟩
        · intro other hother
          rcases Finset.mem_erase.mp hother with ⟨hne, hold⟩
          simpa [hne] using hsent other hold
        · intro other hother
          rcases Finset.mem_insert.mp hother with rfl | hold
          · exact (hsent other hmem).2
          · exact hwaiting other hold
        · intro hsome
          exact absurd horderly hsome.ne_empty
      · simp at hstep
  | reply id wakes =>
      rcases horderly with rfl | ⟨rfl, hunsent⟩
      · -- The call moves on together with its reply.
        simp only [Handshake.step, notify] at hstep
        split at hstep
        next hmem =>
          rw [Option.some.injEq] at hstep
          subst hstep
          refine ⟨?_, ?_, ?_, fun _ => rfl⟩
          · intro other hother
            simp only [Finset.mem_insert, or_assoc] at hother ⊢
            exact hother.imp_right (hhandled other)
          · intro other hother
            have hne : other ≠ id := by
              rintro rfl
              exact (hsent other hother).1 hmem
            simpa [hne] using hsent other hother
          · intro other hother
            rcases Finset.mem_erase.mp hother with ⟨hne, hold⟩
            simpa [hne] using hwaiting other hold
        · simp at hstep
      · simp only [Handshake.step, notify] at hstep
        split at hstep
        next hnobody =>
          rw [Option.some.injEq] at hstep
          subst hstep
          refine ⟨?_, ?_, ?_, fun _ => rfl⟩
          · intro other hother
            exact Finset.mem_insert_of_mem (hhandled other hother)
          · intro other hother
            have hne : other ≠ id := by
              rintro rfl
              exact hunsent hother
            simpa [hne] using hsent other hother
          · intro other hother
            rw [hnobody] at hother
            exact absurd hother (Finset.notMem_empty other)
        · simp at hstep
  | promote wakes =>
      have hnobody : wakes = none := horderly
      subst hnobody
      simp only [Handshake.step, notify] at hstep
      split at hstep
      · rw [Option.some.injEq] at hstep
        subst hstep
        exact ⟨hhandled, hsent, hwaiting, fun _ => rfl⟩
      · simp at hstep
  | resume id =>
      simp only [Handshake.step] at hstep
      split at hstep
      next hmem =>
        have hok := hwoken ⟨id, hmem⟩
        rw [hok, if_pos rfl, Option.some.injEq] at hstep
        subst hstep
        refine ⟨?_, hsent, hwaiting, fun _ => rfl⟩
        intro other hother
        simp only [Finset.mem_erase, Finset.mem_insert] at hother
        rcases hother with ⟨_, hold⟩ | rfl | hold
        · exact hhandled other (.inl hold)
        · exact hhandled other (.inl hmem)
        · exact hhandled other (.inr hold)
      · simp at hstep

/-- A call returns only after its own reply was handled, and no call is left
waiting on a reset flag after its reply. -/
structure Sound (handshake : Handshake) : Prop where
  returned : ∀ id ∈ handshake.returned, id ∈ handshake.handled
  waiting : handshake.commitOk = false → ∀ id ∈ handshake.waiting ∪ handshake.woken,
    id ∉ handshake.handled

theorem Settled.sound (hsettled : handshake.Settled) : handshake.Sound where
  returned := fun id hmem => hsettled.handled id (.inr hmem)
  waiting := by
    intro hok id hmem
    rcases Finset.mem_union.mp hmem with hwaiting | hwoken
    · exact hsettled.waiting id hwaiting
    · rw [hsettled.woken ⟨id, hwoken⟩] at hok
      simp at hok

theorem settled_of_run {actions : List HandshakeStep} {final : Handshake}
    (hrun : machine.run {} actions = some final)
    (horderly : machine.RunMeets Orderly {} actions) : final.Settled :=
  PartialMachine.invariant_of_runMeets Settled
    (fun _ _ _ horderly hsettled hstep => hsettled.step horderly hstep)
    settled_initial horderly hrun

/-- Every state of an orderly run is sound, whatever the number of calls. -/
theorem handshake_sound (actions : List HandshakeStep) (final : Handshake)
    (hrun : machine.run {} actions = some final)
    (horderly : machine.RunMeets Orderly {} actions) : final.Sound :=
  (settled_of_run hrun horderly).sound

/-- Two calls at once, in order: both return. -/
theorem handshake_sound_twoCalls :
    ∃ final, machine.run {} [.send 65537, .send 131073, .reset 65537, .reset 131073,
        .reply 131073 (some 131073), .resume 131073, .reply 65537 (some 65537),
        .resume 65537] = some final ∧
      final.returned = {65537, 131073} ∧ final.Sound := by
  have horderly : machine.RunMeets Orderly {} [.send 65537, .send 131073, .reset 65537,
      .reset 131073, .reply 131073 (some 131073), .resume 131073, .reply 65537 (some 65537),
      .resume 65537] := by
    decide
  have hfinal : (machine.run {} [.send 65537, .send 131073, .reset 65537, .reset 131073,
      .reply 131073 (some 131073), .resume 131073, .reply 65537 (some 65537),
      .resume 65537]).map (fun final => final.returned) = some {65537, 131073} := by
    decide
  rcases Option.map_eq_some_iff.mp hfinal with ⟨final, hrun, hfinal⟩
  exact ⟨final, hrun, hfinal, handshake_sound _ final hrun horderly⟩

/-- The reply is handled between the sending and the reset, and its call waits
for ever; and one of two calls that wait takes the reply to the other. -/
theorem handshake_lostReply_counterexample :
    (∃ final, machine.run {} [.send 65537, .reply 65537 none, .reset 65537] = some final ∧
      65537 ∈ final.waiting ∧ 65537 ∈ final.handled ∧ ¬ final.Sound) ∧
    ∃ final, machine.run {} [.send 65537, .send 131073, .reset 65537, .reset 131073,
        .reply 65537 (some 131073), .resume 131073] = some final ∧
      131073 ∈ final.returned ∧ 131073 ∉ final.handled ∧ ¬ final.Sound := by
  have hlost : (machine.run {} [.send 65537, .reply 65537 none, .reset 65537]).map
      (fun final => (final.waiting, final.commitOk, final.handled)) =
      some ({65537}, false, {65537}) := by
    decide
  have hstolen : (machine.run {} [.send 65537, .send 131073, .reset 65537, .reset 131073,
      .reply 65537 (some 131073), .resume 131073]).map
      (fun final => (final.returned, final.handled)) = some ({131073}, {65537}) := by
    decide
  rcases Option.map_eq_some_iff.mp hlost with ⟨final, hrun, hfinal⟩
  rcases Option.map_eq_some_iff.mp hstolen with ⟨final', hrun', hfinal'⟩
  simp only [Prod.mk.injEq] at hfinal hfinal'
  have hwaiting : 65537 ∈ final.waiting := by simp [hfinal.1]
  have hhandled : 65537 ∈ final.handled := by simp [hfinal.2.2]
  have hreturned : 131073 ∈ final'.returned := by simp [hfinal'.1]
  have hunhandled : 131073 ∉ final'.handled := by simp [hfinal'.2]
  refine ⟨⟨final, hrun, hwaiting, hhandled, ?_⟩, final', hrun', hreturned, hunhandled, ?_⟩
  · intro hsound
    exact hsound.waiting hfinal.2.1 65537 (Finset.mem_union_left _ hwaiting) hhandled
  · intro hsound
    exact hunhandled (hsound.returned 131073 hreturned)

/-- A call that is woken without its own reply returns. -/
theorem unsound_of_notify {id : ℕ} (hunhandled : id ∉ handshake.handled)
    (hnotify : handshake.notify (some id) = some next) :
    ∃ final, machine.run next [.resume id] = some final ∧ ¬ final.Sound := by
  simp only [notify] at hnotify
  split at hnotify
  · rw [Option.some.injEq] at hnotify
    subst hnotify
    refine ⟨_, (PartialMachine.run_singleton _ _).trans (if_pos (Finset.mem_insert_self _ _)), ?_⟩
    intro hsound
    exact hunhandled (hsound.returned id (Finset.mem_insert_self _ _))
  · simp at hnotify

/-- A call that resets the flag after its reply waits for ever. -/
theorem unsound_of_reset {id : ℕ} (hsent : id ∈ handshake.sent)
    (hhandled : id ∈ handshake.handled) :
    ∃ final, machine.run handshake [.reset id] = some final ∧ ¬ final.Sound := by
  refine ⟨_, (PartialMachine.run_singleton _ _).trans (if_pos hsent), ?_⟩
  intro hsound
  exact hsound.waiting rfl id (Finset.mem_union_left _ (Finset.mem_insert_self _ _)) hhandled

/-- The condition is exact: after the first step that is not orderly, an unsound
state is at most one step away. -/
theorem Settled.unsound_of_not_orderly (hsettled : handshake.Settled)
    (hunorderly : ¬ handshake.Orderly action) (hstep : handshake.step action = some next) :
    ∃ more final, machine.run next more = some final ∧ ¬ final.Sound := by
  cases action with
  | send id =>
      have hhandled : id ∈ handshake.handled := not_not.mp hunorderly
      simp only [Handshake.step] at hstep
      split at hstep
      · simp at hstep
      · rw [Option.some.injEq] at hstep
        subst hstep
        exact ⟨_, unsound_of_reset (Finset.mem_insert_self _ _) hhandled⟩
  | reset id =>
      rcases Finset.nonempty_iff_ne_empty.mpr hunorderly with ⟨woken, hwoken⟩
      simp only [Handshake.step] at hstep
      split at hstep
      · rw [Option.some.injEq] at hstep
        subst hstep
        refine ⟨[], _, rfl, ?_⟩
        intro hsound
        exact hsound.waiting rfl woken (Finset.mem_union_right _ hwoken)
          (hsettled.handled woken (.inl hwoken))
      · simp at hstep
  | reply id wakes =>
      simp only [Orderly, not_or, not_and] at hunorderly
      cases wakes with
      | some other =>
          have hne : other ≠ id := by simpa using hunorderly.1
          have hwaits : other ∈ handshake.waiting := by
            by_contra hnot
            simp [Handshake.step, notify, hnot] at hstep
          refine ⟨_, unsound_of_notify ?_ hstep⟩
          simp [hne, hsettled.waiting other hwaits]
      | none =>
          have hsent : id ∈ handshake.sent := not_not.mp (hunorderly.2 rfl)
          simp only [Handshake.step, notify] at hstep
          split at hstep
          · rw [Option.some.injEq] at hstep
            subst hstep
            exact ⟨_, unsound_of_reset hsent (Finset.mem_insert_self _ _)⟩
          · simp at hstep
  | promote wakes =>
      cases wakes with
      | none => exact absurd rfl hunorderly
      | some other =>
          have hwaits : other ∈ handshake.waiting := by
            by_contra hnot
            simp [Handshake.step, notify, hnot] at hstep
          exact ⟨_, unsound_of_notify (hsettled.waiting other hwaits) hstep⟩
  | resume id => exact absurd trivial hunorderly

end Handshake

/-! ## The flag of a captain -/

namespace Captain

variable {captain final : Captain} {setting : Setting} {outs : List Output}

theorem addCallbackLoop_commitOk {remaining : ℕ}
    (hloop : addCallbackLoop remaining captain = some (final, outs)) :
    final.commitOk = captain.commitOk ∨ final.commitOk = true := by
  induction remaining generalizing captain outs with
  | zero =>
      rw [addCallbackLoop, Option.some.injEq, Prod.mk.injEq] at hloop
      exact .inl (by rw [hloop.1])
  | succ remaining ih =>
      simp only [addCallbackLoop] at hloop
      split at hloop
      next => simp at hloop
      next =>
        rw [Option.some.injEq, Prod.mk.injEq] at hloop
        exact .inl (by rw [hloop.1])
      next value _ =>
        simp only [Option.bind_eq_bind, Option.bind_eq_some_iff, Prod.exists, pure,
          Option.some.injEq, Prod.mk.injEq] at hloop
        rcases hloop with ⟨last, outs', hrest, rfl, _⟩
        rcases ih hrest with hsame | hset
        · rw [hsame]
          unfold applyCommand
          split
          · dsimp only
            split
            · exact .inr rfl
            · exact .inl rfl
          · exact .inl rfl
        · exact .inr hset

theorem addCallback_commitOk (hadd : captain.addCallback = some (final, outs)) :
    final.commitOk = captain.commitOk ∨ final.commitOk = true := addCallbackLoop_commitOk hadd

theorem addChosenValue_commitOk {slot : ℕ} {value : PropValue}
    (hadd : captain.addChosenValue slot value = some (final, outs)) :
    final.commitOk = captain.commitOk ∨ final.commitOk = true := by
  unfold addChosenValue at hadd
  split at hadd
  · split at hadd
    · simp at hadd
    · have hcallback := addCallback_commitOk hadd
      exact hcallback
    · exact addCallback_commitOk hadd
  · split at hadd
    · have hcallback := addCallback_commitOk hadd
      exact hcallback
    · simp at hadd

theorem Move.commitOk_cases (hshape : LogShape captain)
    (hmove : Move setting captain outs final) :
    ForwardMove setting captain outs final ∨
      (final.commitOk = captain.commitOk ∨ final.commitOk = true) ∧
        ∀ out ∈ outs, out.kind ≠ .forwarding := by
  rcases hmove.forwarding_cases hshape with hforward | hkinds
  · exact .inl hforward
  cases hmove with
  | base hmove =>
      cases hmove with
      | forwarding hmove => exact .inl hmove
      | acceptor hmove => exact .inr ⟨.inl (by rw [hmove.spec.1]), hkinds⟩
      | proposer hmove => exact .inr ⟨.inl (by rw [hmove.spec.1]), hkinds⟩
      | learner hmove =>
          cases hmove with
          | tell hinfo hstatus hvalue hown hretires => exact .inr ⟨.inl rfl, hkinds⟩
          | learn hlearn hadd => exact .inr ⟨addChosenValue_commitOk hadd, hkinds⟩
          | teach hreceived hstored hteach hsend => exact .inr ⟨.inl rfl, hkinds⟩
          | inquire hreceived => exact .inr ⟨.inl rfl, hkinds⟩
  | commit hsource hstep => exact .inr ⟨.inl hstep.sameForwarding.2, hkinds⟩
  | command hcall hmaster hid => exact .inr ⟨.inl rfl, hkinds⟩
  | finish hinfo hstatus hvalue hstored hretires hstep =>
      exact .inr ⟨.inl hstep.sameForwarding.2, hkinds⟩

/-- The handshake shows the captain's flag, its forwarded values and the replies
it has handled. -/
structure Shows (captain : Captain) (log : List Output) (handshake : Handshake) : Prop where
  commitOk : handshake.commitOk = captain.commitOk
  calls : ∀ id, id ∈ handshake.calls ↔ ∃ value, .note (.forward value) ∈ log ∧ value.id = id
  handled : ∀ id, id ∈ handshake.handled ↔ ∃ value, .note (.reply value) ∈ log ∧ value.id = id
  numbered : ∀ id ∈ handshake.calls, id ≤ captain.valueId

theorem exists_notify (handshake : Handshake) :
    ∃ wakes next, handshake.notify wakes = some next ∧ next.commitOk = true ∧
      next.calls = handshake.calls ∧ next.handled = handshake.handled := by
  rcases Finset.eq_empty_or_nonempty handshake.waiting with hempty | ⟨id, hmem⟩
  · exact ⟨none, _, if_pos hempty, rfl, rfl, rfl⟩
  · refine ⟨some id, _, if_pos hmem, rfl, ?_, rfl⟩
    ext other
    simp only [Handshake.mem_calls, Finset.mem_erase, Finset.mem_insert]
    by_cases heq : other = id
    · simp [heq, hmem]
    · simp [heq]

theorem Shows.quiet {log : List Output} {handshake next : Handshake}
    (hshows : Shows captain log handshake) (hflag : next.commitOk = final.commitOk)
    (hcalls : next.calls = handshake.calls) (hhandled : next.handled = handshake.handled)
    (hid : captain.valueId ≤ final.valueId) (hkinds : ∀ out ∈ outs, out.kind ≠ .forwarding) :
    Shows final (log ++ outs) next := by
  have hsame : ∀ {event : Event}, event.kind = .forwarding →
      (.note event ∈ log ++ outs ↔ .note event ∈ log) := by
    intro event hkind
    rw [List.mem_append, or_iff_left]
    exact fun hmem => hkinds _ hmem hkind
  refine ⟨hflag, ?_, ?_, ?_⟩
  · intro id
    rw [hcalls, hshows.calls]
    exact exists_congr fun value => and_congr_left' (hsame rfl).symm
  · intro id
    rw [hhandled, hshows.handled]
    exact exists_congr fun value => and_congr_left' (hsame rfl).symm
  · intro id hmem
    rw [hcalls] at hmem
    exact (hshows.numbered id hmem).trans hid

/-- `commit(std::string&)` takes the steps up to the wait in a row. -/
theorem Shows.forward {log sent : List Output} {handshake : Handshake} {value : PropValue}
    (hshows : Shows captain log handshake) (hid : value.id = captain.valueId + 2 ^ 16)
    (hsent : ∀ event, .note event ∉ sent) :
    ∃ next, Handshake.machine.run handshake [.send value.id, .reset value.id] = some next ∧
      Shows { captain with valueId := captain.valueId + 2 ^ 16, commitOk := false }
        (log ++ .note (.forward value) :: sent) next := by
  have hfresh : value.id ∉ handshake.calls := by
    intro hmem
    have hle := hshows.numbered _ hmem
    omega
  have hnotes : ∀ {event : Event}, .note event ∈ log ++ .note (.forward value) :: sent ↔
      .note event ∈ log ∨ event = .forward value := by
    intro event
    simp [hsent]
  let sent : Handshake := { handshake with sent := insert value.id handshake.sent }
  let reset : Handshake := { sent with
    sent := sent.sent.erase value.id
    waiting := insert value.id sent.waiting
    commitOk := false }
  have hcalls : ∀ id, id ∈ reset.calls ↔ id ∈ handshake.calls ∨ value.id = id := by
    intro id
    simp only [Handshake.mem_calls, reset, sent, Finset.mem_erase, Finset.mem_insert,
      eq_comm (a := id)]
    tauto
  refine ⟨reset, ?_, rfl, ?_, ?_, ?_⟩
  · have hreset : Handshake.machine.run sent [.reset value.id] = some reset :=
      (PartialMachine.run_singleton _ _).trans (if_pos (Finset.mem_insert_self _ _))
    exact PartialMachine.run_cons_eq_some.mpr ⟨sent, if_neg hfresh, hreset⟩
  · intro id
    rw [hcalls, hshows.calls]
    simp only [hnotes, Event.forward.injEq, or_and_right, exists_or, exists_eq_left]
  · intro id
    rw [hshows.handled]
    simp [hnotes]
  · intro id hmem
    rcases (hcalls id).mp hmem with hold | rfl
    · exact (hshows.numbered id hold).trans (Nat.le_add_right _ _)
    · exact hid.le

theorem Shows.move {log : List Output} (hshape : LogShape captain)
    (hshows : ∃ actions handshake, Handshake.machine.run {} actions = some handshake ∧
      Shows captain log handshake) (hmove : Move setting captain outs final) :
    ∃ actions handshake, Handshake.machine.run {} actions = some handshake ∧
      Shows final (log ++ outs) handshake := by
  rcases hshows with ⟨actions, handshake, hrun, hshows⟩
  have hid : captain.valueId ≤ final.valueId := by
    rcases hmove.valueId_cases hshape with heq | heq <;> omega
  rcases hmove.commitOk_cases hshape with hforward | ⟨hflag, hkinds⟩
  · cases hforward with
    | crash hcall =>
        exact ⟨actions, handshake, hrun, hshows.quiet hshows.commitOk rfl rfl hid (by simp)⟩
    | @forward value name outs hcall hmaster hvalue hsend =>
        have hsent : ∀ event, .note event ∉ outs := by
          intro event
          rw [sendInterest_eq_some hsend]
          simp
        rcases hshows.forward hvalue hsent with ⟨next, hsteps, hnext⟩
        exact ⟨_, next, PartialMachine.run_append_eq_some.mpr ⟨handshake, hrun, hsteps⟩, hnext⟩
    | echo hreceived hmaster =>
        exact ⟨actions, handshake, hrun, hshows.commitOk, by simp [hshows.calls, sendData],
          by simp [hshows.handled, sendData], hshows.numbered⟩
    | @reply msg hreceived hmaster =>
        rcases exists_notify { handshake with
          handled := insert msg.propValue.id handshake.handled } with
          ⟨wakes, next, hnotify, hok, hcalls, hhandled⟩
        have hstep : Handshake.machine.run handshake [.reply msg.propValue.id wakes] =
            some next :=
          (PartialMachine.run_singleton _ _).trans hnotify
        refine ⟨_, next, PartialMachine.run_append_eq_some.mpr ⟨handshake, hrun, hstep⟩, hok,
          ?_, ?_, ?_⟩
        · intro id
          have hsame : id ∈ next.calls ↔ id ∈ handshake.calls := by rw [hcalls]; rfl
          simp [hsame, hshows.calls]
        · intro id
          simp only [hhandled, Finset.mem_insert, hshows.handled, List.mem_append,
            List.mem_singleton, Output.note.injEq, Event.reply.injEq, or_and_right, exists_or,
            exists_eq_left]
          rw [or_comm, eq_comm]
        · intro id hmem
          rw [hcalls] at hmem
          exact hshows.numbered id hmem
  · rcases hflag with hsame | hset
    · exact ⟨actions, handshake, hrun,
        hshows.quiet (hshows.commitOk.trans hsame.symm) rfl rfl hid hkinds⟩
    · rcases exists_notify handshake with ⟨wakes, next, hnotify, hok, hcalls, hhandled⟩
      have hstep : Handshake.machine.run handshake [.promote wakes] = some next :=
        (PartialMachine.run_singleton _ _).trans hnotify
      exact ⟨_, next, PartialMachine.run_append_eq_some.mpr ⟨handshake, hrun, hstep⟩,
        hshows.quiet (hok.trans hset.symm) hcalls hhandled hid hkinds⟩

end Captain

/-- Every run of a node is a run of the handshake, in which each call sends its
message and resets the flag in one go. -/
theorem handshake_of_runNode (deployment : Deployment) (i : ℕ) (actions : List NodeAction)
    (final : Node) (hrun : deployment.runNode i actions = some final) :
    ∃ steps handshake, Handshake.machine.run {} steps = some handshake ∧
      Captain.Shows final.captain final.log handshake := by
  have hpreserved : PreservedAtNode {} fun captain log => ∃ steps handshake,
      Handshake.machine.run {} steps = some handshake ∧ Captain.Shows captain log handshake := by
    intro captain log setting outs final hkept hcovers hshows hmove
    exact Captain.Shows.move hkept.1 hshows hmove
  refine Deployment.invariant_of_runNode hpreserved ?_ ?_ hrun
  · exact ⟨[], {}, rfl, rfl, by simp [Handshake.mem_calls], by simp, by simp [Handshake.mem_calls]⟩
  · apply PartialMachine.runMeets_of_forall
    intro action _ node
    cases action with
    | call call => trivial
    | handle msg dataName app => exact ⟨fun _ _ => trivial, fun _ _ _ => trivial⟩

end NDNPaxos
