import NDNPaxos.Cluster
import Mathlib.Tactic

/-!
# The log of chosen values

`add_chosen_value` fills a first-write-wins log in any order of slots, and
`add_callback` delivers its gap-free prefix.  The abstract log is the function
`firstValue` of the calls made so far; what has been delivered is a prefix of
it, and the captain's members are determined by these two.
-/

namespace NDNPaxos

/-! ## The abstract log -/

def firstValue (calls : List (ℕ × PropValue)) (slot : ℕ) : Option PropValue :=
  (calls.find? fun call => call.1 == slot).map Prod.snd

def largestSlot (calls : List (ℕ × PropValue)) : ℕ :=
  (calls.map Prod.fst).foldl max 0

/-- The `count` slots after `start`, each with its value. -/
def deliveredFrom (value : ℕ → Option PropValue) (start count : ℕ) :
    List (ℕ × PropValue) :=
  (List.range' (start + 1) count).filterMap fun slot => (value slot).map (slot, ·)

/-- The master after applying the SET_MASTER commands of a delivered sequence. -/
def masterAfter (masterId : ℕ) (delivered : List (ℕ × PropValue)) : ℕ :=
  delivered.foldl
    (fun master entry =>
      if entry.2.cmdType = some .setMaster then toNodeId entry.2.id else master)
    masterId

@[simp] theorem firstValue_nil (slot : ℕ) : firstValue [] slot = none := rfl

theorem firstValue_append (calls : List (ℕ × PropValue)) (slot : ℕ)
    (value : PropValue) (other : ℕ) :
    firstValue (calls ++ [(slot, value)]) other =
      (firstValue calls other).or (if slot = other then some value else none) := by
  unfold firstValue
  rw [List.find?_append]
  cases hfind : calls.find? (fun call => call.1 == other) with
  | some call => simp
  | none =>
      by_cases heq : slot = other
      · simp [heq]
      · simp [heq]

theorem largestSlot_append (calls : List (ℕ × PropValue)) (slot : ℕ)
    (value : PropValue) :
    largestSlot (calls ++ [(slot, value)]) = max (largestSlot calls) slot := by
  simp [largestSlot]

theorem firstValue_isSome_iff {calls : List (ℕ × PropValue)} {slot : ℕ} :
    (firstValue calls slot).isSome ↔ ∃ value, (slot, value) ∈ calls := by
  unfold firstValue
  rw [Option.isSome_map, List.find?_isSome]
  constructor
  · rintro ⟨⟨found, value⟩, hmem, heq⟩
    have hslot : found = slot := by simpa using heq
    exact ⟨value, hslot ▸ hmem⟩
  · rintro ⟨value, hmem⟩
    exact ⟨(slot, value), hmem, by simp⟩

theorem mem_of_firstValue {calls : List (ℕ × PropValue)} {slot : ℕ}
    {value : PropValue} (h : firstValue calls slot = some value) : (slot, value) ∈ calls := by
  unfold firstValue at h
  rw [Option.map_eq_some_iff] at h
  obtain ⟨⟨found, stored⟩, hfind, hvalue⟩ := h
  have hslot : found = slot := by simpa using List.find?_some hfind
  have hmem := List.mem_of_find?_eq_some hfind
  subst hslot
  simpa [← hvalue] using hmem

theorem le_largestSlot {calls : List (ℕ × PropValue)} {call : ℕ × PropValue}
    (hmem : call ∈ calls) : call.1 ≤ largestSlot calls := by
  unfold largestSlot
  rw [← List.foldr_eq_foldl]
  exact List.le_max_of_le (List.mem_map_of_mem hmem) le_rfl

theorem largestSlot_le {calls : List (ℕ × PropValue)} {bound : ℕ}
    (h : ∀ call ∈ calls, call.1 ≤ bound) : largestSlot calls ≤ bound := by
  unfold largestSlot
  rw [← List.foldr_eq_foldl]
  apply List.max_le_of_forall_le
  intro slot hmem
  obtain ⟨call, hcall, heq⟩ := List.mem_map.mp hmem
  exact heq ▸ h call hcall

theorem deliveredFrom_zero (value : ℕ → Option PropValue) (start : ℕ) :
    deliveredFrom value start 0 = [] := rfl

theorem deliveredFrom_append (value : ℕ → Option PropValue) (start count more : ℕ) :
    deliveredFrom value start (count + more) =
      deliveredFrom value start count ++ deliveredFrom value (start + count) more := by
  unfold deliveredFrom
  rw [← List.filterMap_append, show start + count + 1 = start + 1 + count by omega,
    List.range'_append_1]

theorem deliveredFrom_congr {value value' : ℕ → Option PropValue} {start count : ℕ}
    (h : ∀ slot, start < slot → slot ≤ start + count → value slot = value' slot) :
    deliveredFrom value start count = deliveredFrom value' start count := by
  unfold deliveredFrom
  apply List.filterMap_congr
  intro slot hmem
  rw [List.mem_range'_1] at hmem
  rw [h slot (by omega) (by omega)]

theorem deliveredFrom_succ {value : ℕ → Option PropValue} {start count : ℕ}
    {first : PropValue} (hfirst : value (start + 1) = some first) :
    deliveredFrom value start (count + 1) =
      (start + 1, first) :: deliveredFrom value (start + 1) count := by
  simp [deliveredFrom, List.range'_succ, hfirst]

theorem mem_deliveredFrom {value : ℕ → Option PropValue} {start count : ℕ}
    {entry : ℕ × PropValue} (hmem : entry ∈ deliveredFrom value start count) :
    start < entry.1 ∧ value entry.1 = some entry.2 := by
  rcases List.mem_filterMap.mp hmem with ⟨slot, hslot, hentry⟩
  rcases Option.map_eq_some_iff.mp hentry with ⟨found, hfound, rfl⟩
  exact ⟨(List.mem_range'_1.mp hslot).1, hfound⟩

theorem masterAfter_append (masterId : ℕ) (front back : List (ℕ × PropValue)) :
    masterAfter masterId (front ++ back) = masterAfter (masterAfter masterId front) back := by
  simp [masterAfter]

theorem masterAfter_eq_self {masterId : ℕ} {delivered : List (ℕ × PropValue)}
    (hsame : ∀ entry ∈ delivered, entry.2.cmdType = some .setMaster →
      toNodeId entry.2.id = masterId) : masterAfter masterId delivered = masterId := by
  induction delivered with
  | nil => rfl
  | cons entry rest ih =>
      have hfirst : masterAfter masterId [entry] = masterId := by
        by_cases hcommand : entry.2.cmdType = some .setMaster
        · simp [masterAfter, hcommand, hsame entry (List.mem_cons_self ..) hcommand]
        · simp [masterAfter, hcommand]
      rw [← List.singleton_append, masterAfter_append, hfirst]
      exact ih fun entry hmem => hsame entry (List.mem_cons_of_mem _ hmem)

/-! ## The delivery loop -/

namespace Captain

/-- Learning a value changes the log of chosen values, the master and the
flag of the forwarding handshake, and nothing else. -/
def LogFrame (before after : Captain) : Prop :=
  after = { before with
    view := { before.view with masterId := after.view.masterId }
    chosenValues := after.chosenValues
    maxChosen := after.maxChosen
    maxChosenWithoutHole := after.maxChosenWithoutHole
    commitOk := after.commitOk }

theorem LogFrame.trans {first second third : Captain}
    (h₁ : LogFrame first second) (h₂ : LogFrame second third) : LogFrame first third := by
  unfold LogFrame at h₁ h₂ ⊢
  rw [h₁] at h₂
  exact h₂

/-- What the application is told of delivered values: for each of them the call of
`callback_full_` and then the one of `callback_`, as far as they are set. -/
def deliveryEvents (captain : Captain) (delivered : List (ℕ × PropValue)) :
    List Output :=
  delivered.flatMap fun entry =>
    (if captain.callbackFull then
      [.note (.callbackFull entry.1 entry.2 (toNodeId entry.2.id))] else []) ++
    (if captain.callback then [.note (.callback entry.1 entry.2.data)] else [])

/-- `add_callback` calls for one slot what is due for it. -/
theorem applyEvents_eq (captain : Captain) (slot : ℕ) (value : PropValue) :
    captain.applyEvents slot value = captain.deliveryEvents [(slot, value)] := by
  simp [deliveryEvents, applyEvents]

theorem deliveryEvents_append (captain : Captain) (front back : List (ℕ × PropValue)) :
    captain.deliveryEvents (front ++ back) =
      captain.deliveryEvents front ++ captain.deliveryEvents back := by
  simp [deliveryEvents]

theorem deliveryEvents_deliveredFrom (captain : Captain) (value : ℕ → Option PropValue)
    (count : ℕ) :
    captain.deliveryEvents (deliveredFrom value 0 count) =
      (List.range' 1 count).flatMap fun slot => (value slot).toList.flatMap fun value =>
        (if captain.callbackFull then
          [.note (.callbackFull slot value (toNodeId value.id))] else []) ++
        (if captain.callback then [.note (.callback slot value.data)] else []) := by
  unfold deliveryEvents deliveredFrom
  rw [List.filterMap_eq_flatMap_toList, List.flatMap_assoc]
  apply List.flatMap_congr
  intro slot _
  cases value slot <;> simp

theorem LogFrame.deliveryEvents {before after : Captain} (h : LogFrame before after)
    (delivered : List (ℕ × PropValue)) :
    after.deliveryEvents delivered = before.deliveryEvents delivered := by
  rw [h]
  rfl

theorem applyCommand_frame (captain : Captain) (slot : ℕ) (value : PropValue) :
    LogFrame captain ({ captain with maxChosenWithoutHole := slot }.applyCommand value) := by
  unfold LogFrame applyCommand
  split <;> rfl

theorem applyCommand_masterId (captain : Captain) (value : PropValue) :
    (captain.applyCommand value).view.masterId =
      masterAfter captain.view.masterId [(captain.maxChosenWithoutHole, value)] := by
  unfold applyCommand masterAfter
  by_cases hcmd : value.cmdType = some .setMaster
  · simp [hcmd]
  · simp [hcmd]

@[simp] theorem applyCommand_chosenValues (captain : Captain) (value : PropValue) :
    (captain.applyCommand value).chosenValues = captain.chosenValues := by
  unfold applyCommand
  split <;> rfl

@[simp] theorem applyCommand_maxChosen (captain : Captain) (value : PropValue) :
    (captain.applyCommand value).maxChosen = captain.maxChosen := by
  unfold applyCommand
  split <;> rfl

@[simp] theorem applyCommand_maxChosenWithoutHole (captain : Captain) (value : PropValue) :
    (captain.applyCommand value).maxChosenWithoutHole = captain.maxChosenWithoutHole := by
  unfold applyCommand
  split <;> rfl

/-- What one pass of the delivery loop has done: it has delivered the slots
after the old prefix up to the new one, in order. -/
structure Applied (before after : Captain) (outs : List Output) : Prop where
  frame : LogFrame before after
  chosenValues : after.chosenValues = before.chosenValues
  maxChosen : after.maxChosen = before.maxChosen
  le : before.maxChosenWithoutHole ≤ after.maxChosenWithoutHole
  filled : ∀ slot, before.maxChosenWithoutHole < slot → slot ≤ after.maxChosenWithoutHole →
    (before.chosenAt slot).isSome
  outs_eq : outs = before.deliveryEvents
    (deliveredFrom before.chosenAt before.maxChosenWithoutHole
      (after.maxChosenWithoutHole - before.maxChosenWithoutHole))
  masterId : after.view.masterId = masterAfter before.view.masterId
    (deliveredFrom before.chosenAt before.maxChosenWithoutHole
      (after.maxChosenWithoutHole - before.maxChosenWithoutHole))

theorem Applied.refl (captain : Captain) : Applied captain captain [] where
  frame := rfl
  chosenValues := rfl
  maxChosen := rfl
  le := le_rfl
  filled := by
    intro slot hlt hle
    omega
  outs_eq := by simp [deliveredFrom_zero, deliveryEvents]
  masterId := by simp [deliveredFrom_zero, masterAfter]

/-- The loop step: one slot delivered, then the rest of the loop. -/
theorem Applied.cons {captain final : Captain} {value : PropValue} {outs : List Output}
    (hvalue : captain.chosenAt (captain.maxChosenWithoutHole + 1) = some value)
    (hrest : Applied
      ({ captain with maxChosenWithoutHole := captain.maxChosenWithoutHole + 1 }.applyCommand
        value) final outs) :
    Applied captain final
      (captain.applyEvents (captain.maxChosenWithoutHole + 1) value ++ outs) := by
  have hframe := applyCommand_frame captain (captain.maxChosenWithoutHole + 1) value
  have hle := hrest.le
  have hchosenAt : ∀ slot,
      ({ captain with
          maxChosenWithoutHole := captain.maxChosenWithoutHole + 1 }.applyCommand
            value).chosenAt slot = captain.chosenAt slot := by
    intro slot
    simp [chosenAt]
  simp only [applyCommand_maxChosenWithoutHole] at hle
  have hcount : final.maxChosenWithoutHole - captain.maxChosenWithoutHole =
      final.maxChosenWithoutHole - (captain.maxChosenWithoutHole + 1) + 1 := by omega
  have hdelivered :
      deliveredFrom captain.chosenAt captain.maxChosenWithoutHole
          (final.maxChosenWithoutHole - captain.maxChosenWithoutHole) =
        (captain.maxChosenWithoutHole + 1, value) ::
          deliveredFrom captain.chosenAt (captain.maxChosenWithoutHole + 1)
            (final.maxChosenWithoutHole - (captain.maxChosenWithoutHole + 1)) := by
    rw [hcount, deliveredFrom_succ hvalue]
  refine ⟨hframe.trans hrest.frame, ?_, ?_, ?_, ?_, ?_, ?_⟩
  · simpa using hrest.chosenValues
  · simpa using hrest.maxChosen
  · omega
  · intro slot hlt hslot
    rcases Nat.eq_or_lt_of_le hlt with heq | hnext
    · rw [← heq, Nat.succ_eq_add_one, hvalue]
      rfl
    · have hfilled := hrest.filled slot (by simpa using hnext) hslot
      rwa [hchosenAt] at hfilled
  · rw [hdelivered, hrest.outs_eq, hframe.deliveryEvents, applyEvents_eq,
      ← deliveryEvents_append]
    simp only [applyCommand_maxChosenWithoutHole]
    rw [deliveredFrom_congr (fun slot _ _ => hchosenAt slot)]
    rfl
  · rw [hdelivered, hrest.masterId, applyCommand_masterId]
    simp only [applyCommand_maxChosenWithoutHole]
    rw [deliveredFrom_congr (fun slot _ _ => hchosenAt slot)]
    rfl

/-- The loop ends at the end of the log or in front of a hole. -/
theorem addCallbackLoop_applied (remaining : ℕ) (captain : Captain)
    (hlength : captain.maxChosenWithoutHole + remaining < captain.chosenValues.length) :
    ∃ final outs, addCallbackLoop remaining captain = some (final, outs) ∧
      Applied captain final outs ∧
      (final.maxChosenWithoutHole = captain.maxChosenWithoutHole + remaining ∨
        captain.chosenAt (final.maxChosenWithoutHole + 1) = none) := by
  induction remaining generalizing captain with
  | zero => exact ⟨captain, [], rfl, Applied.refl captain, .inl rfl⟩
  | succ remaining ih =>
      have hlt : captain.maxChosenWithoutHole + 1 < captain.chosenValues.length := by omega
      rw [addCallbackLoop]
      cases hvalue : captain.chosenValues[captain.maxChosenWithoutHole + 1]? with
      | none =>
          rw [List.getElem?_eq_none_iff] at hvalue
          omega
      | some entry =>
          have hchosen : captain.chosenAt (captain.maxChosenWithoutHole + 1) = entry := by
            simp [chosenAt, hvalue]
          cases entry with
          | none => exact ⟨captain, [], rfl, Applied.refl captain, .inr hchosen⟩
          | some value =>
              obtain ⟨final, outs, hloop, happlied, hstop⟩ := ih
                ({ captain with
                  maxChosenWithoutHole := captain.maxChosenWithoutHole + 1 }.applyCommand value)
                (by
                  simp only [applyCommand_maxChosenWithoutHole, applyCommand_chosenValues]
                  omega)
              have hframe :=
                applyCommand_frame captain (captain.maxChosenWithoutHole + 1) value
              refine ⟨final,
                captain.applyEvents (captain.maxChosenWithoutHole + 1) value ++ outs,
                ?_, happlied.cons hchosen, ?_⟩
              · simp only [hloop]
                rw [hframe]
                rfl
              · simp only [applyCommand_maxChosenWithoutHole] at hstop
                rcases hstop with hend | hhole
                · exact .inl (by omega)
                · exact .inr (by simpa [chosenAt] using hhole)

/-! ## Storing a value -/

/-- Slot 0 is the NULL sentinel and the vector ends with the largest slot. -/
structure LogShape (captain : Captain) : Prop where
  length : captain.chosenValues.length = captain.maxChosen + 1
  hole_le : captain.maxChosenWithoutHole ≤ captain.maxChosen

structure Stored (before : Captain) (slot : ℕ) (value : PropValue) (after : Captain) :
    Prop where
  frame : LogFrame before after
  masterId : after.view.masterId = before.view.masterId
  hole : after.maxChosenWithoutHole = before.maxChosenWithoutHole
  shape : LogShape after
  maxChosen : after.maxChosen = max before.maxChosen slot
  chosenAt : ∀ other, after.chosenAt other =
    (before.chosenAt other).or (if slot = other then some value else none)

theorem chosenAt_eq_none_of_lt {captain : Captain} (hshape : LogShape captain) {slot : ℕ}
    (hlt : captain.maxChosen < slot) : captain.chosenAt slot = none := by
  have hlength := hshape.length
  have hnone : captain.chosenValues[slot]? = none := by
    rw [List.getElem?_eq_none_iff]
    omega
  simp [chosenAt, hnone]

theorem stored_fill {captain : Captain} {slot : ℕ} {value : PropValue}
    (hshape : LogShape captain) (hle : slot ≤ captain.maxChosen)
    (hhole : captain.chosenValues[slot]? = some none) :
    Stored captain slot value
      { captain with chosenValues := captain.chosenValues.set slot (some value) } := by
  have hlength := hshape.length
  refine ⟨rfl, rfl, rfl, ⟨?_, hshape.hole_le⟩, ?_, ?_⟩
  · simpa using hlength
  · exact (max_eq_left hle).symm
  · intro other
    by_cases heq : slot = other
    · subst other
      have hlt : slot < captain.chosenValues.length := by omega
      simp [chosenAt, hhole, List.getElem?_set_self hlt]
    · simp [chosenAt, List.getElem?_set_ne heq, heq]

theorem stored_repeat {captain : Captain} {slot : ℕ} {value stored : PropValue}
    (hshape : LogShape captain) (hle : slot ≤ captain.maxChosen)
    (hstored : captain.chosenValues[slot]? = some (some stored)) :
    Stored captain slot value captain := by
  refine ⟨rfl, rfl, rfl, hshape, (max_eq_left hle).symm, ?_⟩
  intro other
  by_cases heq : slot = other
  · subst other
    simp [chosenAt, hstored]
  · simp [heq]

theorem stored_extend {captain : Captain} {slot : ℕ} {value : PropValue}
    (hshape : LogShape captain) (hlt : captain.maxChosen < slot) :
    Stored captain slot value
      { captain with
        chosenValues :=
          captain.chosenValues ++ List.replicate (slot - (captain.maxChosen + 1)) none ++
            [some value]
        maxChosen := slot } := by
  have hlength := hshape.length
  have hhole := hshape.hole_le
  refine ⟨rfl, rfl, rfl, ⟨?_, ?_⟩, (max_eq_right hlt.le).symm, ?_⟩
  · simp only [List.length_append, List.length_replicate, List.length_singleton]
    omega
  · change captain.maxChosenWithoutHole ≤ slot
    omega
  · intro other
    have hpadded : (captain.chosenValues ++
        List.replicate (slot - (captain.maxChosen + 1)) none).length = slot := by
      simp only [List.length_append, List.length_replicate]
      omega
    unfold chosenAt
    rcases Nat.lt_trichotomy other slot with hbelow | heq | habove
    · rw [List.getElem?_append_left (by omega)]
      by_cases hold : other < captain.chosenValues.length
      · rw [List.getElem?_append_left hold]
        simp [hbelow.ne']
      · rw [List.getElem?_append_right (by omega), List.getElem?_replicate,
          if_pos (by omega), List.getElem?_eq_none (by omega)]
        simp [hbelow.ne']
    · subst other
      have hold : captain.chosenValues[slot]? = none := List.getElem?_eq_none (by omega)
      rw [List.getElem?_append_right hpadded.le, hpadded, hold]
      simp
    · have hold : captain.chosenValues[other]? = none := List.getElem?_eq_none (by omega)
      rw [List.getElem?_eq_none, hold]
      · simp [habove.ne]
      · rw [List.length_append, hpadded]
        simpa using habove

/-- `add_chosen_value` stores the value and then delivers. -/
theorem addChosenValue_stored {captain : Captain} (hshape : LogShape captain) {slot : ℕ}
    (hslot : slot ≤ captain.maxChosen ∨ slot < 2 ^ 31) (value : PropValue) :
    ∃ stored, Stored captain slot value stored ∧
      captain.addChosenValue slot value = stored.addCallback := by
  have hlength := hshape.length
  unfold addChosenValue
  by_cases hle : slot ≤ captain.maxChosen
  · simp only [hle, if_true]
    cases hentry : captain.chosenValues[slot]? with
    | none =>
        rw [List.getElem?_eq_none_iff] at hentry
        omega
    | some entry =>
        cases entry with
        | none => exact ⟨_, stored_fill hshape hle hentry, rfl⟩
        | some stored => exact ⟨_, stored_repeat hshape hle hentry, rfl⟩
  · have hlt : captain.maxChosen < slot := by omega
    have hbound : slot < 2 ^ 31 := hslot.resolve_left hle
    simp only [hle, if_false, hbound, if_true]
    exact ⟨_, stored_extend hshape hlt, rfl⟩

/-- One call of `add_chosen_value`: it stores, delivers, and stops in front of
the first hole. -/
theorem addChosenValue_spec {captain : Captain} (hshape : LogShape captain) {slot : ℕ}
    (hslot : slot ≤ captain.maxChosen ∨ slot < 2 ^ 31) (value : PropValue) :
    ∃ stored final outs, Stored captain slot value stored ∧ Applied stored final outs ∧
      captain.addChosenValue slot value = some (final, outs) ∧
      LogShape final ∧ final.chosenAt (final.maxChosenWithoutHole + 1) = none := by
  obtain ⟨stored, hstored, heq⟩ := addChosenValue_stored hshape hslot value
  have hlength := hstored.shape.length
  have hhole := hstored.shape.hole_le
  obtain ⟨final, outs, hloop, happlied, hstop⟩ := addCallbackLoop_applied
    (stored.maxChosen - stored.maxChosenWithoutHole) stored (by omega)
  have hchosenAt : ∀ other, final.chosenAt other = stored.chosenAt other := by
    intro other
    unfold chosenAt
    rw [happlied.chosenValues]
  have hle : final.maxChosenWithoutHole ≤ final.maxChosen := by
    rw [happlied.maxChosen]
    by_contra hgt
    have hfilled := happlied.filled (stored.maxChosen + 1) (by omega) (by omega)
    rw [chosenAt_eq_none_of_lt hstored.shape (by omega)] at hfilled
    simp at hfilled
  have hshape' : LogShape final := by
    refine ⟨?_, hle⟩
    rw [happlied.chosenValues, happlied.maxChosen, hlength]
  refine ⟨stored, final, outs, hstored, happlied, heq.trans hloop, hshape', ?_⟩
  rcases hstop with hend | hnone
  · apply chosenAt_eq_none_of_lt hshape'
    rw [happlied.maxChosen]
    omega
  · rw [hchosenAt, hnone]

/-- What every other part of the protocol needs to know about learning. -/
theorem addChosenValue_learned {captain final : Captain} (hshape : LogShape captain)
    {slot : ℕ} {value : PropValue} {outs : List Output}
    (hadd : captain.addChosenValue slot value = some (final, outs)) :
    LogFrame captain final ∧ LogShape final ∧
      (∀ other, final.chosenAt other =
        (captain.chosenAt other).or (if slot = other then some value else none)) ∧
      ∃ delivered, outs = captain.deliveryEvents delivered := by
  have hslot : slot ≤ captain.maxChosen ∨ slot < 2 ^ 31 := by
    by_contra hneither
    rw [not_or] at hneither
    rw [addChosenValue, if_neg hneither.1, if_neg hneither.2] at hadd
    simp at hadd
  obtain ⟨stored, final', outs', hstored, happlied, heq, hshape', _⟩ :=
    addChosenValue_spec hshape hslot value
  rw [hadd, Option.some.injEq, Prod.mk.injEq] at heq
  obtain ⟨rfl, rfl⟩ := heq
  refine ⟨hstored.frame.trans happlied.frame, hshape', ?_, ?_⟩
  · intro other
    rw [← hstored.chosenAt]
    unfold Captain.chosenAt
    rw [happlied.chosenValues]
  · exact ⟨_, happlied.outs_eq.trans (hstored.frame.deliveryEvents _)⟩

theorem learned_cases {captain final : Captain} (hshape : LogShape captain) {slot : ℕ}
    {value : PropValue} {outs : List Output}
    (hadd : captain.addChosenValue slot value = some (final, outs)) {other : ℕ}
    {value' : PropValue} (hother : final.chosenAt other = some value') :
    captain.chosenAt other = some value' ∨ slot = other ∧ value = value' := by
  obtain ⟨_, _, hchosenAt, _⟩ := addChosenValue_learned hshape hadd
  rw [hchosenAt other] at hother
  cases hold : captain.chosenAt other with
  | some old =>
      rw [hold, Option.some_or] at hother
      exact .inl hother
  | none =>
      rw [hold, Option.none_or, Option.ite_none_right_eq_some, Option.some.injEq] at hother
      exact .inr hother

/-! ## A sequence of calls -/

def addChosenValues (captain : Captain) :
    List (ℕ × PropValue) → Option (Captain × List Output)
  | [] => some (captain, [])
  | (slot, value) :: rest => do
      let (captain, outs) ← captain.addChosenValue slot value
      let (captain, outs') ← captain.addChosenValues rest
      return (captain, outs ++ outs')

/-- The state and the callbacks after a sequence of calls, in terms of the
abstract log. -/
structure IsLogOf (start : Captain) (calls : List (ℕ × PropValue)) (final : Captain)
    (outs : List Output) : Prop where
  length : final.chosenValues.length = final.maxChosen + 1
  maxChosen : final.maxChosen = largestSlot calls
  chosenAt : ∀ slot, final.chosenAt slot = firstValue calls slot
  hole_le : final.maxChosenWithoutHole ≤ final.maxChosen
  gapFree : ∀ slot, 0 < slot → slot ≤ final.maxChosenWithoutHole →
    (firstValue calls slot).isSome
  hole : firstValue calls (final.maxChosenWithoutHole + 1) = none
  /-- Exactly the callbacks of the slots of the gap-free prefix, in the order of the slots. -/
  delivered : outs = (List.range' 1 final.maxChosenWithoutHole).flatMap fun slot =>
    (firstValue calls slot).toList.flatMap fun value =>
      (if start.callbackFull then
        [.note (.callbackFull slot value (toNodeId value.id))] else []) ++
      (if start.callback then [.note (.callback slot value.data)] else [])
  masterId : final.view.masterId = masterAfter start.view.masterId
    (deliveredFrom (firstValue calls) 0 final.maxChosenWithoutHole)

theorem IsLogOf.outs_eq {start final : Captain} {calls : List (ℕ × PropValue)}
    {outs : List Output} (hlog : IsLogOf start calls final outs) :
    outs = start.deliveryEvents
      (deliveredFrom (firstValue calls) 0 final.maxChosenWithoutHole) :=
  hlog.delivered.trans (start.deliveryEvents_deliveredFrom _ _).symm

structure FreshLog (captain : Captain) : Prop where
  chosenValues : captain.chosenValues = [none]
  maxChosen : captain.maxChosen = 0
  maxChosenWithoutHole : captain.maxChosenWithoutHole = 0

theorem FreshLog.isLogOf {start : Captain} (hfresh : FreshLog start) :
    IsLogOf start [] start [] where
  length := by simp [hfresh.chosenValues, hfresh.maxChosen]
  maxChosen := hfresh.maxChosen
  chosenAt := by
    intro slot
    cases slot with
    | zero => simp [Captain.chosenAt, hfresh.chosenValues]
    | succ slot => simp [Captain.chosenAt, hfresh.chosenValues]
  hole_le := by simp [hfresh.maxChosenWithoutHole]
  gapFree := by
    intro slot hpos hle
    rw [hfresh.maxChosenWithoutHole] at hle
    omega
  hole := rfl
  delivered := by
    rw [hfresh.maxChosenWithoutHole]
    rfl
  masterId := by
    rw [hfresh.maxChosenWithoutHole]
    rfl

theorem IsLogOf.step {start captain : Captain} {calls : List (ℕ × PropValue)}
    {outs : List Output} (hlog : IsLogOf start calls captain outs)
    (hframe : LogFrame start captain) {slot : ℕ} (hslot : slot < 2 ^ 31)
    (value : PropValue) :
    ∃ final more, captain.addChosenValue slot value = some (final, more) ∧
      LogFrame start final ∧
      IsLogOf start (calls ++ [(slot, value)]) final (outs ++ more) := by
  obtain ⟨stored, final, more, hstored, happlied, heq, hshape, hstop⟩ :=
    addChosenValue_spec ⟨hlog.length, hlog.hole_le⟩ (.inr hslot) value
  have hstoredAt : ∀ other, stored.chosenAt other =
      firstValue (calls ++ [(slot, value)]) other := by
    intro other
    rw [hstored.chosenAt, firstValue_append, hlog.chosenAt]
  have hfinalAt : ∀ other, final.chosenAt other =
      firstValue (calls ++ [(slot, value)]) other := by
    intro other
    rw [← hstoredAt]
    unfold Captain.chosenAt
    rw [happlied.chosenValues]
  have hkept : ∀ other, 0 < other → other ≤ captain.maxChosenWithoutHole →
      firstValue (calls ++ [(slot, value)]) other = firstValue calls other := by
    intro other hpos hle
    obtain ⟨first, hfirst⟩ := Option.isSome_iff_exists.mp (hlog.gapFree other hpos hle)
    rw [firstValue_append, hfirst, Option.some_or]
  have hle := happlied.le
  rw [hstored.hole] at hle
  have hsplit :
      deliveredFrom (firstValue (calls ++ [(slot, value)])) 0 final.maxChosenWithoutHole =
        deliveredFrom (firstValue calls) 0 captain.maxChosenWithoutHole ++
          deliveredFrom stored.chosenAt stored.maxChosenWithoutHole
            (final.maxChosenWithoutHole - stored.maxChosenWithoutHole) := by
    rw [hstored.hole, show final.maxChosenWithoutHole = captain.maxChosenWithoutHole +
      (final.maxChosenWithoutHole - captain.maxChosenWithoutHole) by omega,
      deliveredFrom_append]
    congr 1
    · apply deliveredFrom_congr
      intro other hpos hother
      exact hkept other hpos (by omega)
    · rw [Nat.zero_add, Nat.add_sub_cancel_left]
      apply deliveredFrom_congr
      intro other _ _
      exact (hstoredAt other).symm
  have hframe' := hframe.trans (hstored.frame.trans happlied.frame)
  refine ⟨final, more, heq, hframe', hshape.length, ?_, hfinalAt, hshape.hole_le, ?_, ?_, ?_, ?_⟩
  · rw [happlied.maxChosen, hstored.maxChosen, hlog.maxChosen, largestSlot_append]
  · intro other hpos hother
    rcases Nat.lt_or_ge captain.maxChosenWithoutHole other with hnew | hold
    · rw [← hstoredAt]
      exact happlied.filled other (by rw [hstored.hole]; exact hnew) hother
    · rw [hkept other hpos hold]
      exact hlog.gapFree other hpos hold
  · rw [← hfinalAt, hstop]
  · rw [← deliveryEvents_deliveredFrom, hsplit, deliveryEvents_append, ← hlog.outs_eq,
      happlied.outs_eq, (hframe.trans hstored.frame).deliveryEvents]
  · rw [hsplit, masterAfter_append, ← hlog.masterId, happlied.masterId, hstored.masterId]

theorem IsLogOf.steps {start captain : Captain} {calls : List (ℕ × PropValue)}
    {outs : List Output} (hlog : IsLogOf start calls captain outs)
    (hframe : LogFrame start captain) {rest : List (ℕ × PropValue)}
    (hslots : ∀ call ∈ rest, call.1 < 2 ^ 31) :
    ∃ final more, captain.addChosenValues rest = some (final, more) ∧
      IsLogOf start (calls ++ rest) final (outs ++ more) := by
  induction rest generalizing captain calls outs with
  | nil => exact ⟨captain, [], rfl, by simpa using hlog⟩
  | cons call rest ih =>
      obtain ⟨slot, value⟩ := call
      obtain ⟨next, first, hstep, hframe', hlog'⟩ :=
        hlog.step hframe (hslots (slot, value) (by simp)) value
      obtain ⟨final, more, hrest, hfinal⟩ :=
        ih hlog' hframe' (fun call hmem => hslots call (by simp [hmem]))
      refine ⟨final, first ++ more, ?_, ?_⟩
      · simp [addChosenValues, hstep, hrest]
      · simpa using hfinal

def Consistent (calls : List (ℕ × PropValue)) : Prop :=
  ∀ slot value value', (slot, value) ∈ calls → (slot, value') ∈ calls → value = value'

theorem firstValue_eq_of_same_calls {calls calls' : List (ℕ × PropValue)}
    (hsame : ∀ call, call ∈ calls ↔ call ∈ calls') (hconsistent : Consistent calls)
    (slot : ℕ) : firstValue calls slot = firstValue calls' slot := by
  cases hfirst : firstValue calls' slot with
  | none =>
      by_contra hsome
      obtain ⟨value, hmem⟩ :=
        firstValue_isSome_iff.mp (Option.isSome_iff_ne_none.mpr hsome)
      have hfound := firstValue_isSome_iff.mpr ⟨value, (hsame _).mp hmem⟩
      rw [hfirst] at hfound
      simp at hfound
  | some value =>
      have hmem := (hsame _).mpr (mem_of_firstValue hfirst)
      obtain ⟨value', hvalue'⟩ :=
        Option.isSome_iff_exists.mp (firstValue_isSome_iff.mpr ⟨value, hmem⟩)
      rw [hvalue', hconsistent slot value' value (mem_of_firstValue hvalue') hmem]

theorem largestSlot_le_of_subset {calls calls' : List (ℕ × PropValue)}
    (hsub : ∀ call, call ∈ calls → call ∈ calls') : largestSlot calls ≤ largestSlot calls' := by
  apply largestSlot_le
  intro call hmem
  exact le_largestSlot (hsub call hmem)

theorem IsLogOf.getElem? {start final : Captain} {calls : List (ℕ × PropValue)}
    {outs : List Output} (hlog : IsLogOf start calls final outs) (slot : ℕ) :
    final.chosenValues[slot]? =
      if slot ≤ largestSlot calls then some (firstValue calls slot) else none := by
  have hlength := hlog.length
  have hmax := hlog.maxChosen
  split
  next hle =>
    have hlt : slot < final.chosenValues.length := by omega
    have hchosen := hlog.chosenAt slot
    rw [Captain.chosenAt, List.getElem?_eq_getElem hlt, Option.join_some] at hchosen
    rw [List.getElem?_eq_getElem hlt, hchosen]
  next hgt => exact List.getElem?_eq_none (by omega)

/-- The abstract log alone determines what a sequence of calls leaves behind. -/
theorem IsLogOf.unique {start final final' : Captain} {calls calls' : List (ℕ × PropValue)}
    {outs outs' : List Output} (hlog : IsLogOf start calls final outs)
    (hlog' : IsLogOf start calls' final' outs')
    (hfirst : ∀ slot, firstValue calls slot = firstValue calls' slot)
    (hmax : largestSlot calls = largestSlot calls') :
    final'.chosenValues = final.chosenValues ∧
      final'.maxChosenWithoutHole = final.maxChosenWithoutHole ∧
      final'.view.masterId = final.view.masterId ∧ outs' = outs := by
  have hvalue : firstValue calls = firstValue calls' := funext hfirst
  have hhole : final'.maxChosenWithoutHole = final.maxChosenWithoutHole := by
    have hstop := hlog.hole
    have hstop' := hlog'.hole
    rcases Nat.lt_trichotomy final.maxChosenWithoutHole final'.maxChosenWithoutHole with
      hlt | heq | hgt
    · have hfilled := hlog'.gapFree (final.maxChosenWithoutHole + 1) (by omega) (by omega)
      rw [← hvalue, hstop] at hfilled
      simp at hfilled
    · exact heq.symm
    · have hfilled := hlog.gapFree (final'.maxChosenWithoutHole + 1) (by omega) (by omega)
      rw [hvalue, hstop'] at hfilled
      simp at hfilled
  refine ⟨?_, hhole, ?_, ?_⟩
  · apply List.ext_getElem?
    intro slot
    rw [hlog.getElem?, hlog'.getElem?, hvalue, hmax]
  · rw [hlog.masterId, hlog'.masterId, hvalue, hhole]
  · rw [hlog.delivered, hlog'.delivered, hvalue, hhole]

end Captain

theorem Deployment.node_freshLog (deployment : Deployment) (i : ℕ) :
    Captain.FreshLog (deployment.node i).captain where
  chosenValues := rfl
  maxChosen := rfl
  maxChosenWithoutHole := rfl

/-- Whatever the order of the calls, the log holds the first value of every
slot and its gap-free prefix has been delivered once and in order.  Two
orders of one consistent set of calls cannot be told apart. -/
theorem addChosenValues_log (deployment : Deployment) (i : ℕ)
    (calls : List (ℕ × PropValue)) (hslots : ∀ call ∈ calls, call.1 < 2 ^ 31) :
    ∃ final outs,
      (deployment.node i).captain.addChosenValues calls = some (final, outs) ∧
      Captain.IsLogOf (deployment.node i).captain calls final outs ∧
      ∀ calls', (∀ call, call ∈ calls ↔ call ∈ calls') → Captain.Consistent calls →
        ∃ final',
          (deployment.node i).captain.addChosenValues calls' = some (final', outs) ∧
          final'.chosenValues = final.chosenValues ∧
          final'.maxChosenWithoutHole = final.maxChosenWithoutHole ∧
          final'.view.masterId = final.view.masterId := by
  have hfresh := deployment.node_freshLog i
  obtain ⟨final, outs, hrun, hlog⟩ := hfresh.isLogOf.steps rfl hslots
  rw [List.nil_append, List.nil_append] at hlog
  refine ⟨final, outs, hrun, hlog, ?_⟩
  intro calls' hsame hconsistent
  obtain ⟨final', outs', hrun', hlog'⟩ := hfresh.isLogOf.steps rfl
    (fun call hmem => hslots call ((hsame call).mpr hmem))
  rw [List.nil_append, List.nil_append] at hlog'
  have hmax : largestSlot calls = largestSlot calls' := le_antisymm
    (Captain.largestSlot_le_of_subset fun call hmem => (hsame call).mp hmem)
    (Captain.largestSlot_le_of_subset fun call hmem => (hsame call).mpr hmem)
  obtain ⟨hvalues, hhole, hmaster, houts⟩ :=
    hlog.unique hlog' (Captain.firstValue_eq_of_same_calls hsame hconsistent) hmax
  exact ⟨final', houts ▸ hrun', hvalues, hhole, hmaster⟩

/-- Slots 3 and 5 come early, slot 1 twice, and slot 4 never. -/
def scatteredCalls : List (ℕ × PropValue) :=
  [(3, { id := 196608, data := [3] }), (5, { id := 327680, data := [5] }),
    (1, { id := 65537, data := [1], cmdType := some .setMaster }),
    (1, { id := 131072, data := [9] }), (2, { id := 131073, data := [2] })]

/-- Both callbacks are set, and each of them gets slots 1, 2 and 3, in this order. -/
theorem addChosenValues_log_threeNodes :
    ∃ final outs,
      (Deployment.node
        { config := threeNodes .basic, callback := fun _ => true, callbackFull := fun _ => true }
        0).captain.addChosenValues scatteredCalls = some (final, outs) ∧
      final.maxChosenWithoutHole = 3 ∧ final.view.masterId = 1 ∧
      outs =
        [.note (.callbackFull 1 { id := 65537, data := [1], cmdType := some .setMaster } 1),
          .note (.callback 1 [1]), .note (.callbackFull 2 { id := 131073, data := [2] } 1),
          .note (.callback 2 [2]), .note (.callbackFull 3 { id := 196608, data := [3] } 0),
          .note (.callback 3 [3])] := by
  obtain ⟨final, outs, hrun, hlog, _⟩ := addChosenValues_log
    { config := threeNodes .basic, callback := fun _ => true, callbackFull := fun _ => true } 0
    scatteredCalls (by decide)
  have hhole : final.maxChosenWithoutHole = 3 := by
    have hstop := hlog.hole
    have hgap := hlog.gapFree
    have hle := hlog.hole_le
    rw [hlog.maxChosen] at hle
    have hbound : final.maxChosenWithoutHole ≤ 5 := hle.trans (by decide)
    interval_cases hcase : final.maxChosenWithoutHole
    · exact absurd hstop (by decide)
    · exact absurd hstop (by decide)
    · exact absurd hstop (by decide)
    · rfl
    · exact absurd (hgap 4 (by decide) (by decide)) (by decide)
    · exact absurd (hgap 4 (by decide) (by decide)) (by decide)
  refine ⟨final, outs, hrun, hhole, ?_, ?_⟩
  · rw [hlog.masterId, hhole]
    decide
  · rw [hlog.delivered, hhole]
    decide

end NDNPaxos
