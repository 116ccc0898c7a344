import Mathlib.Tactic

/-!
# Replicas of a log

A replica stores values at the slots of a log, in any order and with holes, and has
executed a prefix of the log without holes.  Replicas that never store two values at one
slot have executed prefixes of one sequence of commands.
-/

namespace Replication

/-- One of the sequences goes on where the other one ends. -/
def Comparable {α : Type*} (list list' : List α) : Prop := list <+: list' ∨ list' <+: list

theorem Comparable.eq_of_length {α : Type*} {list list' : List α}
    (hcomparable : Comparable list list') (hlength : list.length = list'.length) :
    list = list' := by
  rcases hcomparable with hleft | hright
  · exact hleft.eq_of_length hlength
  · exact (hright.eq_of_length hlength.symm).symm

theorem Comparable.extends {α : Type*} {list list' : List α}
    (hcomparable : Comparable list list') (hlength : list.length ≤ list'.length) :
    ∃ rest, list' = list ++ rest := by
  rcases hcomparable with ⟨rest, hrest⟩ | hright
  · exact ⟨rest, hrest.symm⟩
  · exact ⟨[], by rw [List.append_nil, hright.eq_of_length_le hlength]⟩

/-- The slots of a log start with 1. -/
structure Replica (Value : Type*) where
  value : ℕ → Option Value
  executed : ℕ
  filled : ∀ slot, 0 < slot → slot ≤ executed → (value slot).isSome

namespace Replica

variable {Value Result : Type*} {replica replica' : Replica Value}

def commands (replica : Replica Value) : List (ℕ × Value) :=
  (List.range' 1 replica.executed).filterMap fun slot => (replica.value slot).map (slot, ·)

/-- What the replicas store at one slot is one value. -/
def Agrees (replica replica' : Replica Value) : Prop :=
  ∀ slot value value', replica.value slot = some value → replica'.value slot = some value' →
    value = value'

/-- The later replica has kept what was stored and executed. -/
structure Grows (replica later : Replica Value) : Prop where
  kept : ∀ slot value, replica.value slot = some value → later.value slot = some value
  executed : replica.executed ≤ later.executed

theorem length_commands (replica : Replica Value) :
    replica.commands.length = replica.executed := by
  have hall : ∀ slot ∈ List.range' 1 replica.executed,
      ((replica.value slot).map (slot, ·)).isSome := by
    intro slot hmem
    rw [List.mem_range'_1] at hmem
    rw [Option.isSome_map]
    exact replica.filled slot (by omega) (by omega)
  rw [commands, List.filterMap_length_eq_length.mpr hall, List.length_range']

theorem nodup_commands (replica : Replica Value) : replica.commands.Nodup := by
  apply List.Nodup.filterMap _ List.nodup_range'
  intro slot slot' command hmem hmem'
  rcases Option.map_eq_some_iff.mp hmem with ⟨value, _, rfl⟩
  rcases Option.map_eq_some_iff.mp hmem' with ⟨value', _, heq⟩
  exact (congrArg Prod.fst heq).symm

theorem Agrees.symm (hagrees : Agrees replica replica') : Agrees replica' replica :=
  fun slot value value' hvalue hvalue' => (hagrees slot value' value hvalue' hvalue).symm

theorem Grows.agrees (hgrows : Grows replica replica') : Agrees replica replica' := by
  intro slot value value' hvalue hvalue'
  exact Option.some.inj ((hgrows.kept slot value hvalue).symm.trans hvalue')

/-- Agreeing replicas have executed the same commands at the common slots. -/
theorem Agrees.commands_isPrefix (hagrees : Agrees replica replica')
    (hle : replica.executed ≤ replica'.executed) : replica.commands <+: replica'.commands := by
  have hsplit : List.range' 1 replica'.executed = List.range' 1 replica.executed ++
      List.range' (1 + replica.executed) (replica'.executed - replica.executed) := by
    rw [List.range'_append_1, Nat.add_sub_cancel' hle]
  have hcommon : replica.commands = (List.range' 1 replica.executed).filterMap
      fun slot => (replica'.value slot).map (slot, ·) := by
    apply List.filterMap_congr
    intro slot hmem
    rw [List.mem_range'_1] at hmem
    rcases Option.isSome_iff_exists.mp (replica.filled slot (by omega) (by omega)) with
      ⟨value, hvalue⟩
    rcases Option.isSome_iff_exists.mp (replica'.filled slot (by omega) (by omega)) with
      ⟨value', hvalue'⟩
    rw [hvalue, hvalue', hagrees slot value value' hvalue hvalue']
  refine ⟨(List.range' (1 + replica.executed) (replica'.executed - replica.executed)).filterMap
    fun slot => (replica'.value slot).map (slot, ·), ?_⟩
  rw [hcommon, ← List.filterMap_append, ← hsplit]
  rfl

/-- Replicas that agree in the end have executed prefixes of one sequence, at any
two times. -/
theorem Grows.commands_comparable {later : Replica Value} (hgrows : Grows replica later)
    (hagrees : Agrees later replica') : Comparable replica.commands replica'.commands := by
  have hearlier := hgrows.agrees.commands_isPrefix hgrows.executed
  rcases Nat.le_total later.executed replica'.executed with hle | hle
  · exact .inl (hearlier.trans (hagrees.commands_isPrefix hle))
  · exact List.prefix_or_prefix_of_prefix hearlier (hagrees.symm.commands_isPrefix hle)

/-- A replica that stores the commands of a history at their slots has executed the
first ones of them. -/
theorem commands_eq_take {history : List Value}
    (hfollows : ∀ slot value, 0 < slot → replica.value slot = some value →
      history[slot - 1]? = some value) :
    replica.commands.map Prod.snd = history.take replica.executed := by
  have hfirst : ∀ count ≤ replica.executed,
      (List.range' 1 count).filterMap replica.value = history.take count := by
    intro count hle
    induction count with
    | zero => rfl
    | succ count ih =>
        obtain ⟨value, hvalue⟩ :=
          Option.isSome_iff_exists.mp (replica.filled (count + 1) (Nat.succ_pos count) hle)
        have hnext := hfollows (count + 1) value (Nat.succ_pos count) hvalue
        rw [Nat.add_sub_cancel] at hnext
        rw [List.range'_concat, List.filterMap_append, ih (Nat.le_of_succ_le hle),
          List.take_add_one, hnext, Nat.one_mul, Nat.add_comm 1 count]
        simp [hvalue]
  rw [commands, List.map_filterMap, ← hfirst replica.executed le_rfl]
  apply List.filterMap_congr
  intro slot _
  rw [Option.map_map, Function.comp_def]
  exact Option.map_id'

theorem executed_le (hshared : ∀ slot, (replica.value slot).isSome → slot ≤ replica'.executed) :
    replica.executed ≤ replica'.executed := by
  rcases Nat.eq_zero_or_pos replica.executed with hzero | hpos
  · omega
  · exact hshared _ (replica.filled _ hpos le_rfl)

/-- Agreeing replicas that have executed all that either of them stores have
executed the same commands. -/
theorem Agrees.commands_eq (hagrees : Agrees replica replica')
    (hleft : ∀ slot, (replica.value slot).isSome → slot ≤ replica'.executed)
    (hright : ∀ slot, (replica'.value slot).isSome → slot ≤ replica.executed) :
    replica.commands = replica'.commands := by
  have hexecuted := le_antisymm (executed_le hleft) (executed_le hright)
  apply (hagrees.commands_isPrefix hexecuted.le).eq_of_length
  rw [length_commands, length_commands, hexecuted]

/-! ## Replicas of which only a part of each value is looked at -/

def map (look : Value → Result) (replica : Replica Value) : Replica Result where
  value := fun slot => (replica.value slot).map look
  executed := replica.executed
  filled := by
    intro slot hpos hle
    rw [Option.isSome_map]
    exact replica.filled slot hpos hle

theorem commands_map (look : Value → Result) :
    (replica.map look).commands = replica.commands.map fun command =>
      (command.1, look command.2) := by
  rw [commands, commands, List.map_filterMap]
  apply List.filterMap_congr
  intro slot _
  rw [map, Option.map_map, Option.map_map]
  rfl

end Replica

end Replication
