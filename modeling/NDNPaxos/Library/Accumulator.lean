import Mathlib.Data.List.Basic

/-!
# Objects that append

An object whose calls append to a member and return all of it.  After a history
the member holds what every call has added, so a call answers as on a new object
exactly when it does not return or when nothing was added before it.
-/

/-- What a call appends to the member, and whether it returns the member then. -/
structure Accumulator (Call Item : Type*) where
  adds : Call → List Item
  returns : Call → Bool

namespace Accumulator

variable {Call Item : Type*} (object : Accumulator Call Item)

def after : List Item → List Call → List Item
  | items, [] => items
  | items, call :: rest => after (items ++ object.adds call) rest

def answer (items : List Item) (call : Call) : Option (List Item) :=
  if object.returns call then some (items ++ object.adds call) else none

@[simp] theorem after_nil (items : List Item) : object.after items [] = items := rfl

@[simp] theorem after_cons (items : List Item) (call : Call) (rest : List Call) :
    object.after items (call :: rest) = object.after (items ++ object.adds call) rest := rfl

theorem after_eq (items : List Item) (history : List Call) :
    object.after items history = items ++ history.flatMap object.adds := by
  induction history generalizing items with
  | nil => simp
  | cons call rest ih => rw [after_cons, ih, List.flatMap_cons, List.append_assoc]

theorem after_eq_nil_iff (history : List Call) :
    object.after [] history = [] ↔ ∀ call ∈ history, object.adds call = [] := by
  rw [after_eq, List.nil_append, List.flatMap_eq_nil_iff]

theorem answer_eq_some_iff {items result : List Item} {call : Call} :
    object.answer items call = some result ↔
      object.returns call = true ∧ items ++ object.adds call = result := by
  rw [answer, Option.ite_none_right_eq_some, Option.some.injEq]

theorem answer_eq_new_iff (items : List Item) (call : Call) :
    object.answer items call = object.answer [] call ↔
      object.returns call = false ∨ items = [] := by
  cases hreturns : object.returns call with
  | false => simp [answer, hreturns]
  | true => simp [answer, hreturns]

/-- The answers after a history are those of a new object exactly when the
history has added nothing. -/
theorem answer_after_iff (history : List Call) (call : Call) :
    object.answer (object.after [] history) call = object.answer [] call ↔
      object.returns call = false ∨ ∀ earlier ∈ history, object.adds earlier = [] := by
  rw [answer_eq_new_iff, after_eq_nil_iff]

end Accumulator
