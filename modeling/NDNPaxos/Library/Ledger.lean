import Mathlib.Algebra.BigOperators.Group.List.Basic
import Mathlib.Algebra.Order.BigOperators.Group.Finset
import Mathlib.Tactic

/-!
# Ledgers

Parties that hold an account each, and items in flight that have a price each.
When one party acts, the ledger does not grow as long as the party pays for the
items it sends out of its account and of the price of the item it received.
-/

namespace Ledger

variable {Party Item : Type*} [DecidableEq Party]

def worth (price : Item → ℤ) (items : List Item) : ℤ := (items.map price).sum

def total (parties : Finset Party) (account : Party → ℤ) (price : Item → ℤ)
    (items : List Item) : ℤ :=
  ∑ party ∈ parties, account party + worth price items

@[simp] theorem worth_nil (price : Item → ℤ) : worth price [] = 0 := rfl

@[simp] theorem worth_cons (price : Item → ℤ) (item : Item) (items : List Item) :
    worth price (item :: items) = price item + worth price items := by
  simp [worth]

@[simp] theorem worth_append (price : Item → ℤ) (items items' : List Item) :
    worth price (items ++ items') = worth price items + worth price items' := by
  simp [worth]

theorem worth_eq_zero {price : Item → ℤ} {items : List Item}
    (hfree : ∀ item ∈ items, price item = 0) : worth price items = 0 := by
  induction items with
  | nil => rfl
  | cons item rest ih =>
      rw [worth_cons, hfree item (List.mem_cons_self ..),
        ih fun other hmem => hfree other (List.mem_cons_of_mem _ hmem), add_zero]

theorem worth_nonneg {price : Item → ℤ} (hprice : ∀ item, 0 ≤ price item)
    (items : List Item) : 0 ≤ worth price items := by
  apply List.sum_nonneg
  intro amount hmem
  rcases List.mem_map.mp hmem with ⟨item, _, rfl⟩
  exact hprice item

theorem worth_eraseIdx (price : Item → ℤ) {items : List Item} {index : ℕ} {item : Item}
    (hfound : items[index]? = some item) :
    worth price (items.eraseIdx index) + price item = worth price items := by
  rcases List.getElem?_eq_some_iff.mp hfound with ⟨hlt, rfl⟩
  have hperm := (List.getElem_cons_eraseIdx_perm hlt).map price
  rw [add_comm]
  exact hperm.sum_eq

theorem length_le_worth {price : Item → ℤ} (hprice : ∀ item, 1 ≤ price item)
    (items : List Item) : (items.length : ℤ) ≤ worth price items := by
  induction items with
  | nil => rfl
  | cons item rest ih =>
      have hitem := hprice item
      rw [List.length_cons, worth_cons]
      push_cast
      omega

/-- The rule for a step of one party that spends the amount. -/
theorem total_add_le {parties : Finset Party} {account account' : Party → ℤ}
    {price : Item → ℤ} {items items' : List Item} {party : Party} {amount : ℤ}
    (hmem : party ∈ parties) (hother : ∀ other ≠ party, account' other = account other)
    (hpaid : account' party + worth price items' + amount ≤
      account party + worth price items) :
    total parties account' price items' + amount ≤ total parties account price items := by
  have hrest : ∑ other ∈ parties.erase party, account' other =
      ∑ other ∈ parties.erase party, account other :=
    Finset.sum_congr rfl fun other hin => hother other (Finset.ne_of_mem_erase hin)
  have hsum := Finset.add_sum_erase parties account hmem
  have hsum' := Finset.add_sum_erase parties account' hmem
  unfold total
  omega

theorem total_le {parties : Finset Party} {account account' : Party → ℤ} {price : Item → ℤ}
    {items items' : List Item} {party : Party} (hmem : party ∈ parties)
    (hother : ∀ other ≠ party, account' other = account other)
    (hpaid : account' party + worth price items' ≤ account party + worth price items) :
    total parties account' price items' ≤ total parties account price items := by
  rw [← add_zero (account' party + _)] at hpaid
  rw [← add_zero (total parties account' price items')]
  exact total_add_le hmem hother hpaid

omit [DecidableEq Party] in
theorem worth_le_total {parties : Finset Party} {account : Party → ℤ}
    (haccount : ∀ party ∈ parties, 0 ≤ account party) (price : Item → ℤ) (items : List Item) :
    worth price items ≤ total parties account price items :=
  le_add_of_nonneg_left (Finset.sum_nonneg haccount)

end Ledger
