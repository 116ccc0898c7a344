import Mathlib.Data.List.Basic
import Mathlib.Order.Nat

/-!
# Escaping

A code that writes some symbols as themselves and every other one as a longer
word.  A text comes out unchanged exactly when all of its symbols are kept.
-/

/-- Each symbol is kept or written as a word of two symbols or more. -/
structure Escaping (Symbol : Type*) where
  write : Symbol → List Symbol
  kept_or_longer : ∀ symbol, write symbol = [symbol] ∨ 1 < (write symbol).length

namespace Escaping

variable {Symbol : Type*} (code : Escaping Symbol)

def encode (text : List Symbol) : List Symbol := text.flatMap code.write

@[simp] theorem encode_nil : code.encode [] = [] := rfl

@[simp] theorem encode_cons (symbol : Symbol) (rest : List Symbol) :
    code.encode (symbol :: rest) = code.write symbol ++ code.encode rest :=
  List.flatMap_cons

theorem length_le_encode (text : List Symbol) : text.length ≤ (code.encode text).length := by
  induction text with
  | nil => exact le_rfl
  | cons symbol rest ih =>
      have hpos : 1 ≤ (code.write symbol).length := by
        rcases code.kept_or_longer symbol with hkept | hlonger
        · rw [hkept]
          exact le_rfl
        · exact hlonger.le
      rw [encode_cons, List.length_append, List.length_cons]
      omega

theorem encode_eq_self_iff (text : List Symbol) :
    code.encode text = text ↔ ∀ symbol ∈ text, code.write symbol = [symbol] := by
  induction text with
  | nil => simp
  | cons symbol rest ih =>
      rw [encode_cons, List.forall_mem_cons]
      rcases code.kept_or_longer symbol with hkept | hlonger
      · rw [hkept, List.singleton_append, List.cons_inj_right, ih]
        exact ⟨fun hrest => ⟨rfl, hrest⟩, fun hall => hall.2⟩
      · have hwrite : code.write symbol ≠ [symbol] := by
          intro hkept
          simp [hkept] at hlonger
        have hencode : code.write symbol ++ code.encode rest ≠ symbol :: rest := by
          intro hsame
          have hlength := congrArg List.length hsame
          have hle := code.length_le_encode rest
          rw [List.length_append, List.length_cons] at hlength
          omega
        exact ⟨fun hsame => absurd hsame hencode, fun hall => absurd hall.1 hwrite⟩

end Escaping
