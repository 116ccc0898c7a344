import Mathlib.Data.Fintype.EquivFin
import Mathlib.Tactic

/-!
# Systematic erasure codes

A code whose words begin with the `k` symbols of their source.  When any `k`
different positions determine the source, any `k` symbols at such positions are
those of some source, because there are as many of the ones as of the others.
-/

structure SystematicCode (Symbol : Type*) (k n : ℕ) where
  check : (Fin k → Symbol) → ℕ → Symbol

namespace SystematicCode

variable {Symbol : Type*} {k n : ℕ}

def word (code : SystematicCode Symbol k n) (source : Fin k → Symbol) (position : ℕ) : Symbol :=
  if hlt : position < k then source ⟨position, hlt⟩ else code.check source position

/-- Different positions of a word, a primary one only in its own place. -/
structure Placed (n : ℕ) (index : Fin k → ℕ) : Prop where
  injective : Function.Injective index
  lt : ∀ slot, index slot < n
  primary : ∀ slot, index slot < k → index slot = slot

def Recoverable (code : SystematicCode Symbol k n) : Prop :=
  ∀ index : Fin k → ℕ, Placed n index →
    Function.Injective fun source slot => code.word source (index slot)

variable {code : SystematicCode Symbol k n}

theorem word_primary (source : Fin k → Symbol) (slot : Fin k) :
    code.word source slot = source slot := by
  rw [word, dif_pos slot.isLt]

theorem word_check (source : Fin k → Symbol) {position : ℕ} (hle : k ≤ position) :
    code.word source position = code.check source position := by
  rw [word, dif_neg (Nat.not_lt.mpr hle)]

theorem exists_source [Finite Symbol] (hrecoverable : code.Recoverable) {index : Fin k → ℕ}
    (hplaced : Placed n index) (received : Fin k → Symbol) :
    ∃ source, ∀ slot, code.word source (index slot) = received slot := by
  have hsurjective := Finite.injective_iff_surjective.mp (hrecoverable index hplaced)
  rcases hsurjective received with ⟨source, hsource⟩
  exact ⟨source, fun slot => congrFun hsource slot⟩

/-- All primary positions but one, which a check position replaces. -/
theorem placed_replace (last : Fin k) {position : ℕ} (hle : k ≤ position) (hlt : position < n) :
    Placed n fun slot : Fin k => if slot = last then position else slot := by
  constructor
  · intro slot slot' heq
    dsimp only at heq
    split_ifs at heq with hlast hlast' hlast'
    · rw [hlast, hlast']
    · have hslot := slot'.isLt
      omega
    · have hslot := slot.isLt
      omega
    · exact Fin.ext heq
  · intro slot
    split_ifs with hlast
    · exact hlt
    · exact slot.isLt.trans_le (hle.trans hlt.le)
  · intro slot hprimary
    split_ifs at hprimary ⊢ with hlast
    · omega
    · rfl

/-- Sources that differ in one symbol at most have different check symbols. -/
theorem eq_of_check_eq (hrecoverable : code.Recoverable) {source source' : Fin k → Symbol}
    {last : Fin k} (hsame : ∀ slot, slot ≠ last → source slot = source' slot)
    {position : ℕ} (hle : k ≤ position) (hlt : position < n)
    (hcheck : code.check source position = code.check source' position) : source = source' := by
  apply hrecoverable _ (placed_replace last hle hlt)
  funext slot
  dsimp only
  split_ifs with hlast
  · rw [word_check source hle, word_check source' hle, hcheck]
  · rw [word_primary, word_primary, hsame slot hlast]

end SystematicCode
