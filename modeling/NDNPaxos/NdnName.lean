import NDNPaxos.Message
import NDNPaxos.Library.Escaping
import Mathlib.Tactic

/-!
# Name components

A component of an `ndn::Name` can be read in three ways: as its bytes, as a
number and as the text of a URI.  The library that does so is a parameter, and
what it documents about these views is a hypothesis.
-/

namespace NDNPaxos

/-- What the program calls of the library. -/
structure NdnCxx where
  /-- The component that `appendNumber` appends. -/
  appendNumber : ℕ → Bytes
  /-- `none` is the exception for a component that is no number. -/
  toNumber : Bytes → Option ℕ
  toUri : Bytes → Bytes

/-- `get(-1 - i)`, undefined past the first component. -/
def Name.getBack (name : Name) (i : ℕ) : Option Bytes := name.reverse[i]?

/-! ## URI text -/

def dot : UInt8 := 46

/-- Letters, digits and the four characters `+`, `-`, `.` and `_`. -/
def uriKeeps (byte : UInt8) : Bool :=
  (48 ≤ byte && byte ≤ 57) || (65 ≤ byte && byte ≤ 90) || (97 ≤ byte && byte ≤ 122) ||
    byte == 43 || byte == 45 || byte == dot || byte == 95

def hexDigit (digit : ℕ) : UInt8 := UInt8.ofNat (if digit < 10 then 48 + digit else 55 + digit)

def percent (byte : UInt8) : Bytes :=
  [37, hexDigit (byte.toNat / 16), hexDigit (byte.toNat % 16)]

def uriEscape : Escaping UInt8 where
  write byte := if uriKeeps byte then [byte] else percent byte
  kept_or_longer := by
    intro byte
    split
    · exact .inl rfl
    · exact .inr (by simp [percent])

theorem uriEscape_write_eq_iff (byte : UInt8) :
    uriEscape.write byte = [byte] ↔ uriKeeps byte = true := by
  cases hkeeps : uriKeeps byte <;> simp [uriEscape, hkeeps, percent]

structure NdnCxx.Documented (ndn : NdnCxx) : Prop where
  toNumber_appendNumber : ∀ number < 2 ^ 64, ndn.toNumber (ndn.appendNumber number) = some number
  /-- Three more dots for a component of dots only. -/
  toUri_dots : ∀ value, (∀ byte ∈ value, byte = dot) → ndn.toUri value = [dot, dot, dot] ++ value
  toUri_escapes : ∀ value, (∃ byte ∈ value, byte ≠ dot) → ndn.toUri value = uriEscape.encode value

/-- The bytes need no escape and are not dots only. -/
def Plain (value : Bytes) : Prop :=
  (∀ byte ∈ value, uriKeeps byte = true) ∧ ∃ byte ∈ value, byte ≠ dot

instance decidablePlain (value : Bytes) : Decidable (Plain value) :=
  inferInstanceAs (Decidable (_ ∧ _))

theorem NdnCxx.Documented.toUri_eq_self_iff {ndn : NdnCxx} (hndn : ndn.Documented)
    (value : Bytes) : ndn.toUri value = value ↔ Plain value := by
  by_cases hother : ∃ byte ∈ value, byte ≠ dot
  · rw [hndn.toUri_escapes value hother, uriEscape.encode_eq_self_iff]
    simp only [uriEscape_write_eq_iff]
    exact ⟨fun hkeeps => ⟨hkeeps, hother⟩, fun hplain => hplain.1⟩
  · have hdots : ∀ byte ∈ value, byte = dot := by
      intro byte hmem
      by_contra hne
      exact hother ⟨byte, hmem, hne⟩
    rw [hndn.toUri_dots value hdots]
    constructor
    · intro hsame
      have hlength := congrArg List.length hsame
      rw [List.length_append] at hlength
      simp at hlength
    · exact fun hplain => absurd hplain.2 hother

/-! ## Numbers of different widths -/

/-- An `int` passed as `uint64_t`. -/
def toUInt64 (value : ℤ) : ℕ := (value % 2 ^ 64).toNat

/-- A `uint64_t` assigned to an `int`. -/
def toInt32 (number : ℕ) : ℤ := Int.bmod number (2 ^ 32)

theorem toUInt64_lt (value : ℤ) : toUInt64 value < 2 ^ 64 := by
  unfold toUInt64
  omega

theorem toInt32_toUInt64 {value : ℤ} (hlow : -2 ^ 31 ≤ value) (hhigh : value < 2 ^ 31) :
    toInt32 (toUInt64 value) = value := by
  unfold toInt32 toUInt64
  rw [Int.bmod_def]
  omega

/-! ## The encoding of numbers in a component -/

def bigEndian : (width : ℕ) → ℕ → Bytes
  | 0, _ => []
  | width + 1, number => bigEndian width (number / 256) ++ [UInt8.ofNat number]

def ofBigEndian (bytes : Bytes) : ℕ :=
  bytes.foldl (fun number byte => number * 256 + byte.toNat) 0

theorem length_bigEndian (width number : ℕ) : (bigEndian width number).length = width := by
  induction width generalizing number with
  | zero => rfl
  | succ width ih => rw [bigEndian, List.length_append, ih, List.length_singleton]

theorem ofBigEndian_bigEndian {width number : ℕ} (hnumber : number < 256 ^ width) :
    ofBigEndian (bigEndian width number) = number := by
  induction width generalizing number with
  | zero =>
      have hzero : number = 0 := by omega
      rw [hzero]
      rfl
  | succ width ih =>
      have hrest : number / 256 < 256 ^ width := by
        rw [pow_succ] at hnumber
        exact Nat.div_lt_of_lt_mul (by omega)
      rw [bigEndian, ofBigEndian, List.foldl_append]
      change ofBigEndian (bigEndian width (number / 256)) * 256 + (UInt8.ofNat number).toNat =
        number
      rw [ih hrest, UInt8.toNat_ofNat']
      omega

/-- A number takes 1, 2, 4 or 8 bytes. -/
def numberWidth (number : ℕ) : ℕ :=
  if number < 2 ^ 8 then 1 else if number < 2 ^ 16 then 2 else if number < 2 ^ 32 then 4 else 8

def ndnCxx : NdnCxx where
  appendNumber number := bigEndian (numberWidth number) number
  toNumber value := if value.length ∈ [1, 2, 4, 8] then some (ofBigEndian value) else none
  toUri value :=
    if value.all (· == dot) then [dot, dot, dot] ++ value else uriEscape.encode value

theorem ndnCxx_documented : ndnCxx.Documented where
  toNumber_appendNumber := by
    intro number hnumber
    have hwidth : numberWidth number ∈ [1, 2, 4, 8] ∧ number < 256 ^ numberWidth number := by
      unfold numberWidth
      split_ifs <;> simp <;> omega
    simp only [ndnCxx, length_bigEndian]
    rw [if_pos hwidth.1, ofBigEndian_bigEndian hwidth.2]
  toUri_dots := by
    intro value hdots
    apply if_pos
    simpa using hdots
  toUri_escapes := by
    intro value hother
    apply if_neg
    simpa using hother

end NDNPaxos
