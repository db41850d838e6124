/-
  RdmaPaxos.Election.Sid
  ──────────────────────
  **THE STATE IDENTIFIER** (`include/rdma/dare_server.h`).

  A SID is a 64-bit word [TERM|L|IDX]: 55 bits of term, the leader flag, 8 bits of
  server index.  The macros work on bits; §2 turns each of them into arithmetic,
  where a SID is  512 · term + 256 · flag + index.
-/
import Mathlib.Data.Nat.Bitwise
import Mathlib.Tactic.Common

namespace RdmaPaxos.Election

/-! ## §1. The macros. -/

/-- `SID_GET_IDX`. -/
def sidGetIdx (sid : Nat) : Nat := sid &&& 0xFF

/-- `SID_SET_IDX`. -/
def sidSetIdx (sid idx : Nat) : Nat := idx ||| ((sid >>> 8) <<< 8)

/-- `SID_GET_L`, as the truth value it is used as. -/
def sidGetL (sid : Nat) : Bool := sid &&& (1 <<< 8) != 0

/-- `SID_SET_L`. -/
def sidSetL (sid : Nat) : Nat := sid ||| (1 <<< 8)

/-- `SID_UNSET_L`: the complement of `1 << 8` in 64 bits. -/
def sidUnsetL (sid : Nat) : Nat := sid &&& (2 ^ 64 - 1 - 1 <<< 8)

/-- `SID_GET_TERM`. -/
def sidGetTerm (sid : Nat) : Nat := sid >>> 9

/-- `SID_SET_TERM`, with the shift in 64 bits. -/
def sidSetTerm (sid term : Nat) : Nat := (term <<< 9) % 2 ^ 64 ||| (sid &&& 0x1FF)

/-! ## §2. As arithmetic. -/

/-- The index is the lowest byte. -/
theorem sidGetIdx_eq (sid : Nat) : sidGetIdx sid = sid % 256 := Nat.and_two_pow_sub_one_eq_mod sid 8

/-- The term begins at bit 9. -/
theorem sidGetTerm_eq (sid : Nat) : sidGetTerm sid = sid / 512 := Nat.shiftRight_eq_div_pow sid 9

/-- Setting the index replaces the lowest byte. -/
theorem sidSetIdx_eq (sid : Nat) {idx : Nat} (h : idx < 256) :
    sidSetIdx sid idx = sid / 256 * 256 + idx := by
  unfold sidSetIdx
  rw [Nat.or_comm, ← Nat.shiftLeft_add_eq_or_of_lt (i := 8) h, Nat.shiftRight_eq_div_pow,
    Nat.shiftLeft_eq]

/-- The leader bit is bit 8. -/
theorem sidGetL_iff (sid : Nat) : sidGetL sid = true ↔ 256 ≤ sid % 512 := by
  have hbit : sid &&& 1 <<< 8 = (sid.testBit 8).toNat * 256 := Nat.and_two_pow sid 8
  unfold sidGetL
  rw [hbit, Nat.testBit_eq_decide_div_mod_eq]
  by_cases h : sid / 2 ^ 8 % 2 = 1
  · simp only [h, decide_true, Bool.toNat_true]
    exact ⟨fun _ => by omega, fun _ => rfl⟩
  · simp only [h, decide_false, Bool.toNat_false]
    exact ⟨fun h0 => absurd h0 (by decide), fun _ => by omega⟩

/-- The bits above the flag's, and the flag itself. -/
theorem or_one_eq (x : Nat) : x ||| 1 = x / 2 * 2 + 1 := by
  have hdiv : (x ||| 1) / 2 ^ 1 = x / 2 ^ 1 ||| 1 / 2 ^ 1 := Nat.or_div_two_pow
  have hmod : (x ||| 1) % 2 ^ 1 = x % 2 ^ 1 ||| 1 % 2 ^ 1 := Nat.or_mod_two_pow
  have hlow : x % 2 ||| 1 = 1 := by
    rcases Nat.mod_two_eq_zero_or_one x with h | h <;> rw [h] <;> rfl
  simp at hdiv hmod
  omega

/-- Setting it adds 256, if it was not set. -/
theorem sidSetL_eq (sid : Nat) :
    sidSetL sid = if 256 ≤ sid % 512 then sid else sid + 256 := by
  have hdiv : (sid ||| 2 ^ 8) / 2 ^ 8 = sid / 2 ^ 8 ||| 1 := Nat.or_div_two_pow
  have hmod : (sid ||| 2 ^ 8) % 2 ^ 8 = sid % 2 ^ 8 ||| 0 := Nat.or_mod_two_pow
  rw [or_one_eq] at hdiv
  rw [Nat.or_zero] at hmod
  show sid ||| 2 ^ 8 = _
  split <;> omega

/-- Clearing it leaves term and index. -/
theorem sidUnsetL_eq {sid : Nat} (h : sid < 2 ^ 64) :
    sidUnsetL sid = sid / 512 * 512 + sid % 256 := by
  have hdiv : (sid &&& (2 ^ 64 - 1 - 1 <<< 8)) / 2 ^ 9 = sid / 2 ^ 9 &&& (2 ^ 55 - 1) :=
    Nat.and_div_two_pow
  have hmod : (sid &&& (2 ^ 64 - 1 - 1 <<< 8)) % 2 ^ 9 = sid % 2 ^ 9 &&& (2 ^ 8 - 1) :=
    Nat.and_mod_two_pow
  rw [Nat.and_two_pow_sub_one_eq_mod] at hdiv hmod
  unfold sidUnsetL
  omega

/-- Setting the term replaces what is above bit 8. -/
theorem sidSetTerm_eq (sid : Nat) {term : Nat} (h : term < 2 ^ 55) :
    sidSetTerm sid term = 512 * term + sid % 512 := by
  unfold sidSetTerm
  rw [Nat.shiftLeft_eq, Nat.mod_eq_of_lt (by omega), ← Nat.shiftLeft_eq,
    show (0x1FF : Nat) = 2 ^ 9 - 1 from rfl, Nat.and_two_pow_sub_one_eq_mod,
    ← Nat.shiftLeft_add_eq_or_of_lt (by omega), Nat.shiftLeft_eq]
  omega

end RdmaPaxos.Election
