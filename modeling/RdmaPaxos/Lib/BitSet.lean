/-
  RdmaPaxos.Lib.BitSet
  ────────────────────
  **64-BIT WORDS AS SETS OF BITS.**

  A program that keeps a set of small numbers in a `uint64_t` adds a member with
  `b | (1 << k)`.  The constant 1 is an `int`, and so is the shifted value: it is
  converted, with its sign, when it meets the `uint64_t`.  As long as no member is
  above 30 this is the set it looks like:

      bits (a | b)            =  bits a ∪ bits b
      bits (1 << k)           =  {k}                 (k ≤ 30)
      number of bits of b     =  |bits b|
-/
import Mathlib.Data.Finset.Card
import Mathlib.Data.Finset.Range
import Mathlib.Data.Nat.Bitwise

namespace RdmaPaxos.BitSet

/-- An `int` where a `uint64_t` is needed. -/
def ofInt (c : Int32) : UInt64 := c.toInt64.toUInt64

/-- `1 << k` for an unsigned `k`: an `int`. -/
def bit (k : UInt32) : UInt64 := ofInt ((1 : Int32) <<< k.toInt32)

/-- The numbers of the bits that are set. -/
def bits (b : UInt64) : Finset Nat := (Finset.range 64).filter fun k => b.toNat.testBit k = true

variable {a b : UInt64} {k n : Nat}

/-- The set of the bits of a word. -/
theorem mem_bits : k ∈ bits b ↔ b.toNat.testBit k = true := by
  unfold bits
  rw [Finset.mem_filter, Finset.mem_range]
  refine ⟨And.right, fun hbit => ⟨?_, hbit⟩⟩
  -- a bit at `k` makes the word at least 2ᵏ
  have hge : 2 ^ k ≤ b.toNat := Nat.ge_two_pow_of_testBit hbit
  exact (Nat.pow_lt_pow_iff_right (by decide)).mp (Nat.lt_of_le_of_lt hge b.toNat_lt)

/-- The union is the bitwise or. -/
@[simp] theorem bits_or : bits (a ||| b) = bits a ∪ bits b := by
  ext k
  rw [Finset.mem_union, mem_bits, mem_bits, mem_bits, UInt64.toNat_or, Nat.testBit_or,
    Bool.or_eq_true]

/-- The word of a single bit, below the sign of an `int`. -/
theorem bit_eq {k : UInt32} (hk : k.toNat < 31) : (bit k).toNat = 2 ^ k.toNat := by
  have hall : ∀ k : Fin 31, (bit (UInt32.ofNat k)).toNat = 2 ^ k.val := by decide +kernel
  have := hall ⟨k.toNat, hk⟩
  rwa [UInt32.ofNat_toNat] at this

/-- Its set has one element. -/
@[simp] theorem bits_bit {k : UInt32} (hk : k.toNat < 31) : bits (bit k) = {k.toNat} := by
  ext j
  rw [mem_bits, bit_eq hk, Nat.testBit_two_pow, Finset.mem_singleton]
  simp [eq_comm]

end RdmaPaxos.BitSet
