/-
  RdmaPaxos.Lib.ByteMemory
  ────────────────────────
  **BYTE MEMORY, LITTLE-ENDIAN FIELDS, PARTIALLY VISIBLE WRITES.**

  A region of memory is a function from addresses to bytes.  Everything a
  program does to it is one primitive, `write m a n src` (overwrite `n` bytes
  from `a`), and everything it learns is `readLE m a k` (the `k`-byte
  little-endian number at `a`).  The lemmas:

    • a write is seen inside its range and nowhere else,
    • `readLE` depends on its `k` bytes only, so a disjoint write is invisible,
    • a number written with `writeLE` reads back modulo `256 ^ k`,
    • `readLE_torn` — a number of which only the first `j` bytes have arrived
      over zeroed memory reads as its remainder modulo `256 ^ j`.
-/
import Mathlib.Data.Nat.Log
import Mathlib.Tactic.Ring

namespace RdmaPaxos.ByteMemory

/-! ## §1. Memory, writes, little-endian numbers. -/

/-- A byte-addressed region. -/
abbrev Mem := Nat → UInt8

/-- The region a `memset(_, 0, _)` leaves behind. -/
def zeroed : Mem := fun _ => 0

/-- Overwrite the `n` bytes from address `a` on with `src 0, src 1, …`. -/
def write (m : Mem) (a n : Nat) (src : Nat → UInt8) : Mem :=
  fun x => if a ≤ x ∧ x < a + n then src (x - a) else m x

/-- Byte `i` of the little-endian representation of `v`. -/
def leByte (v i : Nat) : UInt8 := UInt8.ofNat (v / 256 ^ i)

/-- The `k`-byte little-endian number stored at address `a`. -/
def readLE (m : Mem) : Nat → Nat → Nat
  | _, 0 => 0
  | a, k + 1 => (m a).toNat + 256 * readLE m (a + 1) k

/-- Store `v` as a `k`-byte little-endian number at address `a`. -/
def writeLE (m : Mem) (a k v : Nat) : Mem := write m a k (leByte v)

/-! ## §2. Reading single bytes through a write. -/

@[simp] theorem zeroed_apply (x : Nat) : zeroed x = 0 := rfl

/-- A byte that is written. -/
theorem write_inside (m : Mem) {a n x : Nat} (src : Nat → UInt8)
    (h₁ : a ≤ x) (h₂ : x < a + n) : write m a n src x = src (x - a) := by
  unfold write; rw [if_pos ⟨h₁, h₂⟩]

/-- A byte that is not. -/
theorem write_outside (m : Mem) {a n x : Nat} (src : Nat → UInt8)
    (h : x < a ∨ a + n ≤ x) : write m a n src x = m x := by
  unfold write; rw [if_neg (by omega)]

theorem write_add (m : Mem) {a n i : Nat} (src : Nat → UInt8) (h : i < n) :
    write m a n src (a + i) = src i := by
  rw [write_inside m src (by omega) (by omega), Nat.add_sub_cancel_left]

/-! ## §3. `readLE` depends on its bytes only. -/

/-- Equal bytes, possibly at another address, read as equal numbers. -/
theorem readLE_shift {m m' : Mem} {a b k : Nat}
    (h : ∀ i, i < k → m (a + i) = m' (b + i)) : readLE m a k = readLE m' b k := by
  induction k generalizing a b with
  | zero => rfl
  | succ k ih =>
      have h0 : m a = m' b := by simpa using h 0 (by omega)
      have htl : readLE m (a + 1) k = readLE m' (b + 1) k := by
        apply ih
        intro i hi
        have := h (i + 1) (by omega)
        rwa [show a + (i + 1) = a + 1 + i by omega, show b + (i + 1) = b + 1 + i by omega] at this
      simp only [readLE, h0, htl]

/-- A number is its bytes. -/
theorem readLE_congr {m m' : Mem} {a k : Nat}
    (h : ∀ i, i < k → m (a + i) = m' (a + i)) : readLE m a k = readLE m' a k :=
  readLE_shift h

/-- The low bytes of a number. -/
theorem readLE_mod (m : Mem) (a : Nat) {j k : Nat} (h : j ≤ k) :
    readLE m a k % 256 ^ j = readLE m a j := by
  induction j generalizing a k with
  | zero => exact Nat.mod_one _
  | succ j ih =>
      obtain ⟨k, rfl⟩ := Nat.exists_eq_add_of_lt (Nat.zero_lt_of_lt h)
      have hbyte := (m a).toNat_lt
      rw [Nat.zero_add, readLE, readLE, ← ih (a + 1) (Nat.le_of_succ_le_succ (by omega : j + 1 ≤ k + 1)),
        Nat.pow_succ, Nat.mul_comm (256 ^ j), Nat.mod_mul]
      congr 1
      · omega
      · rw [show ((m a).toNat + 256 * readLE m (a + 1) k) / 256 = readLE m (a + 1) k by omega]

/-- A write elsewhere does not change a stored number. -/
theorem readLE_write_disjoint (m : Mem) {a k b n : Nat} (src : Nat → UInt8)
    (h : a + k ≤ b ∨ b + n ≤ a) : readLE (write m b n src) a k = readLE m a k := by
  apply readLE_congr
  intro i hi
  exact write_outside m src (by omega)

/-- Zeros are 0. -/
theorem readLE_zeroed {m : Mem} {a k : Nat} (h : ∀ i, i < k → m (a + i) = 0) :
    readLE m a k = 0 := by
  induction k generalizing a with
  | zero => rfl
  | succ k ih =>
      have h0 : m a = 0 := by simpa using h 0 (by omega)
      have htl : readLE m (a + 1) k = 0 := by
        apply ih
        intro i hi
        rw [show a + 1 + i = a + (i + 1) by omega]
        exact h (i + 1) (by omega)
      simp [readLE, h0, htl]

/-- A number is non-zero only if one of its bytes is. -/
theorem exists_byte_of_readLE_ne_zero {m : Mem} {a k : Nat} (h : readLE m a k ≠ 0) :
    ∃ i, i < k ∧ m (a + i) ≠ 0 := by
  by_contra hno
  push Not at hno
  exact h (readLE_zeroed hno)

/-! ## §4. Numbers written and read back. -/

/-- A digit to base 256. -/
theorem leByte_toNat (v i : Nat) : (leByte v i).toNat = v / 256 ^ i % 256 := by
  simp [leByte]

theorem leByte_succ (v i : Nat) : leByte v (i + 1) = leByte (v / 256) i := by
  unfold leByte
  rw [pow_succ', Nat.div_div_eq_div_mul]

/-- Memory holding the first `k` little-endian bytes of `v` reads as `v mod 256 ^ k`. -/
theorem readLE_of_bytes {m : Mem} {a k v : Nat} (h : ∀ i, i < k → m (a + i) = leByte v i) :
    readLE m a k = v % 256 ^ k := by
  induction k generalizing a v with
  | zero => simp [readLE, Nat.mod_one]
  | succ k ih =>
      have h0 : (m a).toNat = v % 256 := by
        have := h 0 (by omega)
        rw [Nat.add_zero] at this
        rw [this, leByte_toNat, pow_zero, Nat.div_one]
      have htl : readLE m (a + 1) k = v / 256 % 256 ^ k := by
        apply ih
        intro i hi
        rw [show a + 1 + i = a + (i + 1) by omega, h (i + 1) (by omega), leByte_succ]
      rw [readLE, h0, htl, pow_succ', Nat.mod_mul]

/-- The bytes of a stored number are its little-endian bytes. -/
theorem byte_of_readLE {m : Mem} {a k i : Nat} (h : i < k) :
    m (a + i) = leByte (readLE m a k) i := by
  induction k generalizing a i with
  | zero => omega
  | succ k ih =>
      have hb : (m a).toNat < 256 := (m a).toNat_lt
      cases i with
      | zero =>
          apply UInt8.toNat_inj.mp
          rw [leByte_toNat, readLE, Nat.add_zero, pow_zero, Nat.div_one]
          omega
      | succ i =>
          rw [show a + (i + 1) = a + 1 + i by omega, ih (by omega : i < k), leByte_succ]
          congr 1
          rw [readLE]
          omega

/-- **Write then read back.** -/
theorem readLE_writeLE (m : Mem) (a k v : Nat) :
    readLE (writeLE m a k v) a k = v % 256 ^ k :=
  readLE_of_bytes (fun _ hi => write_add m (leByte v) hi)

/-- A number that fits is read as it was written. -/
theorem readLE_writeLE_of_lt (m : Mem) {a k v : Nat} (h : v < 256 ^ k) :
    readLE (writeLE m a k v) a k = v := by
  rw [readLE_writeLE, Nat.mod_eq_of_lt h]

/-- A number elsewhere is left alone. -/
theorem readLE_writeLE_disjoint (m : Mem) {a k b n v : Nat}
    (h : a + k ≤ b ∨ b + n ≤ a) : readLE (writeLE m b n v) a k = readLE m a k :=
  readLE_write_disjoint m (leByte v) h

/-- **A torn number.**  When only the first `j ≤ k` bytes of `v` have become
visible over zeroed memory, the reader sees `v mod 256 ^ j`. -/
theorem readLE_torn {m : Mem} {a k j v : Nat} (hj : j ≤ k)
    (hvis : ∀ i, i < j → m (a + i) = leByte v i)
    (hzero : ∀ i, j ≤ i → i < k → m (a + i) = 0) :
    readLE m a k = v % 256 ^ j := by
  have hlt : v % 256 ^ j < 256 ^ j := Nat.mod_lt _ (Nat.pow_pos (by decide))
  have hle : 256 ^ j ≤ 256 ^ k := Nat.pow_le_pow_right (by decide) hj
  rw [readLE_of_bytes (v := v % 256 ^ j), Nat.mod_eq_of_lt (by omega)]
  intro i hi
  apply UInt8.toNat_inj.mp
  rw [leByte_toNat]
  by_cases hij : i < j
  · -- a byte that has arrived: reducing `v` modulo `256 ^ j` keeps it
    rw [hvis i hij, leByte_toNat]
    obtain ⟨d, rfl⟩ : ∃ d, j = i + (d + 1) := ⟨j - i - 1, by omega⟩
    rw [pow_add, Nat.mod_mul_right_div_self, pow_succ', Nat.mod_mul_right_mod]
  · -- a byte still missing: both sides are zero
    have hdiv : v % 256 ^ j / 256 ^ i = 0 := by
      apply Nat.div_eq_of_lt
      exact lt_of_lt_of_le hlt (Nat.pow_le_pow_right (by decide) (by omega))
    rw [hzero i (by omega) hi, hdiv]
    rfl

end RdmaPaxos.ByteMemory
