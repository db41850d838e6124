/-
  RdmaPaxos.Lib.Crc
  ─────────────────
  **CYCLIC REDUNDANCY CHECKS OVER GF(2).**

  A reflected CRC register of width `w` is read as a polynomial of degree below
  `w`, lowest bit first.  One shift multiplies by `X` modulo the generator; feeding
  a message `m` of `n` bits into a register `r` therefore gives

      poly (crc r m)  ≡  Xⁿ · poly r + X^w · ofBits m      (mod gen).

  Two consequences for every generator with constant term 1, whatever table or
  loop computes the register: the register left by a message determines the
  register it started from, and from 0 a message leaves 0 exactly when its
  polynomial is a multiple of the generator.
-/
import Mathlib.Algebra.CharP.Two
import Mathlib.Algebra.Field.ZMod
import Mathlib.RingTheory.AdjoinRoot
import Mathlib.Tactic.LinearCombination

namespace RdmaPaxos.Crc

open Polynomial

/-! ## §1. Bits and polynomials. -/

/-- The polynomial of a sequence of bits, the first one the highest coefficient. -/
noncomputable def ofBits : List Bool → (ZMod 2)[X]
  | [] => 0
  | b :: l => (if b then X ^ l.length else 0) + ofBits l

theorem ofBits_append (l m : List Bool) :
    ofBits (l ++ m) = X ^ m.length * ofBits l + ofBits m := by
  induction l with
  | nil => simp [ofBits]
  | cons b l ih =>
      rw [List.cons_append, ofBits, ofBits, ih, List.length_append]
      cases b
      · simp
      · simp only [if_true]
        ring

theorem ofBits_replicate_false (n : Nat) : ofBits (List.replicate n false) = 0 := by
  induction n with
  | zero => rfl
  | succ n ih => simp [List.replicate_succ, ofBits, ih]

/-- Exclusive or adds. -/
theorem ofBits_xor (l : List Nat) (f g : Nat → Bool) :
    ofBits (l.map fun k => f k ^^ g k) = ofBits (l.map f) + ofBits (l.map g) := by
  induction l with
  | nil => simp [ofBits]
  | cons k l ih =>
      simp only [List.map_cons, ofBits, ih, List.length_map]
      cases f k <;> cases g k
      · simp
      · simp only [Bool.false_bne, if_true, Bool.false_eq_true, if_false]
        ring
      · simp only [Bool.bne_false, if_true, Bool.false_eq_true, if_false]
        ring
      · simp only [bne_self_eq_false, Bool.false_eq_true, if_false, if_true]
        linear_combination -CharTwo.add_self_eq_zero (X ^ l.length : (ZMod 2)[X])

theorem degree_ofBits_lt (l : List Bool) : (ofBits l).degree < l.length := by
  induction l with
  | nil => simp [ofBits]
  | cons b l ih =>
      have hlt : (l.length : WithBot Nat) < ((l.length + 1 : Nat) : WithBot Nat) := by
        exact_mod_cast Nat.lt_succ_self _
      rw [ofBits, List.length_cons]
      apply lt_of_le_of_lt (degree_add_le _ _)
      apply max_lt _ (ih.trans hlt)
      cases b
      · simp
      · simp only [if_true, degree_X_pow]
        exact hlt

/-- Only zeros give the zero polynomial. -/
theorem eq_false_of_ofBits_eq_zero {l : List Bool} (h : ofBits l = 0) : ∀ b ∈ l, b = false := by
  induction l with
  | nil => simp
  | cons b l ih =>
      have hdeg := degree_ofBits_lt l
      cases b with
      | false =>
          simp only [ofBits, Bool.false_eq_true, if_false, zero_add] at h
          simpa using ih h
      | true =>
          -- the leading power cannot cancel
          simp only [ofBits, if_true] at h
          have hX : (X ^ l.length : (ZMod 2)[X]) = ofBits l := by
            linear_combination h - CharTwo.add_self_eq_zero (ofBits l)
          rw [← hX, degree_X_pow] at hdeg
          exact absurd hdeg (lt_irrefl _)

/-! ## §2. Registers. -/

variable {w : Nat}

/-- The `n` low bits of a register, lowest first. -/
def bits (n : Nat) (r : BitVec w) : List Bool := (List.range n).map r.getLsbD

@[simp] theorem length_bits (n : Nat) (r : BitVec w) : (bits n r).length = n := by simp [bits]

/-- The polynomial of a register. -/
noncomputable def poly (r : BitVec w) : (ZMod 2)[X] := ofBits (bits w r)

theorem bits_xor (n : Nat) (r s : BitVec w) :
    ofBits (bits n (r ^^^ s)) = ofBits (bits n r) + ofBits (bits n s) := by
  have h : bits n (r ^^^ s) = (List.range n).map fun k => r.getLsbD k ^^ s.getLsbD k := by
    apply List.map_congr_left
    intro k _
    exact BitVec.getLsbD_xor
  rw [h, ofBits_xor]
  rfl

theorem poly_xor (r s : BitVec w) : poly (r ^^^ s) = poly r + poly s := bits_xor w r s

theorem poly_zero : poly (0 : BitVec w) = 0 := by
  have h : bits w (0 : BitVec w) = List.replicate w false := by
    rw [List.eq_replicate_iff]
    simp [bits]
  rw [poly, h, ofBits_replicate_false]

/-- The polynomial determines the register. -/
theorem eq_zero_of_poly_eq_zero {r : BitVec w} (h : poly r = 0) : r = 0 := by
  apply BitVec.eq_of_getLsbD_eq
  intro k hk
  rw [eq_false_of_ofBits_eq_zero h (r.getLsbD k) (List.mem_map_of_mem (List.mem_range.2 hk))]
  simp

/-- Shifting `n` places multiplies by `Xⁿ`, up to the bits shifted out. -/
theorem poly_shift {n : Nat} (hn : n ≤ w) (r : BitVec w) :
    poly (r >>> n) = X ^ n * poly r + X ^ w * ofBits (bits n r) := by
  obtain ⟨m, rfl⟩ := Nat.exists_eq_add_of_le hn
  have hsplit : bits (n + m) r = bits n r ++ (List.range m).map (fun k => r.getLsbD (n + k)) := by
    unfold bits
    rw [List.range_add, List.map_append, List.map_map]
    rfl
  have hshift : bits (n + m) (r >>> n)
      = (List.range m).map (fun k => r.getLsbD (n + k)) ++ List.replicate n false := by
    have hrange : List.range (n + m) = List.range m ++ (List.range n).map (m + ·) := by
      rw [Nat.add_comm, List.range_add]
    unfold bits
    rw [hrange, List.map_append, List.map_map]
    congr 1
    · simp
    · rw [List.eq_replicate_iff]
      simp only [List.length_map, List.length_range, List.mem_map, true_and]
      rintro b ⟨k, -, rfl⟩
      simp only [Function.comp_apply, BitVec.getLsbD_ushiftRight]
      exact BitVec.getLsbD_of_ge _ _ (by omega)
  unfold poly
  rw [hsplit, hshift, ofBits_append, ofBits_append, ofBits_replicate_false, List.length_replicate,
    List.length_map, List.length_range]
  linear_combination -CharTwo.add_self_eq_zero (X ^ (n + m) * ofBits (bits n r))

/-! ## §3. The generator and one shift. -/

/-- The generator whose low coefficients are the register `g`. -/
noncomputable def gen (g : BitVec w) : (ZMod 2)[X] := X ^ w + poly g

/-- One shift of the register. -/
def bitStep (g r : BitVec w) : BitVec w := if r.getLsbD 0 then (r >>> 1) ^^^ g else r >>> 1

theorem degree_poly_lt (r : BitVec w) : (poly r).degree < w := by
  have h := degree_ofBits_lt (bits w r)
  rwa [length_bits] at h

theorem degree_gen (g : BitVec w) : (gen g).degree = w := by
  rw [gen, degree_add_eq_left_of_degree_lt, degree_X_pow]
  rw [degree_X_pow]
  exact degree_poly_lt g

/-- The constant term of the generator is the top bit of the register. -/
theorem coeff_zero_gen (g : BitVec (w + 1)) (hg : g.getLsbD w = true) : (gen g).coeff 0 = 1 := by
  have hbits : bits (w + 1) g = bits w g ++ [true] := by
    unfold bits
    rw [List.range_succ, List.map_append, List.map_singleton, hg]
  rw [gen, poly, hbits, ofBits_append]
  simp [ofBits]

/-- A register is reduced: a multiple of the generator is 0. -/
theorem eq_zero_of_gen_dvd {g r : BitVec w} (h : gen g ∣ poly r) : r = 0 := by
  apply eq_zero_of_poly_eq_zero
  by_contra hne
  have hle := degree_le_of_dvd h hne
  rw [degree_gen] at hle
  exact absurd (degree_poly_lt r) (not_lt.2 hle)

/-- One shift multiplies by `X` modulo the generator. -/
theorem mk_bitStep {g : BitVec w} (hw : 1 ≤ w) (r : BitVec w) :
    AdjoinRoot.mk (gen g) (poly (bitStep g r)) = AdjoinRoot.mk (gen g) (X * poly r) := by
  rw [AdjoinRoot.mk_eq_mk]
  have hshift := poly_shift hw r
  have hbit : ofBits (bits 1 r) = if r.getLsbD 0 then 1 else 0 := by simp [bits, ofBits]
  rw [hbit] at hshift
  unfold bitStep
  by_cases hb : r.getLsbD 0 = true
  · rw [if_pos hb] at hshift
    rw [if_pos hb, poly_xor, hshift]
    exact ⟨1, by unfold gen; ring⟩
  · rw [if_neg hb] at hshift
    rw [if_neg hb, hshift]
    exact ⟨0, by ring⟩

theorem mk_bitStep_iterate {g : BitVec w} (hw : 1 ≤ w) (n : Nat) (r : BitVec w) :
    AdjoinRoot.mk (gen g) (poly ((bitStep g)^[n] r)) = AdjoinRoot.mk (gen g) (X ^ n * poly r) := by
  induction n with
  | zero => simp
  | succ n ih =>
      rw [Function.iterate_succ_apply', mk_bitStep hw, map_mul, ih, ← map_mul, pow_succ']
      ring_nf

/-! ## §4. A symbol at a time, from a table. -/

/-- One symbol of `n` bits through a table. -/
def tableStep {n : Nat} (tab : BitVec n → BitVec w) (r : BitVec w) (b : BitVec n) : BitVec w :=
  tab (r.setWidth n ^^^ b) ^^^ (r >>> n)

/-- The bits of a message, symbol by symbol. -/
def message {n : Nat} (s : List (BitVec n)) : List Bool := s.flatMap (bits n)

section Table
variable {n : Nat} {g : BitVec w} {tab : BitVec n → BitVec w}

theorem length_message (s : List (BitVec n)) : (message s).length = n * s.length := by
  induction s with
  | nil => rfl
  | cons b s ih =>
      simp only [message, List.flatMap_cons, List.length_append, length_bits, List.length_cons] at ih ⊢
      rw [ih, Nat.mul_succ, Nat.add_comm]

/-- The table's word for a symbol is the symbol shifted out of the register. -/
theorem mk_table (hn : n ≤ w) (hw : 1 ≤ w) (htab : ∀ i, tab i = (bitStep g)^[n] (i.setWidth w))
    (i : BitVec n) :
    AdjoinRoot.mk (gen g) (poly (tab i)) = AdjoinRoot.mk (gen g) (X ^ w * ofBits (bits n i)) := by
  obtain ⟨m, rfl⟩ := Nat.exists_eq_add_of_le hn
  have hsplit : bits (n + m) (i.setWidth (n + m)) = bits n i ++ List.replicate m false := by
    unfold bits
    rw [List.range_add, List.map_append, List.map_map]
    congr 1
    · apply List.map_congr_left
      intro k hk
      have := List.mem_range.1 hk
      rw [BitVec.getLsbD_setWidth, decide_eq_true (by omega), Bool.true_and]
    · rw [List.eq_replicate_iff]
      simp only [List.length_map, List.length_range, List.mem_map, true_and]
      rintro b ⟨k, -, rfl⟩
      simp only [Function.comp_apply, BitVec.getLsbD_setWidth]
      rw [BitVec.getLsbD_of_ge i _ (by omega), Bool.and_false]
  rw [htab, mk_bitStep_iterate hw, poly, hsplit, ofBits_append, ofBits_replicate_false,
    List.length_replicate, add_zero, ← mul_assoc, ← pow_add]

/-- One symbol multiplies by `Xⁿ` and adds the symbol above the register. -/
theorem mk_tableStep (hn : n ≤ w) (hw : 1 ≤ w)
    (htab : ∀ i, tab i = (bitStep g)^[n] (i.setWidth w)) (r : BitVec w) (b : BitVec n) :
    AdjoinRoot.mk (gen g) (poly (tableStep tab r b))
      = AdjoinRoot.mk (gen g) (X ^ n * poly r + X ^ w * ofBits (bits n b)) := by
  have hlow : bits n (r.setWidth n) = bits n r := by
    apply List.map_congr_left
    intro k hk
    rw [BitVec.getLsbD_setWidth, decide_eq_true (List.mem_range.1 hk), Bool.true_and]
  unfold tableStep
  rw [poly_xor, map_add, mk_table hn hw htab, poly_shift hn, bits_xor, hlow, ← map_add]
  apply congrArg
  linear_combination CharTwo.add_self_eq_zero (X ^ w * ofBits (bits n r))

/-- **What a message leaves in the register.** -/
theorem mk_foldl (hn : n ≤ w) (hw : 1 ≤ w)
    (htab : ∀ i, tab i = (bitStep g)^[n] (i.setWidth w)) (s : List (BitVec n)) (r : BitVec w) :
    AdjoinRoot.mk (gen g) (poly (s.foldl (tableStep tab) r))
      = AdjoinRoot.mk (gen g) (X ^ (n * s.length) * poly r + X ^ w * ofBits (message s)) := by
  induction s generalizing r with
  | nil => simp [message, ofBits]
  | cons b s ih =>
      have hm : message (b :: s) = bits n b ++ message s := rfl
      -- the rest of the message starts from what the first symbol leaves
      rw [List.foldl_cons, ih, map_add, map_mul, mk_tableStep hn hw htab, ← map_mul, ← map_add]
      apply congrArg
      rw [hm, ofBits_append, length_message, List.length_cons]
      ring

/-! ## §5. Injective, and zero on multiples of the generator. -/

/-- A generator with constant term 1 shares no factor with a power of `X`. -/
theorem dvd_of_dvd_X_pow_mul (h0 : (gen g).coeff 0 = 1) {k : Nat} {p : (ZMod 2)[X]}
    (h : gen g ∣ X ^ k * p) : gen g ∣ p := by
  have hX : ¬ (X : (ZMod 2)[X]) ∣ gen g := by
    rw [X_dvd_iff, h0]
    decide
  have hcop : IsCoprime (gen g) (X ^ k) :=
    ((irreducible_X.coprime_iff_not_dvd.2 hX).symm).pow_right
  exact hcop.dvd_of_dvd_mul_left h

/-- **The register a message leaves determines the register it started from.** -/
theorem foldl_injective (hn : n ≤ w) (hw : 1 ≤ w)
    (htab : ∀ i, tab i = (bitStep g)^[n] (i.setWidth w)) (h0 : (gen g).coeff 0 = 1)
    (s : List (BitVec n)) {r r' : BitVec w}
    (h : s.foldl (tableStep tab) r = s.foldl (tableStep tab) r') : r = r' := by
  have hmk := (mk_foldl hn hw htab s r).symm.trans ((congrArg _ (congrArg poly h)).trans
    (mk_foldl hn hw htab s r'))
  rw [AdjoinRoot.mk_eq_mk] at hmk
  have hdvd : gen g ∣ X ^ (n * s.length) * poly (r ^^^ r') := by
    rw [poly_xor]
    convert hmk using 1
    linear_combination CharTwo.add_self_eq_zero (X ^ (n * s.length) * poly r')
  have hz := eq_zero_of_gen_dvd (dvd_of_dvd_X_pow_mul h0 hdvd)
  exact BitVec.xor_eq_zero_iff.1 hz

/-- **From 0, a message leaves 0 exactly when its polynomial is a multiple of
the generator.** -/
theorem foldl_eq_zero_iff (hn : n ≤ w) (hw : 1 ≤ w)
    (htab : ∀ i, tab i = (bitStep g)^[n] (i.setWidth w)) (h0 : (gen g).coeff 0 = 1)
    (s : List (BitVec n)) :
    s.foldl (tableStep tab) 0 = 0 ↔ gen g ∣ ofBits (message s) := by
  have hmk := mk_foldl hn hw htab s 0
  rw [poly_zero, mul_zero, zero_add] at hmk
  constructor
  · intro hz
    rw [hz, poly_zero, map_zero, eq_comm, AdjoinRoot.mk_eq_zero] at hmk
    exact dvd_of_dvd_X_pow_mul h0 hmk
  · intro hdvd
    rw [AdjoinRoot.mk_eq_zero.2 (hdvd.mul_left _), AdjoinRoot.mk_eq_zero] at hmk
    exact eq_zero_of_gen_dvd hmk

end Table

end RdmaPaxos.Crc
