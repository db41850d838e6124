/-
  RdmaPaxos.Election.SidFields
  ────────────────────────────
  **THE FIELDS OF A SID, AND ITS ORDER.**

  `Election.Sid` has the macros of `include/rdma/dare_server.h` on numbers.  Here
  they are as C evaluates them: on `uint64_t`s, with constants that are `int`s and
  are converted when they meet one.  `~(1 << 8)` is negative, and its sign fills the
  upper half of the word:

      1 << 8         0000 0100      ─▶   0000 0000 0000 0100
      ~(1 << 8)      FFFF FEFF      ─▶   FFFF FFFF FFFF FEFF

  §1  the macros on words;
  §2  they are the ones on numbers;
  §3  a word is its three fields;
  §4  the theorem: every setter changes its own field, and the order of the words is
      the lexicographic one of (TERM, L, IDX).
-/
import RdmaPaxos.Election.Sid
import RdmaPaxos.Lib.BitSet
import Mathlib.Data.Prod.Lex
import Mathlib.Data.UInt
import Mathlib.Order.BooleanAlgebra.Basic

namespace RdmaPaxos.Election.Word

open RdmaPaxos.BitSet (ofInt)

/-! ## §1. The macros. -/

/-- `SID_GET_IDX`. -/
def sidGetIdx (sid : UInt64) : UInt8 := (sid &&& ofInt 0xFF).toUInt8

/-- `SID_SET_IDX`. -/
def sidSetIdx (sid idx : UInt64) : UInt64 := idx ||| ((sid >>> 8) <<< 8)

/-- `SID_GET_L`. -/
def sidGetL (sid : UInt64) : UInt64 := sid &&& ofInt ((1 : Int32) <<< 8)

/-- `SID_SET_L`. -/
def sidSetL (sid : UInt64) : UInt64 := sid ||| ofInt ((1 : Int32) <<< 8)

/-- `SID_UNSET_L`. -/
def sidUnsetL (sid : UInt64) : UInt64 := sid &&& ofInt (~~~((1 : Int32) <<< 8))

/-- `SID_GET_TERM`. -/
def sidGetTerm (sid : UInt64) : UInt64 := sid >>> 9

/-- `SID_SET_TERM`. -/
def sidSetTerm (sid term : UInt64) : UInt64 := (term <<< 9) ||| (sid &&& ofInt 0x1FF)

/-! ## §2. Words and numbers. -/

section Numbers
variable (sid : UInt64)

/-- The index, as the model of the election reads it. -/
theorem toNat_sidGetIdx : (sidGetIdx sid).toNat = Election.sidGetIdx sid.toNat := by
  have hmask : (ofInt 0xFF).toNat = 0xFF := by decide
  unfold sidGetIdx
  rw [UInt64.toNat_toUInt8, UInt64.toNat_and, hmask]
  show Election.sidGetIdx sid.toNat % 256 = _
  rw [sidGetIdx_eq, Nat.mod_mod]

/-- The index is set, as in that model. -/
theorem toNat_sidSetIdx (idx : UInt64) :
    (sidSetIdx sid idx).toNat = Election.sidSetIdx sid.toNat idx.toNat := by
  have hlt := sid.toNat_lt
  have hkeep : sid.toNat >>> 8 <<< 8 % 2 ^ 64 = sid.toNat >>> 8 <<< 8 := by
    rw [Nat.shiftRight_eq_div_pow, Nat.shiftLeft_eq]
    omega
  unfold sidSetIdx Election.sidSetIdx
  rw [UInt64.toNat_or, UInt64.toNat_shiftLeft, UInt64.toNat_shiftRight]
  show idx.toNat ||| sid.toNat >>> 8 <<< 8 % 2 ^ 64 = _
  rw [hkeep]

/-- The leader bit. -/
theorem sidGetL_ne_zero : sidGetL sid ≠ 0 ↔ Election.sidGetL sid.toNat = true := by
  have hmask : (ofInt ((1 : Int32) <<< 8)).toNat = 1 <<< 8 := by decide
  unfold sidGetL Election.sidGetL
  rw [Ne, ← UInt64.toNat_inj, UInt64.toNat_and, hmask, bne_iff_ne]
  rfl

/-- The leader bit is set. -/
theorem toNat_sidSetL : (sidSetL sid).toNat = Election.sidSetL sid.toNat := by
  have hmask : (ofInt ((1 : Int32) <<< 8)).toNat = 1 <<< 8 := by decide
  unfold sidSetL Election.sidSetL
  rw [UInt64.toNat_or, hmask]

/-- The leader bit is cleared. -/
theorem toNat_sidUnsetL : (sidUnsetL sid).toNat = Election.sidUnsetL sid.toNat := by
  have hmask : (ofInt (~~~((1 : Int32) <<< 8))).toNat = 2 ^ 64 - 1 - 1 <<< 8 := by decide
  unfold sidUnsetL Election.sidUnsetL
  rw [UInt64.toNat_and, hmask]

/-- The term. -/
theorem toNat_sidGetTerm : (sidGetTerm sid).toNat = Election.sidGetTerm sid.toNat :=
  UInt64.toNat_shiftRight sid 9

/-- The term is set. -/
theorem toNat_sidSetTerm (term : UInt64) :
    (sidSetTerm sid term).toNat = Election.sidSetTerm sid.toNat term.toNat := by
  have hmask : (ofInt 0x1FF).toNat = 0x1FF := by decide
  unfold sidSetTerm Election.sidSetTerm
  rw [UInt64.toNat_or, UInt64.toNat_and, UInt64.toNat_shiftLeft, hmask]
  rfl

end Numbers

/-! ## §3. The three fields. -/

/-- [TERM|L|IDX]. -/
structure Fields where
  term : UInt64
  l : Bool
  idx : UInt8
  deriving DecidableEq

/-- What the three getters return. -/
def fields (sid : UInt64) : Fields := ⟨sidGetTerm sid, sidGetL sid != 0, sidGetIdx sid⟩

/-- The three setters, one after the other. -/
def setFields (sid : UInt64) (f : Fields) : UInt64 :=
  let sid := sidSetTerm sid f.term
  let sid := if f.l then sidSetL sid else sidUnsetL sid
  sidSetIdx sid f.idx.toUInt64

/-- The fields in the order of their significance. -/
def Fields.lex (f : Fields) : UInt64 ×ₗ Bool ×ₗ UInt8 := toLex (f.term, toLex (f.l, f.idx))

section Fields
variable {sid sid' : UInt64} {f : Fields}

theorem toNat_inj {a b : Bool} : a.toNat = b.toNat ↔ a = b := by
  revert a b
  decide

theorem lt_iff_toNat_lt {a b : Bool} : a < b ↔ a.toNat < b.toNat := by
  revert a b
  decide

/-- **A SID as a number.** -/
theorem toNat_eq (sid : UInt64) : sid.toNat
    = 512 * (fields sid).term.toNat + 256 * (fields sid).l.toNat + (fields sid).idx.toNat := by
  have hterm : (fields sid).term.toNat = sid.toNat / 512 :=
    (toNat_sidGetTerm sid).trans (sidGetTerm_eq _)
  have hidx : (fields sid).idx.toNat = sid.toNat % 256 :=
    (toNat_sidGetIdx sid).trans (sidGetIdx_eq _)
  have hl : (fields sid).l = true ↔ 256 ≤ sid.toNat % 512 := by
    rw [← sidGetL_iff, ← sidGetL_ne_zero]
    exact bne_iff_ne
  rw [hterm, hidx]
  cases hflag : (fields sid).l with
  | true =>
      have := hl.mp hflag
      rw [Bool.toNat_true]
      omega
  | false =>
      have : ¬ 256 ≤ sid.toNat % 512 := fun h => by rw [hl.mpr h] at hflag; cases hflag
      rw [Bool.toNat_false]
      omega

theorem term_lt (sid : UInt64) : (fields sid).term.toNat < 2 ^ 55 := by
  have hsid := sid.toNat_lt
  have heq := toNat_eq sid
  omega

/-- The number determines the fields. -/
theorem fields_eq (hsid : sid.toNat = 512 * f.term.toNat + 256 * f.l.toNat + f.idx.toNat) :
    fields sid = f := by
  have heq := toNat_eq sid
  have hidx := (fields sid).idx.toNat_lt
  have hidx' := f.idx.toNat_lt
  have hl := (fields sid).l.toNat_lt
  have hl' := f.l.toNat_lt
  have hterm : (fields sid).term = f.term := UInt64.toNat_inj.mp (by omega)
  have hflag : (fields sid).l = f.l := toNat_inj.mp (by omega)
  have hindex : (fields sid).idx = f.idx := UInt8.toNat_inj.mp (by omega)
  calc fields sid = ⟨(fields sid).term, (fields sid).l, (fields sid).idx⟩ := rfl
    _ = f := by rw [hterm, hflag, hindex]

/-- A SID is its three fields. -/
theorem fields_injective (h : fields sid = fields sid') : sid = sid' := by
  refine UInt64.toNat_inj.mp ?_
  rw [toNat_eq sid, toNat_eq sid', h]

/-! ### The setters. -/

/-- Setting the index leaves the other fields alone. -/
theorem fields_sidSetIdx (sid : UInt64) {idx : UInt64} (hidx : idx < 256) :
    fields (sidSetIdx sid idx) = { fields sid with idx := idx.toUInt8 } := by
  have hlt : idx.toNat < 256 := UInt64.lt_iff_toNat_lt.mp hidx
  have heq := toNat_eq sid
  have hold := (fields sid).idx.toNat_lt
  have hl := (fields sid).l.toNat_lt
  refine fields_eq ?_
  rw [toNat_sidSetIdx, sidSetIdx_eq _ hlt, UInt64.toNat_toUInt8]
  dsimp only
  omega

/-- Setting the leader bit leaves the other fields alone. -/
theorem fields_sidSetL (sid : UInt64) : fields (sidSetL sid) = { fields sid with l := true } := by
  have heq := toNat_eq sid
  have hidx := (fields sid).idx.toNat_lt
  refine fields_eq ?_
  rw [toNat_sidSetL, sidSetL_eq]
  cases hl : (fields sid).l <;> rw [hl] at heq <;>
    simp only [Bool.toNat_true, Bool.toNat_false] at heq ⊢ <;> split <;> omega

/-- Clearing it does, too. -/
theorem fields_sidUnsetL (sid : UInt64) :
    fields (sidUnsetL sid) = { fields sid with l := false } := by
  have heq := toNat_eq sid
  have hidx := (fields sid).idx.toNat_lt
  have hl := (fields sid).l.toNat_lt
  refine fields_eq ?_
  rw [toNat_sidUnsetL, sidUnsetL_eq sid.toNat_lt]
  dsimp only [Bool.toNat_false]
  omega

/-- Setting the term leaves the other fields alone. -/
theorem fields_sidSetTerm (sid : UInt64) {term : UInt64} (hterm : term < 2 ^ 55) :
    fields (sidSetTerm sid term) = { fields sid with term := term } := by
  have hlt : term.toNat < 2 ^ 55 := UInt64.lt_iff_toNat_lt.mp hterm
  have heq := toNat_eq sid
  have hidx := (fields sid).idx.toNat_lt
  have hl := (fields sid).l.toNat_lt
  refine fields_eq ?_
  rw [toNat_sidSetTerm, sidSetTerm_eq _ hlt]
  dsimp only
  omega

/-- All fields are set, whatever they were. -/
theorem fields_setFields (sid : UInt64) (hterm : f.term < 2 ^ 55) : fields (setFields sid f) = f := by
  have hidx : f.idx.toUInt64 < 256 := by
    rw [UInt64.lt_iff_toNat_lt, UInt8.toNat_toUInt64]
    exact f.idx.toNat_lt
  unfold setFields
  dsimp only
  rw [fields_sidSetIdx _ hidx, UInt8.toUInt8_toUInt64]
  cases hl : f.l with
  | true =>
      rw [if_pos rfl, fields_sidSetL, fields_sidSetTerm _ hterm]
      cases f
      cases hl
      rfl
  | false =>
      rw [if_neg (by decide), fields_sidUnsetL, fields_sidSetTerm _ hterm]
      cases f
      cases hl
      rfl

/-! ### The order. -/

/-- SIDs are ordered by term, leader bit and index. -/
theorem lt_iff_lex : sid < sid' ↔ (fields sid).lex < (fields sid').lex := by
  have heq := toNat_eq sid
  have heq' := toNat_eq sid'
  have hidx := (fields sid).idx.toNat_lt
  have hidx' := (fields sid').idx.toNat_lt
  have hl := (fields sid).l.toNat_lt
  have hl' := (fields sid').l.toNat_lt
  unfold Fields.lex
  rw [Prod.Lex.toLex_lt_toLex, Prod.Lex.toLex_lt_toLex, lt_iff_toNat_lt, UInt64.lt_iff_toNat_lt,
    UInt64.lt_iff_toNat_lt, UInt8.lt_iff_toNat_lt, ← UInt64.toNat_inj, ← toNat_inj]
  dsimp only
  omega

end Fields

/-! ## §4. The theorem. -/

/-- **SID field algebra.**  Every setter changes its own field and no other, for all
words, all indices below 256 and all terms below 2⁵⁵; a word is what its three fields
are set to, on top of any other word; words compare as their fields do.  So a vote
[t|1|v] is above every candidate [t|0|w] of its term, and a later term is above both. -/
theorem sid_field_algebra :
    (∀ sid idx, idx < 256 → fields (sidSetIdx sid idx) = { fields sid with idx := idx.toUInt8 })
    ∧ (∀ sid, fields (sidSetL sid) = { fields sid with l := true })
    ∧ (∀ sid, fields (sidUnsetL sid) = { fields sid with l := false })
    ∧ (∀ sid term, term < 2 ^ 55 → fields (sidSetTerm sid term) = { fields sid with term := term })
    ∧ (∀ sid old, setFields old (fields sid) = sid)
    ∧ (∀ sid sid', sid < sid' ↔ (fields sid).lex < (fields sid').lex)
    ∧ (∀ old t v w, t < 2 ^ 55 → setFields old ⟨t, false, w⟩ < setFields old ⟨t, true, v⟩)
    ∧ ∀ old t t' l l' v w, t < t' → t' < 2 ^ 55 →
        setFields old ⟨t, l, v⟩ < setFields old ⟨t', l', w⟩ := by
  refine ⟨fun sid idx hidx => fields_sidSetIdx sid hidx, fields_sidSetL, fields_sidUnsetL,
    fun sid term hterm => fields_sidSetTerm sid hterm, fun sid old => ?_, fun sid sid' => lt_iff_lex,
    fun old t v w ht => ?_, fun old t t' l l' v w hlt ht' => ?_⟩
  · have hterm : (fields sid).term < 2 ^ 55 := UInt64.lt_iff_toNat_lt.mpr (term_lt sid)
    exact fields_injective (fields_setFields old hterm)
  · rw [lt_iff_lex, fields_setFields old ht, fields_setFields old ht]
    unfold Fields.lex
    rw [Prod.Lex.toLex_lt_toLex, Prod.Lex.toLex_lt_toLex]
    exact .inr ⟨rfl, .inl Bool.false_lt_true⟩
  · rw [lt_iff_lex, fields_setFields old (UInt64.lt_trans hlt ht'), fields_setFields old ht']
    unfold Fields.lex
    rw [Prod.Lex.toLex_lt_toLex]
    exact .inl hlt

/-- The candidate [1|0|2] and a vote for server 1 in term 1. -/
theorem sid_field_algebra_termOne :
    setFields 0 ⟨1, false, 2⟩ = 514 ∧ setFields 0 ⟨1, true, 1⟩ = 769
      ∧ setFields 0 ⟨1, false, 2⟩ < setFields 0 ⟨1, true, 1⟩ :=
  ⟨by decide +kernel, by decide +kernel, sid_field_algebra.2.2.2.2.2.2.1 0 1 1 2 (by decide)⟩

end RdmaPaxos.Election.Word
