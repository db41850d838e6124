/-
  RdmaPaxos.ViewStamp
  ───────────────────
  **VIEW STAMPS AND RECORD NUMBERS** (`util/common-structure.c`).

  A view stamp is a pair of `uint32_t`s.  `vstol` packs it into the 64-bit
  record number under which a request is stored, `viewStampComp` compares two
  of them.  What the consensus proofs need: inside view 1 both are the request
  number, shifted by a constant.
-/
import Mathlib.Tactic.Ring

namespace RdmaPaxos

/-- `view_stamp`. -/
structure ViewStamp where
  viewId : UInt32
  reqId : UInt32
  deriving Repr, DecidableEq

/-- `view_stamp_comp`: the sign of the comparison. -/
def viewStampComp (op1 op2 : ViewStamp) : Int :=
  if op1.viewId < op2.viewId then -1
  else if op1.viewId > op2.viewId then 1
  else if op1.reqId > op2.reqId then 1
  else if op1.reqId < op2.reqId then -1
  else 0

/-- `vstol`: view stamp to long. -/
def vstol (vs : ViewStamp) : Nat := vs.reqId.toNat + vs.viewId.toNat * 2 ^ 32

/-- `vstol (1, 0)`, the record number before the first one of view 1. -/
def viewBase : Nat := 2 ^ 32

/-- The stamp the `id`-th request of view 1 is given, counting from 0. -/
def stampOf (id : Nat) : ViewStamp := ⟨1, UInt32.ofNat (id + 1)⟩

/-- The request number of request `id`. -/
theorem stampOf_reqId {id : Nat} (h : id + 1 < 2 ^ 32) : (stampOf id).reqId.toNat = id + 1 :=
  UInt32.toNat_ofNat_of_lt' h

/-- In the first view, the number is that of the request above a base. -/
theorem vstol_viewOne (r : UInt32) : vstol ⟨1, r⟩ = viewBase + r.toNat := by
  show r.toNat + 1 * 2 ^ 32 = 2 ^ 32 + r.toNat
  omega

/-- The number of request `id`. -/
theorem vstol_stampOf {id : Nat} (h : id + 1 < 2 ^ 32) : vstol (stampOf id) = viewBase + (id + 1) := by
  unfold stampOf
  rw [vstol_viewOne, UInt32.toNat_ofNat_of_lt' h]

/-- Different requests have different numbers. -/
theorem vstol_stampOf_inj {i j : Nat} (hi : i + 1 < 2 ^ 32) (hj : j + 1 < 2 ^ 32)
    (h : vstol (stampOf i) = vstol (stampOf j)) : i = j := by
  rw [vstol_stampOf hi, vstol_stampOf hj] at h
  omega

/-- In one view, the request numbers are compared. -/
theorem viewStampComp_viewOne (r r' : UInt32) :
    0 < viewStampComp ⟨1, r⟩ ⟨1, r'⟩ ↔ r'.toNat < r.toNat := by
  have h1 : ¬ (1 : UInt32) < 1 := by decide
  simp only [viewStampComp, gt_iff_lt, h1, if_false, UInt32.lt_iff_toNat_lt]
  split_ifs <;> omega

/-! ### The counter of a view. -/

theorem ofNat_succ (m : Nat) : UInt32.ofNat m + 1 = UInt32.ofNat (m + 1) := by
  rw [UInt32.ofNat_add]
  rfl

theorem toNat_succ {v : UInt32} (h : v.toNat + 1 < 2 ^ 32) : (v + 1).toNat = v.toNat + 1 := by
  rw [UInt32.toNat_add, show (1 : UInt32).toNat = 1 from rfl]
  omega

/-- The spin test of a request, on the stamp it was given. -/
theorem le_of_not_spinning {id : Nat} {committed : UInt32} (hid : id + 1 < 2 ^ 32)
    (hcommitted : committed.toNat + 1 < 2 ^ 32) (htest : ¬ (stampOf id).reqId > committed + 1) :
    id ≤ committed.toNat := by
  rw [gt_iff_lt, UInt32.lt_iff_toNat_lt, stampOf_reqId hid, toNat_succ hcommitted] at htest
  omega

end RdmaPaxos
