/-
  RdmaPaxos.Consensus.RecordNumber
  ────────────────────────────────
  **RECORD NUMBERS AS C COMPUTES THEM, AND THE LOOP OVER THEM**
  (`vstol` and `ltovs` in `util/common-structure.c`, lines 347–356 of
  `handle_accept_req`).

  `view_stamp_comp` decides whether a follower applies anything, the packed record
  numbers decide what:

      stamps      a  <  v₁ < v₂ < … < b          (view_stamp_comp)
                  │     │    │        │
      vstol       n    n+1  n+2  …    m          (uint64_t)

  The counter of the loop is a `uint64_t` as well, so the loop ends for every `b` but
  the largest stamp, which is 2⁶⁴ - 1.

  §1  the functions on words;
  §2  both directions, and the order;
  §3  the loop;
  §4  the theorem;
  §5  the loop is what the replica thread of the group runs.
-/
import RdmaPaxos.Consensus.Steps
import RdmaPaxos.Lib.Run
import Mathlib.Data.Int.Order.Basic

namespace RdmaPaxos.Word

open RdmaPaxos.Run

/-! ## §1. The functions. -/

/-- `vstol`. -/
def vstol (vs : ViewStamp) : UInt64 :=
  let result := vs.reqId.toUInt64 &&& 0xFFFFFFFF
  let temp := vs.viewId.toUInt64 &&& 0xFFFFFFFF
  result + (temp <<< 32)

/-- `ltovs`. -/
def ltovs (recordNo : UInt64) : ViewStamp :=
  let temp := recordNo &&& 0x00000000FFFFFFFF
  { reqId := temp.toUInt32, viewId := ((recordNo >>> 32) &&& 0x00000000FFFFFFFF).toUInt32 }

/-- The largest view stamp. -/
def largest : ViewStamp := ⟨0xFFFFFFFF, 0xFFFFFFFF⟩

/-! ## §2. Both directions, and the order. -/

/-- The lower half of a number. -/
theorem and_low (x : Nat) : x &&& 0xFFFFFFFF = x % 2 ^ 32 := Nat.and_two_pow_sub_one_eq_mod x 32

/-- The C function on 64 bits computes the model's number. -/
theorem toNat_vstol (vs : ViewStamp) : (vstol vs).toNat = RdmaPaxos.vstol vs := by
  have hreq := vs.reqId.toNat_lt
  have hview := vs.viewId.toNat_lt
  unfold vstol RdmaPaxos.vstol
  dsimp only
  rw [UInt64.toNat_add, UInt64.toNat_shiftLeft, UInt64.toNat_and, UInt64.toNat_and,
    UInt32.toNat_toUInt64, UInt32.toNat_toUInt64]
  show ((_ &&& 0xFFFFFFFF) + (_ &&& 0xFFFFFFFF) <<< 32 % 2 ^ 64) % 2 ^ 64 = _
  rw [and_low, and_low, Nat.shiftLeft_eq]
  omega

/-- The request number is the lower half. -/
theorem ltovs_reqId (n : UInt64) : (ltovs n).reqId.toNat = n.toNat % 2 ^ 32 := by
  unfold ltovs
  dsimp only
  rw [UInt64.toNat_toUInt32, UInt64.toNat_and]
  show (_ &&& 0xFFFFFFFF) % 2 ^ 32 = _
  rw [and_low, Nat.mod_mod]

/-- The view is the upper half. -/
theorem ltovs_viewId (n : UInt64) : (ltovs n).viewId.toNat = n.toNat / 2 ^ 32 := by
  have hlt := n.toNat_lt
  unfold ltovs
  dsimp only
  rw [UInt64.toNat_toUInt32, UInt64.toNat_and, UInt64.toNat_shiftRight]
  show (_ >>> 32 &&& 0xFFFFFFFF) % 2 ^ 32 = _
  rw [and_low, Nat.shiftRight_eq_div_pow]
  omega

/-- A stamp is read back from its number. -/
theorem ltovs_vstol (a : ViewStamp) : ltovs (vstol a) = a := by
  have hreq := a.reqId.toNat_lt
  have hview := a.viewId.toNat_lt
  have hview' : (ltovs (vstol a)).viewId = a.viewId := by
    rw [← UInt32.toNat_inj, ltovs_viewId, toNat_vstol, RdmaPaxos.vstol]
    omega
  have hreq' : (ltovs (vstol a)).reqId = a.reqId := by
    rw [← UInt32.toNat_inj, ltovs_reqId, toNat_vstol, RdmaPaxos.vstol]
    omega
  calc ltovs (vstol a) = ⟨(ltovs (vstol a)).viewId, (ltovs (vstol a)).reqId⟩ := rfl
    _ = a := by rw [hview', hreq']

/-- A number is read back from its stamp. -/
theorem vstol_ltovs (n : UInt64) : vstol (ltovs n) = n := by
  rw [← UInt64.toNat_inj, toNat_vstol, RdmaPaxos.vstol, ltovs_reqId, ltovs_viewId]
  omega

/-- The comparison, field by field, is that of the record numbers. -/
theorem viewStampComp_eq (a b : ViewStamp) :
    viewStampComp a b = ((vstol a).toNat - (vstol b).toNat : Int).sign := by
  have ha := a.reqId.toNat_lt
  have hb := b.reqId.toNat_lt
  rw [toNat_vstol, toNat_vstol]
  unfold viewStampComp RdmaPaxos.vstol
  simp only [gt_iff_lt, UInt32.lt_iff_toNat_lt]
  split_ifs
  · exact (Int.sign_eq_neg_one_of_neg (by omega)).symm
  · exact (Int.sign_eq_one_of_pos (by omega)).symm
  · exact (Int.sign_eq_one_of_pos (by omega)).symm
  · exact (Int.sign_eq_neg_one_of_neg (by omega)).symm
  · exact (Int.sign_eq_zero_iff_zero.mpr (by omega)).symm

/-- `view_stamp_comp` compares the numbers. -/
theorem viewStampComp_pos {a b : ViewStamp} :
    0 < viewStampComp a b ↔ (vstol b).toNat < (vstol a).toNat := by
  rw [viewStampComp_eq, Int.sign_pos_iff]
  omega

theorem viewStampComp_neg {a b : ViewStamp} :
    viewStampComp a b < 0 ↔ (vstol a).toNat < (vstol b).toNat := by
  rw [viewStampComp_eq, Int.sign_neg_iff]
  omega

/-- Every other stamp is below the largest one, with room for the counter. -/
theorem vstol_lt_of_ne_largest {b : ViewStamp} (hb : b ≠ largest) :
    (vstol b).toNat + 1 < 2 ^ 64 := by
  have hlt := (vstol b).toNat_lt
  have hmax : (vstol largest).toNat = 2 ^ 64 - 1 := by decide
  have hne : (vstol b).toNat ≠ (vstol largest).toNat := fun heq => hb <| by
    rw [← ltovs_vstol b, ← ltovs_vstol largest, UInt64.toNat_inj.mp heq]
  omega

/-! ## §3. The loop. -/

/-- `for (index = …; index <= end; index++)`, for at most `fuel` tests of its condition:
the indices passed to `ucb`, if the loop has ended. -/
def applyLoop (last : UInt64) : Nat → UInt64 → Option (List UInt64)
  | 0, _ => none
  | fuel + 1, index =>
      if index ≤ last then (applyLoop last fuel (index + 1)).map (index :: ·) else some []

/-- The numbers from `index` to `last`. -/
def upTo (index last : Nat) : List Nat := List.range' index (last + 1 - index)

/-- The numbers of the loop. -/
theorem mem_upTo {index last n : Nat} : n ∈ upTo index last ↔ index ≤ n ∧ n ≤ last := by
  unfold upTo
  rw [List.mem_range'_1]
  omega

theorem toNat_succ {x : UInt64} (h : x.toNat + 1 < 2 ^ 64) : (x + 1).toNat = x.toNat + 1 :=
  (UInt64.toNat_add x 1).trans (Nat.mod_eq_of_lt h)

/-- The loop goes through them, if its counter can pass the last one. -/
theorem applyLoop_eq {last : UInt64} (hlast : last.toNat + 1 < 2 ^ 64) {fuel : Nat} {index : UInt64}
    (hle : index.toNat ≤ last.toNat + 1) (hfuel : last.toNat + 1 - index.toNat < fuel) :
    applyLoop last fuel index = some ((upTo index.toNat last.toNat).map UInt64.ofNat) := by
  induction fuel generalizing index with
  | zero => omega
  | succ fuel ih =>
      unfold applyLoop
      by_cases hin : index ≤ last
      · have hin' := UInt64.le_iff_toNat_le.mp hin
        have hnext := toNat_succ (x := index) (by omega)
        have hcons : upTo index.toNat last.toNat
            = index.toNat :: upTo (index.toNat + 1) last.toNat := by
          unfold upTo
          rw [show last.toNat + 1 - index.toNat = last.toNat + 1 - (index.toNat + 1) + 1 by omega,
            List.range'_succ]
        rw [if_pos hin, ih (by omega) (by omega), hnext, hcons, List.map_cons, UInt64.ofNat_toNat]
        rfl
      · have hout : last.toNat < index.toNat :=
          Nat.lt_of_not_le fun h => hin (UInt64.le_iff_toNat_le.mpr h)
        rw [if_neg hin, upTo, show last.toNat + 1 - index.toNat = 0 by omega]
        rfl

/-- No counter passes the largest record number: the loop goes on for ever. -/
theorem applyLoop_largest {last : UInt64} (hlast : last.toNat + 1 = 2 ^ 64) (fuel : Nat)
    (index : UInt64) : applyLoop last fuel index = none := by
  induction fuel generalizing index with
  | zero => rfl
  | succ fuel ih =>
      have hin : index ≤ last := by
        have hlt := index.toNat_lt
        rw [UInt64.le_iff_toNat_le]
        omega
      unfold applyLoop
      rw [if_pos hin, ih]
      rfl

/-! ## §4. The theorem. -/

/-- The stamps after `a`, up to `b`. -/
def stampsUpTo (a b : ViewStamp) : List ViewStamp :=
  (upTo ((vstol a).toNat + 1) (vstol b).toNat).map fun n => ltovs (UInt64.ofNat n)

/-- Every number of the loop is that of a stamp. -/
theorem vstol_ltovs_ofNat {a b : ViewStamp} {n : Nat}
    (hn : n ∈ upTo ((vstol a).toNat + 1) (vstol b).toNat) :
    (vstol (ltovs (UInt64.ofNat n))).toNat = n := by
  have hb := (vstol b).toNat_lt
  rw [vstol_ltovs]
  exact UInt64.toNat_ofNat_of_lt' (Nat.lt_of_le_of_lt (mem_upTo.mp hn).2 hb)

/-- The stamps of the loop lie behind the first and up to the second. -/
theorem mem_stampsUpTo {a b v : ViewStamp} :
    v ∈ stampsUpTo a b ↔ 0 < viewStampComp v a ∧ viewStampComp v b ≤ 0 := by
  rw [viewStampComp_pos, ← not_lt, viewStampComp_pos, not_lt]
  constructor
  · intro hv
    obtain ⟨n, hn, rfl⟩ := List.mem_map.mp hv
    rw [vstol_ltovs_ofNat hn]
    exact mem_upTo.mp hn
  · intro hv
    refine List.mem_map.mpr ⟨(vstol v).toNat, mem_upTo.mpr hv, ?_⟩
    rw [UInt64.ofNat_toNat, ltovs_vstol]

/-- They come in order. -/
theorem pairwise_stampsUpTo (a b : ViewStamp) :
    (stampsUpTo a b).Pairwise fun v v' => viewStampComp v v' < 0 := by
  refine List.pairwise_map.mpr ?_
  refine (List.pairwise_lt_range' _).imp_of_mem fun hn hn' hlt => ?_
  rw [viewStampComp_neg, vstol_ltovs_ofNat hn, vstol_ltovs_ofNat hn']
  exact hlt

/-- **View stamps and record numbers.**  `vstol` and `ltovs` undo each other, and
`view_stamp_comp` compares stamps as their record numbers compare.  If a follower whose
commit point is `a` finds an entry that lets it go to `b`, and `b` is not the largest
stamp, the apply loop ends after it has gone through the record numbers of the stamps
after `a` and up to `b`, in strictly increasing order. -/
theorem view_stamps_order_isomorphic :
    (∀ a, ltovs (vstol a) = a)
    ∧ (∀ n, vstol (ltovs n) = n)
    ∧ (∀ a b, (viewStampComp a b).sign = ((vstol a).toNat - (vstol b).toNat : Int).sign)
    ∧ ∀ a b, 0 < viewStampComp b a → b ≠ largest →
        ∃ vs : List ViewStamp,
          (∀ fuel, vs.length < fuel →
            applyLoop (vstol b) fuel (vstol a + 1) = some (vs.map vstol))
          ∧ (∀ v, v ∈ vs ↔ 0 < viewStampComp v a ∧ viewStampComp v b ≤ 0)
          ∧ vs.Pairwise fun v v' => viewStampComp v v' < 0 := by
  refine ⟨ltovs_vstol, vstol_ltovs, fun a b => ?_, fun a b hlt hb => ?_⟩
  · rw [viewStampComp_eq, Int.sign_sign]
  · refine ⟨stampsUpTo a b, fun fuel hfuel => ?_, fun v => mem_stampsUpTo, pairwise_stampsUpTo a b⟩
    rw [viewStampComp_pos] at hlt
    have hmax := (vstol b).toNat_lt
    have hstart := toNat_succ (x := vstol a) (by omega)
    have hlen : (stampsUpTo a b).length = (vstol b).toNat + 1 - ((vstol a).toNat + 1) := by
      unfold stampsUpTo upTo
      rw [List.length_map, List.length_range']
    rw [applyLoop_eq (vstol_lt_of_ne_largest hb) (by omega) (by omega), hstart]
    unfold stampsUpTo
    rw [List.map_map]
    refine congrArg some (List.map_congr_left fun n _ => ?_)
    exact (vstol_ltovs _).symm

/-- From the last stamp of view 1 to the second one of view 2. -/
theorem view_stamps_order_isomorphic_twoViews :
    applyLoop (vstol ⟨2, 1⟩) 3 (vstol ⟨1, 0xFFFFFFFF⟩ + 1) = some [0x200000000, 0x200000001]
    ∧ ∃ vs : List ViewStamp,
      (∀ v, v ∈ vs ↔ 0 < viewStampComp v ⟨1, 0xFFFFFFFF⟩ ∧ viewStampComp v ⟨2, 1⟩ ≤ 0)
      ∧ vs.Pairwise fun v v' => viewStampComp v v' < 0 := by
  obtain ⟨vs, -, hmem, hsorted⟩ :=
    view_stamps_order_isomorphic.2.2.2 ⟨1, 0xFFFFFFFF⟩ ⟨2, 1⟩ (by decide) (by decide)
  exact ⟨by decide +kernel, vs, hmem, hsorted⟩

/-! ## §5. The replica thread. -/

/-- The steps of the replica thread of node `i`. -/
def Thread (i : Nat) (_ : World) (a : Action) : Prop := a = .replica i true 0

/-- A replica thread that has come to its apply loop goes through what the loop goes
through, and back to the head of its own. -/
theorem replica_applies {w : World} {i entry fuel : Nat} {index last : UInt64} {visited : List UInt64}
    (hup : (w.nodes i).up = true) (hpc : (w.nodes i).pc = .apply entry index.toNat last.toNat)
    (hloop : applyLoop last fuel index = some visited) :
    ∃ w', Reaches step (Thread i) w w' ∧ (w'.nodes i).pc = .poll
      ∧ (w'.nodes i).applied
        = (w.nodes i).applied ++ visited.map fun n => (n.toNat, w.db i n.toNat) := by
  induction fuel generalizing w index visited with
  | zero => cases hloop
  | succ fuel ih =>
      have hlast : last.toNat + 1 ≠ 2 ^ 64 := fun heq => by
        rw [applyLoop_largest heq] at hloop
        cases hloop
      have hmax := last.toNat_lt
      unfold applyLoop at hloop
      have hthread : Thread i w (.replica i true 0) := rfl
      have hstep : step w (.replica i true 0) = w.replicaStep i true 0 := if_pos hup
      unfold World.replicaStep at hstep
      simp only [hpc] at hstep
      by_cases hin : index ≤ last
      · have hin' := UInt64.le_iff_toNat_le.mp hin
        rw [if_pos hin] at hloop
        rw [if_pos hin'] at hstep
        obtain ⟨rest, hrest, rfl⟩ := Option.map_eq_some_iff.mp hloop
        have hnext := toNat_succ (x := index) (by omega)
        obtain ⟨w', hrun, hpoll, happlied⟩ := ih (w := w.setNode i { w.nodes i with
            applied := (w.nodes i).applied ++ [(index.toNat, w.db i index.toNat)]
            pc := .apply entry (index.toNat + 1) last.toNat })
          (by show (Function.update w.nodes i _ i).up = true; rw [Function.update_self]; exact hup)
          (by show (Function.update w.nodes i _ i).pc = _; rw [Function.update_self, hnext]) hrest
        refine ⟨w', (Reaches.single hthread hstep).trans hrun, hpoll, ?_⟩
        rw [happlied]
        show (Function.update w.nodes i _ i).applied ++ _ = _
        rw [Function.update_self, List.map_cons, List.append_assoc]
        rfl
      · have hout : ¬ index.toNat ≤ last.toNat := fun h => hin (UInt64.le_iff_toNat_le.mpr h)
        rw [if_neg hin] at hloop
        rw [if_neg hout] at hstep
        cases hloop
        refine ⟨_, Reaches.single hthread hstep, ?_, ?_⟩
        · show (Function.update w.nodes i _ i).pc = _
          rw [Function.update_self]
        · show (Function.update w.nodes i _ i).applied = _
          rw [Function.update_self, List.map_nil, List.append_nil]

end RdmaPaxos.Word
