/-
  RdmaPaxos.Output.Decision
  ─────────────────────────
  **WHO IS TOLD TO RESTORE** (`output/decision.c`, `prepare_peer_array` and
  `mgr_on_check` in `ev_mgr/ev_mgr.c`).

  After a `P_OUTPUT` entry has reached its quorum the leader copies the ack
  slots of the entry into a peer array, puts its own hash into its own slot and
  lets `do_decision` compare the hashes.

    • `doDecision_restores` — with all hashes present, `do_decision` is a strict
      majority vote over the slots, whoever the leader is;
    • `blamesDiverging_iff` — but the node id in the leader's own slot is
      whatever the log region holds there: the leader is named correctly only
      if it is not to be restored or that slot happens to hold its id;
    • `no_restore_of_sameStream` — nodes that write one stream are never told
      to restore, however they cut it and however far they are.
-/
import RdmaPaxos.Consensus.Entry
import RdmaPaxos.Output.Store
import Mathlib.Data.List.Nodup

namespace RdmaPaxos.Output

open RdmaPaxos.ByteMemory

/-! ## §1. The peer array. -/

/-- `output_peer_t`. -/
structure OutputPeer where
  leaderId : Nat
  nodeId : Nat
  hash : UInt64
  hashIndex : Int
  fd : Int
  deriving Repr, DecidableEq

/-- `ack[i].node_id` of the entry at `entry`. -/
def ackNodeId (m : Mem) (entry i : Nat) : Nat := readLE m (entry + acceptAckSize * i + 8) 4

/-- `ack[i].hash`. -/
def ackHash (m : Mem) (entry i : Nat) : UInt64 :=
  UInt64.ofNat (readLE m (entry + acceptAckSize * i + 16) 8)

/-- `prepare_peer_array`, in the leader's log `m`. -/
def preparePeerArray (mgr : OutputMgr) (fd : Nat) (m : Mem) (entry leaderId : Nat)
    (hashIndex : Int) (groupSize : Nat) : List OutputPeer :=
  (List.range groupSize).map fun i =>
    { leaderId := leaderId
      nodeId := ackNodeId m entry i
      hash := if i = leaderId then (getOutputHash mgr fd hashIndex).2 else ackHash m entry i
      hashIndex := hashIndex
      fd := if i = leaderId then fd else -1 }

/-! ## §2. The decision. -/

/-- `count_hash`. -/
def countHash (peers : List OutputPeer) (aim : UInt64) : Nat :=
  peers.countP fun p => p.hash == aim

/-- The body of the loop in `major_count_hash`: the count and the hash so far. -/
def majorStep (peers : List OutputPeer) (best : Nat × UInt64) (p : OutputPeer) : Nat × UInt64 :=
  if countHash peers p.hash > best.1 then (countHash peers p.hash, p.hash) else best

/-- `major_count_hash`: the largest count, and the first hash that reaches it. -/
def majorCountHash (peers : List OutputPeer) : Nat × UInt64 :=
  peers.foldl (majorStep peers) (0, 0)

/-- `get_master_hash`. -/
def getMasterHash (peers : List OutputPeer) : UInt64 :=
  match peers.find? fun p => p.leaderId == p.nodeId with
  | some p => p.hash
  | none => 0

/-- The arguments of `send_restore_cmd`. -/
structure RestoreCmd where
  nodeId : Nat
  hashIndex : Int
  deriving Repr, DecidableEq

/-- The command that brings the peer back to its index. -/
def OutputPeer.restore (p : OutputPeer) : RestoreCmd := ⟨p.nodeId, p.hashIndex⟩

/-- `do_restore`: the commands it sends. -/
def doRestore (peers : List OutputPeer) (aim : UInt64) : List RestoreCmd :=
  (peers.filter fun p => aim == 0 || p.hash != aim).map OutputPeer.restore

/-- `do_decision`: its return value and the commands sent; `fp` says whether
the decision log could be opened. -/
def doDecision (fp : Bool) (peers : List OutputPeer) : Int × List RestoreCmd :=
  if peers.length = 0 then (-1, [])
  else if fp = false then (-1, [])
  else
    let masterHash := getMasterHash peers
    let threshold := peers.length / 2 + 1
    if countHash peers 0 ≠ 0 then (0, [])
    -- D.0 all hashes are the same
    else if countHash peers masterHash = peers.length then (0, [])
    -- D.1 the leader is in the majority
    else if countHash peers masterHash ≥ threshold then (1, doRestore peers masterHash)
    -- D.2 there is a majority without the leader
    else if (majorCountHash peers).1 ≥ threshold then (2, doRestore peers (majorCountHash peers).2)
    -- D.3 no majority
    else (3, doRestore peers 0)

/-- `mgr_on_check` up to `rsm_op`: the proposed index, if there is one. -/
def checkProposal (mgr : OutputMgr) (fd : Nat) (buf : List UInt8) (isLeader : Bool) :
    OutputMgr × Option Int :=
  let stored := storeOutput mgr fd buf
  if stored.2 ≤ 0 ∨ isLeader = false then (stored.1, none)
  else
    let determined := determineOutput stored.1 fd
    (determined.1, if determined.2 ≠ -1 then some determined.2 else none)

/-- `mgr_on_check` from `rsm_op`'s return on: the commands sent. -/
def checkDecision (mgr : OutputMgr) (fp : Bool) (m : Mem) (entry fd leaderId : Nat)
    (hashIndex : Int) (groupSize : Nat) : List RestoreCmd :=
  (doDecision fp (preparePeerArray mgr fd m entry leaderId hashIndex groupSize)).2

/-- The manager matters for the leader's own hash only. -/
theorem checkDecision_eq {mgr : OutputMgr} {fd : Nat} {index : Int} {H : UInt64}
    (hown : (getOutputHash mgr fd index).2 = H) (fp : Bool) (m : Mem) (entry l n : Nat) :
    checkDecision mgr fp m entry fd l index n
      = (doDecision fp ((List.range n).map fun i =>
          { leaderId := l, nodeId := ackNodeId m entry i
            hash := if i = l then H else ackHash m entry i
            hashIndex := index, fd := if i = l then fd else -1 })).2 := by
  unfold checkDecision preparePeerArray
  rw [hown]

/-! ## §3. `do_decision` is a strict majority vote. -/

/-- More than half of the peers hold the hash. -/
def Major (peers : List OutputPeer) (H : UInt64) : Prop :=
  peers.length / 2 + 1 ≤ countHash peers H

/-- Two different hashes share the peers. -/
theorem countHash_add_le (peers : List OutputPeer) {H H' : UInt64} (hne : H ≠ H') :
    countHash peers H + countHash peers H' ≤ peers.length := by
  unfold countHash
  induction peers with
  | nil => simp
  | cons p peers ih =>
      simp only [List.countP_cons, List.length_cons, beq_iff_eq]
      by_cases h : p.hash = H
      · have h' : p.hash ≠ H' := fun h' => hne (h.symm.trans h')
        rw [if_pos h, if_neg h']
        omega
      · rw [if_neg h]
        split <;> omega

/-- There are not two majorities. -/
theorem Major.unique {peers : List OutputPeer} {H H' : UInt64} (h : Major peers H)
    (h' : Major peers H') : H = H' := by
  by_contra hne
  have := countHash_add_le peers hne
  unfold Major at h h'
  omega

/-- A hash that is counted is some peer's. -/
theorem countHash_pos {peers : List OutputPeer} {H : UInt64} (h : 0 < countHash peers H) :
    ∃ p ∈ peers, p.hash = H := by
  obtain ⟨p, hp, hH⟩ := List.countP_pos_iff.1 h
  exact ⟨p, hp, by simpa using hH⟩

/-- The loop of `major_count_hash` keeps the count of its hash, and never falls
below a count it has seen. -/
theorem majorStep_foldl (peers ps : List OutputPeer) (best : Nat × UInt64)
    (hbest : best.1 = 0 ∨ best.1 = countHash peers best.2) :
    ((ps.foldl (majorStep peers) best).1 = 0
      ∨ (ps.foldl (majorStep peers) best).1 = countHash peers (ps.foldl (majorStep peers) best).2)
    ∧ best.1 ≤ (ps.foldl (majorStep peers) best).1
    ∧ ∀ p ∈ ps, countHash peers p.hash ≤ (ps.foldl (majorStep peers) best).1 := by
  induction ps generalizing best with
  | nil => exact ⟨hbest, Nat.le_refl _, by simp⟩
  | cons p ps ih =>
      -- a larger count replaces the best one, an equal one does not
      have hstep : ((majorStep peers best p).1 = 0
            ∨ (majorStep peers best p).1 = countHash peers (majorStep peers best p).2)
          ∧ best.1 ≤ (majorStep peers best p).1
          ∧ countHash peers p.hash ≤ (majorStep peers best p).1 := by
        unfold majorStep
        by_cases hgt : countHash peers p.hash > best.1
        · rw [if_pos hgt]
          exact ⟨.inr rfl, hgt.le, Nat.le_refl _⟩
        · rw [if_neg hgt]
          exact ⟨hbest, Nat.le_refl _, by omega⟩
      obtain ⟨h₁, h₂, h₃⟩ := ih (majorStep peers best p) hstep.1
      refine ⟨h₁, hstep.2.1.trans h₂, ?_⟩
      intro q hq
      rcases List.mem_cons.1 hq with rfl | hq
      · exact hstep.2.2.trans h₂
      · exact h₃ q hq

/-- If a hash has a majority, `major_count_hash` finds it. -/
theorem majorCountHash_of_major {peers : List OutputPeer} {H : UInt64} (h : Major peers H) :
    peers.length / 2 + 1 ≤ (majorCountHash peers).1 ∧ (majorCountHash peers).2 = H := by
  obtain ⟨h₁, -, h₃⟩ := majorStep_foldl peers peers (0, 0) (.inl rfl)
  obtain ⟨p, hp, rfl⟩ := countHash_pos (show 0 < countHash peers H by unfold Major at h; omega)
  have hle : peers.length / 2 + 1 ≤ (majorCountHash peers).1 := h.trans (h₃ p hp)
  refine ⟨hle, ?_⟩
  have hcount : (majorCountHash peers).1 = countHash peers (majorCountHash peers).2 := by
    rcases h₁ with h0 | hc
    · exact absurd h0 (by unfold majorCountHash at hle; omega)
    · exact hc
  have hmajor : Major peers (majorCountHash peers).2 := by unfold Major; omega
  exact hmajor.unique h

/-- If none has, it reports none. -/
theorem majorCountHash_of_not_major {peers : List OutputPeer} (h : ∀ H, ¬ Major peers H) :
    ¬ peers.length / 2 + 1 ≤ (majorCountHash peers).1 := by
  intro hle
  obtain ⟨h₁, -, -⟩ := majorStep_foldl peers peers (0, 0) (.inl rfl)
  rcases h₁ with h0 | hc
  · unfold majorCountHash at hle
    omega
  · exact h _ (hle.trans_eq hc)

/-- No hash is missing if none of them is 0. -/
theorem countHash_zero_eq {peers : List OutputPeer} :
    countHash peers 0 = 0 ↔ ∀ p ∈ peers, p.hash ≠ 0 := by
  simp [countHash, List.countP_eq_zero]

/-- All peers hold the hash exactly if nobody holds another. -/
theorem filter_eq_nil_of_countHash {peers : List OutputPeer} {H : UInt64}
    (h : countHash peers H = peers.length) : (peers.filter fun p => p.hash != H) = [] := by
  have := List.countP_eq_length.1 h
  apply List.filter_eq_nil_iff.2
  intro p hp
  have := this p hp
  simp_all

/-- With a majority, the peers with another hash are restored. -/
theorem doRestore_eq {peers : List OutputPeer} {H : UInt64} (h : H ≠ 0) :
    doRestore peers H = (peers.filter fun p => p.hash != H).map OutputPeer.restore := by
  unfold doRestore
  rw [beq_false_of_ne h]
  simp only [Bool.false_or]

/-- Without one, all of them. -/
theorem doRestore_zero (peers : List OutputPeer) :
    doRestore peers 0 = peers.map OutputPeer.restore := by
  unfold doRestore
  rw [List.filter_eq_self.2]
  intro p _
  rfl

/-- A missing hash stops the decision. -/
theorem doDecision_of_zero {fp : Bool} {peers : List OutputPeer} {p : OutputPeer} (hp : p ∈ peers)
    (h : p.hash = 0) : (doDecision fp peers).2 = [] := by
  have hz : countHash peers 0 ≠ 0 := fun h0 => countHash_zero_eq.1 h0 p hp h
  unfold doDecision
  simp only [if_pos hz]
  split
  · rfl
  · split <;> rfl

/-- **With every hash present, exactly the peers outside the majority are told
to restore, and everyone if there is no majority.** -/
theorem doDecision_restores {peers : List OutputPeer} (hne : peers ≠ [])
    (hnz : ∀ p ∈ peers, p.hash ≠ 0) :
    (∀ H, Major peers H →
      (doDecision true peers).2 = (peers.filter fun p => p.hash != H).map OutputPeer.restore)
    ∧ ((∀ H, ¬ Major peers H) → (doDecision true peers).2 = peers.map OutputPeer.restore) := by
  have hlen : peers.length ≠ 0 := fun h => hne (List.length_eq_zero_iff.1 h)
  have hz : ¬ countHash peers 0 ≠ 0 := not_not.2 (countHash_zero_eq.2 hnz)
  -- to `do_restore` the hash 0 means that there is none
  have hmajor_nz : ∀ H, Major peers H → H ≠ 0 := by
    intro H hH h0
    obtain ⟨p, hp, hpH⟩ := countHash_pos (show 0 < countHash peers H by unfold Major at hH; omega)
    exact hnz p hp (hpH.trans h0)
  unfold doDecision
  simp only [if_neg hlen, if_neg hz, Bool.true_eq_false, if_false]
  constructor
  · intro H hH
    by_cases h0 : countHash peers (getMasterHash peers) = peers.length
    · have hM : Major peers (getMasterHash peers) := by unfold Major; omega
      have heq := hM.unique hH
      rw [if_pos h0, ← heq, filter_eq_nil_of_countHash h0]
      rfl
    · rw [if_neg h0]
      -- first the leader's hash is tried, then the most frequent one
      by_cases h1 : countHash peers (getMasterHash peers) ≥ peers.length / 2 + 1
      · have heq := Major.unique h1 hH
        rw [if_pos h1, heq, doRestore_eq (hmajor_nz H hH)]
      · obtain ⟨h2, heq⟩ := majorCountHash_of_major hH
        rw [if_neg h1, if_pos h2, heq, doRestore_eq (hmajor_nz H hH)]
  · intro hno
    have h1 : ¬ countHash peers (getMasterHash peers) ≥ peers.length / 2 + 1 := hno _
    have h0 : ¬ countHash peers (getMasterHash peers) = peers.length := by omega
    rw [if_neg h0, if_neg h1, if_neg (majorCountHash_of_not_major hno), doRestore_zero]

/-! ## §4. The vote, whoever leads. -/

/-- The leader's hash is found by its id. -/
theorem getMasterHash_eq {peers : List OutputPeer} {L : Nat} {p : OutputPeer}
    (hids : (peers.map OutputPeer.nodeId).Nodup) (hlead : ∀ q ∈ peers, q.leaderId = L)
    (hp : p ∈ peers) (hpL : p.nodeId = L) : getMasterHash peers = p.hash := by
  unfold getMasterHash
  cases hfind : peers.find? fun q => q.leaderId == q.nodeId with
  | none =>
      have hno := List.find?_eq_none.1 hfind p hp
      rw [hlead p hp, hpL] at hno
      simp at hno
  | some q =>
      have hq := List.mem_of_find?_eq_some hfind
      have hqL : q.leaderId = q.nodeId := by simpa using List.find?_some hfind
      rw [hlead q hq] at hqL
      have heq : q = p := List.inj_on_of_nodup_map hids hq hp (hqL.symm.trans hpL.symm)
      rw [heq]

/-- All peers hold one hash. -/
def Unanimous (peers : List OutputPeer) : Prop := ∀ p ∈ peers, ∀ q ∈ peers, p.hash = q.hash

/-- With the leader in the array, all peers agree exactly if all agree with it. -/
theorem unanimous_iff {peers : List OutputPeer} {p : OutputPeer} (hp : p ∈ peers) :
    Unanimous peers ↔ countHash peers p.hash = peers.length := by
  unfold countHash
  rw [List.countP_eq_length]
  constructor
  · intro h q hq
    rw [h q hq p hp, beq_self_eq_true]
  · intro h q hq r hr
    have hq' : q.hash = p.hash := by simpa using h q hq
    have hr' : r.hash = p.hash := by simpa using h r hr
    rw [hq', hr']

/-- Nothing is done if a hash is missing or all are the same. -/
theorem doDecision_nothing {peers : List OutputPeer} {p : OutputPeer} (hp : p ∈ peers)
    (hmaster : getMasterHash peers = p.hash)
    (h : (∃ q ∈ peers, q.hash = 0) ∨ Unanimous peers) : doDecision true peers = (0, []) := by
  have hlen : peers.length ≠ 0 := Nat.ne_of_gt (List.length_pos_of_mem hp)
  unfold doDecision
  simp only [if_neg hlen, Bool.true_eq_false, if_false, hmaster]
  rcases h with ⟨q, hq, hq0⟩ | hall
  · have hz : countHash peers 0 ≠ 0 := fun h0 => countHash_zero_eq.1 h0 q hq hq0
    rw [if_pos hz]
  · rw [if_pos ((unanimous_iff hp).1 hall), ite_self]

/-- The return value tells whether the leader is in the majority. -/
theorem doDecision_returns {peers : List OutputPeer} {p : OutputPeer} (hp : p ∈ peers)
    (hmaster : getMasterHash peers = p.hash) (hnz : ∀ q ∈ peers, q.hash ≠ 0)
    (hsplit : ¬ Unanimous peers) :
    (∀ H, Major peers H → (doDecision true peers).1 = if p.hash = H then 1 else 2)
    ∧ ((∀ H, ¬ Major peers H) → (doDecision true peers).1 = 3) := by
  have hlen : peers.length ≠ 0 := Nat.ne_of_gt (List.length_pos_of_mem hp)
  have hz : ¬ countHash peers 0 ≠ 0 := not_not.2 (countHash_zero_eq.2 hnz)
  unfold doDecision
  simp only [if_neg hlen, if_neg hz, Bool.true_eq_false, if_false, hmaster,
    if_neg (mt (unanimous_iff hp).2 hsplit)]
  constructor
  · intro H hH
    by_cases heq : p.hash = H
    · have h1 : countHash peers p.hash ≥ peers.length / 2 + 1 := heq ▸ hH
      rw [if_pos h1, if_pos heq]
    · have h1 : ¬ countHash peers p.hash ≥ peers.length / 2 + 1 := fun h => heq (Major.unique h hH)
      rw [if_neg h1, if_pos (majorCountHash_of_major hH).1, if_neg heq]
  · intro hno
    have h1 : ¬ countHash peers p.hash ≥ peers.length / 2 + 1 := hno _
    rw [if_neg h1, if_neg (majorCountHash_of_not_major hno)]

/-- A peer without the name of the leader. -/
def OutputPeer.vote (p : OutputPeer) : Nat × UInt64 × Int := (p.nodeId, p.hash, p.hashIndex)

section Votes

variable {peers peers' : List OutputPeer}

/-- Only the votes count. -/
theorem countHash_vote (peers : List OutputPeer) (H : UInt64) :
    countHash peers H = (peers.map OutputPeer.vote).countP fun v => v.2.1 == H := by
  rw [List.countP_map]
  rfl

/-- And so for the hashes there are. -/
theorem mem_hash_vote {H : UInt64} :
    (∃ q ∈ peers, q.hash = H) ↔ ∃ v ∈ peers.map OutputPeer.vote, v.2.1 = H := by
  simp [OutputPeer.vote]

/-- The counts do not depend on the order of the peers. -/
theorem countHash_perm (hperm : (peers.map OutputPeer.vote).Perm (peers'.map OutputPeer.vote))
    (H : UInt64) : countHash peers H = countHash peers' H := by
  rw [countHash_vote, countHash_vote, hperm.countP_eq]

/-- Nor do the hashes there are. -/
theorem exists_hash_perm (hperm : (peers.map OutputPeer.vote).Perm (peers'.map OutputPeer.vote))
    (H : UInt64) : (∃ q ∈ peers, q.hash = H) ↔ ∃ q ∈ peers', q.hash = H := by
  simp only [mem_hash_vote, hperm.mem_iff]

/-- Nor does the number of peers. -/
theorem length_perm (hperm : (peers.map OutputPeer.vote).Perm (peers'.map OutputPeer.vote)) :
    peers.length = peers'.length := by
  simpa using hperm.length_eq

/-- Nor does their being of one mind. -/
theorem unanimous_perm (hperm : (peers.map OutputPeer.vote).Perm (peers'.map OutputPeer.vote)) :
    Unanimous peers ↔ Unanimous peers' := by
  have hiff : ∀ ps : List OutputPeer, Unanimous ps ↔
      ∀ H H', (∃ q ∈ ps, q.hash = H) → (∃ q ∈ ps, q.hash = H') → H = H' := by
    intro ps
    constructor
    · rintro h H H' ⟨q, hq, rfl⟩ ⟨r, hr, rfl⟩
      exact h q hq r hr
    · intro h q hq r hr
      exact h _ _ ⟨q, hq, rfl⟩ ⟨r, hr, rfl⟩
  rw [hiff, hiff]
  simp only [exists_hash_perm hperm]

/-- The commands are made of the votes. -/
theorem restore_filter (f : UInt64 → Bool) (peers : List OutputPeer) :
    (peers.filter fun p => f p.hash).map OutputPeer.restore
      = ((peers.map OutputPeer.vote).filter fun v => f v.2.1).map fun v => ⟨v.1, v.2.2⟩ := by
  rw [List.filter_map, List.map_map]
  rfl

/-- The peers restored are the same, in another order. -/
theorem restore_filter_perm (hperm : (peers.map OutputPeer.vote).Perm (peers'.map OutputPeer.vote))
    (f : UInt64 → Bool) : ((peers.filter fun p => f p.hash).map OutputPeer.restore).Perm
      ((peers'.filter fun p => f p.hash).map OutputPeer.restore) := by
  rw [restore_filter, restore_filter]
  exact (hperm.filter _).map _

end Votes

/-- What the array has to be for a decision: distinct ids, one leader, in it. -/
structure OneMaster (peers : List OutputPeer) (L : Nat) : Prop where
  ids : (peers.map OutputPeer.nodeId).Nodup
  lead : ∀ p ∈ peers, p.leaderId = L
  master : ∃ p ∈ peers, p.nodeId = L

/-- The restored peers depend on the votes only: neither on the order of the
array nor on the leader. -/
theorem doDecision_perm {peers peers' : List OutputPeer} {L L' : Nat} (h : OneMaster peers L)
    (h' : OneMaster peers' L')
    (hperm : (peers.map OutputPeer.vote).Perm (peers'.map OutputPeer.vote)) :
    (doDecision true peers).2.Perm (doDecision true peers').2 := by
  obtain ⟨p, hp, hpL⟩ := h.master
  obtain ⟨p', hp', hpL'⟩ := h'.master
  have hmaster := getMasterHash_eq h.ids h.lead hp hpL
  have hmaster' := getMasterHash_eq h'.ids h'.lead hp' hpL'
  have hmajor : ∀ H, Major peers H ↔ Major peers' H := by
    intro H
    unfold Major
    rw [countHash_perm hperm, length_perm hperm]
  have hzero := exists_hash_perm hperm 0
  have hunan := unanimous_perm hperm
  -- the four outcomes are the same for both arrays
  by_cases hnothing : (∃ q ∈ peers, q.hash = 0) ∨ Unanimous peers
  · rw [doDecision_nothing hp hmaster hnothing,
      doDecision_nothing hp' hmaster' (hnothing.imp hzero.1 hunan.1)]
  · have hnz : ∀ q ∈ peers, q.hash ≠ 0 := fun q hq h0 => hnothing (.inl ⟨q, hq, h0⟩)
    have hnz' : ∀ q ∈ peers', q.hash ≠ 0 := fun q hq h0 => hnothing (.inl (hzero.2 ⟨q, hq, h0⟩))
    have hres := doDecision_restores (List.ne_nil_of_mem hp) hnz
    have hres' := doDecision_restores (List.ne_nil_of_mem hp') hnz'
    by_cases hex : ∃ H, Major peers H
    · obtain ⟨H, hH⟩ := hex
      rw [hres.1 H hH, hres'.1 H ((hmajor H).1 hH)]
      exact restore_filter_perm hperm (fun x => x != H)
    · have hno : ∀ H, ¬ Major peers H := fun H hH => hex ⟨H, hH⟩
      rw [hres.2 hno, hres'.2 (fun H hH => hno H ((hmajor H).2 hH))]
      have hall := restore_filter_perm hperm (fun _ => true)
      rwa [List.filter_true, List.filter_true] at hall

/-- **`do_decision` is a strict majority vote.**  For every array with distinct
ids, one of them the leader's: a missing hash or agreement stops it with 0; a
hash held by more than half of the peers is unique and exactly the others are
restored, with 1 or 2 for a leader that holds it or not; without one it returns 3
and everyone is restored.  Any other array with the same ids, hashes and indices,
in any order and under any leader, restores the same peers. -/
theorem doDecision_majority_vote (peers : List OutputPeer) (L : Nat) (hne : peers ≠ [])
    (h : OneMaster peers L) :
    ((∃ q ∈ peers, q.hash = 0) ∨ Unanimous peers → doDecision true peers = (0, []))
    ∧ (¬ ((∃ q ∈ peers, q.hash = 0) ∨ Unanimous peers) →
        (∀ H, Major peers H → (∀ H', Major peers H' → H' = H)
          ∧ (doDecision true peers).2 = (peers.filter fun p => p.hash != H).map OutputPeer.restore
          ∧ ∀ p ∈ peers, p.nodeId = L → (doDecision true peers).1 = if p.hash = H then 1 else 2)
        ∧ ((∀ H, ¬ Major peers H) → doDecision true peers = (3, peers.map OutputPeer.restore)))
    ∧ ∀ (peers' : List OutputPeer) (L' : Nat), OneMaster peers' L' →
        (peers.map OutputPeer.vote).Perm (peers'.map OutputPeer.vote) →
        (doDecision true peers).2.Perm (doDecision true peers').2 := by
  obtain ⟨p, hp, hpL⟩ := h.master
  have hmaster := getMasterHash_eq h.ids h.lead hp hpL
  refine ⟨doDecision_nothing hp hmaster, ?_, fun peers' L' h' => doDecision_perm h h'⟩
  intro hdecide
  have hnz : ∀ q ∈ peers, q.hash ≠ 0 := fun q hq h0 => hdecide (.inl ⟨q, hq, h0⟩)
  have hres := doDecision_restores hne hnz
  have hret := doDecision_returns hp hmaster hnz (fun hu => hdecide (.inr hu))
  constructor
  · intro H hH
    refine ⟨fun H' hH' => hH'.unique hH, hres.1 H hH, ?_⟩
    intro q hq hqL
    have hqp : q = p := List.inj_on_of_nodup_map h.ids hq hp (hqL.trans hpL.symm)
    rw [hqp]
    exact hret.1 H hH
  · intro hno
    exact Prod.ext (hret.2 hno) (hres.2 hno)

/-- Three peers, the leader 2 outvoted: 2 is restored and the value is 2. -/
theorem doDecision_majority_vote_outvoted :
    doDecision true [⟨2, 0, 5, 9, -1⟩, ⟨2, 1, 5, 9, -1⟩, ⟨2, 2, 6, 9, 4⟩] = (2, [⟨2, 9⟩]) := by
  have h := doDecision_majority_vote [⟨2, 0, 5, 9, -1⟩, ⟨2, 1, 5, 9, -1⟩, ⟨2, 2, 6, 9, 4⟩] 2
    (by decide) ⟨by decide, by decide, by decide⟩
  have hdecide : ¬ ((∃ q ∈ ([⟨2, 0, 5, 9, -1⟩, ⟨2, 1, 5, 9, -1⟩, ⟨2, 2, 6, 9, 4⟩] :
      List OutputPeer), q.hash = 0) ∨ Unanimous [⟨2, 0, 5, 9, -1⟩, ⟨2, 1, 5, 9, -1⟩,
        ⟨2, 2, 6, 9, 4⟩]) := by
    unfold Unanimous
    decide
  obtain ⟨-, hrestored, hvalue⟩ := (h.2.1 hdecide).1 5 (by unfold Major; decide)
  exact Prod.ext (hvalue ⟨2, 2, 6, 9, 4⟩ (by decide) rfl) hrestored

/-! ## §5. The ack slots. -/

/-- Slot `i` of the leader's entry holds the ack that follower `i` made of its
own copy of a `P_OUTPUT` entry, with the hash it had looked up. -/
def AckDelivered (m : Mem) (entry i : Nat) (hash : UInt64) : Prop :=
  ∃ m' : Mem, readLE m' (entry + offType) 1 = ReqType.code .output
    ∧ ∀ t, t < acceptAckSize → m (entry + acceptAckSize * i + t)
        = replyEntry m' entry i hash.toNat (entry + acceptAckSize * i + t)

/-- Nothing has arrived in slot `i` of a fresh entry. -/
def AckMissing (m : Mem) (entry i : Nat) : Prop :=
  ∀ t, t < acceptAckSize → m (entry + acceptAckSize * i + t) = 0

/-- What is read of a slot is what the follower wrote into its entry. -/
theorem AckDelivered.readLE_eq {m : Mem} {entry i : Nat} {hash : UInt64}
    (h : AckDelivered m entry i hash) :
    ∃ m' : Mem, readLE m' (entry + offType) 1 = ReqType.code .output
      ∧ ∀ d k, d + k ≤ acceptAckSize → readLE m (entry + acceptAckSize * i + d) k
          = readLE (replyEntry m' entry i hash.toNat) (entry + acceptAckSize * i + d) k := by
  obtain ⟨m', htype, hbytes⟩ := h
  refine ⟨m', htype, ?_⟩
  intro d k hdk
  apply readLE_congr
  intro j hj
  rw [Nat.add_assoc (entry + acceptAckSize * i)]
  exact hbytes (d + j) (by omega)

/-- The node id in the slot is the follower's. -/
theorem AckDelivered.nodeId {m : Mem} {entry i : Nat} {hash : UInt64}
    (h : AckDelivered m entry i hash) (hi : i < 2 ^ 32) : ackNodeId m entry i = i := by
  obtain ⟨m', -, hread⟩ := h.readLE_eq
  unfold ackNodeId
  rw [hread 8 4 (by decide)]
  exact (replyEntry_slot m' entry i hash.toNat hi).2

/-- The hash in the slot is the one it sent. -/
theorem AckDelivered.hash_eq {m : Mem} {entry i : Nat} {hash : UInt64}
    (h : AckDelivered m entry i hash) : ackHash m entry i = hash := by
  obtain ⟨m', htype, hread⟩ := h.readLE_eq
  unfold ackHash
  rw [hread 16 8 (by decide), replyEntry]
  simp only [if_pos htype]
  rw [readLE_writeLE_of_lt _ hash.toNat_lt, UInt64.ofNat_toNat]

/-- A slot without an ack has hash 0. -/
theorem AckMissing.hash_eq {m : Mem} {entry i : Nat} (h : AckMissing m entry i) :
    ackHash m entry i = 0 := by
  unfold ackHash
  rw [readLE_zeroed]
  · rfl
  · intro j hj
    rw [Nat.add_assoc (entry + acceptAckSize * i)]
    exact h (16 + j) (by unfold acceptAckSize; omega)

/-! ## §6. Blame. -/

/-- The number of nodes below `n` whose hash is `H`. -/
def holders (n : Nat) (h : Nat → UInt64) (H : UInt64) : Nat :=
  (List.range n).countP fun i => h i == H

/-- The ids told to restore are those of the nodes outside the majority, each
once, or all of them if there is no majority. -/
def BlamesDiverging (n : Nat) (h : Nat → UInt64) (cmds : List RestoreCmd) : Prop :=
  (∀ H, n / 2 + 1 ≤ holders n h H →
    (cmds.map RestoreCmd.nodeId).Perm ((List.range n).filter fun i => h i != H))
  ∧ ((∀ H, holders n h H < n / 2 + 1) →
    (cmds.map RestoreCmd.nodeId).Perm (List.range n))

/-- All nodes hold the one hash there is. -/
theorem holders_of_all_eq {n : Nat} {h : Nat → UInt64} {H : UInt64} (hall : ∀ i, i < n → h i = H) :
    holders n h H = n := by
  have : holders n h H = (List.range n).length := by
    apply List.countP_eq_length.2
    intro i hi
    rw [hall i (List.mem_range.1 hi), beq_self_eq_true]
  rw [this, List.length_range]

/-- Telling nobody is right exactly if all hashes agree. -/
theorem blamesDiverging_nil {n l : Nat} {h : Nat → UInt64} (hl : l < n) :
    BlamesDiverging n h [] ↔ ∀ i, i < n → h i = h l := by
  constructor
  · intro hb i hi
    by_cases hmajor : ∃ H, n / 2 + 1 ≤ holders n h H
    · obtain ⟨H, hH⟩ := hmajor
      have hnil := List.filter_eq_nil_iff.1 (List.nil_perm.1 (hb.1 H hH))
      have hsame : ∀ j, j < n → h j = H := by
        intro j hj
        simpa using hnil j (List.mem_range.2 hj)
      rw [hsame i hi, hsame l hl]
    · have hno : ∀ H, holders n h H < n / 2 + 1 := fun H => not_le.1 fun hH => hmajor ⟨H, hH⟩
      have hnil : List.range n = [] := List.nil_perm.1 (hb.2 hno)
      have : i ∈ List.range n := List.mem_range.2 hi
      rw [hnil] at this
      cases this
  · intro hall
    have hn : holders n h (h l) = n := holders_of_all_eq hall
    constructor
    · intro H hH
      obtain ⟨i, hi, hiH⟩ := List.countP_pos_iff.1 (show 0 < holders n h H by omega)
      have heq : h l = H := by
        rw [← hall i (List.mem_range.1 hi)]
        simpa using hiH
      have : ((List.range n).filter fun i => h i != H) = [] := by
        apply List.filter_eq_nil_iff.2
        intro j hj
        simp [hall j (List.mem_range.1 hj), heq]
      rw [this]
      exact List.Perm.refl _
    · intro hno
      have := hno (h l)
      omega

/-- With a majority, those are blamed that diverge from it. -/
theorem blamesDiverging_of_major {n : Nat} {h : Nat → UInt64} {cmds : List RestoreCmd} {H : UInt64}
    (hH : n / 2 + 1 ≤ holders n h H) (huniq : ∀ H', n / 2 + 1 ≤ holders n h H' → H' = H) :
    BlamesDiverging n h cmds ↔
      (cmds.map RestoreCmd.nodeId).Perm ((List.range n).filter fun i => h i != H) := by
  constructor
  · intro hb
    exact hb.1 H hH
  · intro hp
    refine ⟨fun H' hH' => huniq H' hH' ▸ hp, fun hno => ?_⟩
    exact absurd (hno H) (not_lt.2 hH)

/-- Without one, all of them. -/
theorem blamesDiverging_of_none {n : Nat} {h : Nat → UInt64} {cmds : List RestoreCmd}
    (hno : ∀ H, holders n h H < n / 2 + 1) :
    BlamesDiverging n h cmds ↔ (cmds.map RestoreCmd.nodeId).Perm (List.range n) := by
  constructor
  · intro hb
    exact hb.2 hno
  · intro hp
    exact ⟨fun H hH => absurd (hno H) (not_lt.2 hH), fun _ => hp⟩

section Blame

variable {n l : Nat} {mgr : OutputMgr} {m : Mem} {entry fd : Nat} {index : Int} {h : Nat → UInt64}

/-- The slots carry the hashes the nodes have. -/
theorem peers_hash (hown : (getOutputHash mgr fd index).2 = h l)
    (hacks : ∀ i, i < n → i ≠ l → AckDelivered m entry i (h i)) :
    ∀ i, i < n → (if i = l then (getOutputHash mgr fd index).2 else ackHash m entry i) = h i := by
  intro i hi
  by_cases hil : i = l
  · rw [if_pos hil, hown, hil]
  · rw [if_neg hil, (hacks i hi hil).hash_eq]

/-- The peers of the array have the hashes of the nodes. -/
theorem countHash_peers (hown : (getOutputHash mgr fd index).2 = h l)
    (hacks : ∀ i, i < n → i ≠ l → AckDelivered m entry i (h i)) (H : UInt64) :
    countHash (preparePeerArray mgr fd m entry l index n) H = holders n h H := by
  unfold countHash preparePeerArray holders
  rw [List.countP_map]
  apply List.countP_congr
  intro i hi
  simp only [Function.comp]
  rw [peers_hash hown hacks i (List.mem_range.1 hi)]

/-- The ids of the slots with another hash than `H`. -/
theorem ids_filter_peers (hown : (getOutputHash mgr fd index).2 = h l)
    (hacks : ∀ i, i < n → i ≠ l → AckDelivered m entry i (h i)) (H : UInt64) :
    ((((preparePeerArray mgr fd m entry l index n).filter fun p => p.hash != H).map
        OutputPeer.restore).map RestoreCmd.nodeId)
      = ((List.range n).filter fun i => h i != H).map (ackNodeId m entry) := by
  unfold preparePeerArray
  rw [List.filter_map, List.map_map, List.map_map]
  have hfilter : (List.range n).filter ((fun p : OutputPeer => p.hash != H) ∘ fun i =>
        { leaderId := l, nodeId := ackNodeId m entry i
          hash := if i = l then (getOutputHash mgr fd index).2 else ackHash m entry i
          hashIndex := index, fd := if i = l then (fd : Int) else -1 })
      = (List.range n).filter fun i => h i != H := by
    apply List.filter_congr
    intro i hi
    simp only [Function.comp]
    rw [peers_hash hown hacks i (List.mem_range.1 hi)]
  rw [hfilter]
  rfl

/-- The peers of the array have the node ids of the acks. -/
theorem ids_peers :
    (((preparePeerArray mgr fd m entry l index n).map OutputPeer.restore).map RestoreCmd.nodeId)
      = (List.range n).map (ackNodeId m entry) := by
  unfold preparePeerArray
  rw [List.map_map, List.map_map]
  rfl

/-- Renaming by the slots' ids is right unless it meets the leader's slot and
that holds another id. -/
theorem map_ackNodeId_perm (hn : n ≤ 2 ^ 32) {hash : Nat → UInt64}
    (hacks : ∀ i, i < n → i ≠ l → AckDelivered m entry i (hash i)) {is : List Nat}
    (his : ∀ i ∈ is, i < n) :
    (is.map (ackNodeId m entry)).Perm is ↔ l ∉ is ∨ ackNodeId m entry l = l := by
  -- only the leader's slot was not written by its node
  have hother : ∀ i ∈ is, i ≠ l → ackNodeId m entry i = i := by
    intro i hi hil
    have hin := his i hi
    exact (hacks i hin hil).nodeId (by omega)
  constructor
  · intro hp
    by_contra hno
    push Not at hno
    obtain ⟨hmem, hne⟩ := hno
    obtain ⟨i, hi, hil⟩ := List.mem_map.1 (hp.symm.mem_iff.1 hmem)
    by_cases h : i = l
    · exact hne (h ▸ hil)
    · exact h ((hother i hi h).symm.trans hil)
  · intro hok
    have hid : is.map (ackNodeId m entry) = is := by
      conv_rhs => rw [← List.map_id is]
      apply List.map_congr_left
      intro i hi
      by_cases h : i = l
      · rcases hok with hmem | heq
        · exact absurd (h ▸ hi) hmem
        · rw [h]; exact heq
      · exact hother i hi h
    rw [hid]

/-- A majority of the slots is one of the nodes. -/
theorem major_peers_iff (hown : (getOutputHash mgr fd index).2 = h l)
    (hacks : ∀ i, i < n → i ≠ l → AckDelivered m entry i (h i)) (H : UInt64) :
    Major (preparePeerArray mgr fd m entry l index n) H ↔ n / 2 + 1 ≤ holders n h H := by
  have hlen : (preparePeerArray mgr fd m entry l index n).length = n := by
    simp [preparePeerArray]
  unfold Major
  rw [hlen, countHash_peers hown hacks]

/-- There is a majority hash, and the slots with another one are named. -/
theorem blamesDiverging_filter_peers (hl : l < n) (hn : n ≤ 2 ^ 32)
    (hown : (getOutputHash mgr fd index).2 = h l)
    (hacks : ∀ i, i < n → i ≠ l → AckDelivered m entry i (h i)) {H : UInt64}
    (hH : n / 2 + 1 ≤ holders n h H) :
    BlamesDiverging n h (((preparePeerArray mgr fd m entry l index n).filter fun p =>
        p.hash != H).map OutputPeer.restore)
      ↔ n / 2 + 1 ≤ holders n h (h l) ∨ ackNodeId m entry l = l := by
  have huniq : ∀ H', n / 2 + 1 ≤ holders n h H' → H' = H := fun H' hH' =>
    Major.unique ((major_peers_iff hown hacks H').2 hH') ((major_peers_iff hown hacks H).2 hH)
  have hmem : l ∉ (List.range n).filter (fun i => h i != H) ↔ n / 2 + 1 ≤ holders n h (h l) := by
    rw [List.mem_filter]
    simp only [List.mem_range, hl, true_and, bne_iff_ne, not_not]
    exact ⟨fun heq => heq ▸ hH, huniq (h l)⟩
  rw [blamesDiverging_of_major hH huniq, ids_filter_peers hown hacks,
    map_ackNodeId_perm hn hacks fun i hi => List.mem_range.1 (List.mem_filter.1 hi).1, hmem]

/-- There is none, and every slot is named. -/
theorem blamesDiverging_peers (hl : l < n) (hn : n ≤ 2 ^ 32)
    (hacks : ∀ i, i < n → i ≠ l → AckDelivered m entry i (h i))
    (hnone : ∀ H, holders n h H < n / 2 + 1) :
    BlamesDiverging n h ((preparePeerArray mgr fd m entry l index n).map OutputPeer.restore)
      ↔ ackNodeId m entry l = l := by
  rw [blamesDiverging_of_none hnone, ids_peers,
    map_ackNodeId_perm hn hacks fun i hi => List.mem_range.1 hi]
  exact or_iff_right (not_not.2 (List.mem_range.2 hl))

/-- **Who is blamed.**  With every follower's ack delivered, the restore
commands name the right nodes exactly if all hashes agree, or the log file is
there, the leader has its own hash, and either it is in the majority or its own
ack slot, which nobody writes, holds its id. -/
theorem blamesDiverging_iff (hl : l < n) (hn : n ≤ 2 ^ 32) (fp : Bool)
    (hown : (getOutputHash mgr fd index).2 = h l)
    (hacks : ∀ i, i < n → i ≠ l → AckDelivered m entry i (h i) ∧ h i ≠ 0) :
    BlamesDiverging n h (checkDecision mgr fp m entry fd l index n) ↔
      (∀ i, i < n → h i = h l)
      ∨ (fp = true ∧ h l ≠ 0 ∧ (n / 2 + 1 ≤ holders n h (h l) ∨ ackNodeId m entry l = l)) := by
  have hdel : ∀ i, i < n → i ≠ l → AckDelivered m entry i (h i) := fun i hi hil => (hacks i hi hil).1
  unfold checkDecision
  by_cases hfp : fp = true
  case neg =>
    -- without the log file `do_decision` gives up
    have hnil : (doDecision fp (preparePeerArray mgr fd m entry l index n)).2 = [] := by
      rw [Bool.not_eq_true] at hfp
      unfold doDecision
      rw [if_pos hfp]
      split <;> rfl
    rw [hnil, blamesDiverging_nil hl]
    exact ⟨.inl, fun hc => hc.elim id fun hc => absurd hc.1 hfp⟩
  subst hfp
  by_cases hzero : h l = 0
  · -- a missing hash, here the own one, ends the decision
    have hnil : (doDecision true (preparePeerArray mgr fd m entry l index n)).2 = [] := by
      refine doDecision_of_zero (List.mem_map.2 ⟨l, List.mem_range.2 hl, rfl⟩) ?_
      simp only [if_true, hown, hzero]
    rw [hnil, blamesDiverging_nil hl]
    exact ⟨.inl, fun hc => hc.elim id fun hc => absurd hzero hc.2.1⟩
  have hne : preparePeerArray mgr fd m entry l index n ≠ [] :=
    List.ne_nil_of_mem (List.mem_map.2 ⟨l, List.mem_range.2 hl, rfl⟩)
  have hnz : ∀ p ∈ preparePeerArray mgr fd m entry l index n, p.hash ≠ 0 := by
    intro p hp
    obtain ⟨i, hi, rfl⟩ := List.mem_map.1 hp
    show (if i = l then _ else _) ≠ 0
    rw [peers_hash hown hdel i (List.mem_range.1 hi)]
    by_cases hil : i = l
    · rw [hil]; exact hzero
    · exact (hacks i (List.mem_range.1 hi) hil).2
  -- every hash is there, so the decision is made
  obtain ⟨hyes, hno⟩ := doDecision_restores hne hnz
  have hall : (∀ i, i < n → h i = h l) → n / 2 + 1 ≤ holders n h (h l) := by
    intro hall
    rw [holders_of_all_eq hall]
    omega
  by_cases hm : ∃ H, n / 2 + 1 ≤ holders n h H
  · obtain ⟨H, hH⟩ := hm
    rw [hyes H ((major_peers_iff hown hdel H).2 hH), blamesDiverging_filter_peers hl hn hown hdel hH]
    exact ⟨fun hc => .inr ⟨rfl, hzero, hc⟩, fun hc => hc.elim (.inl ∘ hall) fun hc => hc.2.2⟩
  · have hnone : ∀ H, holders n h H < n / 2 + 1 := fun H => not_le.1 fun hH => hm ⟨H, hH⟩
    rw [hno fun H hH => hm ⟨H, (major_peers_iff hown hdel H).1 hH⟩,
      blamesDiverging_peers hl hn hdel hnone]
    refine ⟨fun hc => .inr ⟨rfl, hzero, .inr hc⟩, ?_⟩
    rintro (hc | ⟨-, -, hc | hc⟩)
    · exact absurd ⟨_, hall hc⟩ hm
    · exact absurd ⟨_, hc⟩ hm
    · exact hc

end Blame

/-- A `P_OUTPUT` entry at the start of a fresh log, with the acks that have
arrived: node and hash. -/
def outputEntry (acks : List (Nat × UInt64)) : Mem :=
  acks.foldl (fun m a => replyEntry m 0 a.1 a.2.toNat)
    (writeLE zeroed offType 1 (ReqType.code .output))

/-- One block that ends in a 1. -/
def oneBlock : List UInt8 := List.replicate 1023 0 ++ [1]

theorem length_oneBlock : oneBlock.length = hashBufferSize := by
  rw [oneBlock, List.length_append, List.length_replicate]
  rfl

/-- The CRC of zeros is 0. -/
theorem crc64_zeros (k : Nat) : crc64 0 (List.replicate k 0) = 0 := by
  have hzero : crc64 0 [0] = 0 := by decide +kernel
  induction k with
  | zero => rfl
  | succ k ih => rw [List.replicate_succ', crc64_append, ih, hzero]

theorem getOutputHash_oneBlock :
    (getOutputHash (runOps [.store 5 oneBlock]) 5 0).2 = 0x7ad870c830358979 := by
  have hwritten : written [.store 5 oneBlock] 5 = oneBlock := List.nil_append _
  have hlast : crc64 0 [1] = 0x7ad870c830358979 := by decide +kernel
  rw [getOutputHash_runOps, hwritten, if_pos (by decide), hashAt, length_oneBlock, if_pos (by decide),
    List.take_of_length_le (length_oneBlock.trans (by decide)).le, oneBlock, crc64_append, crc64_zeros,
    hlast]

/-- The acks of two nodes, one slot each. -/
theorem ackDelivered_two {a b : Nat} (h h' : UInt64) (ha : a < maxServerCount) (hab : a ≠ b) :
    AckDelivered (outputEntry [(a, h), (b, h')]) 0 a h
      ∧ AckDelivered (outputEntry [(a, h), (b, h')]) 0 b h' := by
  have htype : readLE (outputEntry []) (0 + offType) 1 = ReqType.code .output := by decide +kernel
  refine ⟨⟨outputEntry [], htype, ?_⟩, ⟨outputEntry [(a, h)], ?_, fun t _ => rfl⟩⟩
  · intro t ht
    unfold acceptAckSize at ht
    exact replyEntry_outside (outputEntry [(a, h)]) 0 b h'.toNat (by unfold acceptAckSize; omega)
  · rw [← htype]
    apply readLE_congr
    intro i hi
    unfold maxServerCount at ha
    exact replyEntry_outside (outputEntry []) 0 a h.toNat
      (.inr (by unfold acceptAckSize offType; omega))

/-- The leader's hash in the example: of the three nodes only the leader `l`
has written something else. -/
def leaderDiffers (l i : Nat) : UInt64 := if i = l then 0x7ad870c830358979 else 9

theorem checkDecision_oneBlock :
    checkDecision (runOps [.store 5 oneBlock]) true (outputEntry [(0, 9), (2, 9)]) 0 5 1 0 3
      = [⟨0, 0⟩] :=
  (checkDecision_eq getOutputHash_oneBlock ..).trans (by decide +kernel)

/-- The leader is to blame and node 0 is told to restore. -/
theorem blamesDiverging_fails :
    ¬ ∀ (n l : Nat) (mgr : OutputMgr) (m : Mem) (entry fd : Nat) (index : Int) (h : Nat → UInt64),
      l < n → n ≤ 2 ^ 32 → (getOutputHash mgr fd index).2 = h l →
      (∀ i, i < n → i ≠ l → AckDelivered m entry i (h i) ∧ h i ≠ 0) →
      BlamesDiverging n h (checkDecision mgr true m entry fd l index n) := by
  intro hall
  have hacks : ∀ i, i < 3 → i ≠ 1 → AckDelivered (outputEntry [(0, 9), (2, 9)]) 0 i (leaderDiffers 1 i)
      ∧ leaderDiffers 1 i ≠ 0 := by
    intro i hi hne
    have h9 : leaderDiffers 1 i = 9 := if_neg hne
    obtain ⟨h0, h2⟩ := ackDelivered_two 9 9 (show 0 < maxServerCount by decide) (show 0 ≠ 2 by decide)
    rw [h9]
    have : i = 0 ∨ i = 2 := by omega
    rcases this with rfl | rfl
    · exact ⟨h0, by decide⟩
    · exact ⟨h2, by decide⟩
  have hb := hall 3 1 _ _ 0 5 0 (leaderDiffers 1) (by decide) (by decide) getOutputHash_oneBlock hacks
  rw [checkDecision_oneBlock] at hb
  exact absurd (hb.1 9 (by decide)) (by decide)

/-- Under leader 0 the same divergence is blamed on the leader: its slot in a
fresh log holds 0. -/
theorem blamesDiverging_leaderZero :
    BlamesDiverging 3 (leaderDiffers 0)
      (checkDecision (runOps [.store 5 oneBlock]) true (outputEntry [(1, 9), (2, 9)]) 0 5 0 0 3) := by
  refine (blamesDiverging_iff (by decide) (by decide) true getOutputHash_oneBlock ?_).2
    (.inr ⟨rfl, by decide, .inr (by decide +kernel)⟩)
  intro i hi hne
  have h9 : leaderDiffers 0 i = 9 := if_neg hne
  obtain ⟨h1, h2⟩ := ackDelivered_two 9 9 (show 1 < maxServerCount by decide) (show 1 ≠ 2 by decide)
  rw [h9]
  have : i = 1 ∨ i = 2 := by omega
  rcases this with rfl | rfl
  · exact ⟨h1, by decide⟩
  · exact ⟨h2, by decide⟩

/-! ## §7. No false alarm. -/

/-- Equal hashes stop the decision or restore nobody. -/
theorem doDecision_of_same {fp : Bool} {peers : List OutputPeer} {H : UInt64}
    (h : ∀ p ∈ peers, p.hash = 0 ∨ p.hash = H) : (doDecision fp peers).2 = [] := by
  by_cases hz : ∃ p ∈ peers, p.hash = 0
  · obtain ⟨p, hp, h0⟩ := hz
    exact doDecision_of_zero hp h0
  · have hnz : ∀ p ∈ peers, p.hash ≠ 0 := fun p hp h0 => hz ⟨p, hp, h0⟩
    by_cases hne : peers = []
    · rw [hne]
      rfl
    · cases fp with
      | false =>
          unfold doDecision
          rw [if_pos rfl]
          split <;> rfl
      | true =>
          -- no hash is missing, so all of them are `H`
          have hall : countHash peers H = peers.length := by
            apply List.countP_eq_length.2
            intro p hp
            rw [(h p hp).resolve_left (hnz p hp), beq_self_eq_true]
          have hmajor : Major peers H := by
            have : peers.length ≠ 0 := fun h0 => hne (List.length_eq_zero_iff.1 h0)
            unfold Major
            omega
          rw [(doDecision_restores hne hnz).1 H hmajor, filter_eq_nil_of_countHash hall]
          rfl

/-- **No false alarm.**  All nodes write one stream `S`, each on its own
descriptor, cut in its own way among whatever other calls, and each as far as it
is when the entry reaches it (the leader: when it decides); whichever acks have
arrived by then, nobody is told to restore. -/
theorem no_restore_of_sameStream (n l : Nat) (fp : Bool) (S : List UInt8) (index : Int)
    (ops : Nat → List Op) (fd : Nat → Nat) (hsame : ∀ i, i < n → written (ops i) (fd i) <+: S)
    (m : Mem) (entry : Nat)
    (hacks : ∀ i, i < n → i ≠ l → AckMissing m entry i
      ∨ AckDelivered m entry i (getOutputHash (runOps (ops i)) (fd i) index).2) :
    checkDecision (runOps (ops l)) fp m entry (fd l) l index n = [] := by
  -- a node has no hash for this index yet, or that of the common stream
  have hhash : ∀ i, i < n → (getOutputHash (runOps (ops i)) (fd i) index).2 = 0
      ∨ (getOutputHash (runOps (ops i)) (fd i) index).2 = hashAt S index := by
    intro i hi
    rw [getOutputHash_runOps]
    split
    · exact hashAt_of_isPrefix (hsame i hi) index
    · exact .inl rfl
  refine doDecision_of_same (H := hashAt S index) ?_
  intro p hp
  obtain ⟨i, hi, rfl⟩ := List.mem_map.1 hp
  have hi : i < n := List.mem_range.1 hi
  show (if i = l then _ else ackHash m entry i) = 0 ∨ (if i = l then _ else ackHash m entry i) = _
  by_cases hil : i = l
  · rw [if_pos hil, ← hil]
    exact hhash i hi
  · rw [if_neg hil]
    rcases hacks i hi hil with hmiss | hdel
    · exact .inl hmiss.hash_eq
    · rw [hdel.hash_eq]
      exact hhash i hi

/-- Three nodes, leader 2: node 0 has written less than a block, node 1 a block
and a half in two calls, and only the ack of node 1 has arrived. -/
theorem no_restore_threeNodes :
    checkDecision (runOps [.store 6 (List.replicate 2000 7)]) true
      (outputEntry [(1, (getOutputHash (runOps
        [.store 5 (List.replicate 700 7), .store 5 (List.replicate 800 7)]) 5 0).2)]) 0 6 2 0 3 = [] := by
  refine no_restore_of_sameStream 3 2 true (List.replicate 2000 7) 0
    (fun i => match i with
      | 0 => [.store 4 (List.replicate 300 7)]
      | 1 => [.store 5 (List.replicate 700 7), .store 5 (List.replicate 800 7)]
      | _ => [.store 6 (List.replicate 2000 7)])
    (fun i => 4 + i) ?_ _ 0 ?_
  · intro i hi
    match i, hi with
    | 0, _ => exact ⟨List.replicate 1700 7, List.replicate_append_replicate ..⟩
    | 1, _ =>
        refine ⟨List.replicate 500 7, ?_⟩
        show List.replicate 700 7 ++ List.replicate 800 7 ++ List.replicate 500 7 = _
        rw [List.replicate_append_replicate, List.replicate_append_replicate]
    | 2, _ => exact List.prefix_refl _
  · intro i hi hne
    match i, hi with
    | 0, _ =>
        left
        intro t ht
        unfold acceptAckSize at ht
        refine (replyEntry_outside (outputEntry []) 0 1 _
          (.inl (by unfold acceptAckSize; omega))).trans ?_
        exact write_outside _ _ (.inl (by unfold offType acceptAckSize; omega))
    | 1, _ => exact .inr ⟨outputEntry [], by decide +kernel, fun t _ => rfl⟩
    | 2, _ => exact absurd rfl hne

end RdmaPaxos.Output
