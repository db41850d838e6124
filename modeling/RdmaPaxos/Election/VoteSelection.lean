/-
  RdmaPaxos.Election.VoteSelection
  ────────────────────────────────
  **WHO GETS THE VOTE.**

  `poll_vote_requests` goes over the slots twice and clears them as it goes.  The
  first loop drops every request that is not above all earlier ones, so that what is
  left is increasing; the second one takes, of what is left, the last request whose
  log index is not below that of the best so far.  Log indices are 1 for
  `FIXED_LEADER` and 0 for everybody else:

      own index   slot 1 left    the second loop ends with
      1           –              the own SID (nobody's log is as good)
      0           yes            the request of `FIXED_LEADER`
      0           no             the request with the largest SID

  §1  a callback that runs alone;
  §2  the two loops as folds over the slots;
  §3  what is left of the requests;
  §4  who is chosen;
  §5  the theorem, and why its slots are those of every run of the group.
-/
import RdmaPaxos.Election.Safety

namespace RdmaPaxos.Election

open RdmaPaxos.Run

/-! ## §1. A callback without interference. -/

/-- At most `fuel` steps of the running callback, and the RDMA writes it posts. -/
def runAlone (n i : Nat) : Nat → Server → Server × List (Nat × Write)
  | 0, s => (s, [])
  | fuel + 1, s =>
      match runCallback n i s with
      | none => (s, [])
      | some (s', e) =>
          let r := runAlone n i fuel s'
          (r.1, e.write.toList ++ r.2)

section Alone
variable {n i fuel : Nat} {s s' : Server}

/-- A server that is idle has nothing to run. -/
theorem runAlone_idle (h : s.pc = .idle) : runAlone n i fuel s = (s, []) := by
  cases fuel with
  | zero => rfl
  | succ fuel =>
      have hnone : runCallback n i s = none := by
        unfold runCallback
        rw [h]
      simp only [runAlone, hnone]

/-- One step of the callback, and the rest. -/
theorem runAlone_succ {e : Effect} (h : runCallback n i s = some (s', e)) :
    runAlone n i (fuel + 1) s
      = ((runAlone n i fuel s').1, e.write.toList ++ (runAlone n i fuel s').2) := by
  simp only [runAlone, h]

/-- A step that posts nothing. -/
theorem runAlone_silent (vote : Option (Nat × Nat))
    (h : runCallback n i s = some (s', ⟨none, vote⟩)) :
    runAlone n i (fuel + 1) s = runAlone n i fuel s' := runAlone_succ h

/-- The callback is over, with this SID and these writes. -/
structure Answers (r : Server × List (Nat × Write)) (sid : Nat) (writes : List (Nat × Write)) :
    Prop where
  idle : r.1.pc = .idle
  sid : r.1.sid = sid
  writes : r.2 = writes

/-- The end of `poll_vote_requests`: the own term is raised, or the candidate acked. -/
theorem answers_raise {highest : Nat} {best : VoteReq} (h : best.sid = sidSetL s.sid) :
    Answers (runAlone n i (fuel + 2) { s with pc := .choose n highest best })
      (sidSetIdx (sidSetTerm s.sid highest) i) [] := by
  have hstep : runCallback n i { s with pc := .choose n highest best }
      = some ({ s with sid := sidSetIdx (sidSetTerm s.sid highest) i, pc := .idle }, .none) := by
    unfold runCallback decideVote
    dsimp only
    rw [if_neg (Nat.lt_irrefl n), if_pos h, serverUpdateSid_self]
  rw [runAlone_silent none hstep, runAlone_idle rfl]
  exact ⟨rfl, rfl, rfl⟩

/-- The last two steps send the ack. -/
theorem answers_ack {highest : Nat} {best : VoteReq} (h : best.sid ≠ sidSetL s.sid) :
    Answers (runAlone n i (fuel + 2) { s with pc := .choose n highest best })
      best.sid [(sidGetIdx best.sid, .voteAck s.logEnd)] := by
  have hstep : runCallback n i { s with pc := .choose n highest best }
      = some ({ s with sid := best.sid, timer := none, pc := .ack },
        ⟨none, some (sidGetTerm best.sid, sidGetIdx best.sid)⟩) := by
    unfold runCallback decideVote
    dsimp only
    rw [if_neg (Nat.lt_irrefl n), if_neg h, serverUpdateSid, if_pos rfl]
  have hack : runCallback n i { s with sid := best.sid, timer := none, pc := .ack }
      = some ({ s with sid := best.sid, timer := some .receive, pc := .idle },
        ⟨some (sidGetIdx best.sid, .voteAck s.logEnd), none⟩) := rfl
  rw [runAlone_silent _ hstep, runAlone_succ hack, runAlone_idle rfl]
  exact ⟨rfl, rfl, rfl⟩

end Alone

/-! ## §2. The loops. -/

/-- `best_sid` of the first loop after the slots below `j`. -/
def bestBelow (old i : Nat) (req : Nat → VoteReq) : Nat → Nat
  | 0 => old
  | j + 1 => if j = i then bestBelow old i req j else max (bestBelow old i req j) (req j).sid

/-- The slots when the first loop is at `j`. -/
def scannedSlots (old i : Nat) (req : Nat → VoteReq) (j k : Nat) : VoteReq :=
  if k < j ∧ k ≠ i ∧ (req k).sid ≤ bestBelow old i req k then { req k with sid := 0 } else req k

/-- `best_request` after one more request. -/
def better (best r : VoteReq) : VoteReq :=
  if r.sid < best.sid then best
  else if best.term > r.term ∨ best.term = r.term ∧ best.index > r.index then best
  else r

/-- `best_request` of the second loop after the slots below `j`. -/
def chosenBelow (best : VoteReq) (req : Nat → VoteReq) : Nat → VoteReq
  | 0 => best
  | j + 1 => better (chosenBelow best req j) (req j)

section Loops
variable {n i : Nat} {s : Server}

/-- A slot that was not scanned is as it was. -/
theorem scannedSlots_of_le {old j k : Nat} {req : Nat → VoteReq} (h : j ≤ k) :
    scannedSlots old i req j k = req k := if_neg fun hlt => by omega

/-- Nothing happens to slot `j` when it is the own one or a better one. -/
theorem scannedSlots_succ_keep {old j : Nat} {req : Nat → VoteReq}
    (h : j = i ∨ bestBelow old i req j < (req j).sid) :
    scannedSlots old i req (j + 1) = scannedSlots old i req j := by
  funext k
  unfold scannedSlots
  by_cases hk : k = j
  · subst hk
    rw [if_neg (by omega), if_neg (by omega)]
  · have hlt : k < j + 1 ↔ k < j := by omega
    simp only [hlt]

/-- A request that is not better than those before it is dropped. -/
theorem scannedSlots_succ_drop {old j : Nat} {req : Nat → VoteReq} (hj : j ≠ i)
    (h : (req j).sid ≤ bestBelow old i req j) :
    scannedSlots old i req (j + 1)
      = Function.update (scannedSlots old i req j) j { req j with sid := 0 } := by
  funext k
  by_cases hk : k = j
  · subst hk
    rw [Function.update_self]
    exact if_pos ⟨Nat.lt_succ_self k, hj, h⟩
  · have hlt : k < j + 1 ↔ k < j := by omega
    rw [Function.update_of_ne hk]
    unfold scannedSlots
    simp only [hlt]

/-- One iteration of the first loop. -/
theorem scanSlot_eq {old j : Nat} {req : Nat → VoteReq} (hreq : s.voteReq = scannedSlots old i req j) :
    scanSlot i j (bestBelow old i req j) s
      = { s with
          voteReq := scannedSlots old i req (j + 1)
          pc := .scan (j + 1) (bestBelow old i req (j + 1)) } := by
  have hslot : s.voteReq j = req j := by rw [hreq, scannedSlots_of_le (Nat.le_refl j)]
  unfold scanSlot
  rw [hslot]
  by_cases hj : j = i
  · rw [if_pos hj, scannedSlots_succ_keep (.inl hj), ← hreq]
    simp only [bestBelow, if_pos hj]
  · rw [if_neg hj]
    by_cases hle : (req j).sid ≤ bestBelow old i req j
    · rw [if_pos hle, scannedSlots_succ_drop hj hle, ← hreq]
      simp only [bestBelow, if_neg hj, Nat.max_eq_left hle, Server.drop, hslot]
    · rw [if_neg hle, scannedSlots_succ_keep (.inr (by omega)), ← hreq]
      simp only [bestBelow, if_neg hj, Nat.max_eq_right (Nat.le_of_not_le hle)]

/-- **The first loop.** -/
theorem runAlone_scan (old : Nat) {j : Nat} (hj : j ≤ n) (fuel : Nat) :
    runAlone n i (j + fuel) { s with pc := .scan 0 old }
      = runAlone n i fuel { s with
          voteReq := scannedSlots old i s.voteReq j
          pc := .scan j (bestBelow old i s.voteReq j) } := by
  induction j generalizing fuel with
  | zero =>
      have hnone : scannedSlots old i s.voteReq 0 = s.voteReq :=
        funext fun k => scannedSlots_of_le (Nat.zero_le k)
      rw [Nat.zero_add, hnone]
      rfl
  | succ j ih =>
      rw [Nat.add_right_comm, Nat.add_assoc, ih (by omega)]
      refine runAlone_silent none ?_
      unfold runCallback
      dsimp only
      rw [if_pos (by omega), scanSlot_eq rfl]
      rfl

/-- One iteration of the second loop, once `highest_term` is the highest. -/
theorem chooseSlot_eq {j highest : Nat} (best : VoteReq)
    (hterm : sidGetTerm (s.voteReq j).sid ≤ highest) :
    ∃ slots, (∀ k, j + 1 ≤ k → slots k = s.voteReq k) ∧ chooseSlot j highest best s
      = { s with voteReq := slots, pc := .choose (j + 1) highest (better best (s.voteReq j)) } := by
  have hdrop : ∀ k, j + 1 ≤ k → (s.drop j).voteReq k = s.voteReq k := fun k hk =>
    Function.update_of_ne (by omega) _ _
  unfold chooseSlot better
  simp only [if_neg (Nat.not_lt.mpr hterm)]
  split
  · exact ⟨_, hdrop, rfl⟩
  · split
    · exact ⟨_, fun _ _ => rfl, rfl⟩
    · exact ⟨_, hdrop, rfl⟩

/-- **The second loop.** -/
theorem runAlone_choose {highest : Nat} (best : VoteReq)
    (hterm : ∀ k < n, sidGetTerm (s.voteReq k).sid ≤ highest) {j : Nat} (hj : j ≤ n) (fuel : Nat) :
    ∃ slots, (∀ k, j ≤ k → slots k = s.voteReq k) ∧
      runAlone n i (j + fuel) { s with pc := .choose 0 highest best }
        = runAlone n i fuel { s with
            voteReq := slots
            pc := .choose j highest (chosenBelow best s.voteReq j) } := by
  induction j generalizing fuel with
  | zero => exact ⟨s.voteReq, fun _ _ => rfl, by rw [Nat.zero_add]; rfl⟩
  | succ j ih =>
      obtain ⟨slots, hslots, hrun⟩ := ih (by omega) (fuel + 1)
      have hslot : slots j = s.voteReq j := hslots j (Nat.le_refl j)
      have hle : sidGetTerm (slots j).sid ≤ highest := by
        rw [hslot]
        exact hterm j (by omega)
      obtain ⟨slots', hslots', hchoose⟩ := chooseSlot_eq
        (s := { s with voteReq := slots, pc := .choose j highest (chosenBelow best s.voteReq j) })
        (chosenBelow best s.voteReq j) hle
      refine ⟨slots', fun k hk => (hslots' k hk).trans (hslots k (by omega)), ?_⟩
      rw [Nat.add_right_comm, Nat.add_assoc, hrun]
      refine runAlone_silent none ?_
      unfold runCallback
      dsimp only at hchoose ⊢
      rw [if_pos (by omega), hchoose, hslot]
      rfl

/-- `poll_vote_requests` that finds no better SID. -/
theorem answers_of_bestBelow_eq (fuel : Nat) (hL : sidGetL s.sid = false)
    (hbest : bestBelow (sidSetL s.sid) i s.voteReq n = sidSetL s.sid) :
    Answers (runAlone n i (n + (fuel + 1)) (pollVoteRequests s)) s.sid [] := by
  unfold pollVoteRequests
  rw [hL]
  simp only [Bool.false_eq_true, if_false]
  rw [runAlone_scan _ (Nat.le_refl n), hbest]
  have hstep : runCallback n i { s with
        voteReq := scannedSlots (sidSetL s.sid) i s.voteReq n, pc := .scan n (sidSetL s.sid) }
      = some ({ s with
        voteReq := scannedSlots (sidSetL s.sid) i s.voteReq n, pc := .idle }, .none) := by
    unfold runCallback
    dsimp only
    rw [if_neg (Nat.lt_irrefl n), if_pos rfl]
  rw [runAlone_silent none hstep, runAlone_idle rfl]
  exact ⟨rfl, rfl, rfl⟩

/-- `poll_vote_requests` that finds one, up to the end of the second loop. -/
theorem runAlone_pollVoteRequests (fuel : Nat) (hL : sidGetL s.sid = false)
    (hbest : bestBelow (sidSetL s.sid) i s.voteReq n ≠ sidSetL s.sid)
    (hterm : ∀ k < n, sidGetTerm (scannedSlots (sidSetL s.sid) i s.voteReq n k).sid
      ≤ sidGetTerm (bestBelow (sidSetL s.sid) i s.voteReq n)) :
    ∃ slots, runAlone n i (n + (n + fuel + 1)) (pollVoteRequests s)
      = runAlone n i fuel { s with
          voteReq := slots
          pc := .choose n (sidGetTerm (bestBelow (sidSetL s.sid) i s.voteReq n))
            (chosenBelow ⟨sidSetL s.sid, logIndex i, 1⟩
              (scannedSlots (sidSetL s.sid) i s.voteReq n) n) } := by
  obtain ⟨slots, -, hrun⟩ := runAlone_choose (i := i)
    (s := { s with voteReq := scannedSlots (sidSetL s.sid) i s.voteReq n })
    ⟨sidSetL s.sid, logIndex i, 1⟩ hterm (Nat.le_refl n) fuel
  refine ⟨slots, Eq.trans ?_ hrun⟩
  unfold pollVoteRequests
  rw [hL]
  simp only [Bool.false_eq_true, if_false]
  rw [runAlone_scan _ (Nat.le_refl n)]
  refine runAlone_silent none ?_
  unfold runCallback
  dsimp only
  rw [if_neg (Nat.lt_irrefl n), if_neg hbest]
  rfl

end Loops

/-! ## §3. What is left of the requests. -/

/-- Slot `j` is still there when the first loop is over, and not the own one. -/
def Survives (old i : Nat) (req : Nat → VoteReq) (j : Nat) : Prop :=
  j ≠ i ∧ bestBelow old i req j < (req j).sid

section Best
variable {old i : Nat} {req : Nat → VoteReq}

/-- The best SID is no worse than the server's own. -/
theorem old_le_bestBelow (j : Nat) : old ≤ bestBelow old i req j := by
  induction j with
  | zero => exact Nat.le_refl _
  | succ j ih =>
      unfold bestBelow
      split
      · exact ih
      · exact ih.trans (Nat.le_max_left _ _)

/-- It is no worse than any that was scanned. -/
theorem le_bestBelow {j k : Nat} (hk : k < j) (hi : k ≠ i) :
    (req k).sid ≤ bestBelow old i req j := by
  induction j with
  | zero => omega
  | succ j ih =>
      unfold bestBelow
      by_cases hkj : k = j
      · subst hkj
        rw [if_neg hi]
        exact Nat.le_max_right _ _
      · have hle := ih (by omega)
        split
        · exact hle
        · exact hle.trans (Nat.le_max_left _ _)

/-- `best_sid` is the own SID, or one of the requests. -/
theorem bestBelow_cases (old i : Nat) (req : Nat → VoteReq) (j : Nat) :
    bestBelow old i req j = old ∨ ∃ k < j, k ≠ i ∧ bestBelow old i req j = (req k).sid := by
  induction j with
  | zero => exact .inl rfl
  | succ j ih =>
      have hold : bestBelow old i req j = old
          ∨ ∃ k < j + 1, k ≠ i ∧ bestBelow old i req j = (req k).sid := by
        rcases ih with h | ⟨k, hk, hne, h⟩
        · exact .inl h
        · exact .inr ⟨k, by omega, hne, h⟩
      unfold bestBelow
      by_cases hj : j = i
      · rw [if_pos hj]
        exact hold
      · rw [if_neg hj]
        rcases Nat.le_total (req j).sid (bestBelow old i req j) with hle | hle
        · rw [Nat.max_eq_left hle]
          exact hold
        · rw [Nat.max_eq_right hle]
          exact .inr ⟨j, Nat.lt_succ_self j, hj, rfl⟩

/-- A request that survives is the best so far. -/
theorem bestBelow_succ_of_survives {j : Nat} (h : Survives old i req j) :
    bestBelow old i req (j + 1) = (req j).sid := by
  rw [bestBelow, if_neg h.1, Nat.max_eq_right (Nat.le_of_lt h.2)]

/-- One that does not leaves the best as it was. -/
theorem bestBelow_succ_of_not_survives {j : Nat} (h : ¬ Survives old i req j) :
    bestBelow old i req (j + 1) = bestBelow old i req j := by
  by_cases hj : j = i
  · rw [bestBelow, if_pos hj]
  · rw [bestBelow, if_neg hj, Nat.max_eq_left (Nat.le_of_not_lt fun hlt => h ⟨hj, hlt⟩)]

/-- A request that survives stays in its slot. -/
theorem scannedSlots_of_survives {n j : Nat} (h : Survives old i req j) :
    scannedSlots old i req n j = req j := if_neg fun hdrop => by have := h.2; omega

/-- What does not survive is below the own SID. -/
theorem scannedSlots_lt_of_not_survives {n j : Nat} (hj : j < n) (hold : 0 < old)
    (hown : (req i).sid < old) (h : ¬ Survives old i req j) :
    (scannedSlots old i req n j).sid < old := by
  unfold scannedSlots
  by_cases hji : j = i
  · rw [if_neg fun hdrop => hdrop.2.1 hji, hji]
    exact hown
  · rw [if_pos ⟨hj, hji, Nat.le_of_not_lt fun hlt => h ⟨hji, hlt⟩⟩]
    exact hold

theorem better_of_lt {best r : VoteReq} (h : r.sid < best.sid) : better best r = best := if_pos h

/-- A request that is above the best one, with a log as good, is taken. -/
theorem better_take {best r : VoteReq} (hsid : best.sid ≤ r.sid) (hterm : r.term = best.term)
    (hindex : best.index ≤ r.index) : better best r = r := by
  unfold better
  rw [if_neg (Nat.not_lt.mpr hsid), if_neg (by omega)]

/-- One with a worse log is not. -/
theorem better_keep {best r : VoteReq} (hterm : r.term = best.term)
    (hindex : r.index < best.index) : better best r = best := by
  unfold better
  split
  · rfl
  · rw [if_pos (.inr ⟨hterm.symm, hindex⟩)]

end Best

/-! ## §4. Who is chosen. -/

section Choice
variable {n i old : Nat} {req : Nat → VoteReq}

/-- The slots as the second loop needs them, with the own SID [t|1|x] as `old`. -/
structure Candidates (n i old : Nat) (req : Nat → VoteReq) : Prop where
  pos : 0 < old
  own : (req i).sid < old
  first : (req initLeader).sid = 0
  term : ∀ j < n, old < (req j).sid → (req j).term = 1
  index : ∀ j < n, old < (req j).sid → (req j).index = logIndex j

/-- A request that survives the first loop. -/
theorem Candidates.survivor (h : Candidates n i old req) {j : Nat} (hj : j < n)
    (hs : Survives old i req j) :
    (scannedSlots old i req n j).sid = (req j).sid ∧ (scannedSlots old i req n j).term = 1
      ∧ (scannedSlots old i req n j).index = logIndex j ∧ old < (req j).sid := by
  have hlt : old < (req j).sid := Nat.lt_of_le_of_lt (old_le_bestBelow j) hs.2
  rw [scannedSlots_of_survives hs]
  exact ⟨rfl, h.term j hj hlt, h.index j hj hlt, hlt⟩

/-- `FIXED_LEADER` itself: no request has a log as good. -/
theorem Candidates.chosen_fixedLeader (h : Candidates n fixedLeader old req) {j : Nat} (hj : j ≤ n) :
    chosenBelow ⟨old, 1, 1⟩ (scannedSlots old fixedLeader req n) j = ⟨old, 1, 1⟩ := by
  induction j with
  | zero => rfl
  | succ j ih =>
      unfold chosenBelow
      rw [ih (by omega)]
      by_cases hs : Survives old fixedLeader req j
      · obtain ⟨-, hterm, hindex, -⟩ := h.survivor hj hs
        refine better_keep hterm ?_
        rw [hindex, logIndex, if_neg hs.1]
        exact Nat.one_pos
      · exact better_of_lt (scannedSlots_lt_of_not_survives hj h.pos h.own hs)

/-- The request of `FIXED_LEADER` comes first and stays. -/
theorem Candidates.chosen_request (h : Candidates n i old req) (hi : i ≠ fixedLeader)
    (hnew : old < (req fixedLeader).sid) {j : Nat} (hj : j ≤ n) (hlow : fixedLeader < j) :
    chosenBelow ⟨old, 0, 1⟩ (scannedSlots old i req n) j = req fixedLeader := by
  -- nothing is before it
  have hfirst : ¬ Survives old i req 0 := fun hs => by
    have hzero : (req 0).sid = 0 := h.first
    have hlt := hs.2
    omega
  have hsurvives : Survives old i req fixedLeader := by
    refine ⟨Ne.symm hi, ?_⟩
    rw [show fixedLeader = 0 + 1 from rfl, bestBelow_succ_of_not_survives hfirst]
    exact hnew
  induction j with
  | zero => omega
  | succ j ih =>
      unfold chosenBelow
      by_cases hjf : j = fixedLeader
      · subst hjf
        obtain ⟨hsid, hterm, hindex, -⟩ := h.survivor hj hsurvives
        have hstart : chosenBelow ⟨old, 0, 1⟩ (scannedSlots old i req n) fixedLeader
            = ⟨old, 0, 1⟩ :=
          better_of_lt (scannedSlots_lt_of_not_survives (Nat.zero_lt_of_lt hj) h.pos h.own hfirst)
        rw [hstart, better_take (by rw [hsid]; exact Nat.le_of_lt hnew) hterm (Nat.zero_le _)]
        exact scannedSlots_of_survives hsurvives
      · rw [ih (by omega) (by omega)]
        by_cases hs : Survives old i req j
        · obtain ⟨-, hterm, hindex, -⟩ := h.survivor hj hs
          refine better_keep (hterm.trans (h.term _ (by omega) hnew).symm) ?_
          rw [hindex, h.index _ (by omega) hnew, logIndex, if_neg hjf]
          exact Nat.one_pos
        · exact better_of_lt
            ((scannedSlots_lt_of_not_survives hj h.pos h.own hs).trans hnew)

/-- Without it, the second loop follows the first. -/
theorem Candidates.chosen_largest (h : Candidates n i old req)
    (hnot : fixedLeader < n → (req fixedLeader).sid ≤ old) {j : Nat} (hj : j ≤ n) :
    (chosenBelow ⟨old, 0, 1⟩ (scannedSlots old i req n) j).sid = bestBelow old i req j
      ∧ (chosenBelow ⟨old, 0, 1⟩ (scannedSlots old i req n) j).index = 0
      ∧ (chosenBelow ⟨old, 0, 1⟩ (scannedSlots old i req n) j).term = 1 := by
  induction j with
  | zero => exact ⟨rfl, rfl, rfl⟩
  | succ j ih =>
      obtain ⟨hsid, hindex, hterm⟩ := ih (by omega)
      unfold chosenBelow
      by_cases hs : Survives old i req j
      · -- only the request of `FIXED_LEADER` has an index above 0, and it is not left
        obtain ⟨hsid', hterm', hindex', hlt⟩ := h.survivor hj hs
        have hne : j ≠ fixedLeader := fun heq => by
          subst heq
          exact absurd (hnot hj) (Nat.not_le.mpr hlt)
        rw [better_take (by rw [hsid, hsid']; exact Nat.le_of_lt hs.2) (hterm'.trans hterm.symm)
          (by rw [hindex]; exact Nat.zero_le _), bestBelow_succ_of_survives hs]
        refine ⟨hsid', ?_, hterm'⟩
        rw [hindex', logIndex, if_neg hne]
      · rw [bestBelow_succ_of_not_survives hs, better_of_lt]
        · exact ⟨hsid, hindex, hterm⟩
        · rw [hsid]
          exact Nat.lt_of_lt_of_le (scannedSlots_lt_of_not_survives hj h.pos h.own hs)
            (old_le_bestBelow j)

end Choice

/-! ## §5. The theorem. -/

/-- The slots of server `i` of `n`, whose SID is [t|0|x]: the requests are as
`rc_send_vote_request` makes them, none of them from `INIT_LEADER`, and the own one
is not above the own SID. -/
structure VoteRequests (n i : Nat) (s : Server) : Prop where
  sid : s.sid < 2 ^ 64
  flag : sidGetL s.sid = false
  request : ∀ j < n, (s.voteReq j).sid ≠ 0 → (s.voteReq j).sid < 2 ^ 64
    ∧ sidGetL (s.voteReq j).sid = false ∧ (s.voteReq j).term = 1
    ∧ (s.voteReq j).index = logIndex j
  initLeader : (s.voteReq initLeader).sid = 0
  own : (s.voteReq i).sid ≤ s.sid

/-- The request in slot `j` is of a later term. -/
def Newer (s : Server) (j : Nat) : Prop := sidGetTerm s.sid < sidGetTerm (s.voteReq j).sid

section Polls
variable {n i : Nat} {s : Server}

/-- The leader bit is not set. -/
theorem VoteRequests.sid_lt (h : VoteRequests n i s) : s.sid % 512 < 256 := sidGetL_false h.flag

/-- Of a later term: above [t|1|x]. -/
theorem VoteRequests.newer_iff (h : VoteRequests n i s) {j : Nat} (hj : j < n) :
    Newer s j ↔ sidSetL s.sid < (s.voteReq j).sid := by
  have hL := h.sid_lt
  unfold Newer
  rw [sidGetTerm_eq, sidGetTerm_eq, sidSetL_of_lt hL]
  by_cases hzero : (s.voteReq j).sid = 0
  · omega
  · have hflag := sidGetL_false (h.request j hj hzero).2.1
    omega

/-- The slots are as the second loop needs them. -/
theorem VoteRequests.candidates (h : VoteRequests n i s) :
    Candidates n i (sidSetL s.sid) s.voteReq := by
  have hold := sidSetL_of_lt h.sid_lt
  have hown := h.own
  refine ⟨by omega, by omega, h.initLeader, fun j hj hlt => ?_, fun j hj hlt => ?_⟩
  · exact (h.request j hj (by omega)).2.2.1
  · exact (h.request j hj (by omega)).2.2.2

/-- No slot that is left is of a later term than `best_sid`. -/
theorem VoteRequests.highest (h : VoteRequests n i s) (k : Nat) (hk : k < n) :
    sidGetTerm (scannedSlots (sidSetL s.sid) i s.voteReq n k).sid
      ≤ sidGetTerm (bestBelow (sidSetL s.sid) i s.voteReq n) := by
  have hc := h.candidates
  have hle : (scannedSlots (sidSetL s.sid) i s.voteReq n k).sid
      ≤ bestBelow (sidSetL s.sid) i s.voteReq n := by
    by_cases hs : Survives (sidSetL s.sid) i s.voteReq k
    · rw [scannedSlots_of_survives hs]
      exact le_bestBelow hk hs.1
    · exact (Nat.le_of_lt (scannedSlots_lt_of_not_survives hk hc.pos hc.own hs)).trans
        (old_le_bestBelow n)
  rw [sidGetTerm_eq, sidGetTerm_eq]
  exact Nat.div_le_div_right hle

/-- A request of a later term is seen by the first loop. -/
theorem VoteRequests.newer_le (h : VoteRequests n i s) {k : Nat} (hk : k < n) (hnew : Newer s k) :
    sidSetL s.sid < (s.voteReq k).sid
      ∧ (s.voteReq k).sid ≤ bestBelow (sidSetL s.sid) i s.voteReq n := by
  have hlt := (h.newer_iff hk).mp hnew
  have hki : k ≠ i := fun heq => by
    subst heq
    exact absurd h.candidates.own (Nat.lt_asymm hlt)
  exact ⟨hlt, le_bestBelow hk hki⟩

/-- The largest request above the own term is `best_sid`. -/
theorem VoteRequests.bestBelow_eq (h : VoteRequests n i s) {k : Nat} (hk : k < n) (hnew : Newer s k)
    (hmax : ∀ j < n, Newer s j → (s.voteReq j).sid ≤ (s.voteReq k).sid) :
    bestBelow (sidSetL s.sid) i s.voteReq n = (s.voteReq k).sid := by
  obtain ⟨hlt, hle⟩ := h.newer_le hk hnew
  refine Nat.le_antisymm ?_ hle
  rcases bestBelow_cases (sidSetL s.sid) i s.voteReq n with
    heq | ⟨j, hj, -, heq⟩
  · rw [heq]
    exact Nat.le_of_lt hlt
  · rw [heq]
    by_cases hnewj : Newer s j
    · exact hmax j hj hnewj
    · exact (Nat.le_of_not_lt fun hgt => hnewj ((h.newer_iff hj).mpr hgt)).trans (Nat.le_of_lt hlt)

/-- Its term is the largest one requested. -/
theorem VoteRequests.term_bestBelow_eq (h : VoteRequests n i s) {k : Nat} (hk : k < n)
    (hnew : Newer s k)
    (hmax : ∀ j < n, sidGetTerm (s.voteReq j).sid ≤ sidGetTerm (s.voteReq k).sid) :
    sidGetTerm (bestBelow (sidSetL s.sid) i s.voteReq n) = sidGetTerm (s.voteReq k).sid := by
  obtain ⟨hlt, hle⟩ := h.newer_le hk hnew
  rcases bestBelow_cases (sidSetL s.sid) i s.voteReq n with
    heq | ⟨j, hj, -, heq⟩
  · omega
  · refine Nat.le_antisymm ?_ ?_
    · rw [heq]
      exact hmax j hj
    · rw [sidGetTerm_eq, sidGetTerm_eq]
      exact Nat.div_le_div_right hle

/-- The request in slot `j` is answered: its SID becomes the own one, and the log
offset is written to the candidate it names. -/
def Supports (s : Server) (r : Server × List (Nat × Write)) (j : Nat) : Prop :=
  Answers r (s.voteReq j).sid [(sidGetIdx (s.voteReq j).sid, .voteAck s.logEnd)]

/-- Nobody is of a later term. -/
theorem VoteRequests.unchanged (h : VoteRequests n i s) (fuel : Nat) (hnone : ∀ j < n, ¬ Newer s j) :
    Answers (runAlone n i (n + (fuel + 1)) (pollVoteRequests s)) s.sid [] := by
  refine answers_of_bestBelow_eq _ h.flag ?_
  rcases bestBelow_cases (sidSetL s.sid) i s.voteReq n with
    heq | ⟨j, hj, -, heq⟩
  · exact heq
  · refine Nat.le_antisymm ?_ (old_le_bestBelow n)
    rw [heq]
    exact Nat.le_of_not_lt fun hlt => hnone j hj ((h.newer_iff hj).mpr hlt)

/-- Somebody is, and the second loop has chosen. -/
theorem VoteRequests.chosen (h : VoteRequests n i s) (fuel : Nat) {k : Nat} (hk : k < n)
    (hnew : Newer s k) :
    ∃ slots, runAlone n i (n + (n + fuel + 1)) (pollVoteRequests s)
      = runAlone n i fuel { s with
          voteReq := slots
          pc := .choose n (sidGetTerm (bestBelow (sidSetL s.sid) i s.voteReq n))
            (chosenBelow ⟨sidSetL s.sid, logIndex i, 1⟩
              (scannedSlots (sidSetL s.sid) i s.voteReq n) n) } := by
  obtain ⟨hlt, hle⟩ := h.newer_le hk hnew
  exact runAlone_pollVoteRequests fuel h.flag (by omega) h.highest

/-- The fixed leader raises its term to the highest it has seen. -/
theorem VoteRequests.raises (h : VoteRequests n fixedLeader s) (fuel : Nat) {k : Nat} (hk : k < n)
    (hnew : Newer s k)
    (hmax : ∀ j < n, sidGetTerm (s.voteReq j).sid ≤ sidGetTerm (s.voteReq k).sid) :
    Answers (runAlone n fixedLeader (n + (n + (fuel + 2) + 1)) (pollVoteRequests s))
      (512 * sidGetTerm (s.voteReq k).sid + fixedLeader) [] := by
  obtain ⟨slots, hrun⟩ := h.chosen (fuel + 2) hk hnew
  have hsid : (s.voteReq k).sid < 2 ^ 64 := (h.request k hk fun hzero => by
    have := (h.newer_iff hk).mp hnew
    omega).1
  have hfit : sidGetTerm (s.voteReq k).sid < 2 ^ 55 := by
    rw [sidGetTerm_eq]
    omega
  rw [hrun, h.term_bestBelow_eq hk hnew hmax, logIndex, if_pos rfl,
    h.candidates.chosen_fixedLeader (Nat.le_refl n), ← raisedSid_eq h.sid_lt hfit (by decide)]
  exact answers_raise (s := { s with voteReq := slots }) rfl

/-- Another server supports the fixed leader, if that is a candidate. -/
theorem VoteRequests.supports_fixedLeader (h : VoteRequests n i s) (fuel : Nat)
    (hi : i ≠ fixedLeader) (hlt : fixedLeader < n) (hnew : Newer s fixedLeader) :
    Supports s (runAlone n i (n + (n + (fuel + 2) + 1)) (pollVoteRequests s)) fixedLeader := by
  obtain ⟨slots, hrun⟩ := h.chosen (fuel + 2) hlt hnew
  have hgt := (h.newer_iff hlt).mp hnew
  unfold Supports
  rw [hrun, logIndex, if_neg hi, h.candidates.chosen_request hi hgt (Nat.le_refl n) hlt]
  exact answers_ack (s := { s with voteReq := slots }) (Nat.ne_of_gt hgt)

/-- Otherwise it supports the largest candidate. -/
theorem VoteRequests.supports_largest (h : VoteRequests n i s) (fuel : Nat) (hi : i ≠ fixedLeader)
    (hnot : fixedLeader < n → ¬ Newer s fixedLeader) {k : Nat} (hk : k < n) (hnew : Newer s k)
    (hmax : ∀ j < n, Newer s j → (s.voteReq j).sid ≤ (s.voteReq k).sid) :
    Supports s (runAlone n i (n + (n + (fuel + 2) + 1)) (pollVoteRequests s)) k := by
  obtain ⟨slots, hrun⟩ := h.chosen (fuel + 2) hk hnew
  have hgt := (h.newer_iff hk).mp hnew
  have hlow : fixedLeader < n → (s.voteReq fixedLeader).sid ≤ sidSetL s.sid := fun hlt =>
    Nat.le_of_not_lt fun hgt' => hnot hlt ((h.newer_iff hlt).mpr hgt')
  obtain ⟨hsid, -, -⟩ := h.candidates.chosen_largest hlow (Nat.le_refl n)
  rw [h.bestBelow_eq hk hnew hmax] at hsid
  unfold Supports
  rw [hrun, logIndex, if_neg hi, ← hsid]
  refine answers_ack (s := { s with voteReq := slots }) ?_
  rw [hsid]
  exact Nat.ne_of_gt hgt

end Polls

/-- **Vote selection.**  A server that polls its slots, with any requests in them and
enough steps to do so, supports `FIXED_LEADER` if its request is of a later term, and
otherwise the largest of the requests that are; `FIXED_LEADER` itself supports nobody
and only moves to the largest term requested; without a request of a later term
nothing changes. -/
theorem poll_vote_requests_selects {n i fuel : Nat} {s : Server}
    (hfuel : 2 * n + 3 ≤ fuel) (h : VoteRequests n i s) :
    ((∀ j < n, ¬ Newer s j) → Answers (runAlone n i fuel (pollVoteRequests s)) s.sid [])
    ∧ (i = fixedLeader → ∀ k < n, Newer s k →
        (∀ j < n, sidGetTerm (s.voteReq j).sid ≤ sidGetTerm (s.voteReq k).sid) →
        ∃ sid, Answers (runAlone n i fuel (pollVoteRequests s)) sid []
          ∧ sidGetTerm sid = sidGetTerm (s.voteReq k).sid ∧ sidGetL sid = false
          ∧ sidGetIdx sid = i)
    ∧ (i ≠ fixedLeader → fixedLeader < n → Newer s fixedLeader →
        Supports s (runAlone n i fuel (pollVoteRequests s)) fixedLeader)
    ∧ (i ≠ fixedLeader → (fixedLeader < n → ¬ Newer s fixedLeader) → ∀ k < n, Newer s k →
        (∀ j < n, Newer s j → (s.voteReq j).sid ≤ (s.voteReq k).sid) →
        Supports s (runAlone n i fuel (pollVoteRequests s)) k) := by
  obtain ⟨f, rfl⟩ := Nat.exists_eq_add_of_le hfuel
  -- `n` steps for a loop and one to leave it; without a later request there is no second loop
  have hone : 2 * n + 3 + f = n + (n + f + 2 + 1) := by omega
  have htwo : 2 * n + 3 + f = n + (n + (f + 2) + 1) := by omega
  refine ⟨fun hnone => ?_, fun hfix k hk hnew hmax => ?_, fun hfix hlt hnew => ?_,
    fun hfix hnot k hk hnew hmax => ?_⟩
  · rw [hone]
    exact h.unchanged _ hnone
  · subst hfix
    refine ⟨_, by rw [htwo]; exact h.raises f hk hnew hmax, ?_⟩
    unfold fixedLeader
    rw [sidGetTerm_eq, sidGetIdx_eq, ← Bool.not_eq_true, sidGetL_iff]
    omega
  · rw [htwo]
    exact h.supports_fixedLeader f hfix hlt hnew
  · rw [htwo]
    exact h.supports_largest f hfix hnot hk hnew hmax

/-- Server 2 in term 1, with requests of server 1 for term 2 and of server 3 for term 5. -/
def twoRequests : Server :=
  { Server.begin 2 with
    sid := 512 + 2
    voteReq := fun j =>
      if j = 1 then ⟨2 * 512 + 1, 1, 1⟩ else if j = 3 then ⟨5 * 512 + 3, 0, 1⟩ else ⟨0, 0, 0⟩ }

/-- Server 1 gets the vote, though server 3 asks for a later term. -/
theorem poll_vote_requests_selects_fixedLeader :
    Answers (runAlone 4 2 11 (pollVoteRequests twoRequests)) (2 * 512 + 1) [(1, .voteAck logSize)] :=
  (@poll_vote_requests_selects 4 2 11 twoRequests (by decide)
    ⟨by decide, by decide, by decide, rfl, by decide⟩).2.2.1 (by decide) (by decide)
    (show sidGetTerm 514 < sidGetTerm 1025 by decide)

/-- In every run of the group, the slots are of this kind whenever they are polled. -/
theorem voteRequests_of_reaches {n i : Nat} {ok : Group → Nat × Event → Prop} {g : Group}
    (hn : n ≤ maxServerCount) (hok : ∀ g a, ok g a → TermFits g a)
    (h : Reaches step ok (Group.initial n) g) (hi : i < n)
    (hflag : sidGetL (g.servers i).sid = false) : VoteRequests n i (g.servers i) := by
  obtain ⟨hinv, hsize⟩ := reaches_inv hn hok h
  have hserver := hinv.server i (by omega)
  unfold maxServerCount at hn
  refine ⟨hserver.sid.1, hflag, fun j hj hne => ?_, ?_, hserver.own⟩
  · obtain ⟨hmod, -, -, hterm, hindex, hlt⟩ := hserver.slot j hne
    refine ⟨hlt, ?_, hterm, hindex⟩
    rw [← Bool.not_eq_true, sidGetL_iff]
    omega
  · by_contra hne
    exact absurd (hserver.slot initLeader hne).2.1 (Nat.lt_irrefl 0)

end RdmaPaxos.Election
