/-
  RdmaPaxos.Election.Safety
  ─────────────────────────
  **AT MOST ONE LEADER PER TERM: WHEN, AND WHEN NOT.**

  A vote ack is a log offset without a term, and a candidate that raises its term
  keeps the acks of the old one.  So from five servers on, two of them can lead one
  term.  Up to four servers only server 1 can collect a majority: server 0 never
  votes, and server 1 never votes for anybody else.

  §1  a leader stays one;
  §2  groups of at most four;
  §3  all groups, as long as every ack meets its candidate in the term it is for
      and nobody raises its term;
  §4  the theorem.
-/
import RdmaPaxos.Election.Invariant

namespace RdmaPaxos.Election

open RdmaPaxos.Votes RdmaPaxos.Run

/-! ## §1. Leading. -/

/-- Server `i` holds the SID [t|1|i]. -/
def Leads (g : Group) (i t : Nat) : Prop :=
  i < g.size ∧ sidGetTerm (g.servers i).sid = t ∧ sidGetL (g.servers i).sid = true
    ∧ sidGetIdx (g.servers i).sid = i

theorem leads_iff {g : Group} {i t : Nat} (hn : g.size ≤ maxServerCount) :
    Leads g i t ↔ i < g.size ∧ (g.servers i).sid / 512 = t ∧ (g.servers i).sid % 512 = 256 + i := by
  unfold Leads
  unfold maxServerCount at hn
  rw [sidGetTerm_eq, sidGetL_iff, sidGetIdx_eq]
  omega

/-- A leader does not change its SID. -/
theorem ServerInv.sid_of_leads {n i : Nat} {votes : List (Nat × Nat × Nat)} {s s' : Server}
    {e : Effect} {ev : Event} (h : ServerInv n votes i s) (hl : s.sid % 512 = 256 + i)
    (hact : Act n i s ev s' e) : s'.sid = s.sid := by
  obtain ⟨htimer, hpc⟩ := h.leads hl
  -- it is neither counting nor choosing, and its timer sends heartbeats
  have hbusy : s.pc = .idle ∨ ∃ j, s.pc = .beat j := hpc
  cases hact with
  | elect hb hreceive hne =>
      rw [htimer] at hreceive
      cases hreceive
  | won hcount _ _ | raise hcount _ _ | vote hcount _ _ =>
      rw [hcount] at hbusy
      rcases hbusy with hbusy | ⟨j, hbusy⟩ <;> cases hbusy
  | _ => rfl

/-- **Once a leader, always a leader.** -/
theorem GroupInv.leads_step {g g' : Group} {a : Nat × Event} {i t : Nat} (h : GroupInv g)
    (hn : g.size ≤ maxServerCount) (hl : Leads g i t) (hstep : step g a = some g') :
    Leads g' i t := by
  obtain ⟨s', e, hi, hact, rfl⟩ := step_cases hstep
  rw [leads_iff hn] at hl
  rw [leads_iff (by rw [after_size]; exact hn), after_size, after_sid]
  by_cases hia : i = a.1
  · subst hia
    rw [if_pos rfl, (h.server a.1 hi).sid_of_leads hl.2.2 hact]
    exact hl
  · rw [if_neg hia]
    exact hl

/-- No two servers ever lead the same term of one run. -/
def ElectionSafe (ok : Group → Nat × Event → Prop) (n : Nat) : Prop :=
  ∀ g g', Reaches step ok (Group.initial n) g → Reaches step ok g g' →
    ∀ i j t, Leads g i t → Leads g' j t → i = j

section Runs
variable {n : Nat} {ok : Group → Nat × Event → Prop} {g g' : Group}

theorem reaches_inv (hn : n ≤ maxServerCount) (hok : ∀ g a, ok g a → TermFits g a)
    (h : Reaches step ok (Group.initial n) g) : GroupInv g ∧ g.size = n := by
  refine h.invariant (I := fun g => GroupInv g ∧ g.size = n) ⟨GroupInv.initial n, rfl⟩ ?_
  rintro s a s' ⟨hinv, hsize⟩ hoka hs
  obtain ⟨hinv', hsize'⟩ := hinv.preserved (by omega) (hok s a hoka).termsBelow hs
  exact ⟨hinv', hsize'.trans hsize⟩

/-- It is enough to look at the leaders of one state. -/
theorem electionSafe_of_state (hn : n ≤ maxServerCount) (hok : ∀ g a, ok g a → TermFits g a)
    (hstate : ∀ g, Reaches step ok (Group.initial n) g →
      ∀ i j t, Leads g i t → Leads g j t → i = j) : ElectionSafe ok n := by
  intro g g' h h' i j t hi hj
  obtain ⟨hinv, hsize⟩ := reaches_inv hn hok h
  -- the leader of the first state still leads in the second
  have hkeep : (GroupInv g' ∧ g'.size = n) ∧ Leads g' i t := by
    refine h'.invariant (I := fun g => (GroupInv g ∧ g.size = n) ∧ Leads g i t)
      ⟨⟨hinv, hsize⟩, hi⟩ ?_
    rintro s a s' ⟨⟨hs, hn'⟩, hl⟩ hoka hstep
    obtain ⟨hs', hsize'⟩ := hs.preserved (by omega) (hok s a hoka).termsBelow hstep
    exact ⟨⟨hs', hsize'.trans hn'⟩, hs.leads_step (by omega) hl hstep⟩
  exact hstate g' (h.trans h') i j t hkeep.2 hj

end Runs

/-! ## §2. At most four servers. -/

/-- The servers below `j` that may vote for server `i`, and `i` itself. -/
def supporters (i j : Nat) : Nat := ((List.range j).filter fun v => 2 ≤ v ∧ v ≠ i).length + 1

theorem supporters_succ (i j : Nat) :
    supporters i (j + 1) = if 2 ≤ j ∧ j ≠ i then supporters i j + 1 else supporters i j := by
  unfold supporters
  rw [List.range_succ, List.filter_append, List.length_append, List.filter_singleton]
  by_cases h : 2 ≤ j ∧ j ≠ i <;> simp [h]

/-- Acks of servers 0 and 1 do not exist, so the count is at most `supporters`, and
only servers 0 and 1 lead. -/
structure SmallInv (n i : Nat) (s : Server) : Prop where
  acks : s.polling = true → ∀ v, v < 2 → v ≠ i → s.voteAck v = logSize
  count : ∀ j votes, s.pc = .count j votes → j ≤ n ∧ votes ≤ supporters i j
  lead : s.sid % 512 = 256 + i → i < 2

section Small
variable {n i : Nat} {votes : List (Nat × Nat × Nat)} {s s' : Server} {e : Effect} {ev : Event}

/-- With four servers, two supporters are no majority. -/
theorem supporters_lt : ∀ n ≤ 4, ∀ i < n, 2 ≤ i → supporters i n < n / 2 + 1 := by decide

theorem SmallInv.act (hn : n ≤ 4) (hi : i < n) (hs : ServerInv n votes i s)
    (hfit : s.sid / 512 + 1 < 2 ^ 55) (h : SmallInv n i s) (hact : Act n i s ev s' e) :
    SmallInv n i s' := by
  have hpcOk := hs.pc
  unfold PcOk at hpcOk
  cases hact with
  | elect hb htimer hne =>
      unfold initLeader at hne
      refine ⟨fun _ v hv _ => if_pos (by omega), nofun, fun hl => ?_⟩
      rw [candidateSid_eq hfit (by omega)] at hl
      have hl' : (512 * (s.sid / 512 + 1) + i) % 512 = 256 + i := hl
      omega
  | startCount hpoll hcand =>
      refine ⟨h.acks, fun j k hk => ?_, h.lead⟩
      obtain ⟨rfl, rfl⟩ := Pc.count.inj hk
      exact ⟨Nat.zero_le n, Nat.le_refl 1⟩
  | @count j k hpc hj =>
      refine ⟨h.acks, fun j' k' hk => ?_, h.lead⟩
      obtain ⟨rfl, rfl⟩ := Pc.count.inj hk
      obtain ⟨-, hold⟩ := h.count j k hpc
      have hacks := h.acks (hs.awake (by rw [hpc]; nofun) (by rw [hpc]; nofun))
      refine ⟨hj, ?_⟩
      rw [supporters_succ]
      -- a vote that is counted comes from server 2 or higher
      by_cases hskip : j = i ∨ s.voteAck j = logSize
      · rw [if_pos hskip]
        split <;> omega
      · push Not at hskip
        have htwo : 2 ≤ j := by
          by_contra hlt
          exact hskip.2 (hacks j (by omega) hskip.1)
        rw [if_neg (by push Not; exact hskip), if_pos ⟨htwo, hskip.1⟩]
        omega
  | @won j k hpc hj hvotes =>
      refine ⟨h.acks, nofun, fun _ => ?_⟩
      obtain ⟨hjn, hold⟩ := h.count j k hpc
      obtain rfl : j = n := by omega
      by_contra hge
      have hlt := supporters_lt j hn i hi (by omega)
      omega
  | @raise j highest best hpc hj hbest =>
      rw [hpc] at hpcOk
      refine ⟨h.acks, nofun, fun hl => ?_⟩
      rw [raisedSid_eq hpcOk.1 hpcOk.2.2.1 (by omega)] at hl
      have hl' : (512 * highest + i) % 512 = 256 + i := hl
      omega
  | @vote j highest best hpc hbest =>
      rw [hpc] at hpcOk
      refine ⟨h.acks, nofun, fun hl => ?_⟩
      have hl' : best.sid % 512 = 256 + i := hl
      rcases hpcOk.2.2.2.2 with hself | hother
      · rw [sidSetL_of_lt hpcOk.1] at hbest
        exact absurd hself.1 hbest
      · omega
  | ignored | heard | logMoves => exact ⟨h.acks, h.count, h.lead⟩
  | hbSend | startScan | finish | beat | request | scanOwn | scanDrop | scanBetter | scanned
  | chooseDrop | chooseKeep | chooseTake | ack => exact ⟨h.acks, nofun, h.lead⟩

/-- An ack comes from server 2 or higher. -/
theorem SmallInv.receive {j : Nat} {t : Server} {w : Write} (h : SmallInv n j t)
    (hack : ∀ logEnd, w = .voteAck logEnd → 2 ≤ i) : SmallInv n j (t.receive i w) := by
  cases w with
  | hb sid => exact ⟨h.acks, h.count, h.lead⟩
  | voteReq r => exact ⟨h.acks, h.count, h.lead⟩
  | voteAck logEnd =>
      refine ⟨fun hp v hv hne => ?_, h.count, h.lead⟩
      have htwo := hack logEnd rfl
      show Function.update t.voteAck i logEnd v = logSize
      rw [Function.update_of_ne (by omega)]
      exact h.acks hp v hv hne

theorem ServerInv.ack_two (hs : ServerInv n votes i s) (hact : Act n i s ev s' e) {j : Nat}
    {w : Write} (hw : e.write = some (j, w)) : ∀ logEnd, w = .voteAck logEnd → 2 ≤ i := by
  intro logEnd hwack
  have hpcOk := hs.pc
  unfold PcOk at hpcOk
  cases hact with
  | ack hpc =>
      rw [hpc] at hpcOk
      have hpos := hs.pos (hs.awake (by rw [hpc]; nofun) (by rw [hpc]; nofun))
      have hfixed := hpcOk.2.2.2.1
      unfold fixedLeader at hfixed
      omega
  | beat hpc hwrite =>
      rw [(hwrite j w hw).2.2] at hwack
      cases hwack
  | request hpc hwrite =>
      rw [(hwrite j w hw).2.2] at hwack
      cases hwack
  | _ => cases hw

end Small

/-- **Groups of at most four.** -/
theorem electionSafe_small {n : Nat} (hn : n ≤ 4) : ElectionSafe TermFits n := by
  have hmax : n ≤ maxServerCount := by
    unfold maxServerCount
    omega
  refine electionSafe_of_state hmax (fun _ _ hok => hok) fun g hg i j t hi hj => ?_
  have hsmall : (GroupInv g ∧ g.size = n) ∧ ∀ k, k < g.size → SmallInv n k (g.servers k) := by
    refine hg.invariant
      (I := fun g => (GroupInv g ∧ g.size = n) ∧ ∀ k, k < g.size → SmallInv n k (g.servers k))
      ⟨⟨GroupInv.initial n, rfl⟩, fun k _ => ⟨nofun, nofun, fun hl => ?_⟩⟩ ?_
    · rw [show ((Group.initial n).servers k).sid = firstSid from begin_sid k] at hl
      unfold firstSid at hl
      omega
    · rintro g a g' ⟨⟨hinv, rfl⟩, hall⟩ hfit hstep
      obtain ⟨hinv', hsize'⟩ := hinv.preserved hmax hfit.termsBelow hstep
      obtain ⟨s', e, ha, hact, rfl⟩ := step_cases hstep
      have hs := hinv.server a.1 ha
      have hfit' : (g.servers a.1).sid / 512 + 1 < 2 ^ 55 := by
        rw [← sidGetTerm_eq]
        exact hfit
      refine ⟨⟨hinv', hsize'⟩, ?_⟩
      rw [hsize']
      exact forall_after (P := fun _ => SmallInv g.size) hall (fun _ _ _ hk => hk)
        ((hall a.1 ha).act hn ha hs hfit' hact)
        fun k w hw => ⟨(hs.write hmax hact hw).1, fun hk => hk.receive (hs.ack_two hact hw)⟩
  obtain ⟨⟨hinv, rfl⟩, hall⟩ := hsmall
  rw [leads_iff hmax] at hi hj
  -- both are 0 or 1; server 0 leads term 1 only, server 1 later terms only
  have hi2 := (hall i hi.1).lead hi.2.2
  have hj2 := (hall j hj.1).lead hj.2.2
  have hsi := (hinv.server i hi.1).sid.2
  have hsj := (hinv.server j hj.1).sid.2
  unfold firstSid at hsi hsj
  omega

/-! ## §3. Acks that are current. -/

/-- An ack reaches its candidate while that still holds the SID the vote is for, and
no server raises its term without an election. -/
def VotesCurrent (g : Group) (a : Nat × Event) : Prop :=
  match a.2, (g.servers a.1).pc with
  | .run, .ack =>
      (g.servers (sidGetIdx (g.servers a.1).sid)).sid = (g.servers a.1).sid
  | .run, .choose j _ best => j < g.size ∨ best.sid ≠ sidSetL (g.servers a.1).sid
  | _, _ => True

instance (g : Group) (a : Nat × Event) : Decidable (VotesCurrent g a) := by
  unfold VotesCurrent
  split <;> infer_instance

/-- The voters below `j` who have voted for server `i` in term `t`. -/
def voters (n : Nat) (votes : List (Nat × Nat × Nat)) (t i j : Nat) : Finset Nat :=
  (Finset.range n).filter fun v => v < j ∧ v ≠ i ∧ (v, t, i) ∈ votes

/-- The acks of a candidate are votes of its term. -/
structure CurrentInv (n : Nat) (votes : List (Nat × Nat × Nat)) (i : Nat) (s : Server) : Prop where
  self : s.sid % 512 = i → (i, s.sid / 512, i) ∈ votes
  acks : s.sid % 512 = i → ∀ v, v < n → v ≠ i → s.voteAck v ≠ logSize →
    (v, s.sid / 512, i) ∈ votes
  count : ∀ j k, s.pc = .count j k → k ≤ (voters n votes (s.sid / 512) i j).card + 1
  lead : s.sid % 512 = 256 + i → Won n votes (s.sid / 512) i

section Current
variable {n i : Nat} {votes : List (Nat × Nat × Nat)} {s s' : Server} {e : Effect} {ev : Event}

theorem CurrentInv.mono {votes' : List (Nat × Nat × Nat)} (h : CurrentInv n votes i s)
    (hsub : ∀ v ∈ votes, v ∈ votes') : CurrentInv n votes' i s := by
  refine ⟨fun hc => hsub _ (h.self hc), fun hc v hv hne hack => hsub _ (h.acks hc v hv hne hack),
    fun j k hk => (h.count j k hk).trans (Nat.add_le_add_right (Finset.card_le_card ?_) 1),
    fun hl => (h.lead hl).mono hsub⟩
  intro v hv
  unfold voters at hv ⊢
  rw [Finset.mem_filter] at hv ⊢
  exact ⟨hv.1, hv.2.1, hv.2.2.1, hsub _ hv.2.2.2⟩

/-- A slot that is counted adds a voter. -/
theorem card_voters_succ {t j : Nat} (hj : j < n) (hne : j ≠ i) (hvote : (j, t, i) ∈ votes) :
    (voters n votes t i j).card + 1 ≤ (voters n votes t i (j + 1)).card := by
  have hnot : j ∉ voters n votes t i j := by
    unfold voters
    rw [Finset.mem_filter]
    omega
  rw [← Finset.card_insert_of_notMem hnot]
  apply Finset.card_le_card
  intro v hv
  unfold voters at hv ⊢
  rw [Finset.mem_insert, Finset.mem_filter] at hv
  rw [Finset.mem_filter, Finset.mem_range]
  rcases hv with rfl | ⟨hrange, hlt, hvi, hmem⟩
  · exact ⟨hj, Nat.lt_succ_self _, hne, hvote⟩
  · exact ⟨Finset.mem_range.mp hrange, by omega, hvi, hmem⟩

theorem card_voters_mono {t j : Nat} :
    (voters n votes t i j).card ≤ (voters n votes t i (j + 1)).card := by
  apply Finset.card_le_card
  intro v hv
  unfold voters at hv ⊢
  rw [Finset.mem_filter] at hv ⊢
  exact ⟨hv.1, by omega, hv.2.2⟩

/-- Enough voters and the candidate itself make a majority. -/
theorem won_of_voters {t j : Nat} (hi : i < n) (hself : (i, t, i) ∈ votes)
    (hcard : n / 2 + 1 ≤ (voters n votes t i j).card + 1) : Won n votes t i := by
  have hnot : i ∉ voters n votes t i j := by
    unfold voters
    rw [Finset.mem_filter]
    exact fun hmem => hmem.2.2.1 rfl
  refine ⟨insert i (voters n votes t i j), ?_, by rw [Finset.card_insert_of_notMem hnot]; exact hcard,
    fun v hv => ?_⟩
  · intro v hv
    rcases Finset.mem_insert.mp hv with rfl | hv
    · exact Finset.mem_range.mpr hi
    · exact (Finset.mem_filter.mp hv).1
  · rcases Finset.mem_insert.mp hv with rfl | hv
    · exact hself
    · exact (Finset.mem_filter.mp hv).2.2.2

theorem CurrentInv.act (hn : n ≤ maxServerCount) (hi : i < n) (hs : ServerInv n votes i s)
    (hfit : s.sid / 512 + 1 < 2 ^ 55) (h : CurrentInv n votes i s) (hact : Act n i s ev s' e)
    (hraise : ∀ j highest best, s.pc = .choose j highest best → ev = .run →
      j < n ∨ best.sid ≠ sidSetL s.sid) : CurrentInv n (castVotes votes i e.vote) i s' := by
  have h7 : n ≤ 7 := hn
  have hpcOk := hs.pc
  unfold PcOk at hpcOk
  have hm : CurrentInv n (castVotes votes i e.vote) i s := h.mono fun _ hv => mem_castVotes hv
  cases hact with
  | elect hb htimer hne =>
      have hterm : ∀ x, x = candidateSid s.sid i →
          (i, x / 512, i) ∈ castVotes votes i (some (sidGetTerm (candidateSid s.sid i), i)) := by
        rintro x rfl
        rw [sidGetTerm_eq]
        exact List.mem_append_right _ (List.mem_singleton.mpr rfl)
      refine ⟨fun _ => hterm _ rfl, fun _ v hv _ hack => ?_, nofun, fun hl => ?_⟩
      · exact absurd (if_pos hv) hack
      · rw [candidateSid_eq hfit (by omega)] at hl
        have hl' : (512 * (s.sid / 512 + 1) + i) % 512 = 256 + i := hl
        omega
  | startCount hpoll hcand =>
      refine ⟨h.self, h.acks, fun j k hk => ?_, h.lead⟩
      obtain ⟨rfl, rfl⟩ := Pc.count.inj hk
      exact Nat.le_add_left 1 _
  | @count j k hpc hj =>
      refine ⟨h.self, h.acks, fun j' k' hk => ?_, h.lead⟩
      obtain ⟨rfl, rfl⟩ := Pc.count.inj hk
      have hold := h.count j k hpc
      rw [hpc] at hpcOk
      show _ ≤ (voters n votes (s.sid / 512) i (j + 1)).card + 1
      by_cases hskip : j = i ∨ s.voteAck j = logSize
      · rw [if_pos hskip]
        exact hold.trans (Nat.add_le_add_right card_voters_mono 1)
      · rw [if_neg hskip]
        push Not at hskip
        have hsucc := card_voters_succ hj hskip.1 (h.acks hpcOk j hj hskip.1 hskip.2)
        omega
  | @won j k hpc hj hvotes =>
      rw [hpc] at hpcOk
      have hcand : s.sid % 512 = i := hpcOk
      have hold := h.count j k hpc
      have hwon : Won n votes (s.sid / 512) i := won_of_voters hi (h.self hcand) (hvotes.trans hold)
      rw [sidSetL_of_lt (by omega)]
      have hterm : (s.sid + 256) / 512 = s.sid / 512 := by omega
      refine ⟨fun hc => ?_, fun hc => ?_, nofun, fun _ => ?_⟩
      · have hc' : (s.sid + 256) % 512 = i := hc
        omega
      · have hc' : (s.sid + 256) % 512 = i := hc
        omega
      · show Won n votes ((s.sid + 256) / 512) i
        rw [hterm]
        exact hwon
  | raise hpc hj hbest =>
      rcases hraise _ _ _ hpc rfl with hlt | hne
      · exact absurd hlt hj
      · exact absurd hbest hne
  | @vote j highest best hpc hbest =>
      rw [hpc] at hpcOk
      -- the vote is for somebody else
      have hother : best.sid % 512 ≠ i ∧ best.sid % 512 < n := by
        rcases hpcOk.2.2.2.2 with hself | hother
        · rw [sidSetL_of_lt hpcOk.1] at hbest
          exact absurd hself.1 hbest
        · exact ⟨hother.2.2.2.1, hother.2.2.2.2.2⟩
      refine ⟨fun hc => absurd hc hother.1, fun hc => absurd hc hother.1, nofun, fun hl => ?_⟩
      have hl' : best.sid % 512 = 256 + i := hl
      omega
  | ignored | heard | logMoves => exact ⟨h.self, h.acks, h.count, h.lead⟩
  | hbSend | startScan | finish | beat | request | scanOwn | scanDrop | scanBetter | scanned
  | chooseDrop | chooseKeep | chooseTake | ack => exact ⟨h.self, h.acks, nofun, h.lead⟩

/-- An ack of server `i` arrives at server `j`, if it is one. -/
theorem CurrentInv.receive {j : Nat} {t : Server} {w : Write} (h : CurrentInv n votes j t)
    (hack : ∀ logEnd, w = .voteAck logEnd → (i, t.sid / 512, j) ∈ votes) :
    CurrentInv n votes j (t.receive i w) := by
  cases w with
  | hb sid => exact ⟨h.self, h.acks, h.count, h.lead⟩
  | voteReq r => exact ⟨h.self, h.acks, h.count, h.lead⟩
  | voteAck logEnd =>
      refine ⟨h.self, fun hc v hv hne hslot => ?_, h.count, h.lead⟩
      by_cases hvi : v = i
      · rw [hvi]
        exact hack logEnd rfl
      · refine h.acks hc v hv hne ?_
        have hslot' : Function.update t.voteAck i logEnd v ≠ logSize := hslot
        rwa [Function.update_of_ne hvi] at hslot'

/-- A current ack stands for a vote in the term of its candidate. -/
theorem ServerInv.ack_current {g : Group} (hn : n ≤ maxServerCount) (hs : ServerInv n votes i s)
    (hact : Act n i s ev s' e) {j : Nat} {w : Write} (hw : e.write = some (j, w))
    (hcurrent : s.pc = .ack → ev = .run → (g.servers (sidGetIdx s.sid)).sid = s.sid) :
    ∀ logEnd, w = .voteAck logEnd → (i, (g.servers j).sid / 512, j) ∈ votes := by
  intro logEnd hwack
  have hpcOk := hs.pc
  unfold PcOk at hpcOk
  unfold maxServerCount at hn
  cases hact with
  | ack hpc =>
      rw [hpc] at hpcOk
      obtain ⟨-, hlt, -, -, hvote⟩ := hpcOk
      cases hw
      rw [hcurrent hpc rfl, sidGetIdx_eq, show s.sid % 256 = s.sid % 512 by omega]
      exact hvote
  | beat hpc hwrite =>
      rw [(hwrite j w hw).2.2] at hwack
      cases hwack
  | request hpc hwrite =>
      rw [(hwrite j w hw).2.2] at hwack
      cases hwack
  | _ => cases hw

end Current

/-- **All groups, when acks are current.** -/
theorem electionSafe_current {n : Nat} (hn : n ≤ maxServerCount) :
    ElectionSafe (fun g a => TermFits g a ∧ VotesCurrent g a) n := by
  refine electionSafe_of_state hn (fun _ _ hok => hok.1) fun g hg i j t hi hj => ?_
  have hcur : (GroupInv g ∧ g.size = n)
      ∧ ∀ k, k < g.size → CurrentInv n g.votes k (g.servers k) := by
    refine hg.invariant (I := fun g => (GroupInv g ∧ g.size = n)
      ∧ ∀ k, k < g.size → CurrentInv n g.votes k (g.servers k)) ⟨⟨GroupInv.initial n, rfl⟩, ?_⟩ ?_
    · intro k hk
      have hk7 : k < 7 := lt_of_lt_of_le hk hn
      have hsid : ((Group.initial n).servers k).sid = 768 := begin_sid k
      refine ⟨fun hc => by omega, fun hc => by omega, nofun, fun hl => ?_⟩
      -- everybody begins with server 0 as the leader of term 1
      obtain rfl : k = 0 := by omega
      rw [hsid]
      have hpos : 0 < n := hk
      refine ⟨Finset.range n, Finset.Subset.refl _, by rw [Finset.card_range]; omega,
        fun v hv => ?_⟩
      exact List.mem_map.mpr ⟨v, List.mem_range.mpr (Finset.mem_range.mp hv), rfl⟩
    · rintro g a g' ⟨⟨hinv, rfl⟩, hall⟩ ⟨hfit, hvotes⟩ hstep
      obtain ⟨hinv', hsize'⟩ := hinv.preserved hn hfit.termsBelow hstep
      obtain ⟨s', e, ha, hact, rfl⟩ := step_cases hstep
      have hs := hinv.server a.1 ha
      have hfit' : (g.servers a.1).sid / 512 + 1 < 2 ^ 55 := by
        rw [← sidGetTerm_eq]
        exact hfit
      have hraise : ∀ j highest best, (g.servers a.1).pc = .choose j highest best → a.2 = .run →
          j < g.size ∨ best.sid ≠ sidSetL (g.servers a.1).sid := by
        intro j highest best hpc hev
        unfold VotesCurrent at hvotes
        rw [hev, hpc] at hvotes
        exact hvotes
      have hcurrent : (g.servers a.1).pc = .ack → a.2 = .run →
          (g.servers (sidGetIdx (g.servers a.1).sid)).sid = (g.servers a.1).sid := by
        intro hpc hev
        unfold VotesCurrent at hvotes
        rw [hev, hpc] at hvotes
        exact hvotes
      refine ⟨⟨hinv', hsize'⟩, ?_⟩
      rw [hsize', after_votes]
      refine forall_after (P := fun votes => CurrentInv g.size votes) hall
        (fun _ _ _ hk => hk.mono fun _ hv => mem_castVotes hv)
        ((hall a.1 ha).act hn ha hs hfit' hact hraise) fun k w hw => ⟨(hs.write hn hact hw).1, ?_⟩
      exact fun hk => hk.receive fun logEnd hwack =>
        mem_castVotes (hs.ack_current hn hact hw hcurrent logEnd hwack)
  obtain ⟨⟨hinv, rfl⟩, hall⟩ := hcur
  rw [leads_iff hn] at hi hj
  have hwi := (hall i hi.1).lead hi.2.2
  have hwj := (hall j hj.1).lead hj.2.2
  rw [hi.2.1] at hwi
  rw [hj.2.1] at hwj
  exact won_unique hinv.once hwi hwj

/-! ## §4. Election safety. -/

/-- Server `i` takes `k` steps of its callback. -/
def runs (i k : Nat) : List (Nat × Event) := List.replicate k (i, .run)

/-- Server `i` of `n` times out and sends its vote requests. -/
def elect (n i : Nat) : List (Nat × Event) := (i, .hbReceive) :: runs i (n + 1)

/-- Server `i` polls, for `k` steps. -/
def polls (i k : Nat) : List (Nat × Event) := (i, .poll) :: runs i k

/-- Servers 1 and 3 both win term 4.  All have left term 1; server 1 asks for votes in
term 3 and gets the ack of server 2; server 3 asks for votes in term 4, whereupon
server 1 raises its term to 4 and keeps the ack; the others still answer the request
of term 3, and then vote in term 4. -/
def twoLeaders (n : Nat) : List (Nat × Event) :=
  let late := if n = 5 then [4] else [4, 5]
  (2 :: late).map (fun v => (v, .logMoves 217))
    ++ (1 :: 3 :: 2 :: late).flatMap (elect n)
    ++ elect n 1 ++ polls 2 (3 * n + 4)
    ++ elect n 3 ++ elect n 3 ++ polls 1 (3 * n + 3)
    ++ late.flatMap (fun v => polls v (3 * n + 4)) ++ polls 1 (n + 1)
    ++ (2 :: late).flatMap (fun v => polls v (2 * n + 3)) ++ polls 3 (n + 1)

/-- The SIDs of servers 1 and 3 at the end of that run. -/
def sidsOneThree (n : Nat) : Option (Nat × Nat) :=
  (execOk step TermFits (Group.initial n) (twoLeaders n)).map fun g =>
    ((g.servers 1).sid, (g.servers 3).sid)

theorem sidsOneThree_eq : ∀ n ∈ [5, 6, 7], sidsOneThree n = some (512 * 4 + 257, 512 * 4 + 259) := by
  decide +kernel

/-- From five servers on there is a run with two leaders of term 4. -/
theorem exists_two_leaders {n : Nat} (hlow : 5 ≤ n) (hn : n ≤ maxServerCount) :
    ∃ g, Reaches step TermFits (Group.initial n) g ∧ Leads g 1 4 ∧ Leads g 3 4 := by
  have h7 : n ≤ 7 := hn
  obtain ⟨g, hg, hsids⟩ := exists_reaches_of_execOk step TermFits (Group.initial n) (twoLeaders n)
    (fun g => ((g.servers 1).sid, (g.servers 3).sid))
    (sidsOneThree_eq n (by simp only [List.mem_cons, List.not_mem_nil, or_false]; omega))
  obtain ⟨-, rfl⟩ := reaches_inv hn (fun _ _ hok => hok) hg
  obtain ⟨hone, hthree⟩ := Prod.mk.inj hsids
  refine ⟨g, hg, ?_, ?_⟩
  · rw [leads_iff hn, hone]
    omega
  · rw [leads_iff hn, hthree]
    omega

/-- **Election safety.**  As long as no term overflows, it holds in all runs exactly
of groups of at most four servers; in every group it holds in the runs in which
every ack is current and no server raises its term. -/
theorem electionSafe_iff (n : Nat) (hn : n ≤ maxServerCount) :
    (ElectionSafe TermFits n ↔ n ≤ 4)
      ∧ ElectionSafe (fun g a => TermFits g a ∧ VotesCurrent g a) n := by
  refine ⟨⟨fun hsafe => ?_, electionSafe_small⟩, electionSafe_current hn⟩
  by_contra hgt
  obtain ⟨g, hg, hone, hthree⟩ := exists_two_leaders (by omega) hn
  exact absurd (hsafe g g hg .refl 1 3 4 hone hthree) (by decide)

/-- Server 1 of five wins term 3 with the acks of servers 2 and 3, all of them current. -/
def oneLeader : List (Nat × Event) :=
  [2, 3].map (fun v => (v, .logMoves 217)) ++ [2, 3, 1].flatMap (elect 5) ++ elect 5 1
    ++ [2, 3].flatMap (fun v => polls v 19) ++ polls 1 6

/-- Four servers and five; and a run of five, under the second condition, that has a leader
and no other one in its term, then and later. -/
theorem electionSafe_four_not_five : ElectionSafe TermFits 4 ∧ ¬ ElectionSafe TermFits 5
    ∧ ∃ g, Reaches step (fun g a => TermFits g a ∧ VotesCurrent g a) (Group.initial 5) g
      ∧ Leads g 1 3 ∧ ∀ g' j, Reaches step (fun g a => TermFits g a ∧ VotesCurrent g a) g g' →
        Leads g' j 3 → 1 = j := by
  have hfive := electionSafe_iff 5 (by decide)
  refine ⟨(electionSafe_iff 4 (by decide)).1.mpr (by decide),
    fun hsafe => absurd (hfive.1.mp hsafe) (by decide), ?_⟩
  obtain ⟨g, hg, hlead⟩ := exists_reaches_of_execOk step (fun g a => TermFits g a ∧ VotesCurrent g a)
    (Group.initial 5) oneLeader
    (fun g => (decide (1 < g.size), sidGetTerm (g.servers 1).sid, sidGetL (g.servers 1).sid,
      sidGetIdx (g.servers 1).sid))
    (v := (true, 3, true, 1)) (by decide +kernel)
  simp only [Prod.mk.injEq, decide_eq_true_eq] at hlead
  have hleads : Leads g 1 3 := hlead
  exact ⟨g, hg, hleads, fun g' j hreach hj => hfive.2 g g' hg hreach 1 j 3 hleads hj⟩

/-- Five servers, two leaders of term 4. -/
theorem electionSafe_fails :
    ∃ g, Reaches step TermFits (Group.initial 5) g ∧ Leads g 1 4 ∧ Leads g 3 4 :=
  exists_two_leaders (by decide) (by decide)

end RdmaPaxos.Election
