/-
  RdmaPaxos.Election.Invariant
  ────────────────────────────
  **WHAT HOLDS IN EVERY ELECTION.**

  SIDs are handled as numbers, 512 · term + 256 · flag + index, so that their order
  is that of `<`.  The invariant says of every server

    • what its SID can be: the first one, [t|0|c] for a candidate `c` it supports
      (itself perhaps), or [t|1|i] once it leads,
    • what the vote requests in its slots can be,
    • what it has found out inside a callback,
    • that its votes are of terms up to its own, one per term;

  and that servers 0 and 1 never support anybody else.
-/
import RdmaPaxos.Election.Steps
import RdmaPaxos.Lib.Votes
import RdmaPaxos.Lib.Run

namespace RdmaPaxos.Election

open RdmaPaxos.Votes RdmaPaxos.Run

/-! ## §1. The invariant. -/

/-- The SID [1|1|0] all servers begin with. -/
def firstSid : Nat := 768

/-- A request in slot `j`: [t|0|j], with the log index of server `j`. -/
def SlotOk (n j : Nat) (r : VoteReq) : Prop :=
  r.sid ≠ 0 → r.sid % 512 = j ∧ 0 < j ∧ j < n ∧ r.term = 1 ∧ r.index = logIndex j ∧ r.sid < 2 ^ 64

/-- The SID of server `i`. -/
def SidOk (n i sid : Nat) : Prop :=
  sid < 2 ^ 64 ∧ (sid = firstSid
    ∨ 2 ≤ sid / 512 ∧ (0 < sid % 512 ∧ sid % 512 < n ∨ 0 < i ∧ sid % 512 = 256 + i))

/-- What server `i` knows inside a callback. -/
def PcOk (n i : Nat) (votes : List (Nat × Nat × Nat)) (s : Server) : Prop :=
  match s.pc with
  | .idle | .beat _ => True
  | .request _ | .count _ _ => s.sid % 512 = i
  | .scan _ best => s.sid % 512 < 256
      ∧ (best = s.sid + 256 ∨ s.sid + 256 < best ∧ best % 512 < 256 ∧ best < 2 ^ 64)
  | .choose _ highest best => s.sid % 512 < 256 ∧ s.sid / 512 < highest ∧ highest < 2 ^ 55
      ∧ best.term = 1
      ∧ (best.sid = s.sid + 256 ∧ best.index = logIndex i
        ∨ s.sid + 256 < best.sid ∧ best.sid < 2 ^ 64 ∧ i ≠ fixedLeader ∧ best.sid % 512 ≠ i
          ∧ 0 < best.sid % 512 ∧ best.sid % 512 < n)
  | .ack => 0 < s.sid % 512 ∧ s.sid % 512 < n ∧ s.sid % 512 ≠ i ∧ i ≠ fixedLeader
      ∧ (i, s.sid / 512, s.sid % 512) ∈ votes

/-- Server `i` of `n`. -/
structure ServerInv (n : Nat) (votes : List (Nat × Nat × Nat)) (i : Nat) (s : Server) : Prop where
  sid : SidOk n i s.sid
  slot : ∀ j, SlotOk n j (s.voteReq j)
  own : (s.voteReq i).sid ≤ s.sid
  pc : PcOk n i votes s
  voted : ∀ t c, (i, t, c) ∈ votes → t ≤ s.sid / 512
  asleep : s.polling = false → s.sid = firstSid ∧ (s.pc = .idle ∨ ∃ j, s.pc = .beat j)
  first : i = initLeader → s.polling = false ∧ s.timer = some .send
  leads : s.sid % 512 = 256 + i → s.timer = some .send ∧ (s.pc = .idle ∨ ∃ j, s.pc = .beat j)

/-- The group. -/
structure GroupInv (g : Group) : Prop where
  server : ∀ i, i < g.size → ServerInv g.size g.votes i (g.servers i)
  once : OncePerTerm g.votes

/-- No term overflows its 55 bits. -/
def TermFits (g : Group) (a : Nat × Event) : Prop := sidGetTerm (g.servers a.1).sid + 1 < 2 ^ 55

instance (g : Group) (a : Nat × Event) : Decidable (TermFits g a) :=
  inferInstanceAs (Decidable (_ < _))

/-- No election starts from the last term of 55 bits. -/
def TermsBelow (g : Group) : Nat × Event → Prop
  | (i, .hbReceive) => startsElection g.size i (g.servers i) = true →
      sidGetTerm (g.servers i).sid + 1 < 2 ^ 55
  | _ => True

instance (g : Group) : (a : Nat × Event) → Decidable (TermsBelow g a)
  | (_, .hbReceive) => inferInstanceAs (Decidable (_ → _))
  | (_, .hbSend) | (_, .poll) | (_, .run) | (_, .logMoves _) => isTrue trivial

theorem TermFits.termsBelow {g : Group} {a : Nat × Event} (h : TermFits g a) : TermsBelow g a := by
  obtain ⟨i, ev⟩ := a
  cases ev with
  | hbReceive => exact fun _ => h
  | _ => trivial

/-! ## §2. SIDs that are computed. -/

/-- A candidate's SID: the next term, and its index. -/
theorem candidateSid_eq {sid i : Nat} (hfit : sid / 512 + 1 < 2 ^ 55) (hi : i < 256) :
    candidateSid sid i = 512 * (sid / 512 + 1) + i := by
  unfold candidateSid
  rw [sidGetTerm_eq, sidSetTerm_eq _ hfit, sidUnsetL_eq (by omega), sidSetIdx_eq _ hi]
  omega

/-- [t|0|c] becomes [t|1|c]. -/
theorem sidSetL_of_lt {sid : Nat} (h : sid % 512 < 256) : sidSetL sid = sid + 256 := by
  rw [sidSetL_eq, if_neg (by omega)]

/-- A raised SID: the new term, and the index. -/
theorem raisedSid_eq {sid highest i : Nat} (hL : sid % 512 < 256) (hfit : highest < 2 ^ 55)
    (hi : i < 256) : sidSetIdx (sidSetTerm sid highest) i = 512 * highest + i := by
  rw [sidSetTerm_eq _ hfit, sidSetIdx_eq _ hi]
  omega

/-- Without the leader bit, the rest of a SID is the index. -/
theorem sidGetL_false {sid : Nat} (h : sidGetL sid = false) : sid % 512 < 256 := by
  by_contra hge
  rw [(sidGetL_iff sid).mpr (by omega)] at h
  cases h

/-- A candidate is who has its own index in its SID. -/
theorem isCandidate_iff {i : Nat} {s : Server} (hi : i < 256) :
    isCandidate i s = true ↔ s.sid % 512 = i := by
  unfold isCandidate
  cases hL : sidGetL s.sid with
  | true =>
      have := (sidGetL_iff s.sid).mp hL
      simp
      omega
  | false =>
      have := sidGetL_false hL
      simp [sidGetIdx_eq]
      omega

/-! ## §3. One step of one server. -/

section Local
variable {n i : Nat} {votes : List (Nat × Nat × Nat)} {s s' : Server} {e : Effect} {ev : Event}

/-- More votes are given. -/
theorem PcOk.mono {votes' : List (Nat × Nat × Nat)} (h : PcOk n i votes s)
    (hsub : ∀ v ∈ votes, v ∈ votes') : PcOk n i votes' s := by
  unfold PcOk at h ⊢
  split at h
  case h_7 => exact ⟨h.1, h.2.1, h.2.2.1, h.2.2.2.1, hsub _ h.2.2.2.2⟩
  all_goals exact h

/-- A dropped request is no vote request any more. -/
theorem SlotOk.drop {j : Nat} {r : VoteReq} : SlotOk n j { r with sid := 0 } :=
  fun hne => absurd rfl hne

/-- One slot is written. -/
theorem slot_update {voteReq : Nat → VoteReq} {r : VoteReq} {k : Nat}
    (h : ∀ j, SlotOk n j (voteReq j)) (hr : SlotOk n k r) :
    ∀ j, SlotOk n j (Function.update voteReq k r j) := by
  intro j
  by_cases hjk : j = k
  · rw [hjk, Function.update_self]
    exact hr
  · rw [Function.update_of_ne hjk]
    exact h j

/-- Dropping a request leaves the slots in order. -/
theorem ServerInv.drop (h : ServerInv n votes i s) (j : Nat) :
    (∀ k, SlotOk n k ((s.drop j).voteReq k)) ∧ ((s.drop j).voteReq i).sid ≤ s.sid := by
  refine ⟨slot_update h.slot .drop, ?_⟩
  show (Function.update s.voteReq j _ i).sid ≤ s.sid
  by_cases hij : i = j
  · rw [hij, Function.update_self]
    exact Nat.zero_le _
  · rw [Function.update_of_ne hij]
    exact h.own

/-- The callback goes on; nothing else changes but the slots. -/
theorem ServerInv.move (h : ServerInv n votes i s) {voteReq : Nat → VoteReq} {pc : Pc}
    (hawake : s.polling = true) (hnot : s.sid % 512 < 256)
    (hslot : ∀ j, SlotOk n j (voteReq j)) (hown : (voteReq i).sid ≤ s.sid)
    (hpc : PcOk n i votes { s with voteReq := voteReq, pc := pc }) :
    ServerInv n votes i { s with voteReq := voteReq, pc := pc } := by
  refine ⟨h.sid, hslot, hown, hpc, h.voted, fun hasleep => ?_, h.first, fun hleads => ?_⟩
  · have hp : s.polling = false := hasleep
    rw [hawake] at hp
    cases hp
  · have hl : s.sid % 512 = 256 + i := hleads
    omega

/-- Past the start of a callback other than the heartbeat, the server polls. -/
theorem ServerInv.awake (h : ServerInv n votes i s) (hidle : s.pc ≠ .idle)
    (hbeat : ∀ j, s.pc ≠ .beat j) : s.polling = true := by
  cases hp : s.polling with
  | true => rfl
  | false =>
      rcases (h.asleep hp).2 with hpc | ⟨j, hpc⟩
      · exact absurd hpc hidle
      · exact absurd hpc (hbeat j)

theorem ServerInv.pos (h : ServerInv n votes i s) (hawake : s.polling = true) : 0 < i := by
  by_contra hzero
  have hi : i = initLeader := by
    unfold initLeader
    omega
  rw [(h.first hi).1] at hawake
  cases hawake

/-- The server takes a new SID of no lower term. -/
theorem ServerInv.newSid {votes' : List (Nat × Nat × Nat)} (h : ServerInv n votes i s)
    (t : Server) (hpos : 0 < i) (hawake : t.polling = true) (hsid : SidOk n i t.sid)
    (hterm : s.sid / 512 ≤ t.sid / 512) (hslot : ∀ j, SlotOk n j (t.voteReq j))
    (hown : (t.voteReq i).sid ≤ t.sid) (hpc : PcOk n i votes' t)
    (hvotes : ∀ r c, (i, r, c) ∈ votes' → (i, r, c) ∈ votes ∨ r ≤ t.sid / 512)
    (hleads : t.sid % 512 = 256 + i → t.timer = some .send ∧ t.pc = .idle) :
    ServerInv n votes' i t := by
  refine ⟨hsid, hslot, hown, hpc, fun r c hmem => ?_, fun hp => ?_, fun hi0 => ?_, fun hl => ?_⟩
  · rcases hvotes r c hmem with hold | hle
    · exact (h.voted r c hold).trans hterm
    · exact hle
  · rw [hawake] at hp
    cases hp
  · unfold initLeader at hi0
    omega
  · exact ⟨(hleads hl).1, .inl (hleads hl).2⟩

/-- A vote is the last one in the list, or an old one. -/
theorem mem_cast_self {r t c d : Nat} (h : (i, r, d) ∈ castVotes votes i (some (t, c))) :
    (i, r, d) ∈ votes ∨ r = t := by
  rcases List.mem_append.mp h with hold | hlast
  · exact .inl hold
  · obtain ⟨rfl, -⟩ := by simpa using hlast
    exact .inr rfl

/-- `start_election`. -/
theorem ServerInv.elect (hn : n ≤ maxServerCount) (hi : i < n) (h : ServerInv n votes i s)
    (hfit : s.sid / 512 + 1 < 2 ^ 55) (hne : i ≠ initLeader) {t : Server}
    (hsid : t.sid = candidateSid s.sid i)
    (hreq : t.voteReq = Function.update s.voteReq i ⟨candidateSid s.sid i, logIndex i, 1⟩)
    (hawake : t.polling = true) (hpc : t.pc = .request 0) :
    ServerInv n (castVotes votes i (some (sidGetTerm (candidateSid s.sid i), i))) i t
      ∧ s.sid / 512 < sidGetTerm (candidateSid s.sid i) := by
  unfold maxServerCount at hn
  unfold initLeader at hne
  rw [candidateSid_eq hfit (by omega)] at hsid hreq ⊢
  rw [sidGetTerm_eq]
  have hold := h.sid.2
  unfold firstSid at hold
  -- a new term: the vote for itself is the first one in it
  refine ⟨h.newSid t (by omega) hawake ⟨by omega, .inr ⟨by omega, .inl ⟨by omega, by omega⟩⟩⟩
    (by omega) ?_ ?_ ?_ (fun r c hmem => ?_) (fun hl => by omega), by omega⟩
  · rw [hreq]
    refine slot_update h.slot fun _ => ⟨?_, by omega, hi, rfl, rfl, ?_⟩
    · show (512 * (s.sid / 512 + 1) + i) % 512 = i
      omega
    · show 512 * (s.sid / 512 + 1) + i < 2 ^ 64
      omega
  · rw [hreq, Function.update_self, hsid]
  · unfold PcOk
    rw [hpc]
    show t.sid % 512 = i
    omega
  · rcases mem_cast_self hmem with hvote | hr
    · exact .inl hvote
    · exact .inr (by omega)

/-- Winning: the flag is set. -/
theorem ServerInv.won (hn : n ≤ maxServerCount) (hi : i < n) (h : ServerInv n votes i s)
    (hawake : s.polling = true) (hcand : s.sid % 512 = i) {t : Server}
    (hsid : t.sid = sidSetL s.sid) (hreq : t.voteReq = s.voteReq) (hpoll : t.polling = s.polling)
    (htimer : t.timer = some .send) (hpc : t.pc = .idle) : ServerInv n votes i t := by
  unfold maxServerCount at hn
  rw [sidSetL_of_lt (by omega)] at hsid
  have hpos := h.pos hawake
  have hold := h.sid
  unfold SidOk firstSid at hold
  refine h.newSid t hpos (hpoll.trans hawake)
    ⟨by omega, .inr ⟨by omega, .inr ⟨hpos, by omega⟩⟩⟩ (by omega) (by rw [hreq]; exact h.slot) ?_ ?_
    (fun r c hmem => .inl hmem) (fun _ => ⟨htimer, hpc⟩)
  · rw [hreq]
    exact h.own.trans (by omega)
  · unfold PcOk
    rw [hpc]
    trivial

/-- The term is raised to `highest`. -/
theorem ServerInv.raise (hn : n ≤ maxServerCount) (hi : i < n) (h : ServerInv n votes i s)
    (hawake : s.polling = true) {highest : Nat} (hL : s.sid % 512 < 256)
    (hhigh : s.sid / 512 < highest) (hfit : highest < 2 ^ 55) {t : Server}
    (hsid : t.sid = sidSetIdx (sidSetTerm s.sid highest) i) (hreq : t.voteReq = s.voteReq)
    (hpoll : t.polling = s.polling) (hpc : t.pc = .idle) : ServerInv n votes i t := by
  unfold maxServerCount at hn
  rw [raisedSid_eq hL hfit (by omega)] at hsid
  have hpos := h.pos hawake
  have hold := h.sid
  unfold SidOk firstSid at hold
  refine h.newSid t hpos (hpoll.trans hawake)
    ⟨by omega, .inr ⟨by omega, .inl ⟨by omega, by omega⟩⟩⟩ (by omega) (by rw [hreq]; exact h.slot) ?_
    ?_ (fun r c hmem => .inl hmem) (fun hl => by omega)
  · rw [hreq]
    exact h.own.trans (by omega)
  · unfold PcOk
    rw [hpc]
    trivial

/-- The server supports the request with SID `best`. -/
theorem ServerInv.vote (hn : n ≤ maxServerCount) (h : ServerInv n votes i s)
    (hawake : s.polling = true) {best : Nat} (hL : s.sid % 512 < 256) (hgt : s.sid + 256 < best)
    (hbound : best < 2 ^ 64) (hfixed : i ≠ fixedLeader) (hne : best % 512 ≠ i)
    (hpos : 0 < best % 512) (hlt : best % 512 < n) {t : Server} (hsid : t.sid = best)
    (hreq : t.voteReq = s.voteReq) (hpoll : t.polling = s.polling) (hpc : t.pc = .ack) :
    ServerInv n (castVotes votes i (some (sidGetTerm best, sidGetIdx best))) i t
      ∧ s.sid / 512 < sidGetTerm best := by
  unfold maxServerCount at hn
  rw [sidGetTerm_eq, sidGetIdx_eq]
  have hold := h.sid.2
  unfold firstSid at hold
  -- `best` is of a later term, in which no vote has been cast
  refine ⟨h.newSid t (h.pos hawake) (hpoll.trans hawake)
    ⟨by omega, .inr ⟨by omega, .inl ⟨by omega, by omega⟩⟩⟩ (by omega) (by rw [hreq]; exact h.slot) ?_
    ?_ (fun r c hmem => ?_) (fun hl => by omega), by omega⟩
  · rw [hreq]
    exact h.own.trans (by omega)
  · unfold PcOk
    rw [hpc]
    refine ⟨by omega, by omega, by omega, hfixed, ?_⟩
    rw [hsid, show best % 512 = best % 256 by omega]
    exact List.mem_append_right _ (List.mem_singleton.mpr rfl)
  · rcases mem_cast_self hmem with hvote | hr
    · exact .inl hvote
    · exact .inr (by omega)

/-- The best request so far, after slot `j` was taken. -/
theorem ServerInv.take (hn : n ≤ maxServerCount) (h : ServerInv n votes i s) {j : Nat}
    {best : VoteReq} (hL : s.sid % 512 < 256) (hterm : best.term = 1)
    (hbest : best.sid = s.sid + 256 ∧ best.index = logIndex i
      ∨ s.sid + 256 < best.sid ∧ best.sid < 2 ^ 64 ∧ i ≠ fixedLeader ∧ best.sid % 512 ≠ i
        ∧ 0 < best.sid % 512 ∧ best.sid % 512 < n)
    (hsid : best.sid ≤ (s.voteReq j).sid)
    (hlog : ¬ (best.term > (s.voteReq j).term
      ∨ best.term = (s.voteReq j).term ∧ best.index > (s.voteReq j).index)) :
    (s.voteReq j).term = 1 ∧ s.sid + 256 < (s.voteReq j).sid ∧ (s.voteReq j).sid < 2 ^ 64
      ∧ i ≠ fixedLeader ∧ (s.voteReq j).sid % 512 ≠ i ∧ 0 < (s.voteReq j).sid % 512
      ∧ (s.voteReq j).sid % 512 < n := by
  unfold maxServerCount at hn
  obtain ⟨hlow, hpos, hjn, hone, hindex, hbound⟩ := h.slot j (by omega)
  -- the own request is too old to be taken
  have hji : j ≠ i := by
    rintro rfl
    have hown := h.own
    omega
  refine ⟨hone, by omega, hbound, ?_, by omega, by omega, by omega⟩
  rintro rfl
  rcases hbest with ⟨-, hbest⟩ | hbest
  · -- the fixed leader prefers its own log to all others
    have hlocal : best.index = 1 := hbest
    have hother : (s.voteReq j).index = 0 := hindex.trans (if_neg hji)
    omega
  · exact hbest.2.2.1 rfl

/-- `highest_term` stays a term. -/
theorem ServerInv.highest_lt (h : ServerInv n votes i s) {j highest highest' : Nat}
    (hbound : highest < 2 ^ 55)
    (hmax : highest' = highest ∨ highest' = sidGetTerm (s.voteReq j).sid) : highest' < 2 ^ 55 := by
  rw [sidGetTerm_eq] at hmax
  by_cases hzero : (s.voteReq j).sid = 0
  · omega
  · obtain ⟨-, -, -, -, -, hlt⟩ := h.slot j hzero
    omega

/-- **One step of one server**, with the vote it casts recorded. -/
theorem ServerInv.act (hn : n ≤ maxServerCount) (hi : i < n) (h : ServerInv n votes i s)
    (hfit : ev = .hbReceive → e.vote ≠ none → s.sid / 512 + 1 < 2 ^ 55)
    (hact : Act n i s ev s' e) :
    ServerInv n (castVotes votes i e.vote) i s'
      ∧ ∀ t c, e.vote = some (t, c) → s.sid / 512 < t := by
  have h256 : n ≤ 7 := hn
  have hpcOk := h.pc
  unfold PcOk at hpcOk
  have hawake : s.pc ≠ .idle → (∀ j, s.pc ≠ .beat j) → s.polling = true := h.awake
  cases hact with
  | hbSend hpc htimer =>
      exact ⟨⟨h.sid, h.slot, h.own, trivial, h.voted, fun hp => ⟨(h.asleep hp).1, .inr ⟨0, rfl⟩⟩,
        h.first, fun hl => ⟨htimer, .inr ⟨0, rfl⟩⟩⟩, nofun⟩
  | ignored hi0 => exact ⟨h, nofun⟩
  | heard hb => exact ⟨⟨h.sid, h.slot, h.own, h.pc, h.voted, h.asleep, h.first, h.leads⟩, nofun⟩
  | elect hb htimer hne =>
      obtain ⟨hinv, hlt⟩ := h.elect hn hi (hfit rfl nofun) hne (t := { s with
        sid := candidateSid s.sid i
        voteReq := Function.update s.voteReq i ⟨candidateSid s.sid i, logIndex i, 1⟩
        hb := hb
        voteAck := fun j => if j < n then logSize else s.voteAck j
        timer := some .receive
        polling := true
        pc := .request 0 }) rfl rfl rfl rfl
      refine ⟨hinv, fun t c hvote => ?_⟩
      cases hvote
      exact hlt
  | startCount hpoll hcand =>
      have hcand' := (isCandidate_iff (by omega)).mp hcand
      exact ⟨h.move hpoll (by omega) h.slot h.own hcand', nofun⟩
  | startScan hL hpoll =>
      have hlt := sidGetL_false hL
      have hpolling : s.polling = true := by
        rcases hpoll with hp | ⟨j, k, hpc⟩
        · exact hp
        · exact hawake (by rw [hpc]; nofun) (by rw [hpc]; nofun)
      exact ⟨h.move hpolling hlt h.slot h.own ⟨hlt, .inl (sidSetL_of_lt hlt)⟩, nofun⟩
  | finish =>
      exact ⟨⟨h.sid, h.slot, h.own, trivial, h.voted, fun hp => ⟨(h.asleep hp).1, .inl rfl⟩,
        h.first, fun hl => ⟨(h.leads hl).1, .inl rfl⟩⟩, nofun⟩
  | beat hpc hwrite =>
      exact ⟨⟨h.sid, h.slot, h.own, trivial, h.voted, fun hp => ⟨(h.asleep hp).1, .inr ⟨_, rfl⟩⟩,
        h.first, fun hl => ⟨(h.leads hl).1, .inr ⟨_, rfl⟩⟩⟩, nofun⟩
  | request hpc hwrite =>
      rw [hpc] at hpcOk hawake
      have hcand : s.sid % 512 = i := hpcOk
      exact ⟨h.move (hawake nofun nofun) (by omega) h.slot h.own hcand, nofun⟩
  | count hpc hj =>
      rw [hpc] at hpcOk hawake
      have hcand : s.sid % 512 = i := hpcOk
      exact ⟨h.move (hawake nofun nofun) (by omega) h.slot h.own hcand, nofun⟩
  | won hpc hj hvotes =>
      rw [hpc] at hpcOk hawake
      exact ⟨h.won hn hi (hawake nofun nofun) hpcOk rfl rfl rfl rfl rfl, nofun⟩
  | scanOwn hpc =>
      rw [hpc] at hpcOk hawake
      exact ⟨h.move (hawake nofun nofun) hpcOk.1 h.slot h.own hpcOk, nofun⟩
  | scanDrop hpc =>
      rw [hpc] at hpcOk hawake
      exact ⟨h.move (hawake nofun nofun) hpcOk.1 (h.drop _).1 (h.drop _).2 hpcOk, nofun⟩
  | @scanBetter j best hpc hlt =>
      rw [hpc] at hpcOk hawake
      obtain ⟨hlow, -, hjn, -, -, hbound⟩ := h.slot j (by omega)
      -- the best so far is at least the own SID with the L flag set
      have hgt : s.sid + 256 < (s.voteReq j).sid := by
        rcases hpcOk.2 with heq | hgt <;> omega
      exact ⟨h.move (hawake nofun nofun) hpcOk.1 h.slot h.own
        ⟨hpcOk.1, .inr ⟨hgt, by omega, hbound⟩⟩, nofun⟩
  | @scanned j best hpc hbest =>
      rw [hpc] at hpcOk hawake
      rw [sidSetL_of_lt hpcOk.1] at hbest ⊢
      rw [sidGetTerm_eq]
      rcases hpcOk.2 with heq | hgt
      · exact absurd heq hbest
      · have hlow := hpcOk.1
        -- above [t|1|idx], hence of a later term
        have hterm : s.sid / 512 < best / 512 := by omega
        exact ⟨h.move (hawake nofun nofun) hlow h.slot h.own
          ⟨hlow, hterm, by omega, rfl, .inl ⟨rfl, rfl⟩⟩, nofun⟩
  | chooseDrop hpc =>
      rw [hpc] at hpcOk hawake
      exact ⟨h.move (hawake nofun nofun) hpcOk.1 (h.drop _).1 (h.drop _).2 hpcOk, nofun⟩
  | @chooseKeep j highest highest' best hpc hmax hle =>
      rw [hpc] at hpcOk hawake
      obtain ⟨hlow, hhigh, hbound, hone, hbest⟩ := hpcOk
      have hbound' : highest' < 2 ^ 55 := h.highest_lt hbound hmax
      exact ⟨h.move (hawake nofun nofun) hlow h.slot h.own
        ⟨hlow, hhigh.trans_le hle, hbound', hone, hbest⟩, nofun⟩
  | @chooseTake j highest highest' best hpc hmax hle hsid hlog =>
      rw [hpc] at hpcOk hawake
      obtain ⟨hlow, hhigh, hbound, hone, hbest⟩ := hpcOk
      obtain ⟨hone', htaken⟩ := h.take hn hlow hone hbest hsid hlog
      have hbound' : highest' < 2 ^ 55 := h.highest_lt hbound hmax
      exact ⟨h.move (hawake nofun nofun) hlow (h.drop _).1 (h.drop _).2
        ⟨hlow, hhigh.trans_le hle, hbound', hone', .inr htaken⟩, nofun⟩
  | raise hpc hj hbest =>
      rw [hpc] at hpcOk hawake
      exact ⟨h.raise hn hi (hawake nofun nofun) hpcOk.1 hpcOk.2.1 hpcOk.2.2.1 rfl rfl rfl rfl, nofun⟩
  | vote hpc hbest =>
      rw [hpc] at hpcOk hawake
      obtain ⟨hlow, -, -, -, hchoice⟩ := hpcOk
      rw [sidSetL_of_lt hlow] at hbest
      rcases hchoice with ⟨heq, -⟩ | ⟨hgt, hbound, hfixed, hne, hpos, hlt⟩
      · exact absurd heq hbest
      · obtain ⟨hinv, hterm⟩ := h.vote hn (hawake nofun nofun) hlow hgt hbound hfixed hne hpos hlt
          (t := { s with sid := _, timer := none, pc := .ack }) rfl rfl rfl rfl
        refine ⟨hinv, fun t c hvote => ?_⟩
        cases hvote
        exact hterm
  | ack hpc =>
      rw [hpc] at hpcOk hawake
      have hpolling := hawake nofun nofun
      refine ⟨⟨h.sid, h.slot, h.own, trivial, h.voted, fun hp => ?_, fun hi0 => ?_, fun hl => ?_⟩,
        nofun⟩
      · rw [show s.polling = false from hp] at hpolling
        cases hpolling
      · rw [(h.first hi0).1] at hpolling
        cases hpolling
      · have hl' : s.sid % 512 = 256 + i := hl
        have hlow : s.sid % 512 < n := hpcOk.2.1
        omega
  | logMoves logEnd =>
      exact ⟨⟨h.sid, h.slot, h.own, h.pc, h.voted, h.asleep, h.first, h.leads⟩, nofun⟩

/-- Whom a step writes to, and that a vote request it writes is in order. -/
theorem ServerInv.write (hn : n ≤ maxServerCount) (h : ServerInv n votes i s)
    (hact : Act n i s ev s' e) {j : Nat} {w : Write} (hw : e.write = some (j, w)) :
    j ≠ i ∧ ∀ r, w = .voteReq r → SlotOk n i r := by
  cases hact with
  | beat hpc hwrite =>
      obtain ⟨-, hne, rfl⟩ := hwrite j w hw
      exact ⟨hne, nofun⟩
  | request hpc hwrite =>
      obtain ⟨-, hne, rfl⟩ := hwrite j w hw
      refine ⟨hne, fun r hr => ?_⟩
      cases hr
      exact h.slot i
  | ack hpc =>
      have hpcOk := h.pc
      unfold PcOk at hpcOk
      rw [hpc] at hpcOk
      cases hw
      refine ⟨?_, nofun⟩
      unfold maxServerCount at hn
      obtain ⟨-, hlt, hne, -⟩ := hpcOk
      rw [sidGetIdx_eq]
      omega
  | _ => cases hw

/-- A write of another server arrives. -/
theorem ServerInv.receive {j : Nat} {t : Server} (h : ServerInv n votes j t) {w : Write}
    (hne : j ≠ i) (hreq : ∀ r, w = .voteReq r → SlotOk n i r) :
    ServerInv n votes j (t.receive i w) := by
  cases w with
  | hb sid => exact ⟨h.sid, h.slot, h.own, h.pc, h.voted, h.asleep, h.first, h.leads⟩
  | voteAck logEnd => exact ⟨h.sid, h.slot, h.own, h.pc, h.voted, h.asleep, h.first, h.leads⟩
  | voteReq r =>
      refine ⟨h.sid, slot_update h.slot (hreq r rfl), ?_, h.pc, h.voted, h.asleep, h.first, h.leads⟩
      show (Function.update t.voteReq i r j).sid ≤ t.sid
      rw [Function.update_of_ne hne]
      exact h.own

/-- Votes of others do not concern the server. -/
theorem ServerInv.mono {j : Nat} (h : ServerInv n votes j s) (hne : j ≠ i)
    (vote : Option (Nat × Nat)) : ServerInv n (castVotes votes i vote) j s := by
  refine ⟨h.sid, h.slot, h.own, h.pc.mono fun _ hv => mem_castVotes hv, fun t c hmem => ?_,
    h.asleep, h.first, h.leads⟩
  cases vote with
  | none => exact h.voted t c hmem
  | some v =>
      rcases List.mem_append.mp hmem with hold | hlast
      · exact h.voted t c hold
      · obtain ⟨rfl, -⟩ := by simpa using hlast
        exact absurd rfl hne

end Local

/-! ## §4. Runs. -/

/-- The guard, at the server that moves. -/
theorem TermsBelow.fits {g : Group} {a : Nat × Event} (h : TermsBelow g a) : a.2 = .hbReceive →
    startsElection g.size a.1 (g.servers a.1) = true → (g.servers a.1).sid / 512 + 1 < 2 ^ 55 := by
  obtain ⟨i, ev⟩ := a
  rintro rfl hstarts
  rw [← sidGetTerm_eq]
  exact h hstarts

/-- A timeout that casts a vote starts an election. -/
theorem startsElection_of_vote {n i : Nat} {s s' : Server} {e : Effect}
    (h : Act n i s .hbReceive s' e) (hvote : e.vote ≠ none) : startsElection n i s = true := by
  cases h with
  | elect hb htimer hi hstarts => exact hstarts
  | _ => exact absurd rfl hvote

/-- **The step lemma.** -/
theorem GroupInv.preserved {g g' : Group} {a : Nat × Event} (h : GroupInv g)
    (hn : g.size ≤ maxServerCount) (hfit : TermsBelow g a) (hstep : step g a = some g') :
    GroupInv g' ∧ g'.size = g.size := by
  obtain ⟨s', e, hi, hact, rfl⟩ := step_cases hstep
  have hs := h.server a.1 hi
  have hfit' : a.2 = .hbReceive → e.vote ≠ none → (g.servers a.1).sid / 512 + 1 < 2 ^ 55 :=
    fun heq hvote => hfit.fits heq (startsElection_of_vote (heq ▸ hact) hvote)
  obtain ⟨hlocal, hterm⟩ := hs.act hn hi hfit' hact
  refine ⟨⟨?_, ?_⟩, after_size⟩
  · rw [after_size, after_votes]
    exact forall_after (P := ServerInv g.size) h.server (fun k s hne hk => hk.mono hne _) hlocal
      fun j w hw => by
        obtain ⟨hne, hreq⟩ := hs.write hn hact hw
        exact ⟨hne, fun hj => hj.receive hne hreq⟩
  · rw [after_votes]
    cases hvote : e.vote with
    | none => exact h.once
    | some v =>
        obtain ⟨t, c⟩ := v
        -- the term is new to this voter
        refine h.once.cast fun d hmem => ?_
        have hle := hs.voted t d hmem
        have hlt := hterm t c hvote
        omega

/-- A server starts with the first SID. -/
theorem begin_sid (i : Nat) : (Server.begin i).sid = firstSid := by
  show sidSetIdx (sidSetL (sidSetTerm 0 1)) initLeader = firstSid
  decide

/-- Before the first election. -/
theorem GroupInv.initial (n : Nat) : GroupInv (Group.initial n) := by
  have hsid : ∀ i, ((Group.initial n).servers i).sid = firstSid := begin_sid
  -- [1|1|0] is the own SID of server 0 only
  have htimer : ∀ i, i = 0 → ((Group.initial n).servers i).timer = some .send := by
    rintro i rfl
    rfl
  refine ⟨fun i hi => ⟨?_, fun j hne => absurd rfl hne, Nat.zero_le _, trivial, fun t c hmem => ?_,
    fun _ => ⟨hsid i, .inl rfl⟩, fun hi0 => ⟨rfl, htimer i hi0⟩, fun hl => ⟨htimer i ?_, .inl rfl⟩⟩, ?_⟩
  · rw [hsid]
    exact ⟨by decide, .inl rfl⟩
  · obtain ⟨k, -, hk⟩ := List.mem_map.mp hmem
    cases hk
    rw [hsid]
    decide
  · rw [hsid] at hl
    unfold firstSid at hl
    omega
  · intro v t c d hc hd
    obtain ⟨k, -, hk⟩ := List.mem_map.mp hc
    obtain ⟨k', -, hk'⟩ := List.mem_map.mp hd
    cases hk
    cases hk'
    rfl

end RdmaPaxos.Election
