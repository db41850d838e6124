/-
  RdmaPaxos.Election.Support
  ──────────────────────────
  **ONE VOTE PER TERM, AND A SID THAT GROWS.**

  A server assigns to its SID in four places, and supports a candidate in three:

      assignment                     new SID           support in the new term
      start_election                 [t+1|0|own]       stands itself
      poll_vote_requests, raising    [highest|0|own]   stands itself
      poll_vote_count, won           [t|1|own]         none
      poll_vote_requests, voting     [t'|0|c]          none yet
      rc_send_vote_ack               (unchanged)       the candidate its SID names

  Every new SID is above the old one with its L flag set, hence of a later term,
  unless only the flag is set.  Between the SID of a vote and its ack the server does
  nothing else; so at every support the term is new to its server.

  §1  what a step assigns, and the support it gives;
  §2  what the functions do to SIDs;
  §3  one server;
  §4  the group.
-/
import RdmaPaxos.Election.Invariant

namespace RdmaPaxos.Election

open RdmaPaxos.Votes RdmaPaxos.Run

/-! ## §1. Assignments and support. -/

/-- An assignment to `ctrl_data.sid`. -/
inductive Assignment where
  /-- the server becomes a candidate -/
  | stand (sid : Nat)
  /-- the server becomes the leader -/
  | lead (sid : Nat)
  /-- the server shows its support of another candidate -/
  | vote (sid : Nat)
  deriving Repr, DecidableEq

/-- The SID that is assigned. -/
def Assignment.sid : Assignment → Nat
  | .stand sid | .lead sid | .vote sid => sid

/-- The assignment in a step of server `i`. -/
def assignment (n i : Nat) (s : Server) : Event → Option Assignment
  | .hbReceive => if startsElection n i s then some (.stand (candidateSid s.sid i)) else none
  | .run =>
      match s.pc with
      | .count j votes =>
          if ¬ j < n ∧ n / 2 + 1 ≤ votes then some (.lead (sidSetL s.sid)) else none
      | .choose j highest best =>
          if j < n then none
          else if best.sid = sidSetL s.sid then
            some (.stand (sidSetIdx (sidSetTerm s.sid highest) i))
          else some (.vote best.sid)
      | _ => none
  | _ => none

/-- How a server supports a candidate. -/
inductive Support where
  | candidacy
  /-- a vote ack, sent while the SID names `candidate` -/
  | ack (candidate : Nat)
  deriving Repr, DecidableEq

/-- A server that assigns itself the SID of a candidate stands. -/
def Assignment.support : Assignment → Option (Nat × Support)
  | .stand sid => some (sidGetTerm sid, .candidacy)
  | _ => none

/-- The support given in a step of server `i`, and its term. -/
def support (n i : Nat) (s : Server) : Event → Option (Nat × Support)
  | .run =>
      if s.pc = .ack then some (sidGetTerm s.sid, .ack (sidGetIdx s.sid))
      else (assignment n i s .run).bind Assignment.support
  | ev => (assignment n i s ev).bind Assignment.support

/-- The group, and all support ever given: server, term, support. -/
structure Elections where
  group : Group
  supports : List (Nat × Nat × Support)

/-- A step of the group, with what it supports noted. -/
def Elections.step (e : Elections) (a : Nat × Event) : Option Elections :=
  (Election.step e.group a).map fun g =>
    ⟨g, e.supports ++ (support e.group.size a.1 (e.group.servers a.1) a.2).toList.map fun x => (a.1, x)⟩

/-- A group before its first election. -/
def Elections.initial (n : Nat) : Elections := ⟨Group.initial n, []⟩

/-! ## §2. What the functions do to SIDs. -/

/-- A step of a server, as far as its SID and its support go. -/
inductive SidStep (n i : Nat) (s s' : Server) (ev : Event) : Prop where
  | keep (hassign : assignment n i s ev = none) (hsupport : support n i s ev = none)
      (hsid : s'.sid = s.sid) (hpc : s'.pc = .ack → s.pc = .ack)
  | stand {sid : Nat} (hassign : assignment n i s ev = some (.stand sid))
      (hsupport : support n i s ev = some (sidGetTerm sid, .candidacy)) (hsid : s'.sid = sid)
      (hpc : s'.pc ≠ .ack)
  | lead {sid : Nat} (hassign : assignment n i s ev = some (.lead sid))
      (hsupport : support n i s ev = none) (hsid : s'.sid = sid) (hpc : s'.pc ≠ .ack)
  | vote {sid : Nat} (hassign : assignment n i s ev = some (.vote sid))
      (hsupport : support n i s ev = none) (hsid : s'.sid = sid)
  | ack (hassign : assignment n i s ev = none)
      (hsupport : support n i s ev = some (sidGetTerm s.sid, .ack (sidGetIdx s.sid)))
      (hsid : s'.sid = s.sid) (hpc : s.pc = .ack) (hpc' : s'.pc ≠ .ack)

section Outcome
variable {n i : Nat} {s s' : Server} {e : Effect} {ev : Event}

/-- Outside the ack, only the assignment of a candidate's SID is a support. -/
theorem support_run (h : s.pc ≠ .ack) :
    support n i s .run = (assignment n i s .run).bind Assignment.support := if_neg h

/-- A step that assigns nothing, from outside the ack. -/
theorem SidStep.of_none (hassign : assignment n i s ev = none) (hsid : s'.sid = s.sid)
    (hpc : ev = .run → s.pc ≠ .ack) (hpc' : s'.pc = .ack → s.pc = .ack) : SidStep n i s s' ev := by
  refine .keep hassign ?_ hsid hpc'
  cases ev with
  | run => rw [support_run (hpc rfl), hassign]; rfl
  | hbReceive =>
      show (assignment n i s .hbReceive).bind Assignment.support = none
      rw [hassign]
      rfl
  | hbSend | poll | logMoves => rfl

/-- Nothing is assigned where a callback returns. -/
theorem Leaves.assignment_eq (h : Leaves n s ev) (i : Nat) : assignment n i s ev = none := by
  cases h with
  | poll => rfl
  | beat hpc | request hpc | scan hpc => simp only [assignment, hpc]
  | count hpc hvotes =>
      simp only [assignment, hpc]
      exact if_neg fun hwon => by omega

theorem Leaves.pc_ne (h : Leaves n s ev) : ev = .run → s.pc ≠ .ack := by
  cases h with
  | poll => exact fun hev => by cases hev
  | beat hpc | request hpc | scan hpc | count hpc => simp [hpc]

/-- **What a step does to the SID of its server, and whom it supports.** -/
theorem Act.outcome (h : Act n i s ev s' e) : SidStep n i s s' ev := by
  cases h with
  | hbSend | startCount => exact .of_none rfl rfl (by simp) (by simp)
  | ignored hi => exact .of_none (by simp [assignment, startsElection, hi]) rfl (by simp) id
  | heard hb hno => exact .of_none (by simp [assignment, hno]) rfl (by simp) id
  | elect hb htimer hi hstarts =>
      have hassign : assignment n i s .hbReceive = some (.stand (candidateSid s.sid i)) :=
        if_pos hstarts
      refine .stand hassign ?_ rfl (by simp)
      show (assignment n i s .hbReceive).bind Assignment.support = _
      rw [hassign]
      rfl
  | startScan hL hpoll hleaves => exact .of_none (hleaves.assignment_eq i) rfl hleaves.pc_ne (by simp)
  | finish hleaves => exact .of_none (hleaves.assignment_eq i) rfl hleaves.pc_ne (by simp)
  | beat hpc | request hpc | scanOwn hpc | scanDrop hpc | scanBetter hpc | scanned hpc =>
      exact .of_none (by simp only [assignment, hpc]) rfl (by simp [hpc]) (by simp)
  | count hpc hj =>
      refine .of_none ?_ rfl (by simp [hpc]) (by simp)
      simp only [assignment, hpc]
      exact if_neg fun hwon => hwon.1 hj
  | won hpc hj hvotes =>
      have hassign : assignment n i s .run = some (.lead (sidSetL s.sid)) := by
        simp only [assignment, hpc]
        exact if_pos ⟨hj, hvotes⟩
      refine .lead hassign ?_ rfl (by simp)
      rw [support_run (by simp [hpc]), hassign]
      rfl
  | chooseDrop hpc hj =>
      refine .of_none ?_ rfl (by simp [hpc]) (by simp)
      simp only [assignment, hpc]
      exact if_pos hj
  | chooseKeep hpc hmax hle hj =>
      refine .of_none ?_ rfl (by simp [hpc]) (by simp)
      simp only [assignment, hpc]
      exact if_pos hj
  | chooseTake hpc hmax hle hsid hlog hj =>
      refine .of_none ?_ rfl (by simp [hpc]) (by simp)
      simp only [assignment, hpc]
      exact if_pos hj
  | @raise _ highest _ hpc hj hbest =>
      have hassign : assignment n i s .run
          = some (.stand (sidSetIdx (sidSetTerm s.sid highest) i)) := by
        simp only [assignment, hpc]
        rw [if_neg hj, if_pos hbest]
      refine .stand hassign ?_ rfl (by simp)
      rw [support_run (by simp [hpc]), hassign]
      rfl
  | @vote _ _ best hpc hbest hj =>
      have hassign : assignment n i s .run = some (.vote best.sid) := by
        simp only [assignment, hpc]
        rw [if_neg hj, if_neg hbest]
      refine .vote hassign ?_ rfl
      rw [support_run (by simp [hpc]), hassign]
      rfl
  | ack hpc => exact .ack (by simp only [assignment, hpc]) (if_pos hpc) rfl hpc (by simp)
  | logMoves logEnd => exact .keep rfl rfl rfl id

/-- The SID is the one assigned, or the old one. -/
theorem SidStep.sid_eq (h : SidStep n i s s' ev) :
    s'.sid = ((assignment n i s ev).map Assignment.sid).getD s.sid := by
  cases h with
  | keep hassign _ hsid | ack hassign _ hsid => rw [hassign]; exact hsid
  | stand hassign _ hsid | lead hassign _ hsid | vote hassign _ hsid => rw [hassign]; exact hsid

end Outcome

/-! ## §3. One server. -/

/-- The support server `i` has given: of terms up to its own, and of earlier ones while it
still owes an ack. -/
def SupportsOk (supports : List (Nat × Nat × Support)) (i : Nat) (s : Server) : Prop :=
  ∀ t x, (i, t, x) ∈ supports → t ≤ s.sid / 512 ∧ (s.pc = .ack → t < s.sid / 512)

section Local
variable {n i : Nat} {votes : List (Nat × Nat × Nat)} {s s' : Server} {e : Effect} {ev : Event}

/-- **Every assignment increases the SID**; one that stands or votes, its term. -/
theorem ServerInv.assigned (hn : n ≤ maxServerCount) (hi : i < n) (h : ServerInv n votes i s)
    (hfit : ev = .hbReceive → startsElection n i s = true → s.sid / 512 + 1 < 2 ^ 55) {x : Assignment}
    (hx : assignment n i s ev = some x) :
    s.sid < x.sid ∧ x.sid < 2 ^ 64
      ∧ ((∀ sid, x ≠ .lead sid) → s.sid / 512 < x.sid / 512) := by
  unfold maxServerCount at hn
  have hbound := h.sid.1
  have hpcOk := h.pc
  unfold PcOk at hpcOk
  cases ev with
  | hbReceive =>
      simp only [assignment] at hx
      split at hx
      next hstarts =>
        cases hx
        have hterm := hfit rfl hstarts
        show s.sid < candidateSid s.sid i ∧ candidateSid s.sid i < 2 ^ 64
          ∧ (_ → s.sid / 512 < candidateSid s.sid i / 512)
        rw [candidateSid_eq hterm (by omega)]
        exact ⟨by omega, by omega, fun _ => by omega⟩
      next => cases hx
  | run =>
      simp only [assignment] at hx
      split at hx
      next j k hpc =>
        rw [hpc] at hpcOk
        split at hx
        · cases hx
          -- a candidate's flag is not set
          have hcand : s.sid % 512 = i := hpcOk
          show s.sid < sidSetL s.sid ∧ sidSetL s.sid < 2 ^ 64 ∧ _
          rw [sidSetL_of_lt (by omega)]
          exact ⟨by omega, by omega, fun hlead => absurd rfl (hlead _)⟩
        · cases hx
      next j highest best hpc =>
        rw [hpc] at hpcOk
        obtain ⟨hlow, hhigh, hfit55, -, hbest⟩ := hpcOk
        split at hx
        · cases hx
        · split at hx
          · cases hx
            show s.sid < sidSetIdx (sidSetTerm s.sid highest) i
              ∧ sidSetIdx (sidSetTerm s.sid highest) i < 2 ^ 64
              ∧ (_ → s.sid / 512 < sidSetIdx (sidSetTerm s.sid highest) i / 512)
            rw [raisedSid_eq hlow hfit55 (by omega)]
            exact ⟨by omega, by omega, fun _ => by omega⟩
          next hne =>
            cases hx
            rw [sidSetL_of_lt hlow] at hne
            -- above [t|1|idx], hence of a later term
            rcases hbest with ⟨heq, -⟩ | ⟨hgt, hlt, -, -, -, hidx⟩
            · exact absurd heq hne
            · show s.sid < best.sid ∧ best.sid < 2 ^ 64 ∧ (_ → s.sid / 512 < best.sid / 512)
              exact ⟨by omega, hlt, fun _ => by omega⟩
      next => cases hx
  | hbSend | poll | logMoves => cases hx

theorem mem_supports {supports : List (Nat × Nat × Support)} {j t : Nat} {x : Support}
    {new : Option (Nat × Support)}
    (h : (j, t, x) ∈ supports ++ new.toList.map fun y => (i, y)) :
    (j, t, x) ∈ supports ∨ j = i ∧ new = some (t, x) := by
  rcases List.mem_append.mp h with hold | hnew
  · exact .inl hold
  · obtain ⟨y, hy, heq⟩ := List.mem_map.mp hnew
    cases heq
    exact .inr ⟨rfl, Option.mem_toList.mp hy⟩

variable {supports : List (Nat × Nat × Support)} {new : Option (Nat × Support)}

theorem SupportsOk.congr (h : SupportsOk supports i s) (hview : (s'.sid, s'.pc) = (s.sid, s.pc)) :
    SupportsOk supports i s' := by
  rw [Prod.mk.injEq] at hview
  unfold SupportsOk
  rw [hview.1, hview.2]
  exact h

/-- No support is given. -/
theorem SupportsOk.keep (h : SupportsOk supports i s) (hnew : new = none) :
    SupportsOk (supports ++ new.toList.map fun y => (i, y)) i s
      ∧ ∀ t x, new = some (t, x) → ∀ y, (i, t, y) ∉ supports := by
  subst hnew
  refine ⟨fun t x hmem => ?_, fun t x hnew => by cases hnew⟩
  rcases mem_supports hmem with hold | ⟨-, hnew⟩
  · exact h t x hold
  · cases hnew

/-- Support is given in the term of the server, which is new to it. -/
theorem SupportsOk.cast {t : Nat} {x : Support} (hold : ∀ r y, (i, r, y) ∈ supports → r < t)
    (hnew : new = some (t, x)) (hterm : s.sid / 512 = t) (hpc : s.pc ≠ .ack) :
    SupportsOk (supports ++ new.toList.map fun y => (i, y)) i s
      ∧ ∀ t x, new = some (t, x) → ∀ y, (i, t, y) ∉ supports := by
  subst hnew
  refine ⟨fun r y hmem => ⟨?_, fun hack => absurd hack hpc⟩, fun r z hnew y hmem => ?_⟩
  · rcases mem_supports hmem with hmem | ⟨-, hnew⟩
    · exact hterm ▸ (hold r y hmem).le
    · cases hnew
      exact hterm.ge
  · cases hnew
    exact absurd (hold t y hmem) (Nat.lt_irrefl t)

/-- **One step of one server**: its support is the first in its term. -/
theorem SupportsOk.act (h : SupportsOk supports i s) (hn : n ≤ maxServerCount) (hi : i < n)
    (hs : ServerInv n votes i s)
    (hfit : ev = .hbReceive → startsElection n i s = true → s.sid / 512 + 1 < 2 ^ 55)
    (hact : Act n i s ev s' e) :
    SupportsOk (supports ++ (support n i s ev).toList.map fun y => (i, y)) i s'
      ∧ ∀ t x, support n i s ev = some (t, x) → ∀ y, (i, t, y) ∉ supports := by
  cases hact.outcome with
  | keep hassign hsupport hsid hpc =>
      have hok : SupportsOk supports i s' := by
        intro t x hmem
        rw [hsid]
        exact ⟨(h t x hmem).1, fun hack => (h t x hmem).2 (hpc hack)⟩
      exact hok.keep hsupport
  | @stand sid hassign hsupport hsid hpc =>
      have hlater : s.sid / 512 < sid / 512 := (hs.assigned hn hi hfit hassign).2.2 nofun
      rw [sidGetTerm_eq] at hsupport
      exact SupportsOk.cast (fun r y hmem => (h r y hmem).1.trans_lt hlater) hsupport (by rw [hsid]) hpc
  | @lead sid hassign hsupport hsid hpc =>
      have hlt : s.sid < sid := (hs.assigned hn hi hfit hassign).1
      have hok : SupportsOk supports i s' := by
        intro t x hmem
        rw [hsid]
        exact ⟨(h t x hmem).1.trans (Nat.div_le_div_right hlt.le), fun hack => absurd hack hpc⟩
      exact hok.keep hsupport
  | @vote sid hassign hsupport hsid =>
      have hlater : s.sid / 512 < sid / 512 := (hs.assigned hn hi hfit hassign).2.2 nofun
      -- the ack of this vote is still to come
      have hok : SupportsOk supports i s' := by
        intro t x hmem
        have hle := (h t x hmem).1
        rw [hsid]
        exact ⟨hle.trans hlater.le, fun _ => hle.trans_lt hlater⟩
      exact hok.keep hsupport
  | ack hassign hsupport hsid hpc hpc' =>
      rw [sidGetTerm_eq] at hsupport
      exact SupportsOk.cast (fun r y hmem => (h r y hmem).2 hpc) hsupport (by rw [hsid]) hpc'

end Local

/-! ## §4. The group. -/

/-- The SIDs in a step of server `a.1`. -/
structure SidGrows (g g' : Group) (a : Nat × Event) : Prop where
  /-- an assignment increases the SID as a 64-bit number -/
  assigned : ∀ x, assignment g.size a.1 (g.servers a.1) a.2 = some x →
    (g'.servers a.1).sid = x.sid ∧ (g.servers a.1).sid < x.sid ∧ x.sid < 2 ^ 64
  kept : assignment g.size a.1 (g.servers a.1) a.2 = none →
    (g'.servers a.1).sid = (g.servers a.1).sid
  others : ∀ k, k ≠ a.1 → (g'.servers k).sid = (g.servers k).sid

/-- What holds in every state, with all that was ever supported. -/
structure ElectionsInv (e : Elections) : Prop where
  group : GroupInv e.group
  server : ∀ i, SupportsOk e.supports i (e.group.servers i)
  once : OncePerTerm e.supports

section Group
variable {n : Nat} {e e' : Elections} {a : Nat × Event}

theorem GroupInv.sidGrows {g g' : Group} (h : GroupInv g) (hn : g.size ≤ maxServerCount)
    (hfit : TermsBelow g a) (hstep : step g a = some g') : SidGrows g g' a := by
  obtain ⟨s', eff, hi, hact, rfl⟩ := step_cases hstep
  have hsid := hact.outcome.sid_eq
  refine ⟨fun x hx => ?_, fun hx => ?_, fun k hk => ?_⟩
  · obtain ⟨hlt, hbound, -⟩ := (h.server a.1 hi).assigned hn hi hfit.fits hx
    rw [hx] at hsid
    rw [after_sid, if_pos rfl]
    exact ⟨hsid, hlt, hbound⟩
  · rw [hx] at hsid
    rw [after_sid, if_pos rfl]
    exact hsid
  · rw [after_sid, if_neg hk]

theorem Elections.step_cases (h : e.step a = some e') : Election.step e.group a = some e'.group
    ∧ e'.supports = e.supports
      ++ (support e.group.size a.1 (e.group.servers a.1) a.2).toList.map fun x => (a.1, x) := by
  obtain ⟨g, hg, rfl⟩ := Option.map_eq_some_iff.mp h
  exact ⟨hg, rfl⟩

theorem ElectionsInv.preserved (h : ElectionsInv e) (hn : e.group.size ≤ maxServerCount)
    (hfit : TermsBelow e.group a) (hstep : e.step a = some e') :
    ElectionsInv e' ∧ e'.group.size = e.group.size := by
  obtain ⟨hgroup, hsupports⟩ := Elections.step_cases hstep
  obtain ⟨hinv, hsize⟩ := h.group.preserved hn hfit hgroup
  obtain ⟨s', eff, hi, hact, hg'⟩ := step_cases hgroup
  have hs := h.group.server a.1 hi
  obtain ⟨hown, hfirst⟩ := (h.server a.1).act hn hi hs hfit.fits hact
  refine ⟨⟨hinv, fun k => ?_, ?_⟩, hsize⟩
  · -- a write changes neither the SID nor the program counter of its target
    have hview := @after_field e.group a.1 s' eff _ (fun s => (s.sid, s.pc))
      (fun _ _ w => by cases w <;> rfl) k
    rw [← hg'] at hview
    rw [hsupports]
    rcases eq_or_ne k a.1 with rfl | hne
    · rw [if_pos rfl] at hview
      exact hown.congr hview
    · rw [if_neg hne] at hview
      refine SupportsOk.congr (fun t x hmem => ?_) hview
      rcases mem_supports hmem with hold | ⟨heq, -⟩
      · exact h.server k t x hold
      · exact absurd heq hne
  · rw [hsupports]
    cases hnew : support e.group.size a.1 (e.group.servers a.1) a.2 with
    | none =>
        rw [Option.toList_none, List.map_nil, List.append_nil]
        exact h.once
    | some x => exact h.once.cast fun d hmem => hfirst x.1 x.2 hnew d hmem

theorem ElectionsInv.initial (n : Nat) : ElectionsInv (Elections.initial n) where
  group := .initial n
  server i t x hmem := by cases hmem
  once := fun v t c d hc => by cases hc

theorem elections_reaches (hn : n ≤ maxServerCount)
    (h : Reaches Elections.step (fun e a => TermsBelow e.group a) (Elections.initial n) e) :
    ElectionsInv e ∧ e.group.size = n := by
  refine h.invariant (I := fun e => ElectionsInv e ∧ e.group.size = n) ⟨.initial n, rfl⟩ ?_
  intro s a s' hinv hok hs
  obtain ⟨hinv', hsize⟩ := hinv.1.preserved (by rw [hinv.2]; exact hn) hok hs
  exact ⟨hinv', hsize.trans hinv.2⟩

/-- **One vote per term, and a growing SID.**  In every run in which terms stay below 2⁵⁵,
every assignment to a SID increases it, and a server supports at most one candidate in a
term, itself or the one it sends an ack to. -/
theorem one_vote_per_term (hn : n ≤ maxServerCount)
    (h : Reaches Elections.step (fun e a => TermsBelow e.group a) (Elections.initial n) e) :
    (∀ (i t : Nat) (x y : Support), (i, t, x) ∈ e.supports → (i, t, y) ∈ e.supports → x = y)
      ∧ ∀ (a : Nat × Event) (e' : Elections), TermsBelow e.group a → e.step a = some e' →
          SidGrows e.group e'.group a := by
  obtain ⟨hinv, hsize⟩ := elections_reaches hn h
  refine ⟨hinv.once, fun a e' hfit hstep => ?_⟩
  exact hinv.group.sidGrows (by rw [hsize]; exact hn) hfit (Elections.step_cases hstep).1

end Group

/-- Servers 2 and 3 stand in term 2, server 3 again in term 3, and server 2 then votes for it. -/
def standThenVote : List (Nat × Event) :=
  [(2, .hbReceive)] ++ List.replicate 5 (2, .run) ++ [(3, .hbReceive)] ++ List.replicate 5 (3, .run)
    ++ [(3, .hbReceive)] ++ List.replicate 5 (3, .run) ++ [(2, .poll)] ++ List.replicate 16 (2, .run)

theorem one_vote_per_term_four :
    ∃ e, Reaches Elections.step (fun e a => TermsBelow e.group a) (Elections.initial 4) e
      ∧ e.supports = [(2, 2, .candidacy), (3, 2, .candidacy), (3, 3, .candidacy), (2, 3, .ack 3)]
      ∧ ∀ (i t : Nat) (x y : Support), (i, t, x) ∈ e.supports → (i, t, y) ∈ e.supports → x = y := by
  obtain ⟨e, hrun, hview⟩ := exists_reaches_of_execOk Elections.step
    (fun e a => TermsBelow e.group a) (Elections.initial 4) standThenVote Elections.supports
    (v := [(2, 2, .candidacy), (3, 2, .candidacy), (3, 3, .candidacy), (2, 3, .ack 3)])
    (by decide +kernel)
  exact ⟨e, hrun, hview, (one_vote_per_term (by decide) hrun).1⟩

end RdmaPaxos.Election
