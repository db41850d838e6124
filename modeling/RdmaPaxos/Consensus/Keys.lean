/-
  RdmaPaxos.Consensus.Keys
  ────────────────────────
  **RECORD KEYS OVER A RUN OF ANY LENGTH.**

  A leader stores each record under `vstol` of a stamp whose request number is a
  `uint32_t` counted up in a view that never changes, and a TCP connection gets
  that stamp as its client id.  Request number `id` of a process has the stamp
  (1, (id + 1) mod 2³²); hence keys are fresh exactly as long as the counter has
  not come round:

      submissions   1     2    …   2³² - 1   2³²    2³² + 1
      request no.   1     2    …   2³² - 1    0        1

  Submission 2³² breaks the order, the one after it reuses the first key.
-/
import RdmaPaxos.Consensus.CommitOrder

namespace RdmaPaxos

open RdmaPaxos.ByteMemory RdmaPaxos.Run RdmaPaxos.Ticket

/-! ## §1. Runs and the property. -/

/-- One process leads, on node `l`, for any number of requests; stores may fail, logs
may wrap, and other nodes may come and go. -/
def LeaderRun (l : Nat) : World → Action → Prop
  | _, .submit i _ => i = l
  | _, .start i _ => i ≠ l
  | _, .joinReply i _ => i ≠ l
  | _, _ => True

instance (l : Nat) (w : World) : (a : Action) → Decidable (LeaderRun l w a)
  | .submit .. => inferInstanceAs (Decidable (_ = _))
  | .start .. | .joinReply .. => inferInstanceAs (Decidable (_ ≠ _))
  | .crash .. | .connect .. | .destroy .. | .relaunch .. | .call .. | .replica ..
  | .deliverEntry .. | .deliverAck .. => isTrue trivial

/-- Keys, records and client ids of the leader's requests are fresh. -/
structure KeysFresh (l : Nat) (w : World) : Prop where
  /-- the keys grow in submission order -/
  increasing : ∀ (i j : Nat) (c d : Call), i < j → w.calls[i]? = some c → w.calls[j]? = some d →
    vstol c.next < vstol d.next
  /-- a request about to store its record finds nothing under its key -/
  kept : ∀ (id : Nat) (c : Call), w.calls[id]? = some c → c.pc = .store →
    w.db l (vstol c.next) = none
  /-- no two TCP connections have one client id -/
  client : ∀ (i j : Nat) (c d : Call), i < j → w.calls[i]? = some c → w.calls[j]? = some d →
    c.req.type = .tcpConnect → d.req.type = .tcpConnect →
    c.req.cltId c.next ≠ d.req.cltId d.next

/-! ## §2. Stamps and records, whatever the length of the run. -/

/-- The leader's process numbers its calls modulo 2³², and its store holds their
records only. -/
structure Numbering (l : Nat) (w : World) : Prop where
  leads : (w.nodes l).leaderId = l
  idle : (w.nodes l).pc = .poll
  seen : (w.nodes l).seen = ⟨1, UInt32.ofNat w.calls.length⟩
  call : ∀ (id : Nat) (c : Call), w.calls[id]? = some c → c.owner = l ∧ c.next = stampOf id
  record : ∀ (key : Nat) (b : Buf), w.db l key = some b →
    ∃ (id : Nat) (c : Call), w.calls[id]? = some c ∧ key = vstol c.next ∧ 3 ≤ c.pc.stage

section Steps

variable {l n : Nat} {w w' : World} {a : Action}

/-- What a call does to the calls and to the stores. -/
theorem CallStep.stores {id : Nat} {c : Call} {stored : Bool} (h : CallStep w id c stored w')
    (hc : w.calls[id]? = some c) : ∃ c', w'.calls = w.calls.set id c' ∧ c.Same c'
      ∧ (3 ≤ c.pc.stage → 3 ≤ c'.pc.stage)
      ∧ ∀ j key b, w'.db j key = some b → w.db j key = some b
          ∨ (j = c.owner ∧ key = vstol c.next ∧ 3 ≤ c'.pc.stage) := by
  cases h with
  | spin =>
      exact ⟨c, (set_get_self hc).symm, ⟨rfl, rfl, rfl, rfl, rfl, rfl⟩, fun hs => hs,
        fun _ _ _ hb => .inl hb⟩
  | store hpc =>
      refine ⟨_, rfl, ⟨rfl, rfl, rfl, rfl, rfl, rfl⟩, fun _ => Nat.le_refl 3, fun j key b hb => ?_⟩
      have hdb := storeRecord_db w c.owner (vstol c.next)
        (recordAt (w.nodes c.owner).log.entries c.entry) j key
      rw [show ((w.storeRecord c.owner (vstol c.next) _).setCall id _).db j key = _ from hdb] at hb
      split at hb
      next heq => exact .inr ⟨heq.1, heq.2, Nat.le_refl 3⟩
      next => exact .inl hb
  | sample hpc | fill hpc | fail hpc =>
      refine ⟨_, rfl, ⟨rfl, rfl, rfl, rfl, rfl, rfl⟩, fun hs => ?_, fun _ _ _ hb => .inl hb⟩
      rw [hpc] at hs
      exact absurd hs (by decide)
  | mark | skip | post | posted | hit | miss | scanned | ackId | quorum | again | leaveSpin | incRead
  | incWrite =>
      exact ⟨_, rfl, ⟨rfl, rfl, rfl, rfl, rfl, rfl⟩, fun _ => Nat.le_of_ble_eq_true rfl,
        fun _ _ _ hb => .inl hb⟩

/-- The part of the leader's process that numbers. -/
def Node.numbering (nd : Node) : Nat × ReplicaPc × ViewStamp := (nd.leaderId, nd.pc, nd.seen)

/-- A step that leaves the calls and the leader's store and counter alone. -/
theorem Numbering.congr (h : Numbering l w)
    (hnode : (w'.nodes l).numbering = (w.nodes l).numbering) (hcalls : w'.calls = w.calls)
    (hdb : ∀ key, w'.db l key = w.db l key) : Numbering l w' := by
  have hleads : (w'.nodes l).leaderId = (w.nodes l).leaderId := congrArg Prod.fst hnode
  have hidle : (w'.nodes l).pc = (w.nodes l).pc := congrArg (fun v => v.2.1) hnode
  have hseen : (w'.nodes l).seen = (w.nodes l).seen := congrArg (fun v => v.2.2) hnode
  refine ⟨hleads.trans h.leads, hidle.trans h.idle, ?_, ?_, ?_⟩
  · rw [hseen, hcalls]
    exact h.seen
  · rw [hcalls]
    exact h.call
  · intro key b hb
    rw [hdb] at hb
    rw [hcalls]
    exact h.record key b hb

/-- A call takes a step. -/
theorem Numbering.callStep (h : Numbering l w) {id : Nat} {c : Call} {stored : Bool}
    (hc : w.calls[id]? = some c) (hcall : CallStep w id c stored w') : Numbering l w' := by
  obtain ⟨c', hcalls, hsame, hstage, hstores⟩ := hcall.stores hc
  have hnode : (w'.nodes l).numbering = (w.nodes l).numbering :=
    hcall.field Node.numbering (fun _ _ => rfl) (fun _ _ => rfl) l
  have hself : w'.calls[id]? = some c' := by
    have hlt : id < w.calls.length := (List.getElem?_eq_some_iff.mp hc).1
    rw [hcalls, List.getElem?_set_self hlt]
  have hother : ∀ k, k ≠ id → w'.calls[k]? = w.calls[k]? := by
    intro k hk
    rw [hcalls, List.getElem?_set_ne (Ne.symm hk)]
  refine ⟨(congrArg Prod.fst hnode).trans h.leads, (congrArg (fun v => v.2.1) hnode).trans h.idle,
    ?_, ?_, ?_⟩
  · rw [show (w'.nodes l).seen = (w.nodes l).seen from congrArg (fun v => v.2.2) hnode, hcalls,
      List.length_set]
    exact h.seen
  · intro k d hd
    rcases eq_or_ne k id with rfl | hk
    · rw [hself] at hd
      cases hd
      rw [hsame.owner, hsame.next]
      exact h.call k c hc
    · exact h.call k d (hother k hk ▸ hd)
  · intro key b hb
    rcases hstores l key b hb with hold | ⟨-, hkey, hdone⟩
    · -- an old record; its call may be the one that moves
      obtain ⟨k, d, hd, hkey, hs⟩ := h.record key b hold
      rcases eq_or_ne k id with rfl | hk
      · rw [hc] at hd
        cases hd
        exact ⟨k, c', hself, by rw [hsame.next]; exact hkey, hstage hs⟩
      · exact ⟨k, d, (hother k hk).trans hd, hkey, hs⟩
    · exact ⟨id, c', hself, by rw [hsame.next]; exact hkey, hdone⟩

/-- Lines 130–177. -/
theorem Numbering.submit (h : Numbering l w) (q : Request) :
    Numbering l { w.setNode l ((w.nodes l).alloc q) with
      calls := w.calls ++ [(w.nodes l).newCall l q] } := by
  have hnode := submit_nodes_self w l q
  have hlen : (w.calls ++ [(w.nodes l).newCall l q]).length = w.calls.length + 1 :=
    List.length_append
  refine ⟨?_, ?_, ?_, ?_, ?_⟩
  · rw [hnode]
    exact h.leads
  · rw [hnode]
    exact h.idle
  · rw [hnode, hlen]
    exact alloc_seen h.seen q
  · intro id c hc
    rcases get_concat hc with ⟨-, hold⟩ | ⟨rfl, rfl⟩
    · exact h.call id c hold
    · exact ⟨rfl, getNextViewStamp_eq h.seen⟩
  · intro key b hb
    obtain ⟨id, c, hc, hkey, hs⟩ := h.record key b hb
    have hlt : id < w.calls.length := (List.getElem?_eq_some_iff.mp hc).1
    exact ⟨id, c, (List.getElem?_append_left hlt).trans hc, hkey, hs⟩

/-- **The step lemma.** -/
theorem Numbering.preserved (h : Numbering l w) (hok : LeaderRun l w a)
    (hstep : step w a = some w') : Numbering l w' := by
  cases step_cases hstep with
  | start | joinReply =>
      exact h.congr (setNode_field Node.numbering fun heq => absurd heq hok) rfl fun _ => rfl
  | relaunch _ hlead =>
      refine h.congr (setNode_field Node.numbering fun heq => ?_) rfl fun _ => rfl
      subst heq
      exact absurd h.leads hlead
  | crash | connect | destroy | deliverEntry | deliverAck =>
      exact h.congr (setNode_field Node.numbering fun heq => by subst heq; rfl) rfl fun _ => rfl
  | call hc _ _ hcall => exact h.callStep hc hcall
  | @replica i _ _ _ _ hrep =>
      refine h.congr (by rw [hrep.leader_nodes h.idle h.leads]) hrep.frame.2.1 fun key => ?_
      -- the store of a follower is not the leader's
      cases hrep with
      | accept hpc =>
          have hne : l ≠ i := by
            rintro rfl
            rw [h.idle] at hpc
            cases hpc
          refine (storeRecord_db w i _ _ l key).trans (if_neg fun heq => hne heq.1)
      | _ => rfl
  | submit =>
      obtain rfl := hok
      exact h.submit _

/-- Nothing submitted. -/
theorem Numbering.booted (hl : l < n) : Numbering l (World.booted n l) where
  leads := by rw [booted_member hl]
  idle := by rw [booted_member hl]; rfl
  seen := by rw [booted_member hl]; rfl
  call id c hc := by cases hc
  record key b hb := by cases hb

/-- The stamps of a leader's calls, and what its store holds, in every state of every run. -/
theorem leaderRun_reaches (hl : l < n) (h : Reaches step (LeaderRun l) (World.booted n l) w) :
    Numbering l w :=
  h.invariant (I := Numbering l) (.booted hl) fun _ _ _ hinv hok hs => hinv.preserved hok hs

/-- Runs of bounded length are some of these. -/
theorem OneProcess.leaderRun (h : OneProcess l w a) : LeaderRun l w a := by
  cases a with
  | submit => exact h.1
  | start | joinReply => exact h
  | _ => trivial

/-- A run of one process is as short as its submissions say. -/
theorem oneProcess_short (h : Reaches step (OneProcess l) (World.booted n l) w) :
    w.calls.length < 2 ^ 32 - 1 := by
  refine h.invariant (I := fun w => w.calls.length < 2 ^ 32 - 1)
    (show 0 < 2 ^ 32 - 1 by decide) fun w a w' hlen hok hs => ?_
  cases step_cases hs with
  | submit =>
      show (w.calls ++ [_]).length < _
      rw [List.length_append]
      exact hok.2
  | call hc _ _ hcall =>
      obtain ⟨c', hcalls, -⟩ := hcall.frame hc
      rw [hcalls, List.length_set]
      exact hlen
  | replica _ hrep =>
      rw [hrep.frame.2.1]
      exact hlen
  | start | crash | joinReply | connect | destroy | relaunch | deliverEntry | deliverAck => exact hlen

end Steps

/-! ## §3. Fresh exactly for fewer than 2³² submissions. -/

section Fresh

variable {l n : Nat} {w : World}

/-- Later stamps have larger keys, as long as the counter does not come round. -/
theorem vstol_stampOf_lt {i j : Nat} (hij : i < j) (hj : j + 1 < 2 ^ 32) :
    vstol (stampOf i) < vstol (stampOf j) := by
  rw [vstol_stampOf (by omega), vstol_stampOf hj]
  omega

/-- Fewer than 2³² submissions have fresh keys. -/
theorem Numbering.keysFresh (h : Numbering l w) (hlen : w.calls.length < 2 ^ 32) :
    KeysFresh l w := by
  have hlt : ∀ {id : Nat} {c : Call}, w.calls[id]? = some c → id + 1 < 2 ^ 32 := by
    intro id c hc
    have := (List.getElem?_eq_some_iff.mp hc).1
    omega
  refine ⟨fun i j c d hij hc hd => ?_, fun id c hc hpc => ?_, fun i j c d hij hc hd hct hdt => ?_⟩
  · rw [(h.call i c hc).2, (h.call j d hd).2]
    exact vstol_stampOf_lt hij (hlt hd)
  · -- a record under this key would be the call's own, and the call has not stored yet
    by_contra hsome
    obtain ⟨b, hb⟩ := Option.ne_none_iff_exists'.1 hsome
    obtain ⟨k, d, hd, hkey, hs⟩ := h.record _ b hb
    rw [(h.call id c hc).2, (h.call k d hd).2] at hkey
    obtain rfl := vstol_stampOf_inj (hlt hc) (hlt hd) hkey
    rw [hc] at hd
    cases hd
    rw [hpc] at hs
    exact absurd hs (by decide)
  · have hne := vstol_stampOf_lt hij (hlt hd)
    intro heq
    simp only [Request.cltId, hct, hdt, (h.call i c hc).2, (h.call j d hd).2] at heq
    rw [heq] at hne
    exact absurd hne (Nat.lt_irrefl _)

/-- Submission 2³² is numbered 0. -/
theorem Numbering.not_increasing (h : Numbering l w) (hlen : 2 ^ 32 ≤ w.calls.length) :
    ¬ KeysFresh l w := by
  intro hfresh
  have hc : w.calls[2 ^ 32 - 2]? = some w.calls[2 ^ 32 - 2] := List.getElem?_eq_getElem (by omega)
  have hd : w.calls[2 ^ 32 - 1]? = some w.calls[2 ^ 32 - 1] := List.getElem?_eq_getElem (by omega)
  have hlt := hfresh.increasing (2 ^ 32 - 2) (2 ^ 32 - 1) _ _ (by decide) hc hd
  rw [(h.call _ _ hc).2, (h.call _ _ hd).2] at hlt
  exact absurd hlt (by decide)

/-- **Record keys are never reused exactly as long as fewer than 2³² requests
have been submitted.** -/
theorem keysFresh_iff (hl : l < n) (h : Reaches step (LeaderRun l) (World.booted n l) w) :
    KeysFresh l w ↔ w.calls.length < 2 ^ 32 := by
  have hnum := leaderRun_reaches hl h
  constructor
  · intro hfresh
    by_contra hlen
    exact hnum.not_increasing (by omega) hfresh
  · exact hnum.keysFresh

end Fresh

/-- Two connections are accepted: their keys and client ids are fresh. -/
theorem keysFresh_iff_twoConnects :
    ∃ w, Reaches step (LeaderRun 0) (World.booted 2 0) w ∧ w.calls.length = 2 ∧ KeysFresh 0 w := by
  obtain ⟨w, hrun, hlen⟩ := exists_reaches_of_execOk step (LeaderRun 0) (World.booted 2 0)
    [.submit 0 connectReq, .submit 0 connectReq] (fun w => w.calls.length) (v := 2) (by decide +kernel)
  exact ⟨w, hrun, hlen, (keysFresh_iff (by decide) hrun).2 (by omega)⟩

/-! ## §4. A run that comes round. -/

/-- A request whose entry takes 256 bytes, so that entries tile the log. -/
def tile : Request := ⟨.send, ⟨39, fun _ => 0⟩, ⟨1, 1⟩⟩

/-- The leader can take another such request. -/
structure Tiled (l : Nat) (w : World) : Prop where
  up : (w.nodes l).up = true
  leads : (w.nodes l).leaderId = l
  size : w.size ≤ maxServerCount
  len : (w.nodes l).log.len = logSize
  aligned : 256 ∣ (w.nodes l).log.endOff
  inside : (w.nodes l).log.endOff ≤ (w.nodes l).log.len

/-- An entry with 39 bytes of payload takes 256. -/
theorem logEntryLen_tile (m : Mem) (entry : Nat) :
    logEntryLen (writeLE m (entry + offDataSize) 8 (39 + 1)) entry = 256 := by
  unfold logEntryLen
  rw [readLE_writeLE_of_lt _ (by decide)]
  rfl

section Tile

variable {log : DareLog}

/-- Where the next such entry goes: at the end of the log, `end` counts as an empty log and
the entry goes to the beginning. -/
def nextTile (log : DareLog) : Nat := if log.endOff = log.len then 0 else log.endOff

/-- The next tile is inside the log. -/
theorem nextTile_le (hlen : log.len = logSize) (haligned : 256 ∣ log.endOff)
    (hinside : log.endOff ≤ log.len) : nextTile log + 256 ≤ log.len := by
  unfold nextTile
  unfold logSize at hlen
  split <;> omega

theorem logAddNewEntry_tile : logAddNewEntry log = nextTile log := by
  unfold logAddNewEntry isLogEmpty nextTile
  by_cases he : log.endOff = log.len
  · rw [if_pos he, if_pos (by rw [he]; exact beq_self_eq_true _)]
  · rw [if_neg he, if_neg (by simpa using he)]

theorem tail_tile (hlen : log.len = logSize) (haligned : 256 ∣ log.endOff)
    (hinside : log.endOff ≤ log.len) :
    (if logFitEntryHeader log log.endOff then log.endOff else 0) = nextTile log := by
  have hfit := @fit_iff_of_le log log.endOff (by rw [hlen]; decide) hinside
  have hle := nextTile_le hlen haligned hinside
  unfold nextTile at hle ⊢
  unfold sizeofEntry at hfit
  by_cases he : log.endOff = log.len
  · rw [if_pos he, if_neg (by rw [hfit]; omega)]
  · rw [if_neg he] at hle ⊢
    rw [if_pos (by rw [hfit]; omega)]

/-- Entries of 256 bytes go from tile to tile. -/
theorem allocEntry_tile (hlen : log.len = logSize) (haligned : 256 ∣ log.endOff)
    (hinside : log.endOff ≤ log.len) :
    (allocEntry log 39).1 = nextTile log ∧ (allocEntry log 39).2.endOff = nextTile log + 256 := by
  have hle := nextTile_le hlen haligned hinside
  have hbig : logSize < 2 ^ 64 := by decide
  refine ⟨logAddNewEntry_tile, ?_⟩
  show ((if logFitEntryHeader log log.endOff then log.endOff else 0)
    + logEntryLen (writeLE log.entries (logAddNewEntry log + offDataSize) 8 (39 + 1))
      (logAddNewEntry log)) % 2 ^ 64 = _
  rw [logEntryLen_tile, tail_tile hlen haligned hinside]
  exact Nat.mod_eq_of_lt (by omega)

end Tile

/-- There is always one more submission. -/
theorem Tiled.submit {l : Nat} {w : World} (h : Tiled l w) {q : Request} (hq : q.data.size = 39) :
    ∃ w', step w (.submit l q) = some w' ∧ w'.calls.length = w.calls.length + 1 ∧ Tiled l w' := by
  obtain ⟨hentry, hend⟩ := allocEntry_tile h.len h.aligned h.inside
  rw [← hq] at hentry hend
  have hle := nextTile_le h.len h.aligned h.inside
  have hfit : (allocEntry (w.nodes l).log q.data.size).1 + sizeofEntry + (q.data.size + 1)
      ≤ (w.nodes l).log.len := by
    rw [hentry, hq]
    unfold sizeofEntry
    omega
  have hnode := submit_nodes_self w l q
  have hendOff : ((w.nodes l).alloc q).log.endOff = nextTile (w.nodes l).log + 256 := hend
  have hlen : ((w.nodes l).alloc q).log.len = (w.nodes l).log.len := allocEntry_len _ _
  refine ⟨_, (Step.submit h.up h.leads h.size hfit).exec, List.length_append, ?_⟩
  exact
    { up := by rw [hnode]; exact h.up
      leads := by rw [hnode]; exact h.leads
      size := h.size
      len := by rw [hnode, hlen]; exact h.len
      aligned := by
        have haligned := h.aligned
        rw [hnode, hendOff]
        unfold nextTile
        split <;> omega
      inside := by
        rw [hnode, hendOff, hlen]
        exact hle }

/-- A new log is empty. -/
theorem Tiled.booted : Tiled 0 (World.booted 2 0) := by
  have hnode := booted_member (l := 0) (show 0 < 2 by decide)
  have hlog : ((World.booted 2 0).nodes 0).log = logNew := by rw [hnode]; rfl
  exact
    { up := by rw [hnode]; rfl
      leads := by rw [hnode]
      size := by decide
      len := by rw [hlog]; rfl
      aligned := by
        rw [hlog]
        show 256 ∣ logSize
        exact ⟨2 ^ 20, by decide⟩
      inside := by rw [hlog]; exact Nat.le_refl _ }

/-- A leader can be given any number of requests. -/
theorem exists_submissions (k : Nat) :
    ∃ w, Reaches step (LeaderRun 0) (World.booted 2 0) w ∧ w.calls.length = k ∧ Tiled 0 w := by
  induction k with
  | zero => exact ⟨_, .refl, rfl, .booted⟩
  | succ k ih =>
      obtain ⟨w, hrun, hlen, htiled⟩ := ih
      obtain ⟨w', hstep, hlen', htiled'⟩ := htiled.submit (q := tile) rfl
      exact ⟨w', hrun.tail (a := .submit 0 tile) rfl hstep, by rw [hlen', hlen], htiled'⟩

/-- After 2³² requests the keys are no longer increasing. -/
theorem keysFresh_fails :
    ¬ ∀ (n l : Nat) (w : World), l < n → Reaches step (LeaderRun l) (World.booted n l) w →
      KeysFresh l w := by
  intro hall
  obtain ⟨w, hrun, hlen, -⟩ := exists_submissions (2 ^ 32)
  exact (leaderRun_reaches (by decide) hrun).not_increasing (by omega) (hall 2 0 w (by decide) hrun)

end RdmaPaxos
