/-
  RdmaPaxos.Consensus.WrapAround
  ──────────────────────────────
  **THE SECOND LAP OF A LOG.**

  A follower recognises an entry by a non-zero size and the marker byte, and
  nothing ever clears an entry it has consumed.  So when the entries end where
  no header fits any more, the follower's next poll goes back to offset 0, finds
  the first entry of the lap still there, and accepts it again.  Where it reads no
  size in part, the entries a follower accepts are a prefix of those submitted
  exactly for the sequences of requests that never bring the log to such a position.

  §1  sequences that stay on the first lap;
  §2  the second lap;
  §3  the exact condition.
-/
import RdmaPaxos.Consensus.Progress
import RdmaPaxos.Consensus.Safety

namespace RdmaPaxos

open RdmaPaxos.ByteMemory RdmaPaxos.Ticket RdmaPaxos.Run

/-- The entries the leader has submitted: `msg_vs`, type, `clt_id` and payload. -/
def World.entries (w : World) : List (ViewStamp × Record) :=
  w.calls.map fun c => (c.next, c.req.record c.next)

/-- Follower `f` never accepts anything but the submitted entries in their order,
whatever the schedule, as long as no size is read in part. -/
def AcceptsInOrder (n l f : Nat) (rs : List Request) : Prop :=
  ∀ w, Reaches step (WholeSizes (Schedule l rs)) (World.booted n l) w →
    (w.nodes f).accepted <+: w.entries

/-- No entry ends so close to the end of the log that the next header does not fit. -/
def StaysOnLap (rs : List Request) : Prop :=
  ∀ k < rs.length, startOf rs (k + 1) ≤ logSize → startOf rs (k + 1) + sizeofEntry ≤ logSize

instance (rs : List Request) : Decidable (StaysOnLap rs) :=
  inferInstanceAs (Decidable (∀ k < rs.length, _ → _))

/-! ## §1. The first lap. -/

/-- Later requests move no entry. -/
theorem startOf_of_prefixed {rs rs' : List Request} (h : rs <+: rs') {k : Nat} (hk : k ≤ rs.length) :
    startOf rs' k = startOf rs k := by
  obtain ⟨tl, rfl⟩ := h
  unfold startOf
  rw [List.take_append_of_le_length hk]

section FirstLap
variable {T : Request → Prop} {n l p : Nat} {all : List Request} {w w' : World} {a : Action}

/-- All entries submitted are in the log. -/
theorem Inv.startOf_le_logSize (h : Inv T l p w) {k : Nat} (hk : k ≤ w.requests.length) :
    startOf w.requests k ≤ logSize := by
  cases k with
  | zero => exact Nat.zero_le _
  | succ k =>
      obtain ⟨q, hq⟩ : ∃ q, w.requests[k]? = some q := ⟨_, List.getElem?_eq_getElem hk⟩
      obtain ⟨c, hc, rfl⟩ := calls_get hq
      rw [startOf_succ hq]
      exact (h.call k c hc).inside

/-- A log of the group, leader's or follower's, has room for the next header. -/
theorem Inv.notWrapping (h : Inv T l p w) (hstay : StaysOnLap all) (hpre : w.requests <+: all)
    {log : DareLog} {k : Nat} (hk : k ≤ w.requests.length) (hpos : LogAt w.requests log k) :
    NotWrapping log := by
  refine hpos.notWrapping ?_
  cases k with
  | zero => exact .inl rfl
  | succ k =>
      have hle := h.startOf_le_logSize hk
      rw [← startOf_of_prefixed hpre hk] at hle ⊢
      exact .inr (hstay k (by have := hpre.length_le; omega) hle)

/-- No node starts, stops or connects. -/
theorem Schedule.same (hok : Schedule l all w a) (hstep : step w a = some w') (j : Nat) :
    (w.nodes j).Same (w'.nodes j) := by
  cases step_cases hstep with
  | call _ _ _ hcall => exact hcall.same j
  | replica _ hrep => exact hrep.same j
  | submit => exact same_setNode (w := w) (.alloc _ _) j
  | deliverEntry => exact same_setNode (w := w.setEntryWrite _ _ _) (.setEntries _ _) j
  | deliverAck => exact same_setNode (w := w.setAckWrite _ _) (.setEntries _ _) j
  | start | crash | joinReply | connect | destroy | relaunch => exact hok.elim

/-- A run of a schedule so far: the invariant, the processes it began with, and a
part of the requests. -/
structure OnLap (n l : Nat) (all : List Request) (w : World) : Prop where
  inv : Inv Request.Any l 1 w
  same : ∀ j, ((World.booted n l).nodes j).Same (w.nodes j)
  requests : w.requests <+: all

theorem booted_leader (hl : l < n) : ((World.booted n l).nodes l).region = 1
    ∧ ((World.booted n l).nodes l).leaderId = l := by
  rw [booted_member hl]
  exact ⟨rfl, rfl⟩

/-- As long as no log wraps, the steps of a schedule are those of one sole leader. -/
theorem OnLap.soleLeader (h : OnLap n l all w) (hl : l < n) (hstay : StaysOnLap all)
    (hok : Schedule l all w a) : SoleLeader l 1 w a := by
  have hregion : (w.nodes l).region = 1 := (h.same l).region.trans (booted_leader hl).1
  have hleader : (w.nodes l).leaderId = l := (h.same l).leaderId.trans (booted_leader hl).2
  cases a with
  | submit i q =>
      obtain ⟨rfl, -⟩ := hok
      exact ⟨rfl, hregion, h.inv.notWrapping hstay h.requests (length_requests w).ge
        (h.inv.leader hregion).pos⟩
  | replica i stored hash =>
      intro hpc hne
      have hil : i ≠ l := fun heq => hne (by rw [heq]; exact hleader)
      have hrep := h.inv.replica i fun hboth => hil hboth.1
      exact h.inv.notWrapping hstay h.requests hrep.accepted_le hrep.pos
  | _ => trivial

/-- **The step lemma.** -/
theorem OnLap.preserved (h : OnLap n l all w) (hl : l < n) (hstay : StaysOnLap all)
    (hok : WholeSizes (Schedule l all) w a) (hstep : step w a = some w') : OnLap n l all w' := by
  obtain ⟨hok, harr⟩ := hok
  refine ⟨h.inv.preserved (h.soleLeader hl hstay hok) (.inr harr) hstep,
    fun j => (h.same j).trans (hok.same hstep j), ?_⟩
  cases step_cases hstep with
  | @submit i q =>
      show (w.calls ++ [(w.nodes i).newCall i q]).map Call.req <+: all
      rw [List.map_append]
      obtain ⟨rest, rfl⟩ := h.requests
      have hnext := hok.2
      rw [← length_requests, List.getElem?_append_right (Nat.le_refl _), Nat.sub_self] at hnext
      cases rest with
      | nil => cases hnext
      | cons r rest =>
          cases hnext
          exact ⟨rest, List.append_assoc ..⟩
  | call hc _ _ hcall =>
      rw [hcall.requests hc]
      exact h.requests
  | replica _ hrep =>
      rw [hrep.requests]
      exact h.requests
  | _ => exact h.requests

/-- **The run lemma.** -/
theorem onLap_reaches (hl : l < n) (hstay : StaysOnLap all)
    (h : Reaches step (WholeSizes (Schedule l all)) (World.booted n l) w) : OnLap n l all w :=
  h.invariant ⟨Inv.booted n l 1, fun _ => .refl _, List.nil_prefix⟩
    fun _ _ _ hlap hok hs => hlap.preserved hl hstay hok hs

/-- The entries are those the requests were numbered to. -/
theorem Inv.entries_eq (h : Inv T l p w) : w.entries = submitted w.requests := by
  apply List.ext_getElem?
  intro k
  unfold World.entries submitted World.requests
  rw [List.getElem?_map, List.getElem?_mapIdx, List.getElem?_map]
  cases hc : w.calls[k]? with
  | none => rfl
  | some c =>
      show some (c.next, c.req.record c.next) = _
      rw [(h.call k c hc).next]
      rfl

end FirstLap

/-! ## §2. The second lap. -/

section SecondLap
variable {n l f : Nat} {rs all : List Request} {w : World}

theorem Idle.booted (hl : l < n) (hf : f < n) (hfl : f ≠ l) : Idle n l f [] (World.booted n l) := by
  refine ⟨⟨Inv.booted n l _, rfl, ?_, ?_, ?_, rfl, nofun, ?_, ?_, ?_⟩, ?_, ?_⟩
  · rw [booted_member hl]
    rfl
  · rw [booted_member hl]
  · rw [booted_member hl, booted_member hf]
    exact if_pos ⟨hf, hfl⟩
  · rw [booted_member hf]
    rfl
  · rw [booted_member hf]
    exact Ne.symm hfl
  · rw [booted_member hf]
    exact fun k hk => absurd hk (Nat.not_lt_zero k)
  · rw [booted_member hf]
    rfl
  · rw [booted_member hf]
    rfl

/-- **A follower can be brought to the end of the first lap.** -/
theorem exists_idle (hl : l < n) (hf : f < n) (hfl : f ≠ l) (hn : n ≤ maxServerCount) {k : Nat}
    (hk : k ≤ all.length) (hfit : startOf all k ≤ logSize) :
    ∀ j ≤ k, ∃ w, Reaches step (WholeSizes (Schedule l all)) (World.booted n l) w
      ∧ Idle n l f (all.take j) w := by
  intro j
  induction j with
  | zero => exact fun _ => ⟨_, .refl, Idle.booted hl hf hfl⟩
  | succ j ih =>
      intro hjk
      obtain ⟨w, hrun, hidle⟩ := ih (by omega)
      have hlt : j < all.length := by omega
      have hq : all[j]? = some all[j] := List.getElem?_eq_getElem hlt
      have hlen : (all.take j).length = j := List.length_take_of_le (by omega)
      -- entry j and all before it end below the end of entry k - 1
      have hend := startOf_add_le hq hjk
      have hstart : startOf (all.take j) j = startOf all j :=
        (startOf_of_prefixed (List.take_prefix j all) hlen.ge).symm
      have hroom : startOf all j + all[j].entryLen ≤ logSize := by omega
      obtain ⟨w', hrun', hidle'⟩ := hidle.serve hfl hf hn (q := all[j])
        (by rw [hlen]; exact hq) (by
          rw [hlen, hstart]
          unfold Request.entryLen at hroom
          omega) (by rw [hlen, hstart]; exact hroom)
      rw [List.take_append_getElem hlt] at hidle'
      exact ⟨w', hrun.trans hrun', hidle'⟩

/-- **The first entry is accepted once more.** -/
theorem Idle.acceptsAgain (h : Idle n l f rs w) (hfl : f ≠ l) (hne : 0 < rs.length)
    (hend : logSize < startOf rs rs.length + sizeofEntry) :
    ∃ w', Reaches step (WholeSizes (Schedule l all)) w w' ∧ w'.calls = w.calls
      ∧ (w'.nodes f).accepted.length = rs.length + 1 := by
  have hrep := h.inv.replica f fun hboth => hfl hboth.1
  have hpos := hrep.pos
  rw [h.requests, h.count] at hpos
  -- no header fits at the end of the log, so the poll goes back to 0
  have hoff : logGetEntry (w.nodes f).log (w.nodes f).log.endOff = 0 := by
    have hle := h.inv.startOf_le_logSize (Nat.le_refl _)
    rw [h.requests] at hle
    rcases hpos.offs with ⟨hzero, -⟩ | ⟨-, -, -, hoffEnd⟩
    · omega
    · unfold logGetEntry
      refine if_neg fun hfits => ?_
      rw [fit_iff_of_le (by rw [hpos.len]; decide) (by rw [hpos.len, hoffEnd]; exact hle),
        hpos.len, hoffEnd] at hfits
      omega
  -- where the first entry still is
  have hwhole := h.whole 0 (by rw [h.count]; exact hne)
  obtain ⟨q, -, hin, hb⟩ := h.inv.entryBytes hfl hwhole
  rw [startOf_zero] at hin hb
  have h₁ := ReplicaStep.found h.idle h.follows hpos.len hoff hin hb
  have hn₁ := setNode_nodes_self w f { w.nodes f with
    log := { (w.nodes f).log with endOff := 0 }, pc := .measure 0 }
  generalize w.setNode f _ = w₁ at h₁ hn₁
  have h₂ : ReplicaStep w₁ f true 0
      (w₁.setNode f { w₁.nodes f with pc := .marker 0 q.entryLen }) := by
    have hb₁ : EntryBytes (doneCount w.calls) 4 l 0 q (entryAt (w₁.nodes f).log.entries 0) := by
      rw [hn₁]
      exact hb
    exact .measured (by rw [hn₁]) hin hb₁
  have hn₂ := setNode_nodes_self w₁ f { w₁.nodes f with pc := .marker 0 q.entryLen }
  generalize w₁.setNode f _ = w₂ at h₂ hn₂
  have h₃ : ReplicaStep w₂ f true 0 (w₂.setNode f { w₂.nodes f with pc := .accept 0 }) := by
    have hb₂ : EntryBytes (doneCount w.calls) 4 l 0 q (entryAt (w₂.nodes f).log.entries 0) := by
      rw [hn₂, hn₁]
      exact hb
    exact .marked (by rw [hn₂]) (by rw [hn₂, hn₁]; exact hpos.len) hin hb₂
  have hn₃ := setNode_nodes_self w₂ f { w₂.nodes f with pc := .accept 0 }
  generalize w₂.setNode f _ = w₃ at h₃ hn₃
  have h₄ : ReplicaStep w₃ f true 0 _ := .accept (by rw [hn₃])
  have hup₁ := (h₁.same f).up.trans h.followerUp
  have hup₂ := (h₂.same f).up.trans hup₁
  have hup₃ := (h₃.same f).up.trans hup₂
  -- the first entry arrived in full long ago, and its size with it
  have harr : SizeArrived w₁ (.replica f true 0) := by
    have hto : w₁.writesTo f = w.writesTo f := by
      unfold World.writesTo
      rw [h₁.frame.2.2]
    have hpc₁ : (w₁.nodes f).pc = .measure 0 := by rw [hn₁]
    refine sizeArrived_of_whole (k := 0) (by rw [hto]; exact h.inv.writeBytes f) hpc₁
      (startOf_zero _).symm ?_ true 0
    rw [hto, hn₁]
    exact hwhole
  refine ⟨_, (((h₁.run h.followerUp (sizeArrived_of_ne (by rw [h.idle]; nofun))).trans
    (h₂.run hup₁ harr)).trans (h₃.run hup₂ (sizeArrived_of_ne (by rw [hn₂]; nofun)))).trans
    (h₄.run hup₃ (sizeArrived_of_ne (by rw [hn₃]; nofun))), ?_, ?_⟩
  · rw [h₄.frame.2.1, h₃.frame.2.1, h₂.frame.2.1, h₁.frame.2.1]
  · rw [setNode_nodes_self]
    show ((w₃.nodes f).accepted ++ [_]).length = _
    rw [hn₃, hn₂, hn₁, List.length_append, h.count]
    rfl

end SecondLap

/-! ## §3. The exact condition. -/

section Exact
variable {n l f : Nat} {rs : List Request}

/-- On one lap, what is accepted is what was submitted. -/
theorem acceptsInOrder_of_staysOnLap (hl : l < n) (hfl : f ≠ l) (hstay : StaysOnLap rs) :
    AcceptsInOrder n l f rs := by
  intro w hrun
  have hlap := onLap_reaches hl hstay hrun
  rw [hlap.inv.entries_eq]
  exact (hlap.inv.replica f fun hboth => hfl hboth.1).accepted.prefix_submitted

/-- A schedule that brings the log to a position where no header fits. -/
theorem not_acceptsInOrder (hn : n ≤ maxServerCount) (hl : l < n) (hf : f < n) (hfl : f ≠ l)
    {k : Nat} (hk : k < rs.length) (hfit : startOf rs (k + 1) ≤ logSize)
    (hend : logSize < startOf rs (k + 1) + sizeofEntry) : ¬ AcceptsInOrder n l f rs := by
  intro hall
  obtain ⟨w, hrun, hidle⟩ := exists_idle hl hf hfl hn hk hfit (k + 1) (Nat.le_refl _)
  have hlen : (rs.take (k + 1)).length = k + 1 := List.length_take_of_le hk
  have hstart : startOf (rs.take (k + 1)) (k + 1) = startOf rs (k + 1) :=
    (startOf_of_prefixed (List.take_prefix _ rs) hlen.ge).symm
  obtain ⟨w', hrun', hcalls, hcount⟩ := hidle.acceptsAgain hfl (by omega) (by
    rw [hlen, hstart]
    exact hend)
  -- one more entry is accepted than was submitted
  have hle := (hall w' (hrun.trans hrun')).length_le
  have hsubmitted : w'.entries.length = (rs.take (k + 1)).length := by
    unfold World.entries
    rw [List.length_map, hcalls, ← length_requests, hidle.requests]
  omega

/-- **A connected follower accepts a prefix of what the leader submits, in every
schedule that reads no size in part, exactly when no entry ends where the next header does
not fit.** -/
theorem acceptsInOrder_iff (n l f : Nat) (rs : List Request) (hn : n ≤ maxServerCount) (hl : l < n)
    (hf : f < n) (hfl : f ≠ l) : AcceptsInOrder n l f rs ↔ StaysOnLap rs := by
  constructor
  · intro hall k hk hfit
    by_contra hend
    exact not_acceptsInOrder hn hl hf hfl hk hfit (by omega) hall
  · exact acceptsInOrder_of_staysOnLap hl hfl

theorem acceptsInOrder_twoRequests : AcceptsInOrder 3 0 2 [connectReq, sendReq 65] :=
  (acceptsInOrder_iff 3 0 2 _ (by decide) (by decide) (by decide) (by decide)).mpr (by decide)

/-- The first request takes 217 bytes, the second one all the rest. -/
def fullLap : List Request := [connectReq, ⟨.send, ⟨logSize - 434, fun _ => 0⟩, ⟨1, 1⟩⟩]

/-- Every entry is shorter than the log, and yet the order is lost. -/
theorem acceptsInOrder_fails :
    ¬ ∀ (n l f : Nat) (rs : List Request), n ≤ maxServerCount → l < n → f < n → f ≠ l →
      (∀ q ∈ rs, q.entryLen < logSize) → AcceptsInOrder n l f rs := by
  intro hall
  have hsizes : ∀ q ∈ fullLap, q.entryLen < logSize := by decide
  exact not_acceptsInOrder (k := 1) (by decide) (by decide) (by decide) (by decide)
    (by decide) (by decide) (by decide) (hall 2 0 1 fullLap (by decide) (by decide) (by decide)
      (by decide) hsizes)

end Exact

end RdmaPaxos
