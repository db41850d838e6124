/-
  RdmaPaxos.SharedMemory.Invariant
  ────────────────────────────────
  **STORED REQUESTS, WHILE CALLS OF `rsm_op` INTERLEAVE.**

  The requests are numbered in the order they were stored: the tickets are the places
  in `State.order`.  Each stored request has an entry and a record of its own, the bits
  of its record are those of servers that count for it, and `committed` counts the calls
  that are done (`Ticket.Ordered`).

  What a placed call writes is its own, but for `committed`, and what a call without
  an entry writes is not part of the invariant at all.  There is one rule for each kind
  of step:

    • `Inv.update`   a call with an entry,
    • `Inv.outside`  a call without one,
    • `Inv.place`    the record is stored, and the entry placed,
    • `Inv.call`, `Inv.ack`  a new call; a server writes an ack.

  §1  tickets;
  §2  the invariant;
  §3  the rules.
-/
import RdmaPaxos.SharedMemory.Mutex

namespace RdmaPaxos.SharedMemory

open RdmaPaxos.BitSet RdmaPaxos.Ticket

/-! ## §1. Tickets. -/

/-- Where a call is on its way to the increment. -/
def Call.phase (c : Call) : Phase :=
  match c.pc with
  | .incRead => .entered
  | .incWrite v => .holding v.toNat
  | .returned _ => .finished
  | _ => .waiting

/-- The phase of call `id`. -/
def State.phaseOf (s : State) (id : Nat) : Phase := (s.calls[id]?).elim .waiting Call.phase

/-- The phases of the calls whose record was stored. -/
def State.phases (s : State) : List Phase := s.order.map s.phaseOf

/-- `new_entry` of call `id`. -/
def State.offset (s : State) (id : Nat) : Option Nat := (s.calls[id]?).bind Call.newEntry

section Calls
variable {s s' : State} {id : Nat} {c c' : Call}

theorem offset_eq (hc : s.calls[id]? = some c) : s.offset id = c.newEntry := by
  unfold State.offset
  rw [hc]
  rfl

theorem phaseOf_eq (hc : s.calls[id]? = some c) : s.phaseOf id = c.phase := by
  unfold State.phaseOf
  rw [hc]
  rfl

theorem get_setCall_self (hc : s.calls[id]? = some c) (hcalls : s'.calls = s.calls.set id c') :
    s'.calls[id]? = some c' := by
  rw [hcalls]
  exact List.getElem?_set_self (List.getElem?_eq_some_iff.mp hc).1

/-- The other calls are as they were. -/
theorem get_setCall_ne (hcalls : s'.calls = s.calls.set id c') {j : Nat} (hne : j ≠ id) :
    s'.calls[j]? = s.calls[j]? := by
  rw [hcalls]
  exact List.getElem?_set_ne hne.symm

/-- The entries of the other calls are where they were. -/
theorem offset_setCall_ne (hcalls : s'.calls = s.calls.set id c') {j : Nat} (hne : j ≠ id) :
    s'.offset j = s.offset j := by
  unfold State.offset
  rw [get_setCall_ne hcalls hne]

/-- A step that leaves `new_entry` as it is. -/
theorem offset_setCall (hc : s.calls[id]? = some c) (hcalls : s'.calls = s.calls.set id c')
    (hoff : c'.newEntry = c.newEntry) : s'.offset = s.offset := by
  funext j
  by_cases heq : j = id
  · rw [heq, offset_eq (get_setCall_self hc hcalls), offset_eq hc, hoff]
  · exact offset_setCall_ne hcalls heq

/-- The other calls are in their phase. -/
theorem phaseOf_setCall_ne (hcalls : s'.calls = s.calls.set id c') {j : Nat} (hne : j ≠ id) :
    s'.phaseOf j = s.phaseOf j := by
  unfold State.phaseOf
  rw [get_setCall_ne hcalls hne]

/-- The call with ticket `t` takes a step. -/
theorem ordered_setCall (hnodup : s.order.Nodup) (hc : s.calls[id]? = some c)
    (hcalls : s'.calls = s.calls.set id c') (horder : s'.order = s.order) {t k : Nat}
    (ht : s.order[t]? = some id) (h : Ordered (s.phases.set t c'.phase) k) :
    Ordered s'.phases k := by
  have hphases : s'.phases = s.phases.set t (s'.phaseOf id) := by
    unfold State.phases
    rw [horder]
    exact map_set_of_nodup hnodup ht fun _ hne => phaseOf_setCall_ne hcalls hne
  rw [hphases, phaseOf_eq (get_setCall_self hc hcalls)]
  exact h

/-- A call without a ticket takes a step. -/
theorem map_phaseOf_setCall (hcalls : s'.calls = s.calls.set id c') (hid : id ∉ s.order) :
    s.order.map s'.phaseOf = s.phases :=
  List.map_congr_left fun _ hj => phaseOf_setCall_ne hcalls fun heq => hid (heq ▸ hj)

/-- The phase of the call with a ticket. -/
theorem phases_get {t : Nat} (ht : s.order[t]? = some id) (hc : s.calls[id]? = some c) :
    s.phases[t]? = some c.phase := by
  unfold State.phases
  rw [List.getElem?_map, ht, Option.map_some, phaseOf_eq hc]

end Calls

/-! ## §2. The invariant. -/

/-- Server `b` counts for the request with stamp `vs`.  In a group of up to three the 0
read from an incomplete ack may stand for the server that wrote it. -/
def Counts (n l : Nat) (s : State) (vs : ViewStamp) (b : Nat) : Prop :=
  b = l ∨ (b, vs) ∈ s.acks ∨ (n ≤ 3 ∧ ∃ j, (j, vs) ∈ s.acks)

/-- Call `c` has ticket `t`, and its entry is at `off`. -/
structure Placed (n l : Nat) (s : State) (t : Nat) (c : Call) (off : Nat) : Prop where
  next : c.next = stampOf t
  within : off < s.tail
  data : c.record.data = c.data
  stored : ∃ b, s.db (vstol (stampOf t)) = some ⟨b, c.data⟩
  filled : c.pc ≠ .sample → c.pc ≠ .fill → (s.entries off).msgVs = c.next
  acked : ∀ i, c.pc = .ackId i → (i, c.next) ∈ s.acks
  bits : ∀ b ∈ bits c.record.bitMap, Counts n l s c.next b
  quorum : c.pc.atExit = true → n ≤ 1 ∨ reachedQuorum c.record n = true

/-- What holds in every state of the shared-memory version. -/
structure Inv (n l : Nat) (s : State) : Prop where
  size : s.groupSize = n
  node : s.nodeId = l
  seen : s.highestSeen = ⟨1, UInt32.ofNat s.order.length⟩
  room : s.order.length * sizeofLogEntry ≤ s.tail ∧ s.tail ≤ logSize
  nodup : s.order.Nodup
  /-- before the record is stored -/
  early : ∀ (id : Nat) (c : Call), s.calls[id]? = some c → c.pc = .lock ∨ c.pc = .store →
    c.newEntry = none
  critical : ∀ (id : Nat) (c : Call), s.calls[id]? = some c → c.pc = .store →
    c.next = stampOf s.order.length ∧ c.record = ⟨bit (UInt32.ofNat l), c.data⟩
  placed : ∀ t id, s.order[t]? = some id →
    ∃ c off, s.calls[id]? = some c ∧ c.newEntry = some off ∧ Placed n l s t c off
  listed : ∀ id off, s.offset id = some off → id ∈ s.order
  apart : ∀ id j off, s.offset id = some off → s.offset j = some off → id = j
  ordered : Ordered s.phases s.committed.reqId.toNat
  /-- a slot has what its server has written, or zeros -/
  slots : ∀ off j, (((s.entries off).ack j).msgVs = ⟨0, 0⟩
      ∨ (j, ((s.entries off).ack j).msgVs) ∈ s.acks)
    ∧ (((s.entries off).ack j).nodeId = 0 ∨ ((s.entries off).ack j).nodeId = j)
  acks : ∀ p ∈ s.acks, p.1 < n ∧ p.1 ≠ l
  copies : ∀ j off e, s.copies j off = some e → j < n ∧ j ≠ l

/-- More acks are written. -/
theorem Counts.mono {n l b : Nat} {s s' : State} {vs : ViewStamp} (hacks : s.acks ⊆ s'.acks)
    (h : Counts n l s vs b) : Counts n l s' vs b := by
  rcases h with hl | hb | ⟨hn, j, hj⟩
  · exact .inl hl
  · exact .inr (.inl (hacks hb))
  · exact .inr (.inr ⟨hn, j, hacks hj⟩)

section Placed
variable {n l t off : Nat} {s s' : State} {c : Call}

/-- **Frame.**  A placed call depends on the stamp in its entry, on its record and on the
acks, which only grow. -/
theorem Placed.frame (h : Placed n l s t c off)
    (hentry : (s'.entries off).msgVs = (s.entries off).msgVs)
    (hdb : s'.db (vstol (stampOf t)) = s.db (vstol (stampOf t)))
    (hacks : s.acks ⊆ s'.acks) (htail : s.tail ≤ s'.tail) : Placed n l s' t c off where
  next := h.next
  within := Nat.lt_of_lt_of_le h.within htail
  data := h.data
  stored := hdb ▸ h.stored
  filled hs hf := hentry.trans (h.filled hs hf)
  acked i hpc := hacks (h.acked i hpc)
  bits b hb := (h.bits b hb).mono hacks
  quorum := h.quorum

/-- The call goes on to `pc`, with its entry filled. -/
theorem Placed.goto (h : Placed n l s t c off) (hs : c.pc ≠ .sample) (hf : c.pc ≠ .fill)
    {pc : RsmPc} {writes : List Shared} (hacked : ∀ i, pc = .ackId i → (i, c.next) ∈ s.acks)
    (hquorum : pc.atExit = true → n ≤ 1 ∨ reachedQuorum c.record n = true) :
    Placed n l s t { c with writes := writes, pc := pc } off where
  next := h.next
  within := h.within
  data := h.data
  stored := h.stored
  filled _ _ := h.filled hs hf
  acked := hacked
  bits := h.bits
  quorum := hquorum

end Placed

section Inv
variable {n l : Nat} {s : State}

/-- The requests that fit in a segment can be numbered. -/
theorem Inv.small (h : Inv n l s) : s.order.length + 1 < 2 ^ 32 := by
  have hroom : s.order.length * 192 ≤ 16384 * 1024 * 4 := h.room.1.trans h.room.2
  omega

/-- Request numbers fit into 32 bits. -/
theorem Inv.ticket_lt (h : Inv n l s) {t id : Nat} (ht : s.order[t]? = some id) :
    t + 1 < 2 ^ 32 := by
  have hlt : t < s.order.length := (List.getElem?_eq_some_iff.mp ht).1
  have := h.small
  omega

/-- And so does the commit point. -/
theorem Inv.committed_lt (h : Inv n l s) : s.committed.reqId.toNat + 1 < 2 ^ 32 := by
  have hle : s.committed.reqId.toNat ≤ s.order.length := by
    have := h.ordered.le
    rwa [State.phases, List.length_map] at this
  have := h.small
  omega

/-- A call without an entry has no ticket. -/
theorem Inv.notMem (h : Inv n l s) {id : Nat} {c : Call} (hc : s.calls[id]? = some c)
    (hnone : c.newEntry = none) : id ∉ s.order := by
  intro hmem
  obtain ⟨t, ht⟩ := List.mem_iff_getElem?.mp hmem
  obtain ⟨c', off, hc', hoff, -⟩ := h.placed t id ht
  cases hc.symm.trans hc'
  cases hnone.symm.trans hoff

/-- The ticket of a call with an entry. -/
theorem Inv.ticket (h : Inv n l s) {id off : Nat} {c : Call} (hc : s.calls[id]? = some c)
    (hoff : c.newEntry = some off) : ∃ t, s.order[t]? = some id ∧ Placed n l s t c off := by
  obtain ⟨t, ht⟩ := List.mem_iff_getElem?.mp (h.listed id off ((offset_eq hc).trans hoff))
  obtain ⟨c', off', hc', hoff', hplaced⟩ := h.placed t id ht
  cases hc.symm.trans hc'
  cases hoff.symm.trans hoff'
  exact ⟨t, ht, hplaced⟩

/-- Nothing called. -/
theorem inv_initial (n l : Nat) : Inv n l (.initial n l) where
  size := rfl
  node := rfl
  seen := rfl
  room := ⟨Nat.le_refl 0, Nat.zero_le _⟩
  nodup := List.nodup_nil
  early _ _ hc := by cases hc
  critical _ _ hc := by cases hc
  placed _ _ ht := by cases ht
  listed _ _ hoff := by cases hoff
  apart _ _ _ hoff := by cases hoff
  ordered := Ordered.nil
  slots _ _ := ⟨.inl rfl, .inl rfl⟩
  acks _ hp := by cases hp
  copies _ _ _ he := by cases he

end Inv

/-! ## §3. The rules. -/

section Update
variable {n l id : Nat} {s : State} {c c' : Call}

/-- An entry changes, but for its acks. -/
theorem ack_update {off : Nat} {e : LogEntry} (he : e.ack = (s.entries off).ack) (o : Nat) :
    (Function.update s.entries off e o).ack = (s.entries o).ack := by
  by_cases heq : o = off
  · rw [heq, Function.update_self, he]
  · rw [Function.update_of_ne heq]

/-- **A step of a placed call.**  It may write its entry, but no ack; its record; copies;
and `committed`. -/
theorem Inv.update {t off : Nat} {entries : Nat → LogEntry} {copies : Nat → Nat → Option LogEntry}
    {db : Nat → Option RequestRecord} {committed : ViewStamp} (h : Inv n l s)
    (hc : s.calls[id]? = some c) (hoff : c.newEntry = some off) (ht : s.order[t]? = some id)
    (hentries : ∀ o, o ≠ off → entries o = s.entries o)
    (hslots : ∀ o, (entries o).ack = (s.entries o).ack)
    (hcopies : ∀ j o e, copies j o = some e → j < n ∧ j ≠ l)
    (hdb : ∀ k, k ≠ vstol (stampOf t) → db k = s.db k)
    (hoff' : c'.newEntry = some off) (hlate : c'.pc ≠ .lock ∧ c'.pc ≠ .store)
    (hordered : Ordered (s.phases.set t c'.phase) committed.reqId.toNat)
    (hplaced : Placed n l { s with
      entries := entries, copies := copies, db := db, committed := committed } t c' off) :
    Inv n l { s with
      entries := entries, copies := copies, db := db, committed := committed
      calls := s.calls.set id c' } := by
  have hoffset : State.offset { s with
      entries := entries, copies := copies, db := db, committed := committed
      calls := s.calls.set id c' } = s.offset := offset_setCall hc rfl (hoff'.trans hoff.symm)
  refine
    { size := h.size, node := h.node, seen := h.seen, room := h.room, nodup := h.nodup
      early := fun j d hd hpc => ?_
      critical := fun j d hd hpc => ?_
      placed := fun t' j hj => ?_
      listed := fun j o ho => h.listed j o (by rwa [hoffset] at ho)
      apart := fun i j o hi hj => h.apart i j o (by rwa [hoffset] at hi) (by rwa [hoffset] at hj)
      ordered := ?_
      slots := fun o j => ?_
      acks := h.acks
      copies := hcopies }
  · rcases get_set hd with ⟨-, rfl⟩ | ⟨-, hold⟩
    · exact absurd hpc (not_or.mpr hlate)
    · exact h.early j d hold hpc
  · rcases get_set hd with ⟨-, rfl⟩ | ⟨-, hold⟩
    · exact absurd hpc hlate.2
    · exact h.critical j d hold hpc
  · by_cases heq : j = id
    · subst heq
      have hself : t' = t :=
        (List.getElem?_inj (List.getElem?_eq_some_iff.mp hj).1 h.nodup).mp (hj.trans ht.symm)
      subst hself
      exact ⟨c', off, get_setCall_self hc rfl, hoff', hplaced.frame rfl rfl (fun _ hp => hp) le_rfl⟩
    · -- another ticket, hence another entry and another record
      obtain ⟨d, o, hd, ho, hother⟩ := h.placed t' j hj
      have hne : o ≠ off := fun hsame =>
        heq (h.apart j id off ((offset_eq hd).trans (hsame ▸ ho)) ((offset_eq hc).trans hoff))
      have hkey : vstol (stampOf t') ≠ vstol (stampOf t) := fun hsame => by
        cases vstol_stampOf_inj (h.ticket_lt hj) (h.ticket_lt ht) hsame
        exact heq (Option.some.inj (hj.symm.trans ht))
      exact ⟨d, o, (get_setCall_ne (s := s) rfl heq).trans hd, ho,
        hother.frame (congrArg LogEntry.msgVs (hentries o hne)) (hdb _ hkey) (fun _ hp => hp) le_rfl⟩
  · refine ordered_setCall h.nodup hc ?_ ?_ ht hordered
    · rfl
    · rfl
  · show ((((entries o).ack j).msgVs = ⟨0, 0⟩ ∨ (j, ((entries o).ack j).msgVs) ∈ s.acks)
      ∧ (((entries o).ack j).nodeId = 0 ∨ ((entries o).ack j).nodeId = j))
    rw [hslots o]
    exact h.slots o j

/-- … that writes nothing shared. -/
theorem Inv.goto {t off : Nat} (h : Inv n l s) (hc : s.calls[id]? = some c)
    (hoff : c.newEntry = some off) (ht : s.order[t]? = some id) (hoff' : c'.newEntry = some off)
    (hlate : c'.pc ≠ .lock ∧ c'.pc ≠ .store)
    (hordered : Ordered (s.phases.set t c'.phase) s.committed.reqId.toNat)
    (hplaced : Placed n l s t c' off) : Inv n l (s.setCall id c') :=
  h.update hc hoff ht (fun _ _ => rfl) (fun _ => rfl) h.copies (fun _ _ => rfl) hoff' hlate hordered
    hplaced

/-- **A step of a call without an entry.** -/
theorem Inv.outside {mutex : Option Nat} (h : Inv n l s) (hc : s.calls[id]? = some c)
    (hnone : c.newEntry = none) (hnone' : c'.newEntry = none)
    (hcritical : c'.pc = .store →
      c'.next = stampOf s.order.length ∧ c'.record = ⟨bit (UInt32.ofNat l), c'.data⟩) :
    Inv n l { s.setCall id c' with mutex := mutex } := by
  have hid := h.notMem hc hnone
  have hoffset : State.offset { s.setCall id c' with mutex := mutex } = s.offset :=
    offset_setCall hc rfl (hnone'.trans hnone.symm)
  refine
    { size := h.size, node := h.node, seen := h.seen, room := h.room, nodup := h.nodup
      early := fun j d hd hpc => ?_
      critical := fun j d hd hpc => ?_
      placed := fun t j hj => ?_
      listed := fun j o ho => h.listed j o (by rwa [hoffset] at ho)
      apart := fun i j o hi hj => h.apart i j o (by rwa [hoffset] at hi) (by rwa [hoffset] at hj)
      ordered := ?_
      slots := h.slots
      acks := h.acks
      copies := h.copies }
  · rcases get_set hd with ⟨-, rfl⟩ | ⟨-, hold⟩
    · exact hnone'
    · exact h.early j d hold hpc
  · rcases get_set hd with ⟨-, rfl⟩ | ⟨-, hold⟩
    · exact hcritical hpc
    · exact h.critical j d hold hpc
  · have hne : j ≠ id := fun heq => hid (heq ▸ List.mem_of_getElem? hj)
    obtain ⟨d, o, hd, ho, hplaced⟩ := h.placed t j hj
    exact ⟨d, o, (get_setCall_ne (s := s) rfl hne).trans hd, ho,
      hplaced.frame rfl rfl (fun _ hp => hp) le_rfl⟩
  · have hphases : s.order.map (State.phaseOf { s.setCall id c' with mutex := mutex }) = s.phases :=
      map_phaseOf_setCall rfl hid
    show Ordered (s.order.map _) s.committed.reqId.toNat
    rw [hphases]
    exact h.ordered

/-! ### The record is stored. -/

/-- The length of an entry that fits in the segment. -/
theorem logEntryLen_eq {e : LogEntry} {tail : Nat}
    (hfit : tail + sizeofLogEntry + e.dataSize ≤ logSize) :
    logEntryLen e = sizeofLogEntry + e.dataSize := by
  refine Nat.mod_eq_of_lt ?_
  have hsize : tail + sizeofLogEntry + e.dataSize ≤ 16384 * 1024 * 4 := hfit
  omega

/-- An entry takes its size and its payload's. -/
theorem place_tail (hfit : s.tail + sizeofLogEntry + c.data.length ≤ logSize) :
    (s.place id c).tail = s.tail + (sizeofLogEntry + c.data.length) :=
  congrArg (s.tail + ·)
    (logEntryLen_eq (e := { s.entries s.tail with dataSize := c.data.length }) hfit)

theorem tail_lt_place (hfit : s.tail + sizeofLogEntry + c.data.length ≤ logSize) :
    s.tail < (s.place id c).tail := by
  rw [place_tail hfit]
  exact Nat.lt_add_of_pos_right (Nat.lt_of_lt_of_le (by decide) (Nat.le_add_right ..))

/-- Entries are in front of the tail. -/
theorem Inv.within (h : Inv n l s) {o : Nat} (ho : s.offset id = some o) : o < s.tail := by
  obtain ⟨d, hd, hdo⟩ := Option.bind_eq_some_iff.mp ho
  obtain ⟨_, -, hplaced⟩ := h.ticket hd hdo
  exact hplaced.within

/-- The new entry lies behind all others. -/
theorem Inv.apart_place (h : Inv n l s) (hc : s.calls[id]? = some c) {i j o : Nat}
    (hi : (s.place id c).offset i = some o) (hj : (s.place id c).offset j = some o) : i = j := by
  have hself : (s.place id c).offset id = some s.tail := by
    rw [offset_eq (get_setCall_self (s := s) hc rfl)]
  have hother : ∀ {k : Nat}, k ≠ id → (s.place id c).offset k = s.offset k := fun hne =>
    offset_setCall_ne (s := s) rfl hne
  have hnot : ∀ {k : Nat}, k ≠ id → ¬ (s.place id c).offset k = some s.tail := fun hne hk =>
    Nat.lt_irrefl _ (h.within ((hother hne).symm.trans hk))
  by_cases hi' : i = id
  · by_cases hj' : j = id
    · rw [hi', hj']
    · rw [hi', hself] at hi
      cases hi
      exact absurd hj (hnot hj')
  · by_cases hj' : j = id
    · rw [hj', hself] at hj
      cases hj
      exact absurd hi (hnot hi')
    · exact h.apart i j o ((hother hi').symm.trans hi) ((hother hj').symm.trans hj)

/-- The call that has stored its record, before it writes in its entry. -/
theorem placed_place (hl : l < 31) {t : Nat} (hnext : c.next = stampOf t)
    (hrecord : c.record = ⟨bit (UInt32.ofNat l), c.data⟩) (hoff : c'.pc = .sample)
    (hfit : s.tail + sizeofLogEntry + c.data.length ≤ logSize) (hc' : c'.next = c.next)
    (hr' : c'.record = c.record) (hd' : c'.data = c.data) :
    Placed n l (s.place id c) t c' s.tail where
  next := hc'.trans hnext
  within := tail_lt_place hfit
  data := by rw [hr', hrecord, hd']
  stored := by
    refine ⟨bit (UInt32.ofNat l), ?_⟩
    rw [← hnext, hd', ← hrecord]
    exact Function.update_self ..
  filled hs := absurd hoff hs
  acked _ hack := by cases hoff.symm.trans hack
  bits b hb := by
    have hself : (UInt32.ofNat l).toNat = l := UInt32.toNat_ofNat_of_lt' (hl.trans (by decide))
    rw [hr', hrecord, bits_bit (by rw [hself]; exact hl), hself, Finset.mem_singleton] at hb
    exact .inl hb
  quorum hexit := by
    rw [hoff] at hexit
    cases hexit

/-- **The call takes the next ticket.** -/
theorem Inv.place (h : Inv n l s) (hheld : Held s) (hl : l < 31) (hc : s.calls[id]? = some c)
    (hpc : c.pc = .store) (hfit : s.tail + sizeofLogEntry + c.data.length ≤ logSize) :
    Inv n l (s.place id c) := by
  have hid : id ∉ s.order := h.notMem hc (h.early id c hc (.inr hpc))
  obtain ⟨hnext, hrecord⟩ := h.critical id c hc hpc
  refine
    { size := h.size, node := h.node
      seen := ?_, room := ?_, nodup := ?_
      early := fun j d hd hearly => ?_
      critical := fun j d hd hstore => ?_
      placed := fun t j hj => ?_
      listed := fun j o ho => ?_
      apart := fun _ _ _ => h.apart_place hc
      ordered := ?_
      slots := fun o j => ?_
      acks := h.acks
      copies := h.copies }
  · show ViewStamp.mk s.highestSeen.viewId (s.highestSeen.reqId + 1) = _
    rw [h.seen, ofNat_succ]
    show _ = ViewStamp.mk 1 (UInt32.ofNat (s.order ++ [id]).length)
    rw [List.length_append, List.length_singleton]
  · have hroom := h.room.1
    show (s.order ++ [id]).length * sizeofLogEntry ≤ (s.place id c).tail
      ∧ (s.place id c).tail ≤ logSize
    rw [place_tail hfit, List.length_append, List.length_singleton, Nat.add_mul]
    omega
  · exact List.nodup_append.mpr ⟨h.nodup, List.nodup_singleton id, fun a ha b hb hab =>
      hid (List.mem_singleton.mp hb ▸ hab ▸ ha)⟩
  · rcases get_set hd with ⟨-, rfl⟩ | ⟨-, hold⟩
    · rcases hearly with hlock | hstore
      · cases hlock
      · cases hstore
    · exact h.early j d hold hearly
  · -- nobody else is in the critical section
    rcases get_set hd with ⟨-, rfl⟩ | ⟨hne, hold⟩
    · cases hstore
    · cases (hheld j d hold (.inl hstore)).symm.trans (hheld id c hc (.inl hpc))
      exact absurd rfl hne
  · rcases get_concat hj with ⟨hlt, hold⟩ | ⟨rfl, rfl⟩
    · have hne : j ≠ id := fun heq => hid (heq ▸ List.mem_of_getElem? hold)
      obtain ⟨d, o, hd, ho, hplaced⟩ := h.placed t j hold
      have hkey : vstol (stampOf t) ≠ vstol c.next := fun hsame => by
        rw [hnext] at hsame
        cases vstol_stampOf_inj (h.ticket_lt hold) h.small hsame
        exact Nat.lt_irrefl _ hlt
      refine ⟨d, o, (get_setCall_ne (s := s) rfl hne).trans hd, ho,
        hplaced.frame ?_ (Function.update_of_ne hkey _ _) (fun _ hp => hp) (tail_lt_place hfit).le⟩
      exact congrArg LogEntry.msgVs (Function.update_of_ne hplaced.within.ne _ _)
    · exact ⟨_, s.tail, get_setCall_self (s := s) hc rfl, rfl,
        placed_place hl hnext hrecord rfl hfit rfl rfl rfl⟩
  · show j ∈ s.order ++ [id]
    by_cases heq : j = id
    · exact List.mem_append_right _ (List.mem_singleton.mpr heq)
    · rw [offset_setCall_ne (s := s) rfl heq] at ho
      exact List.mem_append_left _ (h.listed j o ho)
  · show Ordered ((s.order ++ [id]).map (s.place id c).phaseOf) s.committed.reqId.toNat
    rw [List.map_append, map_phaseOf_setCall (s := s) rfl hid, List.map_singleton,
      phaseOf_eq (get_setCall_self (s := s) hc rfl)]
    exact h.ordered.append
  · have hack : ((s.place id c).entries o).ack = (s.entries o).ack :=
      ack_update (e := { s.entries s.tail with dataSize := c.data.length }) rfl o
    rw [hack]
    exact h.slots o j

/-! ### Calls begin, servers write acks. -/

/-- A thread calls `rsm_op`. -/
theorem Inv.call (h : Inv n l s) (data : List UInt8) :
    Inv n l { s with calls := s.calls ++ [.begin data] } := by
  have hold : ∀ {j : Nat} {d : Call}, s.calls[j]? = some d →
      (s.calls ++ [Call.begin data])[j]? = some d := fun hd =>
    (List.getElem?_append_left (List.getElem?_eq_some_iff.mp hd).1).trans hd
  have hoffset : ∀ {j o : Nat}, State.offset { s with calls := s.calls ++ [.begin data] } j = some o →
      s.offset j = some o := fun ho => by
    obtain ⟨d, hd, hdo⟩ := Option.bind_eq_some_iff.mp ho
    rcases get_concat hd with ⟨-, hd'⟩ | ⟨-, rfl⟩
    · exact (offset_eq hd').trans hdo
    · cases hdo
  refine
    { size := h.size, node := h.node, seen := h.seen, room := h.room, nodup := h.nodup
      early := fun j d hd hearly => ?_
      critical := fun j d hd hstore => ?_
      placed := fun t j hj => ?_
      listed := fun j o ho => h.listed j o (hoffset ho)
      apart := fun i j o hi hj => h.apart i j o (hoffset hi) (hoffset hj)
      ordered := ?_
      slots := h.slots
      acks := h.acks
      copies := h.copies }
  · rcases get_concat hd with ⟨-, hd'⟩ | ⟨-, rfl⟩
    · exact h.early j d hd' hearly
    · rfl
  · rcases get_concat hd with ⟨-, hd'⟩ | ⟨-, rfl⟩
    · exact h.critical j d hd' hstore
    · cases hstore
  · obtain ⟨d, o, hd, ho, hplaced⟩ := h.placed t j hj
    exact ⟨d, o, hold hd, ho, hplaced.frame rfl rfl (fun _ hp => hp) le_rfl⟩
  · have hphases : s.order.map (State.phaseOf { s with calls := s.calls ++ [.begin data] })
        = s.phases := List.map_congr_left fun j hj => by
      obtain ⟨t, ht⟩ := List.mem_iff_getElem?.mp hj
      obtain ⟨d, o, hd, -, -⟩ := h.placed t j ht
      rw [phaseOf_eq hd, phaseOf_eq (hold hd)]
    show Ordered (s.order.map _) _
    rw [hphases]
    exact h.ordered

/-- A server writes in its slot of an entry. -/
theorem Inv.ack {j off : Nat} {a : AcceptAck} {acks : List (Nat × ViewStamp)} (h : Inv n l s)
    (hgrow : s.acks ⊆ acks) (hacks : ∀ p ∈ acks, p.1 < n ∧ p.1 ≠ l)
    (hvs : a.msgVs = ⟨0, 0⟩ ∨ (j, a.msgVs) ∈ acks) (hid : a.nodeId = 0 ∨ a.nodeId = j) :
    Inv n l { s.setAck j off a with acks := acks } := by
  have hentry : ∀ o, ((s.setAck j off a).entries o).msgVs = (s.entries o).msgVs := fun o => by
    show (Function.update s.entries off _ o).msgVs = _
    by_cases heq : o = off
    · rw [heq, Function.update_self]
    · rw [Function.update_of_ne heq]
  have hslot : ∀ o k, ((s.setAck j off a).entries o).ack k = (s.entries o).ack k
      ∨ k = j ∧ ((s.setAck j off a).entries o).ack k = a := fun o k => by
    show (Function.update s.entries off _ o).ack k = _ ∨ _ ∧ (Function.update s.entries off _ o).ack k = _
    by_cases heq : o = off
    · rw [heq, Function.update_self]
      by_cases hk : k = j
      · rw [hk]
        exact .inr ⟨rfl, Function.update_self ..⟩
      · exact .inl (Function.update_of_ne hk _ _)
    · rw [Function.update_of_ne heq]
      exact .inl rfl
  refine
    { size := h.size, node := h.node, seen := h.seen, room := h.room, nodup := h.nodup
      early := h.early
      critical := h.critical
      placed := fun t i hi => ?_
      listed := h.listed
      apart := h.apart
      ordered := h.ordered
      slots := fun o k => ?_
      acks := hacks
      copies := h.copies }
  · obtain ⟨d, o, hd, ho, hplaced⟩ := h.placed t i hi
    exact ⟨d, o, hd, ho, hplaced.frame (hentry o) rfl hgrow le_rfl⟩
  · rcases hslot o k with hsame | ⟨rfl, hnew⟩
    · rw [hsame]
      exact ⟨(h.slots o k).1.imp_right fun hmem => hgrow hmem, (h.slots o k).2⟩
    · rw [hnew]
      exact ⟨hvs, hid⟩

end Update

end RdmaPaxos.SharedMemory
