/-
  RdmaPaxos.Log.Allocation
  ────────────────────────
  **WHERE ENTRIES GO: the leader's allocations and the follower's parse.**

  `submissions` runs the allocation step of `leader_handle_submit_req` over a
  sequence of payload sizes, `iterations` the detection step of
  `handle_accept_req` over a sequence of memory contents, both from `log_new`.
  Two laws are settled EXACTLY, for every sequence:

    • `entryPublished_iff` — the local pointer is the published offset as long
      as no submission meets a non-empty log with less than a header left (the
      pointer is taken before `end` goes back to 0);
    • `insideLog_iff` — entries stay inside the log as long as every payload
      fits behind its header (the code tests the header only).
-/
import RdmaPaxos.Lib.Run
import RdmaPaxos.Log.DareLog

namespace RdmaPaxos

open RdmaPaxos.ByteMemory RdmaPaxos.Run

/-! ## §1. Sequences of submissions. -/

/-- The submissions of a leader started with `log_new`: each payload size with
the log it meets. -/
def submissions (sizes : List Nat) : List (DareLog × Nat) :=
  visits (fun log d => (allocEntry log d).2) logNew sizes

/-! ## §2. The local entry and the published entry. -/

/-- Submitting `d` payload bytes to `log`: the pointer is the published offset,
the ack slots the leader polls are the bytes the followers write, and
`tail + log_entry_len(tail) == end`. -/
def EntryPublished (log : DareLog) (d : Nat) : Prop :=
  let entry := (allocEntry log d).1
  let after := (allocEntry log d).2
  entry = after.tailOff
  ∧ (∀ i, i < maxServerCount →
      offsetofEntries + entry + acceptAckSize * i = ackOffset after.tailOff i)
  ∧ (after.tailOff + logEntryLen after.entries after.tailOff) % 2 ^ 64 = after.endOff

/-- The log is empty, or a header fits at `end` and the last ack slot of an
entry there has a 32-bit offset. -/
def HeaderRoom (log : DareLog) : Prop :=
  log.endOff = log.len
  ∨ (logFitEntryHeader log log.endOff = true
      ∧ offsetofEntries + log.endOff + acceptAckSize * (maxServerCount - 1) < 2 ^ 32)

/-- When the pointer is `tail`, the stored length is the one `end` was advanced by. -/
theorem tail_add_len_eq_end {log : DareLog} {d : Nat}
    (h : logAddNewEntry log = logGetEntry log log.endOff) :
    ((allocEntry log d).2.tailOff
        + logEntryLen (allocEntry log d).2.entries (allocEntry log d).2.tailOff) % 2 ^ 64
      = (allocEntry log d).2.endOff := by
  rw [allocEntry_tailOff, allocEntry_entries, allocEntry_endOff, ← h, logEntryLen_writeLE]

/-- The ack slots of an entry at `tail` are where the followers write exactly
when the last of them has a 32-bit offset. -/
theorem ackOffset_iff (tail : Nat) :
    (∀ i, i < maxServerCount →
        offsetofEntries + tail + acceptAckSize * i = ackOffset tail i)
      ↔ offsetofEntries + tail + acceptAckSize * (maxServerCount - 1) < 2 ^ 32 := by
  simp only [ackOffset, maxServerCount, offsetofEntries, acceptAckSize]
  constructor
  · intro h
    have := h 6 (by omega)
    omega
  · intro h i hi
    rw [Nat.mod_eq_of_lt (by omega)]

theorem entryPublished_step {log : DareLog} (hlen : log.len = logSize) (d : Nat) :
    EntryPublished log d ↔ HeaderRoom log := by
  unfold EntryPublished
  simp only [allocEntry_entry]
  by_cases hempty : log.endOff = log.len
  · -- empty log: pointer and tail are both 0
    have hptr : logAddNewEntry log = 0 := by simp [logAddNewEntry, isLogEmpty, hempty]
    have htail : logGetEntry log log.endOff = 0 := by
      rw [hempty, logGetEntry, if_neg (by simp [not_fit_end hlen])]
    refine iff_of_true ⟨?_, ?_, ?_⟩ (Or.inl hempty)
    · rw [allocEntry_tailOff, hptr, htail]
    · rw [allocEntry_tailOff, hptr, htail, ackOffset_iff]
      simp [offsetofEntries, acceptAckSize, maxServerCount]
    · exact tail_add_len_eq_end (by rw [hptr, htail])
  · have hptr : logAddNewEntry log = log.endOff := by
      simp [logAddNewEntry, isLogEmpty, hempty]
    by_cases hfit : logFitEntryHeader log log.endOff = true
    · -- the header fits: both are `end`, only the 32-bit offsets can fail
      have htail : logGetEntry log log.endOff = log.endOff := by rw [logGetEntry, if_pos hfit]
      have hend := tail_add_len_eq_end (d := d) (hptr.trans htail.symm)
      rw [hptr, allocEntry_tailOff, htail, ackOffset_iff]
      rw [allocEntry_tailOff, htail] at hend
      constructor
      · rintro ⟨_, hack, _⟩
        exact Or.inr ⟨hfit, hack⟩
      · intro hroom
        exact ⟨rfl, (hroom.resolve_left hempty).2, hend⟩
    · -- the wrap: the pointer stays at `end`, `tail` goes to 0
      rw [hptr, allocEntry_tailOff, logGetEntry, if_neg hfit]
      refine iff_of_false ?_ ?_
      · rintro ⟨heq, _⟩
        rw [heq, fit_start hlen] at hfit
        exact hfit rfl
      · rintro (h | ⟨h, _⟩)
        · exact hempty h
        · exact hfit h

/-- **The leader's local entry is the entry it publishes, exactly when every
submission finds header room.** -/
theorem entryPublished_iff (sizes : List Nat) :
    (∀ v ∈ submissions sizes, EntryPublished v.1 v.2)
      ↔ (∀ v ∈ submissions sizes, HeaderRoom v.1) :=
  visits_forall_iff (I := fun log => log.len = logSize) (Q := fun log _ => HeaderRoom log)
    (fun _ d h => entryPublished_step h d) (fun log d h _ => by rw [allocEntry_len, h])
    sizes logNew rfl

/-- A first entry that stops 100 bytes before the end of the log: the second
submission fills its entry in at `len - 100` and publishes offset 0. -/
theorem entryPublished_fails :
    ¬ ∀ sizes : List Nat, ∀ v ∈ submissions sizes, EntryPublished v.1 v.2 := by
  intro h
  have hroom : HeaderRoom (allocEntry logNew (logSize - 317)).2 :=
    (entryPublished_step (allocEntry_len logNew _) 0).mp
      (h [logSize - 317, 0] ((allocEntry logNew (logSize - 317)).2, 0)
        (by simp [submissions, visits]))
  have hend : (allocEntry logNew (logSize - 317)).2.endOff = logSize - 100 := by
    rw [allocEntry_endOff]
    decide
  rw [HeaderRoom, hend, allocEntry_len, logFitEntryHeader, allocEntry_len] at hroom
  revert hroom
  decide

/-! ## §3. The follower's parse. -/

/-- One iteration of `handle_accept_req` up to line 308, with the log memory
then holding `entries`. -/
def parseEntry (log : DareLog) (entries : Mem) : DareLog × Bool :=
  let off := logGetEntry log log.endOff
  if entryDetected entries off then
    ({ log with
        tailOff := off
        endOff := (off + logEntryLen entries off) % 2 ^ 64
        entries := entries }, true)
  else
    ({ log with endOff := off, entries := entries }, false)

/-- The iterations of a follower started with `log_new`: the memory contents
each of them reads, with the log it meets. -/
def iterations (mems : List Mem) : List (DareLog × Mem) :=
  visits (fun log m => (parseEntry log m).1) logNew mems

/-- The `data_size` an iteration finds at its read offset. -/
def sizeFound (log : DareLog) (entries : Mem) : Nat :=
  readLE entries (logGetEntry log log.endOff + offDataSize) 8

@[simp] theorem parseEntry_len (log : DareLog) (m : Mem) :
    (parseEntry log m).1.len = log.len := by
  cases log
  simp only [parseEntry]
  split <;> rfl

theorem parseEntry_accepted {log : DareLog} {m : Mem} (h : (parseEntry log m).2 = true) :
    (parseEntry log m).1.tailOff = logGetEntry log log.endOff
    ∧ (parseEntry log m).1.endOff
        = (logGetEntry log log.endOff + (sizeofEntry + sizeFound log m) % 2 ^ 32) % 2 ^ 64 := by
  simp only [parseEntry] at h ⊢
  split at h
  next hc =>
    rw [if_pos hc]
    exact ⟨rfl, rfl⟩
  next => exact absurd h (by simp)

theorem parseEntry_rejected {log : DareLog} {m : Mem} (h : (parseEntry log m).2 = false) :
    (parseEntry log m).1.endOff = logGetEntry log log.endOff := by
  simp only [parseEntry] at h ⊢
  split at h
  next => exact absurd h (by simp)
  next hc => rw [if_neg hc]

/-! ## §4. Entries inside the log. -/

/-- A region of `size` bytes behind a header at `tail` lies inside the log, and
so does the offset after it. -/
def Inside (log : DareLog) (size : Nat) : Prop :=
  log.tailOff + sizeofEntry + size ≤ log.len ∧ log.endOff ≤ log.len

/-- Submitting `d` bytes: the header test subtracts without wrapping and the
entry, of `data_size = d + 1`, stays inside. -/
def AllocInside (log : DareLog) (d : Nat) : Prop :=
  log.endOff ≤ log.len ∧ Inside (allocEntry log d).2 (d + 1)

/-- An iteration of the parse: the same for the entry it accepts, if any. -/
def ParseInside (log : DareLog) (m : Mem) : Prop :=
  log.endOff ≤ log.len ∧ (parseEntry log m).1.endOff ≤ log.len
  ∧ ((parseEntry log m).2 = true → Inside (parseEntry log m).1 (sizeFound log m))

/-- Where a header fits at `end`, `size` more bytes fit behind it; where it does
not, they fit behind a header at 0. -/
def PayloadRoom (log : DareLog) (size : Nat) : Prop :=
  (log.endOff + sizeofEntry ≤ log.len → log.endOff + sizeofEntry + size ≤ log.len)
  ∧ (log.len < log.endOff + sizeofEntry → sizeofEntry + size ≤ log.len)

/-- Inside the log, `log_get_entry` leaves the room `PayloadRoom` speaks of. -/
theorem payloadRoom_iff {log : DareLog} (hlen : log.len = logSize)
    (hend : log.endOff ≤ log.len) (size : Nat) :
    PayloadRoom log size ↔ logGetEntry log log.endOff + sizeofEntry + size ≤ log.len := by
  have hfit := fit_iff_of_le (by rw [hlen]; decide) hend
  unfold PayloadRoom logGetEntry
  by_cases h : log.endOff + sizeofEntry ≤ log.len
  · rw [if_pos (hfit.mpr h)]
    omega
  · rw [if_neg (by rw [hfit]; exact h)]
    omega

/-- A region that lies inside the log has no length the 32-bit type truncates. -/
theorem endOff_of_inside {off size len : Nat} (hlen : len = logSize)
    (h : off + sizeofEntry + size ≤ len) :
    (off + (sizeofEntry + size) % 2 ^ 32) % 2 ^ 64 = off + sizeofEntry + size := by
  rw [hlen, logSize] at h
  rw [Nat.mod_eq_of_lt (a := sizeofEntry + size) (by omega), Nat.mod_eq_of_lt (by omega)]
  omega

theorem allocInside_step {log : DareLog} (hlen : log.len = logSize)
    (hend : log.endOff ≤ log.len) (d : Nat) :
    AllocInside log d ↔ PayloadRoom log (d + 1) := by
  rw [payloadRoom_iff hlen hend]
  unfold AllocInside Inside
  rw [allocEntry_tailOff, allocEntry_len, allocEntry_endOff]
  constructor
  · intro h
    exact h.2.1
  · intro h
    refine ⟨hend, h, ?_⟩
    rw [endOff_of_inside hlen h]
    exact h

theorem parseInside_step {log : DareLog} (hlen : log.len = logSize)
    (hend : log.endOff ≤ log.len) (m : Mem) :
    ParseInside log m
      ↔ ((parseEntry log m).2 = true → PayloadRoom log (sizeFound log m)) := by
  rw [payloadRoom_iff hlen hend]
  unfold ParseInside Inside
  rw [parseEntry_len]
  have hoff : logGetEntry log log.endOff ≤ log.len := by
    unfold logGetEntry
    split <;> omega
  cases hacc : (parseEntry log m).2 with
  | false =>
      rw [parseEntry_rejected hacc]
      simp [hend, hoff]
  | true =>
      obtain ⟨htail, hafter⟩ := parseEntry_accepted hacc
      rw [htail, hafter]
      constructor
      · intro h _
        exact (h.2.2 rfl).1
      · intro h
        have hin := h rfl
        rw [endOff_of_inside hlen hin]
        exact ⟨hend, hin, fun _ => ⟨hin, hin⟩⟩

/-- **Entries stay inside the log, on the leader and in the follower's parse,
exactly when every payload fits behind its header.** -/
theorem insideLog_iff (sizes : List Nat) (mems : List Mem) :
    ((∀ v ∈ submissions sizes, AllocInside v.1 v.2)
        ↔ ∀ v ∈ submissions sizes, PayloadRoom v.1 (v.2 + 1))
    ∧ ((∀ v ∈ iterations mems, ParseInside v.1 v.2)
        ↔ ∀ v ∈ iterations mems,
            (parseEntry v.1 v.2).2 = true → PayloadRoom v.1 (sizeFound v.1 v.2)) := by
  constructor
  · refine visits_forall_iff (I := fun log => log.len = logSize ∧ log.endOff ≤ log.len)
      (Q := fun log d => PayloadRoom log (d + 1)) ?_ ?_ sizes logNew ⟨rfl, le_refl _⟩
    · intro log d h
      exact allocInside_step h.1 h.2 d
    · intro log d h hin
      have hafter := hin.2.2
      rw [allocEntry_len] at hafter ⊢
      exact ⟨h.1, hafter⟩
  · refine visits_forall_iff (I := fun log => log.len = logSize ∧ log.endOff ≤ log.len)
      (Q := fun log m => (parseEntry log m).2 = true → PayloadRoom log (sizeFound log m))
      ?_ ?_ mems logNew ⟨rfl, le_refl _⟩
    · intro log m h
      exact parseInside_step h.1 h.2 m
    · intro log m h hin
      rw [parseEntry_len]
      exact ⟨h.1, hin.2.1⟩

/-- 400 bytes before the end of the log a header still fits, 1000 bytes of
payload behind it do not. -/
theorem insideLog_fails :
    ¬ ∀ sizes : List Nat, (∀ d ∈ sizes, d ≤ 2 ^ 31) →
        ∀ v ∈ submissions sizes, AllocInside v.1 v.2 := by
  intro h
  have hin : AllocInside (allocEntry logNew (logSize - 617)).2 1000 :=
    h [logSize - 617, 1000] (by decide)
      ((allocEntry logNew (logSize - 617)).2, 1000) (by simp [submissions, visits])
  have hend : (allocEntry logNew (logSize - 617)).2.endOff = logSize - 400 := by
    rw [allocEntry_endOff]
    decide
  have hroom := (allocInside_step (allocEntry_len logNew _) hin.1 1000).mp hin
  rw [PayloadRoom, hend, allocEntry_len] at hroom
  revert hroom
  decide

end RdmaPaxos
