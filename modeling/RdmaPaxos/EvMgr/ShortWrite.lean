/-
  RdmaPaxos.EvMgr.ShortWrite
  ──────────────────────────
  **REPLAY THROUGH A NON-BLOCKING SOCKET.**

  `do_action_tcp_connect` and `do_action_udp_connect` make the event manager's end
  of a connection non-blocking; `do_action_send` calls `write` on it once and does
  not look at what it returns:

      result of `write`     bytes the application gets     bytes lost
      all of the payload    all                            none
      `n` < length          the first `n`                  the rest
      -1, would block       none                           all

  Whatever the results, the event manager goes on to the next record; so they are
  an input of each record here, and change nothing but what is delivered.
-/
import RdmaPaxos.EvMgr.Replay
import RdmaPaxos.Lib.Run

namespace RdmaPaxos.EvMgr

open RdmaPaxos.Run

/-! ## §1. Writes. -/

/-- What `write` on a non-blocking socket answers. -/
inductive WriteResult where
  | full
  /-- it took `n` bytes -/
  | short (n : Nat)
  | wouldBlock
  deriving Repr, DecidableEq

/-- The bytes `write` has taken. -/
def WriteResult.taken (payload : List UInt8) : WriteResult → List UInt8
  | .full => payload
  | .short n => payload.take n
  | .wouldBlock => []

/-- A `P_SEND` record replayed: the socket its client's pair leads to, if it has a
pair, and the result of the `write`. -/
structure Write where
  clt : ViewStamp
  payload : List UInt8
  sock : Option Sock
  result : WriteResult
  deriving Repr, DecidableEq

/-- What the application gets of it. -/
def Write.delivered (w : Write) : List UInt8 :=
  if w.sock.isSome then w.result.taken w.payload else []

/-- Nothing is left over. -/
def WriteResult.TakesAll (payload : List UInt8) : WriteResult → Prop
  | .full => True
  | .short n => payload.length ≤ n
  | .wouldBlock => False

instance (payload : List UInt8) : (result : WriteResult) → Decidable (result.TakesAll payload)
  | .full => .isTrue trivial
  | .short n => inferInstanceAs (Decidable (payload.length ≤ n))
  | .wouldBlock => .isFalse id

/-- Nothing of it is lost. -/
def Write.Complete (w : Write) : Prop :=
  w.payload = [] ∨ w.sock.isSome = true ∧ w.result.TakesAll w.payload

instance (w : Write) : Decidable w.Complete := inferInstanceAs (Decidable (_ ∨ _))

/-- A follower's event manager and all it has written. -/
structure Replaying where
  replica : Replica
  writes : List Write

/-- A follower's event manager that has replayed nothing. -/
def Replaying.new : Replaying := ⟨.new, []⟩

/-- The steps of the replica thread and of the application. -/
inductive ReplayEvent where
  /-- `update_state` of the record `b`; `fd` is what `socket` returns, `result` what
  `write` does, if they are called -/
  | record (index : Nat) (b : Buf) (fd : Nat) (result : WriteResult)
  /-- a turn of the loop in `do_action_tcp_connect` -/
  | wait
  /-- the application accepts, or closes a descriptor -/
  | accept (db : Nat → Option Buf) (fd : Nat)
  | close (fd : Nat)

/-- The `write` of a record, if it is a `P_SEND`. -/
def Replica.writeOf (r : Replica) (rec : Record) (result : WriteResult) : List Write :=
  if rec.type = ReqType.code .send then
    [⟨rec.clt, rec.data, (r.tcpMap rec.clt).bind fun pair => r.fds pair.pS, result⟩]
  else []

/-- One step. -/
def Replaying.step (s : Replaying) : ReplayEvent → Option Replaying
  | .record index b fd result =>
      match s.replica.connecting with
      | some _ => none
      | none => (s.replica.updateState index (some b) fd).map fun r =>
          ⟨r, s.writes ++ s.replica.writeOf (Record.decode b) result⟩
  | .wait =>
      match s.replica.connecting with
      | some clt => (s.replica.waitAccepted clt).map fun r => ⟨r, s.writes⟩
      | none => none
  | .accept db fd => (s.replica.mgrOnAccept db fd).map fun r => ⟨r, s.writes⟩
  | .close fd => (s.replica.close fd).map fun r => ⟨r, s.writes⟩

/-- The payloads of a client's records, one after the other, and what its
application got of them. -/
def Replaying.payloads (s : Replaying) (clt : ViewStamp) : List UInt8 :=
  (s.writes.filter fun w => w.clt = clt).flatMap Write.payload

/-- The bytes that reached the application for client `clt`. -/
def Replaying.delivered (s : Replaying) (clt : ViewStamp) : List UInt8 :=
  (s.writes.filter fun w => w.clt = clt).flatMap Write.delivered

/-! ## §2. What is delivered. -/

/-- What arrives is a beginning of the payload. -/
theorem Write.delivered_isPrefix (w : Write) : w.delivered <+: w.payload := by
  unfold Write.delivered
  split
  · cases w.result with
    | full => exact List.prefix_refl _
    | short n => exact List.take_prefix n _
    | wouldBlock => exact List.nil_prefix
  · exact List.nil_prefix

/-- It is all of it if `write` takes all of it. -/
theorem Write.complete_iff (w : Write) : w.delivered = w.payload ↔ w.Complete := by
  unfold Write.delivered Write.Complete
  cases hsock : w.sock.isSome with
  | false =>
      simp only [Bool.false_eq_true, if_false, false_and, or_false]
      exact eq_comm
  | true =>
      simp only [if_true, true_and]
      cases w.result with
      | full => exact ⟨fun _ => .inr trivial, fun _ => rfl⟩
      | short n =>
          simp only [WriteResult.taken, WriteResult.TakesAll]
          constructor
          · intro heq
            have hlen := congrArg List.length heq
            rw [List.length_take] at hlen
            exact .inr (by omega)
          · rintro (hnil | hle)
            · rw [hnil, List.take_nil]
            · exact List.take_of_length_le hle
      | wouldBlock =>
          simp only [WriteResult.taken, WriteResult.TakesAll, or_false]
          exact eq_comm

/-- Prefixes put together are the whole exactly if each is whole. -/
theorem flatMap_eq_iff_of_isPrefix {α β : Type*} {f g : α → List β} (xs : List α)
    (hpre : ∀ x, f x <+: g x) : xs.flatMap f = xs.flatMap g ↔ ∀ x ∈ xs, f x = g x := by
  have hlen : ∀ xs : List α, (xs.flatMap f).length ≤ (xs.flatMap g).length := by
    intro xs
    induction xs with
    | nil => exact Nat.le_refl _
    | cons x xs ih =>
        rw [List.flatMap_cons, List.flatMap_cons, List.length_append, List.length_append]
        exact Nat.add_le_add (hpre x).length_le ih
  induction xs with
  | nil => simp
  | cons x xs ih =>
      refine Iff.trans ?_ (List.forall_mem_cons).symm
      rw [List.flatMap_cons, List.flatMap_cons]
      constructor
      · intro h
        have hsum := congrArg List.length h
        rw [List.length_append, List.length_append] at hsum
        have hx := (hpre x).length_le
        have hxs := hlen xs
        -- neither part can make up for what the other lacks
        have hfirst : f x = g x := (hpre x).eq_of_length (by omega)
        rw [hfirst] at h
        exact ⟨hfirst, ih.mp (List.append_cancel_left h)⟩
      · rintro ⟨hfirst, hrest⟩
        rw [hfirst, ih.mpr hrest]

/-- The writes of a client go to the event manager's end of a connection of its own. -/
structure ReplayOk (s : Replaying) : Prop where
  replica : ∃ xs, s.replica.Ok xs
  own : ∀ w ∈ s.writes, ∀ sock ∈ w.sock, sock.clt = w.clt ∧ sock.server = false

/-- **The step lemma.** -/
theorem ReplayOk.preserved {s s' : Replaying} {e : ReplayEvent} (h : ReplayOk s)
    (hstep : s.step e = some s') : ReplayOk s' := by
  obtain ⟨xs, hxs⟩ := h.replica
  cases e with
  | record index b fd result =>
      simp only [Replaying.step] at hstep
      split at hstep
      next => cases hstep
      next =>
        obtain ⟨r, hr, rfl⟩ := Option.map_eq_some_iff.mp hstep
        refine ⟨⟨_, hxs.updateState hr⟩, fun w hw sock hsock => ?_⟩
        rcases List.mem_append.mp hw with hold | hnew
        · exact h.own w hold sock hsock
        · -- the pair found under the record's client was connected for that client
          unfold Replica.writeOf at hnew
          split at hnew
          · obtain rfl := List.mem_singleton.mp hnew
            obtain ⟨pair, hpair, hfd⟩ := Option.bind_eq_some_iff.mp hsock
            obtain ⟨id, hid⟩ := hxs.client _ pair hpair
            rw [hfd] at hid
            cases hid
            exact ⟨rfl, rfl⟩
          · cases hnew
  | wait =>
      simp only [Replaying.step] at hstep
      split at hstep
      next =>
        obtain ⟨r, hr, rfl⟩ := Option.map_eq_some_iff.mp hstep
        exact ⟨⟨xs, hxs.waitAccepted hr⟩, h.own⟩
      next => cases hstep
  | accept db fd =>
      obtain ⟨r, hr, rfl⟩ := Option.map_eq_some_iff.mp hstep
      exact ⟨⟨xs, hxs.mgrOnAccept hr⟩, h.own⟩
  | close fd =>
      obtain ⟨r, hr, rfl⟩ := Option.map_eq_some_iff.mp hstep
      exact ⟨⟨xs, hxs.close hr⟩, h.own⟩

/-! ## §3. The theorem. -/

/-- **Replay through short writes.**  However the event manager of a follower has got
where it is, with any records, any results of `write` and any accepts and closes of
the application: what `do_action_send` has written for a client went to a connection
of that client, and is the concatenation of the payloads of its records exactly if
each of these had a connection to go to and was taken as a whole. -/
theorem replay_delivers_iff {s : Replaying}
    (h : Reaches Replaying.step (fun _ _ => True) .new s) (clt : ViewStamp) :
    (∀ w ∈ s.writes, ∀ sock ∈ w.sock, sock.clt = w.clt ∧ sock.server = false)
    ∧ (s.delivered clt = s.payloads clt ↔ ∀ w ∈ s.writes, w.clt = clt → w.Complete) := by
  have hok : ReplayOk s := h.invariant ⟨⟨[], .new⟩, fun _ hw => by cases hw⟩
    fun _ _ _ hs _ hstep => hs.preserved hstep
  refine ⟨hok.own, ?_⟩
  unfold Replaying.delivered Replaying.payloads
  rw [flatMap_eq_iff_of_isPrefix _ Write.delivered_isPrefix]
  simp only [List.mem_filter, decide_eq_true_eq, Write.complete_iff, and_imp]

/-- The bytes of a record of client (1, 1). -/
def recordBytes (type : UInt8) (payload : List UInt8) : Buf :=
  ⟨20 + payload.length, fun i =>
    ([UInt8.ofNat (payload.length + 1), 0, 0, 0, 0, 0, 0, 0, type, 0, 0, 0, 1, 0, 0, 0, 1, 0, 0, 0]
      ++ payload).getD i 0⟩

/-- A connect, accepted by the application, and a record of three bytes. -/
def connectAndSend (result : WriteResult) : List ReplayEvent :=
  [.record 1 (recordBytes 1 []) 3 .full, .accept (fun _ => some (recordBytes 1 [])) 4, .wait,
    .record 2 (recordBytes 2 [65, 66, 67]) 5 result]

/-- A write that takes everything. -/
theorem replay_delivers_iff_full :
    ∃ s, Reaches Replaying.step (fun _ _ => True) .new s ∧ s.payloads ⟨1, 1⟩ = [65, 66, 67]
      ∧ s.delivered ⟨1, 1⟩ = [65, 66, 67] := by
  obtain ⟨s, h, hv⟩ := exists_reaches_of_execOk Replaying.step (fun _ _ => True) .new
    (connectAndSend .full) (fun s => (s.payloads ⟨1, 1⟩, s.writes))
    (v := ([65, 66, 67], [⟨⟨1, 1⟩, [65, 66, 67], some ⟨⟨1, 1⟩, 0, false⟩, .full⟩])) (by decide +kernel)
  obtain ⟨hpayloads, hwrites⟩ := Prod.mk.inj hv
  refine ⟨s, h, hpayloads, ((replay_delivers_iff h ⟨1, 1⟩).2.mpr fun w hw _ => ?_).trans hpayloads⟩
  rw [hwrites] at hw
  rw [List.mem_singleton.mp hw]
  exact .inr ⟨rfl, trivial⟩

/-- A write that takes one byte of three: the application gets that one. -/
theorem replay_short_write_loses :
    ∃ s, Reaches Replaying.step (fun _ _ => True) .new s ∧ s.payloads ⟨1, 1⟩ = [65, 66, 67]
      ∧ s.delivered ⟨1, 1⟩ = [65] := by
  obtain ⟨s, h, hv⟩ := exists_reaches_of_execOk Replaying.step (fun _ _ => True) .new
    (connectAndSend (.short 1)) (fun s => (s.payloads ⟨1, 1⟩, s.delivered ⟨1, 1⟩))
    (v := ([65, 66, 67], [65])) (by decide +kernel)
  exact ⟨s, h, (Prod.mk.inj hv).1, (Prod.mk.inj hv).2⟩

end RdmaPaxos.EvMgr
