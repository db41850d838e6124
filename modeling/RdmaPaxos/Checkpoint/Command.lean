/-
  RdmaPaxos.Checkpoint.Command
  ────────────────────────────
  **THE COMMAND SOCKET** (`ev_mgr/check_point_thread.c`).

  The commands of `Checkpoint.Handshake` come in over a unix socket.  `unix_read_cb` copies
  the input of a connection, compares its beginning with the two commands and never takes
  anything out of the buffer.  So, whatever arrives in whatever pieces and on however many
  connections,

    • a connection has one command, the one its stream begins with, and every further
      piece of input runs it again (`connection_has_one_command`),
    • before as many bytes are there as the longest command has, the comparison goes on in
      the memory behind the copy, which decides the outcome (`short_input_undecided`).

  `guard.py` makes a connection for each command and sends it in one piece; its commands
  run once each, as the model of the handshake has it (`guard_commands`).
-/
import RdmaPaxos.Checkpoint.Handshake
import RdmaPaxos.Checkpoint.ExtRes

namespace RdmaPaxos.Checkpoint

/-! ## §1. The callback. -/

/-- The two commands of the control socket. -/
inductive Command where
  | disconnect
  | reconnect
  deriving Repr, DecidableEq

/-- `UNIX_CMD_disconnect`, `UNIX_CMD_reconnect`. -/
def Command.text : Command → Text
  | .disconnect => ['d', 'i', 's', 'c', 'o', 'n', 'n', 'e', 'c', 't']
  | .reconnect => ['r', 'e', 'c', 'o', 'n', 'n', 'e', 'c', 't']

/-- What the new thread does to the process. -/
def Command.action : Command → Action
  | .disconnect => .disconnect
  | .reconnect => .reconnect

/-- `0 == strncmp(data, cmd, strlen(cmd))`.  The copy has no terminator: past its end the
comparison reads what lies behind it, and a command contains no zero byte. -/
def strncmpEq (data : Text) (beyond : Nat → Char) (cmd : Text) : Bool :=
  (List.range cmd.length).all fun i => some (data[i]?.getD (beyond i)) == cmd[i]?

/-- The commands for which a thread is made, in the order of the tests. -/
def recognised (data : Text) (beyond : Nat → Char) : List Command :=
  [.disconnect, .reconnect].filter fun c => strncmpEq data beyond c.text

/-- Input on a connection; whether `pthread_create` succeeds. -/
structure ReadEvent where
  conn : Nat
  chunk : Text
  beyond : Nat → Char
  created : Bool

/-- `unix_read_cb` with the input `input` already there: the buffer after it, the commands
that run and whether the reply is `OK`. -/
def unixReadCb (input : Text) (e : ReadEvent) : Text × List Command × Bool :=
  -- `evbuffer_copyout` leaves the buffer as it is
  let data := input ++ e.chunk
  let cmds := recognised data e.beyond
  (data, if e.created then cmds else [], cmds.isEmpty || e.created)

/-- The server: each connection has its own buffer. -/
def serve : (Nat → Text) → List ReadEvent → List (List Command × Bool)
  | _, [] => []
  | input, e :: es =>
      let r := unixReadCb (input e.conn) e
      r.2 :: serve (Function.update input e.conn r.1) es

/-! ## §2. The streams. -/

/-- What has arrived on connection `c`. -/
def streamOf (c : Nat) (es : List ReadEvent) : Text :=
  (es.filter fun e => e.conn = c).flatMap ReadEvent.chunk

/-- The command a stream begins with. -/
def commandOf (stream : Text) : List Command :=
  [.disconnect, .reconnect].filter fun c => c.text <+: stream

theorem streamOf_cons_self (e : ReadEvent) (es : List ReadEvent) :
    streamOf e.conn (e :: es) = e.chunk ++ streamOf e.conn es := by
  unfold streamOf
  rw [List.filter_cons_of_pos (by simp), List.flatMap_cons]

theorem streamOf_cons_ne {c : Nat} {e : ReadEvent} (hne : e.conn ≠ c) (es : List ReadEvent) :
    streamOf c (e :: es) = streamOf c es := by
  unfold streamOf
  rw [List.filter_cons_of_neg (by simpa using hne)]

theorem streamOf_append (c : Nat) (es es' : List ReadEvent) :
    streamOf c (es ++ es') = streamOf c es ++ streamOf c es' := by
  unfold streamOf
  rw [List.filter_append, List.flatMap_append]

/-- **Every callback sees all that has arrived on its connection.** -/
theorem serve_get (input : Nat → Text) (es : List ReadEvent) (k : Nat) :
    (serve input es)[k]? = es[k]?.map fun e =>
      (unixReadCb (input e.conn ++ streamOf e.conn (es.take k)) e).2 := by
  induction es generalizing input k with
  | nil => rfl
  | cons e es ih =>
      cases k with
      | zero =>
          show some _ = some _
          rw [List.take_zero]
          show _ = some (unixReadCb (input e.conn ++ []) e).2
          rw [List.append_nil]
      | succ k =>
          rw [serve, List.getElem?_cons_succ, ih, List.getElem?_cons_succ, List.take_succ_cons]
          refine Option.map_congr fun e' _ => ?_
          by_cases hc : e.conn = e'.conn
          · rw [← hc, Function.update_self, streamOf_cons_self, ← List.append_assoc]
            rfl
          · rw [Function.update_of_ne (Ne.symm hc), streamOf_cons_ne hc]

/-! ## §3. Enough input. -/

/-- Inside the copy nothing else is read. -/
theorem strncmpEq_iff {data cmd : Text} (beyond : Nat → Char) (hlen : cmd.length ≤ data.length) :
    strncmpEq data beyond cmd = true ↔ cmd <+: data := by
  have hread : ∀ i < cmd.length, (some (data[i]?.getD (beyond i)) == cmd[i]?) = true ↔ data[i]? = cmd[i]? := by
    intro i hi
    rw [List.getElem?_eq_getElem (by omega : i < data.length), Option.getD_some]
    exact beq_iff_eq
  unfold strncmpEq
  rw [List.all_eq_true, List.prefix_iff_getElem?]
  constructor
  · intro hall i hi
    rw [(hread i hi).mp (hall i (List.mem_range.mpr hi)), List.getElem?_eq_getElem hi]
  · intro hall i hi
    have hi := List.mem_range.mp hi
    rw [hread i hi, hall i hi, List.getElem?_eq_getElem hi]

theorem Command.length_text (c : Command) : c.text.length ≤ 10 := by cases c <;> decide

/-- With ten bytes the command is decided, whatever follows. -/
theorem recognised_eq {data rest : Text} (beyond : Nat → Char) (hlen : 10 ≤ data.length) :
    recognised data beyond = commandOf (data ++ rest) := by
  unfold recognised commandOf
  refine List.filter_congr fun c _ => ?_
  have hc : c.text.length ≤ data.length := Nat.le_trans c.length_text hlen
  have hmore : c.text <+: data ↔ c.text <+: data ++ rest :=
    ⟨fun h => h.trans (List.prefix_append ..),
      fun h => List.prefix_of_prefix_length_le h (List.prefix_append ..) hc⟩
  rw [Bool.eq_iff_iff, strncmpEq_iff beyond hc, decide_eq_true_iff]
  exact hmore

/-- No stream begins with both commands. -/
theorem length_commandOf (stream : Text) : (commandOf stream).length ≤ 1 := by
  have hnot : ¬ (Command.disconnect.text <+: stream ∧ Command.reconnect.text <+: stream) := by
    rintro ⟨⟨rest, rfl⟩, ⟨rest', hrest⟩⟩
    cases hrest
  unfold commandOf
  by_cases hd : Command.disconnect.text <+: stream
  · have hr : ¬ Command.reconnect.text <+: stream := fun hr => hnot ⟨hd, hr⟩
    simp [hd, hr]
  · by_cases hr : Command.reconnect.text <+: stream <;> simp [hd, hr]

/-- **A connection has one command.**  From the first callback on that finds ten bytes in
its buffer, every callback of a connection runs the command with which the stream of that
connection begins, or none if it begins with no command: neither another command sent
later, nor other connections, nor the memory behind the copy change it.  The reply is `OK`
unless a thread could not be made. -/
theorem connection_has_one_command (es : List ReadEvent) {k : Nat} {e : ReadEvent} (he : es[k]? = some e)
    (hlen : 10 ≤ (streamOf e.conn (es.take (k + 1))).length) :
    (commandOf (streamOf e.conn es)).length ≤ 1
      ∧ (serve (fun _ => []) es)[k]? = some (if e.created then commandOf (streamOf e.conn es) else [],
        (commandOf (streamOf e.conn es)).isEmpty || e.created) := by
  refine ⟨length_commandOf _, ?_⟩
  -- the buffer at this callback, and what arrives on the connection after it
  have hdata : streamOf e.conn (es.take (k + 1)) = streamOf e.conn (es.take k) ++ e.chunk := by
    have hone : streamOf e.conn [e] = e.chunk := by
      rw [streamOf_cons_self]
      exact List.append_nil _
    rw [List.take_add_one, he, streamOf_append]
    exact congrArg _ hone
  have hall : streamOf e.conn es
      = streamOf e.conn (es.take k) ++ e.chunk ++ streamOf e.conn (es.drop (k + 1)) := by
    rw [← hdata, ← streamOf_append, List.take_append_drop]
  rw [hdata] at hlen
  rw [serve_get, he, hall, ← recognised_eq e.beyond hlen]
  rfl

/-- Two commands on one connection, with another one on a second connection between them:
the first one runs twice. -/
theorem connection_has_one_command_twice :
    let event (c : Nat) (cmd : Command) : ReadEvent := ⟨c, cmd.text ++ ['\n'], fun _ => ' ', true⟩
    (serve (fun _ => []) [event 0 .disconnect, event 1 .reconnect, event 0 .reconnect])[2]?
      = some ([.disconnect], true) := by
  intro event
  exact (connection_has_one_command [event 0 .disconnect, event 1 .reconnect, event 0 .reconnect]
    (k := 2) rfl (by decide)).2

/-- The connections of `guard.py`, numbered from `n` on: one for each command. -/
def sessions (beyond : Nat → Nat → Char) : Nat → List Command → List ReadEvent
  | _, [] => []
  | n, c :: cs => ⟨n, c.text ++ ['\n'], beyond n, true⟩ :: sessions beyond (n + 1) cs

/-- **The commands of `guard.py` reach the process once each, in their order.** -/
theorem guard_commands (beyond : Nat → Nat → Char) (cs : List Command) {input : Nat → Text} {n : Nat}
    (hinput : ∀ m, n ≤ m → input m = []) :
    (serve input (sessions beyond n cs)).map (fun r => r.1.map Command.action)
      = cs.map fun c => [c.action] := by
  induction cs generalizing input n with
  | nil => rfl
  | cons c cs ih =>
      have hcmd : recognised (c.text ++ ['\n']) (beyond n) = [c] := by
        have hlen : 10 ≤ (c.text ++ ['\n']).length := by cases c <;> decide
        have hnone : (c.text ++ ['\n']) ++ [] = c.text ++ ['\n'] := List.append_nil _
        rw [recognised_eq (beyond n) hlen, hnone]
        cases c <;> decide
      have hrest : ∀ m, n + 1 ≤ m →
          Function.update input n (input n ++ (c.text ++ ['\n'])) m = [] := by
        intro m hm
        rw [Function.update_of_ne (by omega)]
        exact hinput m (by omega)
      rw [sessions, serve, List.map_cons, List.map_cons]
      refine congrArg₂ _ ?_ (ih hrest)
      show (recognised (input n ++ (c.text ++ ['\n'])) (beyond n)).map Command.action = [c.action]
      rw [hinput n (Nat.le_refl n), List.nil_append, hcmd]
      rfl

/-- Of a command that has arrived in part, the memory behind the copy decides. -/
theorem short_input_undecided (c : Command) {k : Nat} (hk : k < c.text.length) :
    (∃ beyond, recognised (c.text.take k) beyond = [c])
      ∧ ∃ beyond, recognised (c.text.take k) beyond = [] := by
  have hall : ∀ c : Command, ∀ k < c.text.length,
      recognised (c.text.take k) (fun i => c.text.getD i ' ') = [c]
        ∧ recognised (c.text.take k) (fun _ => ' ') = [] := by
    intro c
    cases c <;> decide
  exact ⟨⟨_, (hall c k hk).1⟩, ⟨_, (hall c k hk).2⟩⟩

end RdmaPaxos.Checkpoint
