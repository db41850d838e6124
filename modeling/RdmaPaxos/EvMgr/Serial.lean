/-
  RdmaPaxos.EvMgr.Serial
  ──────────────────────
  **ONE CALL AT A TIME ON A DESCRIPTOR.**

  Nothing in the hooks ties the descriptor number to the connection it stood for
  when the call was made: between the call and `HASH_FIND` the number may have
  been closed and handed out again.  As long as the hooked calls on one number
  do not overlap (`Serial`), the pair found is that of the connection, and its
  stamp is the connection's:

      add        no pair under the number
      connect p  pair p, no stamp yet
      …          pair p, with the stamp of the connect
      close …    no pair

  §1  the runs;
  §2  what the log of the hooks says about one connection;
  §3  the invariant, descriptor by descriptor;
  §4  how it is kept when a hooked call is made or goes on;
  §5  every event keeps it.
-/
import RdmaPaxos.EvMgr.HookSteps

namespace RdmaPaxos.EvMgr

open RdmaPaxos.Run RdmaPaxos.Output

/-! ## §1. The runs. -/

/-- The descriptor a call of the leader's application is made on, or returns. -/
def Event.descriptor : Event → Option Nat
  | .socket fd | .accept fd | .read fd _ | .recvfrom fd _ _ | .write fd _ | .close fd => some fd
  | _ => none

/-- No call is made on a descriptor number while another one on it is inside its
hook, and no number is handed out for a new connection meanwhile. -/
def Serial (s : Sys) (e : Event) : Prop :=
  ∀ fd ∈ e.descriptor, ∀ k ∈ s.mgr.hooks, k.fd = fd → k.pc.isDone = true

instance (s : Sys) (e : Event) : Decidable (Serial s e) :=
  inferInstanceAs (Decidable (∀ fd ∈ e.descriptor, _))

/-- The leader's application uses accepted TCP connections only, and its process is
not started again. -/
def TcpOnly (l : Nat) : Event → Prop
  | .socket _ | .recvfrom _ _ _ => False
  | .world (.start i _) => i ≠ l
  | _ => True

instance (l : Nat) : (e : Event) → Decidable (TcpOnly l e)
  | .socket _ | .recvfrom _ _ _ => isFalse id
  | .world a => match a with
    | .start _ _ => inferInstanceAs (Decidable (_ ≠ _))
    | .crash .. | .joinReply .. | .connect .. | .destroy .. | .relaunch .. | .submit .. | .call ..
    | .replica .. | .deliverEntry .. | .deliverAck .. => isTrue trivial
  | .replica .. | .replicaAccept .. | .replicaClose .. | .accept _ | .read .. | .write .. | .close _
  | .hook _ => isTrue trivial

theorem TcpOnly.not_start {l : Nat} {e : Event} (h : TcpOnly l e) (modeS : Bool) :
    e ≠ .world (.start l modeS) := by
  rintro rfl
  exact h rfl

/-! ## §2. One connection in the log. -/

/-- What a TCP request stands for. -/
def Submission.act (sub : Submission) : Option Act :=
  match sub.req.type with
  | .tcpConnect => some .connect
  | .send => some (.send sub.req.data.toList)
  | .close => some .close
  | _ => none

/-- The requests of connection `c`, in order. -/
def sentBy (log : List Submission) (c : Nat) : List Act :=
  log.filterMap fun sub => if sub.src = .conn c then sub.act else none

/-- The stamp of the connect of connection `c`. -/
def stampIn (log : List Submission) (c : Nat) : Option ViewStamp :=
  (log.find? fun sub => decide (sub.src = .conn c ∧ sub.req.type = .tcpConnect)).map Submission.next

/-- What the application has done on connection `c`. -/
def Mgr.script (m : Mgr) (c : Nat) : List Act :=
  .connect :: (m.reads c).map .send ++ if m.closed c then [.close] else []

section Log
variable {log : List Submission} {sub : Submission} {c : Nat}

/-- A NOP stands for no action. -/
theorem Submission.act_ne_nop {a : Act} (h : sub.act = some a) : sub.req.type ≠ .nop := by
  intro heq
  unfold Submission.act at h
  rw [heq] at h
  cases h

/-- One more request of the connection. -/
theorem sentBy_append (hsrc : sub.src = .conn c) :
    sentBy (log ++ [sub]) c = sentBy log c ++ sub.act.toList := by
  unfold sentBy
  rw [List.filterMap_append]
  congr 1
  simp only [List.filterMap_cons, List.filterMap_nil, if_pos hsrc]
  cases sub.act <;> rfl

/-- A request of another one. -/
theorem sentBy_append_ne (hsrc : sub.src ≠ .conn c) : sentBy (log ++ [sub]) c = sentBy log c := by
  unfold sentBy
  rw [List.filterMap_append]
  simp only [List.filterMap_cons, List.filterMap_nil, if_neg hsrc, List.append_nil]

/-- A stamp once given stays. -/
theorem stampIn_append {vs : ViewStamp} (h : stampIn log c = some vs) :
    stampIn (log ++ [sub]) c = some vs := by
  unfold stampIn at h ⊢
  obtain ⟨con, hcon, rfl⟩ := Option.map_eq_some_iff.mp h
  rw [List.find?_append, hcon]
  rfl

/-- Whatever is no connect of the connection leaves its stamp alone. -/
theorem stampIn_append_ne (hsub : ¬ (sub.src = .conn c ∧ sub.req.type = .tcpConnect)) :
    stampIn (log ++ [sub]) c = stampIn log c := by
  unfold stampIn
  rw [List.find?_append, List.find?_singleton, if_neg (by simpa using hsub), Option.or_none]

/-- The connect gives the connection its stamp. -/
theorem stampIn_connect (h : stampIn log c = none) (hsrc : sub.src = .conn c)
    (htype : sub.req.type = .tcpConnect) : stampIn (log ++ [sub]) c = some sub.next := by
  unfold stampIn at h ⊢
  rw [Option.map_eq_none_iff] at h
  rw [List.find?_append, h, Option.none_or, List.find?_singleton, if_pos (by simp [hsrc, htype])]
  rfl

end Log

/-! ## §3. The invariant. -/

/-- What `leader_tcp_map` has under the descriptor a hook works on. -/
inductive Slot where
  /-- nothing yet -/
  | unbound
  /-- a pair without a stamp -/
  | fresh (p : Nat)
  /-- the pair of the connection; the hook may hold a pointer to it -/
  | bound (p : Option Nat)
  /-- nothing any more; the hook may hold a copy of the stamp -/
  | gone (vs : Option ViewStamp)

/-- The slot at each point of a TCP hook; `done` stands for no hook at all. -/
def HookPc.slot : HookPc → Option Slot
  | .add => some .unbound
  | .connect p => some (.fresh p)
  | .send _ p | .output _ p | .closeDel p => some (.bound (some p))
  | .find _ | .check _ | .outputFind _ | .delOutput | .closeFind | .done | .wait _ .done =>
      some (.bound none)
  | .close vs => some (.gone (some vs))
  | .nop | .origClose | .wait _ .nop | .wait _ .origClose => some (.gone none)
  | _ => none

/-- The request a hook has still to submit for what the application did. -/
def HookPc.owed : HookPc → List Act
  | .add | .connect _ => [.connect]
  | .find buf | .send buf _ => [.send buf.toList]
  | .delOutput | .closeFind | .closeDel _ | .close _ => [.close]
  | _ => []

/-- The hook of a `close`. -/
def HookPc.closing : HookPc → Bool
  | .delOutput | .closeFind | .closeDel _ | .close _ | .nop | .origClose | .wait _ .nop
  | .wait _ .origClose => true
  | _ => false

/-- What the map, the pairs and the log say about the slot. -/
def Slot.Holds (m : Mgr) (fd c : Nat) : Slot → Prop
  | .unbound => m.tcpMap fd = [] ∧ stampIn m.log c = none
  | .fresh p => m.tcpMap fd = [p] ∧ p < m.pairs.length ∧ stampIn m.log c = none
  | .bound q => ∃ p vs, m.tcpMap fd = [p] ∧ m.pairs[p]? = some vs ∧ stampIn m.log c = some vs
      ∧ ∀ p' ∈ q, p' = p
  | .gone q => m.tcpMap fd = [] ∧ ∀ vs ∈ q, stampIn m.log c = some vs

/-- Connection `c`, on descriptor `fd`, with a hook at `pc`. -/
structure At (m : Mgr) (fd c : Nat) (pc : HookPc) : Prop where
  slot : ∃ slot, pc.slot = some slot ∧ slot.Holds m fd c
  sent : sentBy m.log c ++ pc.owed = m.script c
  closed : m.closed c = pc.closing

/-- What does not depend on where the hooks are. -/
structure Base (m : Mgr) : Prop extends Tables m where
  unused : ∀ c, m.opened ≤ c → sentBy m.log c = [] ∧ stampIn m.log c = none ∧ m.reads c = []
    ∧ m.closed c = false
  /-- every request comes from a connection, and names its client by the stamp of
  the connection's connect -/
  ids : ∀ sub ∈ m.log, ∃ c, sub.src = .conn c ∧ sub.req.type ≠ .udpConnect
    ∧ (sub.req.type ≠ .nop → stampIn m.log c = some (sub.req.cltId sub.next))
  /-- a connection's requests are its connect, what was read from it, and its close -/
  order : ∀ c, sentBy m.log c <+: .connect :: (m.reads c).map .send ++ [.close]

/-- At most one hook a descriptor is active, and each connection is where its hook, or
the want of one, says. -/
structure SerialInv (m : Mgr) : Prop extends Base m where
  one : ∀ (i j : Nat) (k k' : Hook), m.hooks[i]? = some k → m.hooks[j]? = some k' → k.fd = k'.fd →
    k.pc.isDone = false → k'.pc.isDone = false → i = j
  active : ∀ k ∈ m.hooks, k.pc.isDone = false →
    ∃ c, m.fds k.fd = some c ∧ k.src = .conn c ∧ At m k.fd c k.pc
  idle : ∀ fd c, m.fds fd = some c → (∀ k ∈ m.hooks, k.fd = fd → k.pc.isDone = true) →
    At m fd c .done

/-- A process that has just started. -/
theorem SerialInv.new : SerialInv Mgr.new where
  free _ _ := rfl
  inj _ _ _ h := by cases h
  old _ _ h := by cases h
  unused _ _ := ⟨rfl, rfl, rfl, rfl⟩
  bound _ _ h := by cases h
  apart _ _ _ h := by cases h
  ids _ h := by cases h
  order _ := List.nil_prefix
  one _ _ _ _ h := by cases h
  active _ h := by cases h
  idle _ _ h := by cases h

/-! ## §4. One hook moves. -/

/-- `m'` differs from `m` in descriptor `fd` and connection `c` at most. -/
structure Frame (m m' : Mgr) (fd c : Nat) : Prop extends Beside m m' fd where
  conn : ∀ d, d ≠ c → sentBy m'.log d = sentBy m.log d ∧ stampIn m'.log d = stampIn m.log d
    ∧ m'.reads d = m.reads d ∧ m'.closed d = m.closed d

section Move
variable {m m' : Mgr} {fd c h : Nat} {k : Hook} {pc : HookPc}

/-- Which hooks there are does not matter. -/
theorem At.hooks (hat : At m fd c pc) (hs : List Hook) : At { m with hooks := hs } fd c pc := by
  obtain ⟨slot, hslot, hholds⟩ := hat.slot
  refine ⟨⟨slot, hslot, ?_⟩, hat.sent, hat.closed⟩
  cases slot <;> exact hholds

/-- Which hooks there are does not matter. -/
theorem Base.hooks (hbase : Base m) (hs : List Hook) : Base { m with hooks := hs } :=
  ⟨hbase.toTables.congr rfl rfl rfl rfl, hbase.unused, hbase.ids, hbase.order⟩

/-- Another descriptor's connection is as it was. -/
theorem At.frame {x d : Nat} (hat : At m x d pc) (hframe : Frame m m' fd c) (hx : x ≠ fd)
    (hd : d ≠ c) : At m' x d pc := by
  obtain ⟨hsent, hstamp, hreads, hclosed⟩ := hframe.conn d hd
  have hmap := hframe.tcpMap x hx
  refine ⟨?_, ?_, by rw [hclosed]; exact hat.closed⟩
  · obtain ⟨slot, hslot, hholds⟩ := hat.slot
    refine ⟨slot, hslot, ?_⟩
    -- a slot speaks of the map at `x` and of the stamp of `d`, which are left alone
    cases slot with
    | unbound =>
        obtain ⟨hmem, hnone⟩ := hholds
        exact ⟨by rw [hmap, hmem], by rw [hstamp, hnone]⟩
    | fresh p =>
        obtain ⟨hmem, hlt, hnone⟩ := hholds
        have hpair := hframe.pairs x p hx (by rw [hmem]; exact List.mem_singleton.2 rfl)
        rw [List.getElem?_eq_getElem hlt] at hpair
        exact ⟨by rw [hmap, hmem], (List.getElem?_eq_some_iff.mp hpair).1, by rw [hstamp, hnone]⟩
    | bound q =>
        obtain ⟨p, vs, hmem, hvs, hsome, hq⟩ := hholds
        have hpair := hframe.pairs x p hx (by rw [hmem]; exact List.mem_singleton.2 rfl)
        exact ⟨p, vs, by rw [hmap, hmem], by rw [hpair, hvs], by rw [hstamp, hsome], hq⟩
    | gone q =>
        obtain ⟨hmem, hq⟩ := hholds
        exact ⟨by rw [hmap, hmem], fun vs hvs => by rw [hstamp]; exact hq vs hvs⟩
  · unfold Mgr.script
    rw [hsent, hreads, hclosed]
    exact hat.sent

/-- One hook a descriptor, at a point of its connection. -/
theorem SerialInv.onePerFd (hm : SerialInv m) :
    OnePerFd m (fun fd c src pc => src = .conn c ∧ At m fd c pc) (fun fd c => At m fd c .done) :=
  ⟨hm.one, hm.active, hm.idle⟩

/-- And back, whatever the hooks are. -/
theorem SerialInv.of_onePerFd {hs : List Hook} (hbase : Base m)
    (h : OnePerFd { m with hooks := hs } (fun fd c src pc => src = .conn c ∧ At m fd c pc)
      (fun fd c => At m fd c .done)) : SerialInv { m with hooks := hs } := by
  refine ⟨hbase.hooks hs, h.one, fun k hk hp => ?_, fun x d hd hdone => ?_⟩
  · obtain ⟨d, hd, hsrc, hat⟩ := h.active k hk hp
    exact ⟨d, hd, hsrc, hat.hooks hs⟩
  · exact (h.idle x d hd hdone).hooks hs

/-- **Hook `h` goes from one point to the next.** -/
theorem SerialInv.move (hm : SerialInv m) (m' : Mgr) (hk : m.hooks[h]? = some k) (hact : k.pc.isDone = false)
    (hfd : m.fds k.fd = some c) (hsrc : k.src = .conn c) (hframe : Frame m m' k.fd c)
    (hbase : Base m') (calls : List Nat)
    (hat : (m'.fds k.fd = some c ∧ At m' k.fd c pc) ∨ m'.fds k.fd = none ∧ pc.isDone = true) :
    SerialInv { m' with hooks := m'.hooks.set h { k with calls := calls, pc := pc } } := by
  -- another descriptor stands for another connection
  have hc : ∀ x, x ≠ k.fd → ∀ d, m.fds x = some d → d ≠ c := fun x hx d hd heq =>
    hx (hm.inj x k.fd c (by rw [hd, heq]) hfd)
  refine .of_onePerFd hbase (hm.onePerFd.move hk hact hframe.hooks hframe.fds ?_ ?_ calls ?_)
  · intro x d hx hd src pc' hat'
    exact ⟨hat'.1, hat'.2.frame hframe hx (hc x hx d hd)⟩
  · intro x d hx hd hat'
    exact hat'.frame hframe hx (hc x hx d hd)
  · rcases hat with ⟨hsome, hat⟩ | hnone
    · refine .inl ⟨c, hsome, ⟨hsrc, hat⟩, fun hdone => ?_⟩
      obtain rfl : pc = .done := by
        cases pc <;> first | rfl | cases hdone
      exact hat
    · exact .inr hnone

/-- **A call is made on a descriptor without a hook.** -/
theorem SerialInv.enter (hm : SerialInv m)
    (hfree : ∀ k ∈ m.hooks, k.fd = fd → k.pc.isDone = true) (hframe : Frame m m' fd c)
    (hc : ∀ x, x ≠ fd → ∀ d, m.fds x = some d → d ≠ c) (hbase : Base m') (hfd : m'.fds fd = some c)
    (hat : At m' fd c pc) (hpc : pc.isDone = false) : SerialInv (m'.enter fd (.conn c) pc) := by
  refine .of_onePerFd hbase
    (hm.onePerFd.enter hfree hframe.hooks hframe.fds ?_ ?_ hfd ⟨rfl, hat⟩ hpc)
  · intro x d hx hd src pc' hat'
    exact ⟨hat'.1, hat'.2.frame hframe hx (hc x hx d hd)⟩
  · intro x d hx hd hat'
    exact hat'.frame hframe hx (hc x hx d hd)

end Move

/-! ## §5. Every event. -/

section Events
variable {m : Mgr} {fd c h : Nat} {k : Hook}

/-- A descriptor with no hook on it has all its requests in the log. -/
theorem At.done_sent (hat : At m fd c .done) :
    sentBy m.log c = .connect :: (m.reads c).map .send ∧ m.closed c = false := by
  have hsent := hat.sent
  unfold Mgr.script at hsent
  rw [hat.closed] at hsent
  simp only [HookPc.owed, List.append_nil, HookPc.closing, Bool.false_eq_true, if_false] at hsent
  exact ⟨hsent, hat.closed⟩

/-- What was done on a connection so far is a beginning of all that can be. -/
theorem script_append (m : Mgr) (c : Nat) :
    m.script c <+: .connect :: (m.reads c).map .send ++ [.close] := by
  unfold Mgr.script
  split
  · exact List.prefix_rfl
  · exact List.prefix_append_right_inj _ |>.mpr List.nil_prefix

/-- `accept`. -/
theorem SerialInv.accept {m' : Mgr} (hm : SerialInv m)
    (hfree : ∀ k ∈ m.hooks, k.fd = fd → k.pc.isDone = true) (hopen : m.openSock fd = some m') :
    SerialInv (m'.enter fd (.conn m.opened) .add) := by
  have ht := hm.toTables.openSock hopen
  obtain ⟨hnone, rfl⟩ := openSock_eq hopen
  obtain ⟨hsent, hstamp, hreads, hclosed⟩ := hm.unused m.opened le_rfl
  -- connections are numbered in the order they are opened
  have hne : ∀ x, x ≠ fd → ∀ d, m.fds x = some d → d ≠ m.opened :=
    fun x _ d hd => (hm.old x d hd).ne
  refine hm.enter hfree ?_ hne ?_ (Function.update_self ..) ?_ rfl
  · exact ⟨.setFd .., fun _ _ => ⟨rfl, rfl, rfl, rfl⟩⟩
  · exact ⟨ht, fun d hd => hm.unused d (Nat.le_of_succ_le hd), hm.ids, hm.order⟩
  · -- nothing of the new connection is in the map or in the log
    refine ⟨⟨.unbound, rfl, hm.free fd hnone, hstamp⟩, ?_, hclosed⟩
    unfold Mgr.script
    rw [hsent, hreads, hclosed]
    rfl

/-- A call that changes no table: `write`. -/
theorem SerialInv.write (hm : SerialInv m) (hfree : ∀ k ∈ m.hooks, k.fd = fd → k.pc.isDone = true)
    (hfd : m.fds fd = some c) (data : List UInt8) :
    SerialInv (m.enter fd (.conn c) (.check data)) := by
  have hat := hm.idle fd c hfd hfree
  refine hm.enter hfree ?_ ?_ hm.toBase hfd ⟨hat.slot, hat.sent, hat.closed⟩ rfl
  · exact ⟨.of_same rfl rfl rfl rfl, fun _ _ => ⟨rfl, rfl, rfl, rfl⟩⟩
  · exact fun x hx d hd heq => hx (hm.inj x fd c (by rw [hd, heq]) hfd)

/-- `read`. -/
theorem SerialInv.read (hm : SerialInv m) (hfree : ∀ k ∈ m.hooks, k.fd = fd → k.pc.isDone = true)
    (hfd : m.fds fd = some c) (buf : Buf) :
    SerialInv ({ m with
      reads := Function.update m.reads c (m.reads c ++ [buf.toList]) }.enter fd (.conn c)
        (.find buf)) := by
  have hat := hm.idle fd c hfd hfree
  obtain ⟨hsent, hopen⟩ := hat.done_sent
  have hreads : Function.update m.reads c (m.reads c ++ [buf.toList]) c = m.reads c ++ [buf.toList] :=
    Function.update_self ..
  refine hm.enter hfree ?_ ?_ ?_ hfd ?_ rfl
  · exact ⟨.of_same rfl rfl rfl rfl, fun d hd => ⟨rfl, rfl, Function.update_of_ne hd .., rfl⟩⟩
  · exact fun x hx d hd heq => hx (hm.inj x fd c (by rw [hd, heq]) hfd)
  · refine ⟨hm.toTables.congr rfl rfl rfl rfl, fun d hd => ?_, hm.ids, fun d => ?_⟩
    · have hdc : d ≠ c := (lt_of_lt_of_le (hm.old fd c hfd) hd).ne'
      obtain ⟨h₁, h₂, h₃, h₄⟩ := hm.unused d hd
      exact ⟨h₁, h₂, (Function.update_of_ne hdc ..).trans h₃, h₄⟩
    · -- read but not submitted: the log is still the beginning of a longer script
      show sentBy m.log d <+: .connect :: (Function.update m.reads c _ d).map .send ++ [.close]
      rcases eq_or_ne d c with rfl | hd
      · rw [hreads, hsent, List.map_append, ← List.cons_append, List.append_assoc]
        exact List.prefix_append ..
      · rw [Function.update_of_ne hd]
        exact hm.order d
  · refine ⟨hat.slot, ?_, hopen⟩
    show sentBy m.log c ++ [.send buf.toList]
      = .connect :: (Function.update m.reads c _ c).map .send ++ if m.closed c then [.close] else []
    rw [hreads, hsent, hopen, List.map_append, if_neg Bool.false_ne_true, List.append_nil]
    rfl

/-- `close`. -/
theorem SerialInv.close (hm : SerialInv m) (hfree : ∀ k ∈ m.hooks, k.fd = fd → k.pc.isDone = true)
    (hfd : m.fds fd = some c) :
    SerialInv ({ m with closed := Function.update m.closed c true }.enter fd (.conn c)
      .delOutput) := by
  have hat := hm.idle fd c hfd hfree
  have hclosed : Function.update m.closed c true c = true := Function.update_self ..
  refine hm.enter hfree ?_ ?_ ?_ hfd ⟨hat.slot, ?_, hclosed⟩ rfl
  · exact ⟨.of_same rfl rfl rfl rfl, fun d hd => ⟨rfl, rfl, rfl, Function.update_of_ne hd ..⟩⟩
  · exact fun x hx d hd heq => hx (hm.inj x fd c (by rw [hd, heq]) hfd)
  · refine ⟨hm.toTables.congr rfl rfl rfl rfl, fun d hd => ?_, hm.ids, hm.order⟩
    have hdc : d ≠ c := (lt_of_lt_of_le (hm.old fd c hfd) hd).ne'
    obtain ⟨h₁, h₂, h₃, h₄⟩ := hm.unused d hd
    exact ⟨h₁, h₂, h₃, (Function.update_of_ne hdc ..).trans h₄⟩
  · show sentBy m.log c ++ [.close]
      = .connect :: (m.reads c).map .send ++ if Function.update m.closed c true c then [.close] else []
    rw [hat.done_sent.1, hclosed]
    rfl

/-- A hook that leaves the tables alone and whose slot is the same. -/
theorem SerialInv.goto {m' : Mgr} {pc : HookPc} (hm : SerialInv m) (hk : m.hooks[h]? = some k)
    (hact : k.pc.isDone = false) (hout : m' = { m with output := m'.output })
    (hslot : ∀ c, At m k.fd c k.pc → At m k.fd c pc) : SerialInv (m'.goto h k pc) := by
  obtain ⟨c, hfd, hsrc, hat⟩ := hm.active k (List.mem_of_getElem? hk) hact
  have hat' := hslot c hat
  generalize m'.output = output at hout
  subst hout
  refine hm.move { m with output := output } hk hact hfd hsrc ?_ ?_ k.calls (.inl ⟨hfd, ?_⟩)
  · exact ⟨.of_same rfl rfl rfl rfl, fun _ _ => ⟨rfl, rfl, rfl, rfl⟩⟩
  · exact ⟨hm.toTables.congr rfl rfl rfl rfl, hm.unused, hm.ids, hm.order⟩
  · obtain ⟨slot, hs, hholds⟩ := hat'.slot
    refine ⟨⟨slot, hs, ?_⟩, hat'.sent, hat'.closed⟩
    cases slot <;> exact hholds

/-- The hook of an `accept` enters the descriptor. -/
theorem SerialInv.add (hm : SerialInv m) (hk : m.hooks[h]? = some k) (hpc : k.pc = .add) :
    SerialInv ((m.addTcp k.fd).goto h k (.connect m.pairs.length)) := by
  have hact : k.pc.isDone = false := by rw [hpc]; rfl
  obtain ⟨c, hfd, hsrc, hat⟩ := hm.active k (List.mem_of_getElem? hk) hact
  rw [hpc] at hat
  obtain ⟨slot, hslot, hholds⟩ := hat.slot
  cases hslot
  obtain ⟨hnil, hstamp⟩ := hholds
  have hself : (m.addTcp k.fd).tcpMap k.fd = [m.pairs.length] := by
    show Function.update m.tcpMap k.fd _ k.fd = _
    rw [Function.update_self, hnil]
  have ht := hm.toTables.addTcp hfd
  have hlen : (m.addTcp k.fd).pairs.length = m.pairs.length + 1 := List.length_append
  refine hm.move (m.addTcp k.fd) hk hact hfd hsrc ?_ ?_ k.calls (.inl ⟨hfd, ?_⟩)
  · exact ⟨hm.toTables.beside_addTcp k.fd, fun _ _ => ⟨rfl, rfl, rfl, rfl⟩⟩
  · exact ⟨ht, hm.unused, hm.ids, hm.order⟩
  · exact ⟨⟨.fresh m.pairs.length, rfl, hself, by rw [hlen]; exact Nat.lt_succ_self _, hstamp⟩,
      hat.sent, hat.closed⟩

/-- The pair of a bound slot. -/
theorem At.pair {pc : HookPc} {q : Option Nat} (hat : At m fd c pc)
    (hslot : pc.slot = some (.bound q)) :
    ∃ p vs, m.tcpMap fd = [p] ∧ m.pairs[p]? = some vs ∧ stampIn m.log c = some vs
      ∧ ∀ p' ∈ q, p' = p := by
  obtain ⟨slot, hs, hholds⟩ := hat.slot
  rw [hslot] at hs
  cases hs
  exact hholds

/-- The hook of a `close` takes the descriptor out of the map. -/
theorem SerialInv.closeDel {p : Nat} (hm : SerialInv m) (hk : m.hooks[h]? = some k)
    (hpc : k.pc = .closeDel p) :
    SerialInv ({ m with
      tcpMap := Function.update m.tcpMap k.fd ((m.tcpMap k.fd).erase p) }.goto h k
        (.close (m.vs p))) := by
  have hact : k.pc.isDone = false := by rw [hpc]; rfl
  obtain ⟨c, hfd, hsrc, hat⟩ := hm.active k (List.mem_of_getElem? hk) hact
  rw [hpc] at hat
  obtain ⟨p', vs, hmap, hvs, hstamp, hp⟩ := hat.pair rfl
  obtain rfl := hp p rfl
  -- the hook's own pair was the only one under this number
  have hself : Function.update m.tcpMap k.fd ((m.tcpMap k.fd).erase p) k.fd = [] := by
    rw [Function.update_self, hmap, List.erase_cons_head]
  have ht := hm.toTables.erase k.fd p
  refine hm.move { m with tcpMap := _ } hk hact hfd hsrc ?_ ?_ k.calls (.inl ⟨hfd, ?_⟩)
  · exact ⟨.erase m k.fd p, fun _ _ => ⟨rfl, rfl, rfl, rfl⟩⟩
  · exact ⟨ht, hm.unused, hm.ids, hm.order⟩
  · refine ⟨⟨.gone (some (m.vs p)), rfl, hself, fun vs' hvs' => ?_⟩, hat.sent, hat.closed⟩
    obtain rfl := Option.some.inj hvs'
    show stampIn m.log c = some (m.pairs.getD p ⟨0, 0⟩)
    rw [hstamp, List.getD_eq_getElem?_getD, hvs]
    rfl

/-- The descriptor is closed. -/
theorem SerialInv.origClose (hm : SerialInv m) (hk : m.hooks[h]? = some k)
    (hpc : k.pc = .origClose) :
    SerialInv ({ m with fds := Function.update m.fds k.fd none }.goto h k .done) := by
  have hact : k.pc.isDone = false := by rw [hpc]; rfl
  obtain ⟨c, hfd, hsrc, hat⟩ := hm.active k (List.mem_of_getElem? hk) hact
  rw [hpc] at hat
  obtain ⟨slot, hslot, hholds⟩ := hat.slot
  cases hslot
  have hnone : Function.update m.fds k.fd none k.fd = none := Function.update_self ..
  have ht := hm.toTables.origClose hholds.1
  refine hm.move { m with fds := _ } hk hact hfd hsrc ?_ ?_ k.calls (.inr ⟨hnone, rfl⟩)
  · exact ⟨.setFd m k.fd none m.opened, fun _ _ => ⟨rfl, rfl, rfl, rfl⟩⟩
  · exact ⟨ht, hm.unused, hm.ids, hm.order⟩

/-- A request of connection `c` is added to the log. -/
theorem Base.submit {sub : Submission} {pairs : List ViewStamp} (hbase : Base m)
    (hsrc : sub.src = .conn c) (hc : c < m.opened) (hlen : pairs.length = m.pairs.length)
    (hudp : sub.req.type ≠ .udpConnect)
    (hids : sub.req.type ≠ .nop → stampIn (m.log ++ [sub]) c = some (sub.req.cltId sub.next))
    (horder : sentBy (m.log ++ [sub]) c <+: m.script c) :
    Base { m with pairs := pairs, log := m.log ++ [sub] } := by
  -- a submission is one of a single connection
  have hne : ∀ d, d ≠ c → sub.src ≠ .conn d := by
    intro d hd heq
    rw [hsrc] at heq
    cases heq
    exact hd rfl
  have ht := hbase.toTables.setPairs hlen.ge (m.log ++ [sub])
  refine ⟨ht, fun d hd => ?_, fun sub' hsub' => ?_, fun d => ?_⟩
  · have hdc := hne d (lt_of_lt_of_le hc hd).ne'
    obtain ⟨h₁, h₂, h₃, h₄⟩ := hbase.unused d hd
    exact ⟨(sentBy_append_ne hdc).trans h₁, (stampIn_append_ne fun h => hdc h.1).trans h₂, h₃, h₄⟩
  · rcases List.mem_append.mp hsub' with hold | hlast
    · obtain ⟨d, hd, htype, hstamp⟩ := hbase.ids sub' hold
      exact ⟨d, hd, htype, fun hnop => stampIn_append (hstamp hnop)⟩
    · obtain rfl := List.mem_singleton.mp hlast
      exact ⟨c, hsrc, hudp, hids⟩
  · rcases eq_or_ne d c with rfl | hd
    · exact horder.trans (script_append m d)
    · show sentBy (m.log ++ [sub]) d <+: _
      rw [sentBy_append_ne (hne d hd)]
      exact hbase.order d

/-- **A hook submits what it owes**; its slot afterwards is `slot`. -/
theorem SerialInv.submitSlot {pairs : List ViewStamp} {slot : Slot} (hm : SerialInv m) (q : Request)
    (next : ViewStamp) (hk : m.hooks[h]? = some k) (hact : k.pc.isDone = false)
    (hfd : m.fds k.fd = some c) (hsrc : k.src = .conn c) (hat : At m k.fd c k.pc)
    (hlen : pairs.length = m.pairs.length)
    (hpairs : ∀ p, p ∉ m.tcpMap k.fd → pairs[p]? = m.pairs[p]?) (hudp : q.type ≠ .udpConnect)
    (hact' : (⟨k.src, q, next⟩ : Submission).act.toList = k.pc.owed)
    (hids : q.type ≠ .nop →
      stampIn (m.log ++ [⟨k.src, q, next⟩]) c = some (q.cltId next)) (id : Nat)
    (hclosing : (HookPc.wait id k.pc.returnsTo).closing = k.pc.closing)
    (hslot : (HookPc.wait id k.pc.returnsTo).slot = some slot)
    (hholds : slot.Holds { m with pairs := pairs, log := m.log ++ [⟨k.src, q, next⟩] } k.fd c) :
    SerialInv { m with
      pairs := pairs
      log := m.log ++ [⟨k.src, q, next⟩]
      hooks := m.hooks.set h { k with
        calls := k.calls ++ [id]
        pc := .wait id k.pc.returnsTo } } := by
  -- what was owed is sent, so log and script agree again
  have hsent : sentBy (m.log ++ [⟨k.src, q, next⟩]) c = m.script c := by
    rw [sentBy_append hsrc, hact']
    exact hat.sent
  have hne : ∀ d, d ≠ c → (⟨k.src, q, next⟩ : Submission).src ≠ .conn d := by
    intro d hd heq
    have hconn : Source.conn c = .conn d := hsrc.symm.trans heq
    cases hconn
    exact hd rfl
  refine hm.move { m with pairs := pairs, log := m.log ++ [⟨k.src, q, next⟩] } hk hact hfd hsrc ?_
    (hm.toBase.submit hsrc (hm.old _ _ hfd) hlen hudp hids (hsent ▸ List.prefix_rfl)) (k.calls ++ [id])
    (.inl ⟨hfd, ⟨slot, hslot, hholds⟩, ?_, hat.closed.trans hclosing.symm⟩)
  · exact ⟨hm.toTables.beside_pairs _ hpairs, fun d hd =>
      ⟨sentBy_append_ne (hne d hd), stampIn_append_ne fun hboth => hne d hd hboth.1, rfl, rfl⟩⟩
  · show sentBy _ c ++ [] = _
    rw [List.append_nil]
    exact hsent

/-- The stamp a hook reads through its pointer is the connection's. -/
theorem At.vs {pc : HookPc} {p : Nat} (hat : At m fd c pc)
    (hslot : pc.slot = some (.bound (some p))) : stampIn m.log c = some (m.vs p) := by
  obtain ⟨p', vs, -, hvs, hstamp, hp⟩ := hat.pair hslot
  obtain rfl := hp p rfl
  unfold Mgr.vs
  rw [List.getD_eq_getElem?_getD, hvs]
  exact hstamp

/-- The pair stays bound when something is added to the log. -/
theorem At.bound {pc : HookPc} {q : Option Nat} (hat : At m fd c pc)
    (hslot : pc.slot = some (.bound q)) (sub : Submission) :
    (Slot.bound none).Holds { m with log := m.log ++ [sub] } fd c := by
  obtain ⟨p, vs, hmap, hvs, hstamp, -⟩ := hat.pair hslot
  exact ⟨p, vs, hmap, hvs, stampIn_append hstamp, nofun⟩

/-- **A hook enters `rsm_op`**: a connect gives its pair the stamp, everything else
carries it. -/
theorem SerialInv.submit {q : Request} (hm : SerialInv m) (hk : m.hooks[h]? = some k)
    (hq : m.request k.pc = some q) (id : Nat) (next : ViewStamp) :
    SerialInv (m.rsmOp h k q id next) := by
  obtain ⟨fd, src, calls, pc⟩ := k
  have hact : pc.isDone = false := by
    cases pc with
    | done => cases hq
    | _ => rfl
  obtain ⟨c, hfd, hsrc, hat⟩ := hm.active _ (List.mem_of_getElem? hk) hact
  obtain rfl : src = .conn c := hsrc
  cases pc with
  | connect p =>
      cases hq
      obtain ⟨slot, hs, hholds⟩ := hat.slot
      cases hs
      obtain ⟨hmap, hlt, hnone⟩ := hholds
      -- the stamp is written back into the pair, through `clt_id`
      have hset : (m.pairs.set p next)[p]? = some next := List.getElem?_set_self hlt
      have hnew : stampIn (m.log ++ [⟨.conn c, ⟨.tcpConnect, Buf.empty, m.vs p⟩, next⟩]) c
          = some next := stampIn_connect hnone rfl rfl
      refine hm.submitSlot ⟨.tcpConnect, Buf.empty, m.vs p⟩ next hk hact hfd rfl hat List.length_set
        (fun x hx => ?_) nofun rfl (fun _ => hnew) id rfl rfl ⟨p, next, hmap, hset, hnew, nofun⟩
      exact List.getElem?_set_ne fun heq => hx (by rw [hmap, heq]; exact List.mem_singleton.2 rfl)
  | send buf p =>
      cases hq
      exact hm.submitSlot ⟨.send, buf, m.vs p⟩ next hk hact hfd rfl hat rfl (fun _ _ => rfl) nofun rfl
        (fun _ => stampIn_append (hat.vs rfl)) id rfl rfl (hat.bound rfl _)
  | output index p =>
      cases hq
      exact hm.submitSlot ⟨.output, Buf.ofLong index, m.vs p⟩ next hk hact hfd rfl hat rfl
        (fun _ _ => rfl) nofun rfl (fun _ => stampIn_append (hat.vs rfl)) id rfl rfl (hat.bound rfl _)
  | close vs =>
      cases hq
      -- the pair has left the map; its stamp was copied before
      obtain ⟨slot, hs, hholds⟩ := hat.slot
      cases hs
      exact hm.submitSlot ⟨.close, Buf.empty, vs⟩ next hk hact hfd rfl hat rfl (fun _ _ => rfl) nofun rfl
        (fun _ => stampIn_append (hholds.2 vs rfl)) id rfl rfl ⟨hholds.1, nofun⟩
  | nop =>
      cases hq
      obtain ⟨slot, hs, hholds⟩ := hat.slot
      cases hs
      exact hm.submitSlot ⟨.nop, Buf.empty, ⟨0, 0⟩⟩ next hk hact hfd rfl hat rfl (fun _ _ => rfl) nofun rfl
        (fun hnop => absurd rfl hnop) id rfl rfl ⟨hholds.1, nofun⟩
  | udpConnect =>
      -- a UDP hook has no slot
      obtain ⟨slot, hs, -⟩ := hat.slot
      cases hs
  | _ => cases hq

/-- **A hook goes on without submitting.** -/
theorem SerialInv.localStep {m' : Mgr} {returned : Nat → Bool} (hm : SerialInv m)
    (hk : m.hooks[h]? = some k) (hstep : LocalStep m returned h k m') : SerialInv m' := by
  obtain ⟨fd, src, calls, pc⟩ := k
  have hactive : ∀ (hact : pc.isDone = false), ∃ c, At m fd c pc := by
    intro hact
    obtain ⟨c, -, -, hat⟩ := hm.active _ (List.mem_of_getElem? hk) hact
    exact ⟨c, hat⟩
  cases hstep with
  | add hpc => exact hm.add hk hpc
  | closeDel hpc _ => exact hm.closeDel hk hpc
  | origClose hpc => exact hm.origClose hk hpc
  | udpNew hpc | udpFind hpc | udpAdd hpc =>
      obtain rfl : pc = _ := hpc
      obtain ⟨c, hat⟩ := hactive rfl
      obtain ⟨slot, hs, -⟩ := hat.slot
      cases hs
  | stored hpc | proposed hpc | delOutput hpc =>
      obtain rfl : pc = _ := hpc
      exact hm.goto hk rfl rfl fun c hat => ⟨hat.slot, hat.sent, hat.closed⟩
  | unmapped hpc hnil =>
      obtain rfl : pc = _ := hpc
      obtain ⟨c, hat⟩ := hactive rfl
      obtain ⟨p, _, hmap, -⟩ := hat.pair rfl
      rw [show m.tcpMap fd = [] from hnil] at hmap
      cases hmap
  | find hpc hcons | outputFind hpc hcons | closeFind hpc hcons =>
      -- the pair found is the only one there is
      obtain rfl : pc = _ := hpc
      refine hm.goto hk rfl rfl fun c hat => ⟨⟨_, rfl, ?_⟩, hat.sent, hat.closed⟩
      obtain ⟨p, vs, hmap, hvs, hstamp, -⟩ := hat.pair rfl
      rw [show m.tcpMap fd = _ from hcons] at hmap
      cases hmap
      refine ⟨_, vs, hcons, hvs, hstamp, fun p' hp => (Option.some.inj hp).symm⟩
  | @returns id next hpc =>
      obtain rfl : pc = _ := hpc
      refine hm.goto hk rfl rfl fun c hat => ?_
      obtain ⟨slot, hs, hholds⟩ := hat.slot
      cases next with
      | nop | origClose | done => exact ⟨⟨slot, hs, hholds⟩, hat.sent, hat.closed⟩
      | _ => cases hs

end Events

section Run
variable {l n : Nat} {s s' : Sys} {e : Event}

/-- **The step lemma.** -/
theorem SerialInv.preserved (hm : SerialInv s.mgr) (hstep : Sys.Stepped l s e s') (hserial : Serial s e)
    (htcp : TcpOnly l e) : SerialInv s'.mgr := by
  have hmgr := mgrStep_cases hstep.mgr
  generalize s'.mgr = m' at hmgr ⊢
  cases hmgr with
  | restart => exact absurd rfl htcp
  | start | world | replica | replicaAccept | replicaClose => exact hm
  | socket | recvfrom => exact htcp.elim
  | accept hopen => exact hm.accept (hserial _ rfl) hopen
  | read hfd _ => exact hm.read (hserial _ rfl) hfd _
  | write hfd => exact hm.write (hserial _ rfl) hfd _
  | close hfd => exact hm.close (hserial _ rfl) hfd
  | submit hk hq => exact hm.submit hk hq _ _
  | hook hk _ hlocal => exact hm.localStep hk hlocal

/-- **The run lemma.** -/
theorem serialInv_reaches {ok : Sys → Event → Prop} (hok : ∀ s e, ok s e → Serial s e ∧ TcpOnly l e)
    (h : Reaches (Sys.step l) ok (Sys.booted n l) s) : SerialInv s.mgr :=
  h.invariant (I := fun s => SerialInv s.mgr) SerialInv.new fun s e _ hm hoke hs =>
    hm.preserved (Sys.stepped hs) (hok s e hoke).1 (hok s e hoke).2

end Run

end RdmaPaxos.EvMgr
