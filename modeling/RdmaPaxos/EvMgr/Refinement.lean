/-
  RdmaPaxos.EvMgr.Refinement
  ──────────────────────────
  **A FOLLOWER REPLAYS THE CONNECTIONS OF THE LEADER.**

  The specification is per connection: connect, what the leader's application
  read from it, close.  What a follower's `update_state` has performed for a
  client is a beginning of that, and all of it together is a beginning of the
  requests in their order.  It takes that no follower computes the length of an
  entry from a part of its size, without which a payload may be another one, and
  that the hooked calls on one descriptor do not overlap; the run of §2 shows what
  becomes of a `read` whose descriptor is closed and handed out again before its
  hook looks it up.
-/
import RdmaPaxos.EvMgr.Close
import RdmaPaxos.EvMgr.Follower

namespace RdmaPaxos.EvMgr

open RdmaPaxos.Run

/-! ## §1. The theorem. -/

/-- What follower `f` has performed, against what the leader's application did. -/
structure Refines (s : Sys) (f : Nat) : Prop where
  /-- a client id stands for one connection -/
  clients : ∀ c c' clt, stampIn s.mgr.log c = some clt → stampIn s.mgr.log c' = some clt → c = c'
  /-- each client's actions are a prefix of connect, the payloads read, close -/
  script : ∀ p ∈ (s.replicas f).performed, ∃ c, stampIn s.mgr.log c = some p.clt
    ∧ (((s.replicas f).performed.filter fun p' => p'.clt = p.clt).map Performed.act)
      <+: .connect :: (s.mgr.reads c).map .send ++ [.close]
  /-- all actions together follow the requests -/
  order : (s.replicas f).performed.map Performed.key <+: planned s.mgr.log
  /-- each action was performed on a socket opened for its client -/
  own : ∀ p ∈ (s.replicas f).performed, ∃ id, p.sock = some ⟨p.clt, id, false⟩

/-- What was performed for one client. -/
theorem actsFor_performed (clt : ViewStamp) (ps : List Performed) :
    actsFor clt ((ps.map Performed.key).map Prod.snd)
      = (ps.filter fun p => p.clt = clt).map Performed.act := by
  unfold actsFor
  rw [List.map_map, List.filter_map, List.map_map]
  rfl

/-- **End-to-end refinement.**  In every run in which the hooked calls on one
descriptor do not overlap, the stores succeed, no log wraps and the followers find
the sizes of the entries complete, every follower replays the connections of the
leader. -/
theorem replay_refines {n l f : Nat} {s : Sys} (hl : l < n)
    (h : Reaches (Sys.step l) (TcpRun l (WholeSizes (OneLap l))) (Sys.booted n l) s) (hf : f ≠ l) :
    Refines s f := by
  have hinv : ReplayInv Request.Any l s :=
    replayInv_reaches hl (fun _ _ hok => hok.1) (fun _ _ hok => .inr hok.2) h
  obtain ⟨hok, hperf⟩ := hinv.follower f hf
  have hplan := hinv.replayed_eq hf
  refine ⟨fun c c' clt => hinv.stamped.stampIn_inj, fun p hp => ?_, ?_, hok.own⟩
  · -- the action is that of a request, which has a connection
    have hkey : p.key ∈ planned (s.mgr.log.take (s.world.nodes f).applied.length) := by
      rw [← hplan, ← hperf]
      exact List.mem_map_of_mem hp
    obtain ⟨sub, hsub, hval⟩ := List.mem_filterMap.mp hkey
    obtain ⟨a, ha, heq⟩ := Option.map_eq_some_iff.mp hval
    have hnop := Submission.act_ne_nop ha
    obtain ⟨c, -, -, hid⟩ := hinv.serial.ids sub (List.mem_of_mem_take hsub)
    have hclt : sub.req.cltId sub.next = p.clt := congrArg (fun v => v.2.1) heq
    have hstamp : stampIn s.mgr.log c = some p.clt := by
      rw [hid hnop, hclt]
    refine ⟨c, hstamp, ?_⟩
    rw [← actsFor_performed, hperf, hplan,
      actsFor_planned hinv.serial hinv.stamped hstamp _ fun sub' h' => List.mem_of_mem_take h']
    exact (sentBy_take_initial _).trans (hinv.serial.order c)
  · rw [hperf, hplan]
    exact (List.take_prefix _ _).filterMap _

/-! ## §2. A run, and one with overlapping calls. -/

/-- The byte 'A'. -/
def oneByte : Buf := ⟨1, fun _ => 65⟩

/-- A connection is accepted, read from and closed. -/
def acceptReadClose : List Event :=
  [.accept 5, .hook 0] ++ submitRuns 0 0 217 (replicaRuns 1 6 0)
    ++ [.read 5 oneByte, .hook 1]
    ++ submitRuns 1 1 218 (replicaRuns 1 7 7 ++ [.replicaAccept 1 8] ++ replicaRuns 1 2 0)
    ++ [.close 5, .hook 2, .hook 2, .hook 2]
    ++ submitRuns 2 2 217 (replicaRuns 1 8 9) ++ submitRuns 2 3 217 (replicaRuns 1 8 9)

/-- A connection from its accept to its close. -/
theorem replay_refines_acceptReadClose :
    ∃ s, Reaches (Sys.step 0) (TcpRun 0 (WholeSizes (OneLap 0))) (Sys.booted 2 0) s
      ∧ (s.replicas 1).performed.map Performed.act = [.connect, .send [65], .close]
      ∧ Refines s 1 := by
  obtain ⟨s, hrun, hview⟩ := exists_reaches_of_execOk (Sys.step 0)
    (TcpRun 0 (WholeSizes (OneLap 0))) (Sys.booted 2 0) acceptReadClose
    (fun s => (s.replicas 1).performed.map Performed.act)
    (v := [.connect, .send [65], .close]) (by decide +kernel)
  exact ⟨s, hrun, hview, replay_refines (by decide) hrun (by decide)⟩

/-- One thread has read from the first connection and not looked it up yet.  Another
one closes it, and the next connection gets its descriptor: the payload is sent as
the second connection's. -/
def reusedDescriptor : List Event :=
  [.accept 5, .hook 0] ++ submitRuns 0 0 217 (replicaRuns 1 6 0)
    ++ [.read 5 oneByte]
    ++ [.close 5, .hook 2, .hook 2, .hook 2]
    ++ submitRuns 2 1 217 (replicaRuns 1 7 7 ++ [.replicaAccept 1 8] ++ replicaRuns 1 2 0)
    ++ submitRuns 2 2 217 (replicaRuns 1 8 9) ++ [.hook 2]
    ++ [.accept 5, .hook 3] ++ submitRuns 3 3 217 (replicaRuns 1 8 9)
    ++ [.hook 1]
    ++ submitRuns 1 4 218 (replicaRuns 1 7 7 ++ [.replicaAccept 1 10] ++ replicaRuns 1 2 0)
    ++ [.accept 6, .hook 4] ++ submitRuns 4 5 217 (replicaRuns 1 8 9)

/-- A payload of the first connection, replayed on the second. -/
theorem replay_overlapping_fails :
    ¬ ∀ (n l f : Nat) (s : Sys), l < n →
      Reaches (Sys.step l) (fun s e => Lift l (WholeSizes (OneLap l)) s e ∧ TcpOnly l e)
        (Sys.booted n l) s →
      f ≠ l → Refines s f := by
  intro hall
  obtain ⟨s, hrun, hview⟩ := exists_reaches_of_execOk (Sys.step 0)
    (fun s e => Lift 0 (WholeSizes (OneLap 0)) s e ∧ TcpOnly 0 e) (Sys.booted 2 0) reusedDescriptor
    (fun s => ((s.replicas 1).performed.map fun p => (p.clt, p.act), stampIn s.mgr.log 1,
      s.mgr.reads 1))
    (v := ([(⟨1, 1⟩, .connect), (⟨1, 1⟩, .close), (⟨1, 4⟩, .connect), (⟨1, 4⟩, .send [65])],
      some ⟨1, 4⟩, [])) (by decide +kernel)
  have hrefines := hall 2 0 1 s (by decide) hrun (by decide)
  have hperf : (s.replicas 1).performed.map (fun p => (p.clt, p.act))
      = [(⟨1, 1⟩, .connect), (⟨1, 1⟩, .close), (⟨1, 4⟩, .connect), (⟨1, 4⟩, .send [65])] :=
    congrArg Prod.fst hview
  have hstamp : stampIn s.mgr.log 1 = some ⟨1, 4⟩ := congrArg (fun v => v.2.1) hview
  have hreads : s.mgr.reads 1 = [] := congrArg (fun v => v.2.2) hview
  -- the payload is among the second client's actions
  obtain ⟨p, hp, hpair⟩ : ∃ p ∈ (s.replicas 1).performed,
      (p.clt, p.act) = ((⟨1, 4⟩ : ViewStamp), Act.send [65]) :=
    List.mem_map.mp (hperf ▸ by decide)
  obtain ⟨hclt, hact⟩ := Prod.mk.inj hpair
  obtain ⟨c, hc, hscript⟩ := hrefines.script p hp
  obtain rfl : c = 1 := hrefines.clients c 1 _ hc (by rw [hclt, hstamp])
  rw [hreads] at hscript
  -- and the second connection has sent nothing
  have hmem : Act.send [65] ∈ [Act.connect, .close] := hscript.subset
    (List.mem_map.mpr ⟨p, List.mem_filter.mpr ⟨hp, decide_eq_true rfl⟩, hact⟩)
  exact absurd hmem (by decide)

end RdmaPaxos.EvMgr
