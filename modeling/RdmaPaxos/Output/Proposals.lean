/-
  RdmaPaxos.Output.Proposals
  ──────────────────────────
  **WHEN THE LEADER PROPOSES, AND WHICH INDEX** (`mgr_on_check` in
  `ev_mgr/ev_mgr.c`, over `store_output` and `determine_output`).

  Two counters of a handler move at different places: `count` by the number of
  blocks a write completes, `called_cnt` by one, and only after a write that
  completed a block.  The order of the calls in `mgr_on_check` therefore keeps

      called_cnt  ≤  count,      last proposal + 5 + called_cnt mod 10  ≤  count,

  so that going back `CHECK_GOBACK` blocks on every tenth call never leaves the
  list, and never comes to an index twice.

  §1  the leader's calls;
  §2  what one call does;
  §3  the invariant;
  §4  the theorem.
-/
import RdmaPaxos.Output.Decision

namespace RdmaPaxos.Output

/-! ## §1. The leader's calls. -/

/-- A call on the leader. -/
inductive Call where
  /-- `mgr_on_check`, after a write of `buf` -/
  | check (fd : Nat) (buf : List UInt8)
  /-- `del_output` -/
  | del (fd : Nat)
  deriving Repr, DecidableEq

/-- The manager; and for each descriptor, since it was last closed, the number of
writes that completed a block, and the last index proposed. -/
structure Proposing where
  mgr : OutputMgr
  writes : Nat → Nat
  last : Nat → Option Int

/-- Nothing written. -/
def Proposing.new : Proposing := ⟨newOutputMgr, fun _ => 0, fun _ => none⟩

/-- What a call of the application leaves behind. -/
def Proposing.call (s : Proposing) : Call → Proposing
  | .check fd buf =>
      { mgr := (checkProposal s.mgr fd buf true).1
        writes :=
          if 0 < (storeOutput s.mgr fd buf).2 then Function.update s.writes fd (s.writes fd + 1)
          else s.writes
        last := (checkProposal s.mgr fd buf true).2.elim s.last fun index =>
          Function.update s.last fd (some index) }
  | .del fd =>
      { mgr := (delOutput s.mgr fd).1
        writes := Function.update s.writes fd 0
        last := Function.update s.last fd none }

/-- The state after a history of calls. -/
def runCalls (calls : List Call) : Proposing := calls.foldl Proposing.call .new

/-! ## §2. What one call does. -/

/-- The handler a call on `fd` works on. -/
def OutputMgr.handler (mgr : OutputMgr) (fd : Nat) : Handler := (mgr fd).getD newOutputHandler

theorem handler_update_self (mgr : OutputMgr) (fd : Nat) (h : Handler) :
    OutputMgr.handler (Function.update mgr fd (some h)) fd = h := by
  rw [OutputMgr.handler, Function.update_self, Option.getD_some]

theorem handler_update_ne (mgr : OutputMgr) {fd fd' : Nat} (hne : fd' ≠ fd) (c : Option Handler) :
    OutputMgr.handler (Function.update mgr fd c) fd' = mgr.handler fd' := by
  rw [OutputMgr.handler, Function.update_of_ne hne, OutputMgr.handler]

/-- `del_output` forgets one descriptor. -/
theorem handler_delOutput (mgr : OutputMgr) (fd fd' : Nat) :
    OutputMgr.handler (delOutput mgr fd).1 fd'
      = if fd' = fd ∧ fd' < maxFdSize then newOutputHandler else mgr.handler fd' := by
  unfold delOutput
  by_cases hfd : fd < maxFdSize
  · rw [if_pos hfd]
    by_cases he : fd' = fd
    · rw [if_pos ⟨he, he ▸ hfd⟩, he]
      show (Function.update mgr fd none fd).getD newOutputHandler = newOutputHandler
      rw [Function.update_self, Option.getD_none]
    · rw [if_neg (fun h : fd' = fd ∧ fd' < maxFdSize => he h.1)]
      exact handler_update_ne mgr he none
  · rw [if_neg hfd, if_neg (fun h : fd' = fd ∧ fd' < maxFdSize => hfd (h.1 ▸ h.2))]

/-- Storing counts the new hashes. -/
theorem Handler.push_counters (h : Handler) (buff : List UInt8) :
    (h.push buff).1.calledCnt = h.calledCnt ∧ (h.push buff).1.count = h.count + (h.push buff).2 := by
  fun_induction Handler.push h buff with
  | case1 => exact ⟨rfl, rfl⟩
  | case2 h buff hb actual hlt hfull rest ih =>
      refine ⟨ih.1, ih.2.trans ?_⟩
      show h.count + 1 + rest.2 = h.count + (rest.2 + 1)
      omega
  | case3 h buff hb actual hlt hfull ih => exact ih

/-- The outcomes of `mgr_on_check`: manager and proposal. -/
inductive Checked (mgr : OutputMgr) (fd : Nat) (buf : List UInt8) : OutputMgr → Option Int → Prop where
  /-- no block was completed -/
  | silent {mgr' : OutputMgr} (hstored : (storeOutput mgr fd buf).2 ≤ 0)
      (hcalled : ∀ fd', (mgr'.handler fd').calledCnt = (mgr.handler fd').calledCnt)
      (hcount : ∀ fd', (mgr'.handler fd').count = (mgr.handler fd').count) :
      Checked mgr fd buf mgr' none
  | stored {h : Handler} {n : Nat} (hstored : (storeOutput mgr fd buf).2 = n) (hpos : 0 < n)
      (hhandler : (storeOutput mgr fd buf).1 fd = some h) (hfd : fd < maxFdSize)
      (hcalled : h.calledCnt = (mgr.handler fd).calledCnt)
      (hcount : h.count = (mgr.handler fd).count + n) :
      Checked mgr fd buf
        (Function.update mgr fd (some { h with calledCnt := h.calledCnt + 1 }))
        (if (h.calledCnt + 1) % checkPeriod = 0 ∧ checkGoback ≤ h.count then
          some (h.count - checkGoback)
        else none)

/-- `store_output` of something on a descriptor in range. -/
theorem storeOutput_eq (mgr : OutputMgr) {fd : Nat} {buf : List UInt8} (hfd : fd < maxFdSize)
    (hb : buf ≠ []) :
    storeOutput mgr fd buf
      = (Function.update mgr fd (some ((mgr.handler fd).push buf).1),
        (((mgr.handler fd).push buf).2 : Int)) := by
  unfold storeOutput
  rw [if_neg hb, getOutputHandlerByFd_eq mgr hfd]
  exact Prod.ext (Function.update_idem ..) rfl

/-- `determine_output` counts its calls. -/
theorem determineOutput_eq {mgr : OutputMgr} {fd : Nat} {h : Handler} (hfd : fd < maxFdSize)
    (hm : mgr fd = some h) :
    determineOutput mgr fd
      = (Function.update mgr fd (some { h with calledCnt := h.calledCnt + 1 }),
        if (h.calledCnt + 1) % checkPeriod = 0 ∧ checkGoback ≤ h.count then
          (h.count - checkGoback : Int)
        else -1) := by
  unfold determineOutput
  rw [getOutputHandlerByFd_eq mgr hfd, hm]
  refine Prod.ext (Function.update_idem ..) ?_
  show (if (h.calledCnt + 1) % checkPeriod = 0 then
      if (0 : Int) ≤ h.count - checkGoback then (h.count - checkGoback : Int) else -1 else -1) = _
  split_ifs <;> first | rfl | omega

/-- What a call of `mgr_on_check` can do. -/
theorem checkProposal_cases (mgr : OutputMgr) (fd : Nat) (buf : List UInt8) :
    Checked mgr fd buf (checkProposal mgr fd buf true).1 (checkProposal mgr fd buf true).2 := by
  unfold checkProposal
  by_cases hb : buf = []
  · -- `store_output` returns before it has a handler
    have hstore : storeOutput mgr fd buf = (mgr, 0) := if_pos hb
    simp only [hstore, Int.le_refl, true_or, if_true]
    exact .silent (by rw [hstore]) (fun _ => rfl) fun _ => rfl
  by_cases hfd : fd < maxFdSize
  case neg =>
    have hstore : storeOutput mgr fd buf = (mgr, -1) := by
      unfold storeOutput
      rw [if_neg hb, getOutputHandlerByFd_out hfd]
    simp only [hstore, show (-1 : Int) ≤ 0 by decide, true_or, if_true]
    exact .silent (by simp only [hstore]; decide) (fun _ => rfl) fun _ => rfl
  have hstore := storeOutput_eq mgr hfd hb
  obtain ⟨hcalled, hcount⟩ := (mgr.handler fd).push_counters buf
  by_cases hpos : 0 < ((mgr.handler fd).push buf).2
  · -- a block is complete: `determine_output` runs on the handler just stored
    have hself : (storeOutput mgr fd buf).1 fd = some ((mgr.handler fd).push buf).1 := by
      rw [hstore]
      exact Function.update_self ..
    have hdet := determineOutput_eq hfd hself
    have hmgr : Function.update (storeOutput mgr fd buf).1 fd = Function.update mgr fd := by
      rw [hstore]
      exact funext fun h => Function.update_idem ..
    rw [hmgr] at hdet
    have hle : ¬ ((storeOutput mgr fd buf).2 ≤ 0 ∨ true = false) := by
      rw [hstore]
      simp only [Bool.true_eq_false, or_false, not_le]
      omega
    rw [if_neg hle]
    simp only [hdet]
    have hchecked : Checked mgr fd buf _ _ :=
      .stored (by rw [hstore]) hpos hself hfd hcalled hcount
    convert hchecked using 1
    split_ifs <;> first | rfl | omega
  · have hzero : ((mgr.handler fd).push buf).2 = 0 := by omega
    have hle : (storeOutput mgr fd buf).2 ≤ 0 := by
      rw [hstore]
      show (((mgr.handler fd).push buf).2 : Int) ≤ 0
      omega
    rw [if_pos (.inl hle)]
    rw [hstore]
    refine .silent hle (fun fd' => ?_) fun fd' => ?_
    · by_cases he : fd' = fd
      · rw [he, handler_update_self, hcalled]
      · rw [handler_update_ne mgr he]
    · by_cases he : fd' = fd
      · rw [he, handler_update_self, hcount, hzero, Nat.add_zero]
      · rw [handler_update_ne mgr he]

/-! ## §3. The invariant. -/

/-- What the order of the calls keeps between the counters of a handler. -/
structure Handler.Paced (h : Handler) (writes : Nat) (last : Option Int) : Prop where
  called : h.calledCnt = writes
  produced : writes ≤ h.count
  since : ∀ index ∈ last, index + checkGoback + (writes % checkPeriod : Nat) ≤ h.count

/-- A new handler has proposed nothing. -/
theorem newOutputHandler_paced : newOutputHandler.Paced 0 none where
  called := rfl
  produced := Nat.le_refl 0
  since index hlast := by cases hlast

section Paced
variable {h h' : Handler} {writes n : Nat} {last : Option Int}

/-- Only the two counters matter. -/
theorem Handler.Paced.congr (hp : h.Paced writes last) (hcalled : h'.calledCnt = h.calledCnt)
    (hcount : h'.count = h.count) : h'.Paced writes last where
  called := hcalled.trans hp.called
  produced := hcount ▸ hp.produced
  since := hcount ▸ hp.since

/-- The tenth write has at least ten blocks behind it. -/
theorem Handler.Paced.goback_le (hp : h.Paced writes last) (hcount : h'.count = h.count + n)
    (hpos : 0 < n) (hperiod : (writes + 1) % checkPeriod = 0) : checkGoback ≤ h'.count := by
  have hproduced := hp.produced
  unfold checkPeriod at hperiod
  unfold checkGoback
  omega

/-- A proposal is at least `CHECK_PERIOD` blocks after the last one. -/
theorem Handler.Paced.advances (hp : h.Paced writes last) (hcount : h'.count = h.count + n)
    (hpos : 0 < n) (hperiod : (writes + 1) % checkPeriod = 0) {index : Int} (hlast : index ∈ last) :
    index + checkPeriod ≤ h'.count - checkGoback := by
  have hsince := hp.since index hlast
  unfold checkPeriod at hperiod hsince ⊢
  omega

/-- A write that completes a block, with or without a proposal. -/
theorem Handler.Paced.stored (hp : h.Paced writes last) (hcalled : h'.calledCnt = writes + 1)
    (hcount : h'.count = h.count + n) (hpos : 0 < n) :
    h'.Paced (writes + 1)
      (if (writes + 1) % checkPeriod = 0 then some (h'.count - checkGoback : Int) else last) := by
  have hproduced := hp.produced
  refine ⟨hcalled, by omega, fun index hindex => ?_⟩
  by_cases hperiod : (writes + 1) % checkPeriod = 0
  · rw [if_pos hperiod] at hindex
    obtain rfl := Option.some.inj hindex
    rw [hperiod]
    omega
  · rw [if_neg hperiod] at hindex
    have hsince := hp.since index hindex
    unfold checkPeriod at hperiod hsince ⊢
    omega

end Paced

/-- The invariant of descriptor `fd`; past the table no block is ever completed. -/
structure Proposing.Paced (s : Proposing) (fd : Nat) : Prop where
  handler : (s.mgr.handler fd).Paced (s.writes fd) (s.last fd)
  outside : maxFdSize ≤ fd → s.writes fd = 0

/-- A write is checked. -/
theorem Proposing.Paced.check {s : Proposing} {fd : Nat} (hs : s.Paced fd) (fd' : Nat)
    (buf : List UInt8) : (s.call (.check fd' buf)).Paced fd := by
  have hcases := checkProposal_cases s.mgr fd' buf
  simp only [Proposing.call]
  generalize (checkProposal s.mgr fd' buf true).1 = mgr' at hcases ⊢
  generalize (checkProposal s.mgr fd' buf true).2 = proposed at hcases ⊢
  cases hcases with
  | silent hstored hcalled hcount =>
      rw [if_neg (by omega)]
      exact ⟨hs.handler.congr (hcalled fd) (hcount fd), hs.outside⟩
  | @stored h n hstored hpos hhandler hfd hcalled hcount =>
      rw [if_pos (by omega), hcalled]
      by_cases he : fd = fd'
      · subst he
        have hwrites := hs.handler.called
        have hgoback := hs.handler.goback_le hcount hpos
        have hnew : Handler.Paced { h with calledCnt := s.writes fd + 1 } _ _ :=
          hs.handler.stored rfl hcount hpos
        refine ⟨?_, fun hout => absurd hfd (Nat.not_lt.mpr hout)⟩
        dsimp only
        rw [hwrites, handler_update_self, Function.update_self]
        -- the test on `count` never decides: ten writes have completed ten blocks
        by_cases hperiod : (s.writes fd + 1) % checkPeriod = 0
        · rw [if_pos hperiod] at hnew
          rw [if_pos ⟨hperiod, hgoback hperiod⟩, Option.elim_some, Function.update_self]
          exact hnew
        · rw [if_neg hperiod] at hnew
          rw [if_neg (fun hboth => hperiod hboth.1)]
          exact hnew
      · -- another descriptor
        have hlast : (if ((s.mgr.handler fd').calledCnt + 1) % checkPeriod = 0 ∧ checkGoback ≤ h.count
            then some (h.count - checkGoback : Int) else none).elim s.last
              (fun index => Function.update s.last fd' (some index)) fd = s.last fd := by
          split_ifs
          · exact Function.update_of_ne he ..
          · rfl
        refine ⟨?_, ?_⟩ <;> dsimp only
        · rw [handler_update_ne s.mgr he, Function.update_of_ne he, hlast]
          exact hs.handler
        · rw [Function.update_of_ne he]
          exact hs.outside

/-- A descriptor is closed. -/
theorem Proposing.Paced.del {s : Proposing} {fd : Nat} (hs : s.Paced fd) (fd' : Nat) :
    (s.call (.del fd')).Paced fd := by
  have hhandler := handler_delOutput s.mgr fd' fd
  simp only [Proposing.call]
  generalize (delOutput s.mgr fd').1 = mgr' at hhandler ⊢
  by_cases he : fd = fd'
  · subst he
    refine ⟨?_, fun _ => Function.update_self ..⟩
    dsimp only
    rw [hhandler, Function.update_self, Function.update_self]
    split_ifs with hfd
    · exact newOutputHandler_paced
    · have hzero := hs.outside (Nat.not_lt.mp fun hlt => hfd ⟨rfl, hlt⟩)
      exact ⟨hs.handler.called.trans hzero, Nat.zero_le _, fun index hlast => by cases hlast⟩
  · rw [if_neg (fun h => he h.1)] at hhandler
    refine ⟨?_, ?_⟩ <;> dsimp only
    · rw [hhandler, Function.update_of_ne he, Function.update_of_ne he]
      exact hs.handler
    · rw [Function.update_of_ne he]
      exact hs.outside

/-- **The run lemma.** -/
theorem runCalls_paced (calls : List Call) (fd : Nat) : (runCalls calls).Paced fd := by
  suffices h : ∀ (calls : List Call) s, s.Paced fd → (calls.foldl Proposing.call s).Paced fd from
    h calls _ ⟨newOutputHandler_paced, fun _ => rfl⟩
  intro calls
  induction calls with
  | nil => exact fun _ hs => hs
  | cons call calls ih =>
      intro s hs
      apply ih
      cases call with
      | check fd' buf => exact hs.check fd' buf
      | del fd' => exact hs.del fd'

/-! ## §4. The theorem. -/

/-- A check stores, and may determine. -/
theorem checkProposal_fst (mgr : OutputMgr) (fd : Nat) (buf : List UInt8) :
    (checkProposal mgr fd buf true).1 = Op.run mgr (.store fd buf)
      ∨ (checkProposal mgr fd buf true).1 = Op.run (Op.run mgr (.store fd buf)) (.determine fd) := by
  unfold checkProposal
  dsimp only
  split
  · exact .inl rfl
  · exact .inr rfl

/-- A call leaves a descriptor with the hashes of what it wrote. -/
theorem Proposing.call_holds {s : Proposing} {fd : Nat} (hfd : fd < maxFdSize)
    (hs : ∃ B, OutputMgr.Holds s.mgr fd B) (call : Call) :
    ∃ B, OutputMgr.Holds (s.call call).mgr fd B := by
  obtain ⟨B, hB⟩ := hs
  cases call with
  | check fd' buf =>
      show ∃ B, OutputMgr.Holds (checkProposal s.mgr fd' buf true).1 fd B
      rcases checkProposal_fst s.mgr fd' buf with heq | heq
      · exact ⟨_, heq ▸ hB.run hfd _⟩
      · exact ⟨_, heq ▸ (hB.run hfd _).run hfd _⟩
  | del fd' => exact ⟨_, hB.run hfd (.del fd')⟩

/-- The handlers are those of some stream, so each has as many hashes as it counts. -/
theorem runCalls_holds (calls : List Call) {fd : Nat} (hfd : fd < maxFdSize) :
    ∃ B, OutputMgr.Holds (runCalls calls).mgr fd B := by
  suffices h : ∀ (calls : List Call) (s : Proposing), (∃ B, OutputMgr.Holds s.mgr fd B) →
      ∃ B, OutputMgr.Holds (calls.foldl Proposing.call s).mgr fd B from
    h calls _ ⟨[], .of_none rfl⟩
  intro calls
  induction calls with
  | nil => exact fun _ hs => hs
  | cons call calls ih => exact fun s hs => ih _ (s.call_holds hfd hs call)

/-- The hash at an index below `count` is there. -/
theorem getOutputHash_available {mgr : OutputMgr} {fd : Nat} {h : Handler} {index : Int}
    (hfd : fd < maxFdSize) (hm : mgr fd = some h) (hlen : h.outputList.length = h.count)
    (hnn : 0 ≤ index) (hlt : index < h.count) :
    h.outputList[index.toNat]? = some (getOutputHash mgr fd index).2 := by
  unfold getOutputHash
  rw [getOutputHandlerByFd_eq mgr hfd, hm]
  show _ = some (if index < h.count then getValByIndex h.outputList index else 0)
  rw [if_pos hlt, getValByIndex_eq, if_pos hnn, List.getD_eq_getElem?_getD,
    List.getElem?_eq_getElem (by omega), Option.getD_some]

/-- **Proposals are available and advance.**  After every history of `mgr_on_check`
and `del_output` calls, with writes of any sizes on any descriptors, the next
`mgr_on_check` on `fd` makes a proposal exactly if its write is the
`CHECK_PERIOD`-th one since the last that completed a block; and whatever
`determine_output` returns there, other than -1, is the index proposed: it is
`CHECK_GOBACK` behind `count`, the leader has its hash, and it is at least
`CHECK_PERIOD` beyond the last index proposed since `fd` was closed. -/
theorem proposals_available_and_advance (calls : List Call) (fd : Nat) (buf : List UInt8) :
    ((checkProposal (runCalls calls).mgr fd buf true).2.isSome = true
      ↔ 0 < (storeOutput (runCalls calls).mgr fd buf).2
        ∧ ((runCalls calls).writes fd + 1) % checkPeriod = 0)
    ∧ ∀ index, 0 < (storeOutput (runCalls calls).mgr fd buf).2 →
        (determineOutput (storeOutput (runCalls calls).mgr fd buf).1 fd).2 = index → index ≠ -1 →
        (checkProposal (runCalls calls).mgr fd buf true).2 = some index
        ∧ (∃ h, (storeOutput (runCalls calls).mgr fd buf).1 fd = some h
          ∧ index = h.count - checkGoback ∧ 0 ≤ index ∧ index < h.count
          ∧ h.outputList[index.toNat]?
            = some (getOutputHash (runCalls (calls ++ [.check fd buf])).mgr fd index).2)
        ∧ ∀ last ∈ (runCalls calls).last fd, last + checkPeriod ≤ index := by
  have hpaced := (runCalls_paced calls fd).handler
  have hcases := checkProposal_cases (runCalls calls).mgr fd buf
  have hafter : (runCalls (calls ++ [.check fd buf])).mgr
      = (checkProposal (runCalls calls).mgr fd buf true).1 := by
    simp only [runCalls, List.foldl_append, List.foldl_cons, List.foldl_nil, Proposing.call]
  have hholds : fd < maxFdSize → ∃ B, OutputMgr.Holds
      (checkProposal (runCalls calls).mgr fd buf true).1 fd B := by
    rw [← hafter]
    exact runCalls_holds _
  rw [hafter]
  generalize (checkProposal (runCalls calls).mgr fd buf true).1 = mgr' at hcases hholds ⊢
  generalize (checkProposal (runCalls calls).mgr fd buf true).2 = proposed at hcases ⊢
  cases hcases with
  | silent hstored _ _ =>
      refine ⟨⟨fun h => (by cases h), fun h => absurd h.1 (by omega)⟩, fun index hpos => ?_⟩
      exact absurd hpos (by omega)
  | @stored h n hstored hpos hhandler hfd hcalled hcount =>
      have hgoback := hpaced.goback_le hcount hpos
      rw [determineOutput_eq hfd hhandler]
      rw [hpaced.called] at hcalled
      rw [hcalled]
      by_cases hperiod : ((runCalls calls).writes fd + 1) % checkPeriod = 0
      · rw [if_pos ⟨hperiod, hgoback hperiod⟩]
        refine ⟨⟨fun _ => ⟨by omega, hperiod⟩, fun _ => rfl⟩, fun index _ hdet hne => ?_⟩
        dsimp only at hdet
        rw [if_pos ⟨hperiod, hgoback hperiod⟩] at hdet
        subst hdet
        have hle := hgoback hperiod
        refine ⟨rfl, ⟨h, hhandler, rfl, by omega, ?_, ?_⟩, fun last hlast => ?_⟩
        · unfold checkGoback at hle ⊢
          omega
        · -- the manager with one more call counted has the same list
          obtain ⟨B, hB⟩ := hholds hfd
          have hself : Function.update (runCalls calls).mgr fd
              (some { h with calledCnt := (runCalls calls).writes fd + 1 }) fd
                = some { h with calledCnt := (runCalls calls).writes fd + 1 } := Function.update_self ..
          unfold OutputMgr.Holds at hB
          rw [hcalled, hself] at hB
          refine getOutputHash_available (h := { h with calledCnt := (runCalls calls).writes fd + 1 })
            hfd hself ?_ (by omega) ?_
          · rw [hB.list, length_hashesOf]
            exact hB.count.symm
          · show (h.count - checkGoback : Int) < h.count
            unfold checkGoback at hle ⊢
            omega
        · exact hpaced.advances hcount hpos hperiod hlast
      · rw [if_neg (fun hboth => hperiod hboth.1)]
        refine ⟨⟨fun h => (by cases h), fun h => absurd h.2 hperiod⟩, fun index _ hdet hne => ?_⟩
        dsimp only at hdet
        rw [if_neg (fun hboth => hperiod hboth.1)] at hdet
        exact absurd hdet.symm hne

/-- `k` writes of one block each. -/
theorem runCalls_blocks (k : Nat) :
    (runCalls (List.replicate k (.check 5 oneBlock))).writes 5 = k
    ∧ ∃ B, B.length = hashBufferSize * k
      ∧ OutputMgr.Holds (runCalls (List.replicate k (.check 5 oneBlock))).mgr 5 B := by
  induction k with
  | zero => exact ⟨rfl, [], rfl, .of_none rfl⟩
  | succ k ih =>
      obtain ⟨hwrites, B, hlen, hB⟩ := ih
      have hlen' : (B ++ oneBlock).length = hashBufferSize * (k + 1) := by
        rw [List.length_append, hlen, length_oneBlock]
        rfl
      have hstored : 0 < (storeOutput (runCalls (List.replicate k (.check 5 oneBlock))).mgr 5 oneBlock).2 := by
        have hreturns := storeOutput_returns (by decide) hB oneBlock
        rw [hlen', hlen, Nat.mul_div_cancel_left _ (by decide), Nat.mul_div_cancel_left _ (by decide)]
          at hreturns
        omega
      have hnext : runCalls (List.replicate (k + 1) (.check 5 oneBlock))
          = (runCalls (List.replicate k (.check 5 oneBlock))).call (.check 5 oneBlock) := by
        rw [List.replicate_succ', runCalls, List.foldl_append]
        rfl
      rw [hnext]
      simp only [Proposing.call]
      rw [if_pos hstored, Function.update_self, hwrites]
      refine ⟨rfl, B ++ oneBlock, hlen', ?_⟩
      rcases checkProposal_fst (runCalls (List.replicate k (.check 5 oneBlock))).mgr 5 oneBlock
        with heq | heq
      · rw [heq]
        exact hB.run (by decide) (.store 5 oneBlock)
      · rw [heq]
        exact (hB.run (by decide) (.store 5 oneBlock)).run (by decide) (.determine 5)

/-- The tenth write of one block proposes index 5. -/
theorem proposals_available_and_advance_tenth :
    (checkProposal (runCalls (List.replicate 9 (.check 5 oneBlock))).mgr 5 oneBlock true).2 = some 5 := by
  obtain ⟨hwrites, B, hlen, hB⟩ := runCalls_blocks 9
  obtain ⟨hiff, hindex⟩ := proposals_available_and_advance
    (List.replicate 9 (.check 5 oneBlock)) 5 oneBlock
  have hreturns := storeOutput_returns (by decide) hB oneBlock
  have hafter := hB.run (by decide) (.store 5 oneBlock)
  have hlen' : (B ++ oneBlock).length = hashBufferSize * 10 := by
    rw [List.length_append, hlen, length_oneBlock]
    rfl
  rw [hlen', hlen, Nat.mul_div_cancel_left _ (by decide), Nat.mul_div_cancel_left _ (by decide)]
    at hreturns
  simp only [Op.run, Op.write, if_true] at hafter
  generalize (runCalls (List.replicate 9 (.check 5 oneBlock))) = s at *
  have hpos : 0 < (storeOutput s.mgr 5 oneBlock).2 := by omega
  have hsome := hiff.mpr ⟨hpos, by rw [hwrites]; decide⟩
  have hproposed : (checkProposal s.mgr 5 oneBlock true).2
      = if (determineOutput (storeOutput s.mgr 5 oneBlock).1 5).2 ≠ -1
        then some (determineOutput (storeOutput s.mgr 5 oneBlock).1 5).2 else none := by
    unfold checkProposal
    dsimp only
    rw [if_neg (by simp only [Bool.true_eq_false, or_false, not_le]; exact hpos)]
  by_cases hdet : (determineOutput (storeOutput s.mgr 5 oneBlock).1 5).2 = -1
  · rw [hproposed, if_neg (not_not_intro hdet)] at hsome
    cases hsome
  · obtain ⟨heq, ⟨h, hh, hcount, -⟩, -⟩ := hindex _ hpos rfl hdet
    unfold OutputMgr.Holds at hafter
    rw [hh] at hafter
    rw [heq, hcount, hafter.count, hlen', Nat.mul_div_cancel_left _ (by decide)]
    rfl

end RdmaPaxos.Output
