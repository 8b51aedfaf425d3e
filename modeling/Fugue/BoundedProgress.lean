import Fugue.ReadCounters
import Fugue.SynchronousHandler

namespace Fugue

namespace TransactionExecution

open ExecutionState

variable {K V S : Type} [DecidableEq K] [Services S]

def Stage.bottom : Stage → Option Op
  | .upload => some .upload
  | .timestamp => some .setCommitTs
  | .validate => some .validate
  | .log => some .writeToLog
  | .status => some .updateTxnStatusToCommit
  | .commit => some .postProcessingAfterCommit
  | .abort => some .updateTxnStatusToAbort
  | .delete => some .postProcessingAfterAbort
  | .release => some .releaseReadCounter
  | .committed | .failing | .aborted => none

theorem Stage.bottom_of_parent {s : Stage} {p : Op} (h : s.parent = some p) : s.bottom = some p := by
  cases s <;> first | exact h | cases h

section

variable (reply : (op : Op) → HandlerCall K → Reply V op) (x : ExecutionState K V S) (gaveUp : Prop)

structure Live (s : Stage) (e : TransactionExecution K V S) : Prop where
  pipe : Pipe x gaveUp s e
  waiting : ∀ i op, e.operationVector.slot i = some op → s.parent ≠ some op →
    e.leafIsFinished op = true ∨ ∃ c, (op, c) ∈ e.pending
  log : s = .log → e.leafIsFinished .writeToLog = true
  answers : ∀ op c r, Event.answered op c r ∈ e.log → r = reply op c
  bottom : ∀ p, s.bottom = some p → e.operationVector.slot 0 = some p

structure Calm (s : Stage) (e : TransactionExecution K V S) : Prop where
  live : Live reply x gaveUp s e
  pending : e.pending = []

end

variable {reply : (op : Op) → HandlerCall K → Reply V op} {x : ExecutionState K V S}
variable {gaveUp : Prop} {s s' : Stage} {e e' e₁ : TransactionExecution K V S} {i : ℕ} {op y : Op}

theorem Live.answerAll (h : Live reply x gaveUp s e) :
    Calm reply x gaveUp s (answerAll reply e) := by
  have hnodup := h.pipe.stacked.pending_nodup
  have hspec := answer_spec reply rfl hnodup
  have hstep : ∀ e e' op c, Completed op c (reply op c) e e' →
      (Pipe x gaveUp s e ∧ ∀ op c r, Event.answered op c r ∈ e.log → r = reply op c) →
      Pipe x gaveUp s e' ∧ ∀ op c r, Event.answered op c r ∈ e'.log → r = reply op c := by
    rintro e e' op c hc ⟨hp, ha⟩
    refine ⟨hp.complete hc, fun op' c' r hr => ?_⟩
    rw [hc.log] at hr
    rcases List.mem_append.mp hr with hr | hr
    · exact ha op' c' r hr
    · injection List.mem_singleton.mp hr with h1 h2 h3
      subst h1 h2
      exact eq_of_heq h3
  obtain ⟨hpipe, hans⟩ := answer_induction (l := e.pending)
    (fun e e' op c hi hc => hstep e e' op c hc hi) rfl ⟨h.pipe, h.answers⟩
  refine ⟨⟨hpipe, ?_, ?_, hans, ?_⟩, hspec.pending⟩
  · intro i op hi hpar
    left
    rw [TransactionExecution.answerAll, hspec.operationVector] at hi
    by_cases hc : ∃ c, (op, c) ∈ e.pending
    · obtain ⟨c, hc⟩ := hc
      exact leafIsFinished_of_result (hspec.answered op c hc)
    · rw [TransactionExecution.answerAll,
        leafIsFinished_congr (hspec.other op fun c hmem => hc ⟨c, hmem⟩)]
      exact (h.waiting i op hi hpar).resolve_right hc
  · rintro rfl
    have hne : ∀ c, (.writeToLog, c) ∉ e.pending := by
      intro c hc
      exact (h.pipe.stacked.pending_member _ hc).1
    rw [TransactionExecution.answerAll, leafIsFinished_congr (hspec.other _ hne)]
    exact h.log rfl
  · intro p hp
    rw [TransactionExecution.answerAll, hspec.operationVector]
    exact h.bottom p hp

theorem visit_leaves (hi : e.operationVector.slot i = some op) (hf : e.isFinished op = true)
    (hn : next op e = .ok (none, e₁)) :
    visit i e = .ok (e₁.setSlot i none, e₁.status == .aborting) := by
  unfold visit
  rw [hi]
  dsimp only
  rw [if_pos hf, hn]

theorem visit_continues (hi : e.operationVector.slot i = some op) (hf : e.isFinished op = true)
    (hn : next op e = .ok (some y, e₁)) :
    visit i e = .ok (call y (e₁.setSlot i (some y)), false) := by
  unfold visit
  rw [hi]
  dsimp only
  rw [if_pos hf, hn]

theorem Calm.leave (h : Calm reply x gaveUp s e) (hi : e.operationVector.slot i = some op)
    (hop : s.bottom ≠ some op) (hn : next op e = .ok (none, e₁))
    (hp : Pipe x gaveUp s (e₁.setSlot i none)) : Calm reply x gaveUp s (e₁.setSlot i none) := by
  have ha := next_advanced hn
  have hres : ∀ z, (e₁.setSlot i none).leafIsFinished z = e.leafIsFinished z :=
    fun z => leafIsFinished_congr (ha.handlerResult z (by simp))
  have hslot : ∀ j, (e₁.setSlot i none).operationVector.slot j =
      if j = i then none else e.operationVector.slot j := by
    intro j
    simp only [setSlot, ha.operationVector]
    exact Slots.slot_setSlot _ _ _ _ (Slots.lt_length_of_slot hi)
  have hpend : (e₁.setSlot i none).pending = [] := ha.pending.trans h.pending
  refine ⟨⟨hp, ?_, ?_, ?_, ?_⟩, hpend⟩
  · intro j z hj hz
    rw [hslot] at hj
    split at hj
    · cases hj
    · left
      rw [hres]
      refine (h.live.waiting j z hj hz).resolve_right ?_
      rw [h.pending]
      simp
  · intro hs
    rw [hres]
    exact h.live.log hs
  · intro z c r hr
    exact h.live.answers z c r (ha.log ▸ hr)
  · intro p hbot
    have h0 := h.live.bottom p hbot
    rw [hslot, if_neg]
    · exact h0
    · rintro rfl
      rw [hi] at h0
      exact hop (hbot.trans h0.symm)

theorem calls_slot (y : Op) (z : TransactionExecution K V S) {j : ℕ} {op : Op}
    (h : z.operationVector.slot j = some op) : (call y z).operationVector.slot j = some op :=
  (call_grows y z).slot h

theorem Calm.push {j : ℕ} (h : Calm reply x gaveUp .validate e)
    (hi : e.operationVector.slot i = some (.updateReadEntryMaxCommitTs j))
    (hn : next (.updateReadEntryMaxCommitTs j) e =
      .ok (some (.pushConflictTxnCommitTsLowerBound j), e₁))
    (hp : Pipe x gaveUp .validate (call (.pushConflictTxnCommitTsLowerBound j)
      (e₁.setSlot i (some (.pushConflictTxnCommitTsLowerBound j))))) :
    Live reply x gaveUp .validate (call (.pushConflictTxnCommitTsLowerBound j)
      (e₁.setSlot i (some (.pushConflictTxnCommitTsLowerBound j)))) ∧
    ∀ l, (call (.pushConflictTxnCommitTsLowerBound j)
      (e₁.setSlot i (some (.pushConflictTxnCommitTsLowerBound j)))).operationVector.slot l =
        if l = i then some (.pushConflictTxnCommitTsLowerBound j)
        else e.operationVector.slot l := by
  let w := e₁.setSlot i (some (.pushConflictTxnCommitTsLowerBound j))
  have ha := next_advanced hn
  have hcall : call (.pushConflictTxnCommitTsLowerBound j) w =
      (w.setMoveToNext (.pushConflictTxnCommitTsLowerBound j) false).issue
        (.pushConflictTxnCommitTsLowerBound j)
        (.updateCommitLowerBound (w.args.pushTxnId j) (w.commitTimestamp + 1)) := rfl
  have hslot : ∀ l, (call (.pushConflictTxnCommitTsLowerBound j) w).operationVector.slot l =
      if l = i then some (.pushConflictTxnCommitTsLowerBound j)
      else e.operationVector.slot l := by
    intro l
    rw [hcall]
    change (e₁.operationVector.setSlot i _).slot l = _
    rw [ha.operationVector]
    exact Slots.slot_setSlot _ _ _ _ (Slots.lt_length_of_slot hi)
  have hself := hp.stacked.occupied.unique
  refine ⟨⟨hp, ?_, (fun hs => by cases hs), ?_, ?_⟩, hslot⟩
  · intro l z hl hz
    by_cases hli : l = i
    · have hzp : z = .pushConflictTxnCommitTsLowerBound j := by
        have hl' := (hslot l).symm.trans hl
        rw [if_pos hli] at hl'
        exact (Option.some.inj hl').symm
      right
      rw [hzp]
      refine ⟨.updateCommitLowerBound (w.args.pushTxnId j) (w.commitTimestamp + 1), ?_⟩
      exact List.mem_append_right w.pending (List.mem_singleton.mpr rfl)
    · left
      have hzp : z ≠ .pushConflictTxnCommitTsLowerBound j := by
        rintro rfl
        have hi' := hslot i
        rw [if_pos rfl] at hi'
        exact hli (hself l i _ hl hi')
      have hres : (call (.pushConflictTxnCommitTsLowerBound j) w).handlerResult z =
          e.handlerResult z := by
        rw [hcall]
        exact ha.handlerResult z (by simpa using hzp.symm)
      have hl' := (hslot l).symm.trans hl
      rw [if_neg hli] at hl'
      rw [leafIsFinished_congr hres]
      refine (h.live.waiting l z hl' hz).resolve_right ?_
      rw [h.pending]
      simp
  · intro z c r hr
    change _ ∈ (call (.pushConflictTxnCommitTsLowerBound j) w).log at hr
    rw [hcall] at hr
    have hr' : Event.answered z c r ∈ e₁.log := by
      refine (List.mem_append.mp hr).resolve_right fun hr => ?_
      cases List.mem_singleton.mp hr
    exact h.live.answers z c r (ha.log ▸ hr')
  · intro p hbot
    have h0 := h.live.bottom p hbot
    rw [hslot, if_neg]
    · exact h0
    · rintro rfl
      rw [hi] at h0
      rw [← h0] at hbot
      cases hbot

omit [DecidableEq K] [Services S] in
theorem Core.timestamp_unique {n : ℕ} (h : Core x gaveUp n e) {ts ts' : ℤ}
    (ht : Timestamped e.log ts) (ht' : Timestamped e.log ts') : ts = ts' := by
  obtain ⟨c, r, hr, -, hts, -⟩ := ht
  obtain ⟨c', r', hr', -, hts', -⟩ := ht'
  rw [← hts, ← hts']
  exact (h.reply_unique (by simp [Op.rank]) hr hr').1

theorem Pipe.next_reread_ok {j : ℕ} (h : Pipe x gaveUp .validate e)
    (hm : Stage.validate.member e (.updateReadEntryMaxCommitTs j))
    (hf : e.leafIsFinished (.updateReadEntryMaxCommitTs j) = true)
    (hans : ∀ op c r, Event.answered op c r ∈ e.log → r = reply op c)
    (hlaw : ∀ op c, Lawful op c (reply op c)) :
    ∃ p, next (.updateReadEntryMaxCommitTs j) e = .ok p := by
  obtain ⟨c, r, hr, hres⟩ := h.reply _ hm hf (by simp [Op.rank])
  have hfacts : ValidateFacts x e := h.facts
  obtain ⟨pre, hpre, -, ts, l, k, hts, -, -, rfl⟩ := h.core.callOk (h.core.issued_of_answered hr)
  have hts' := h.core.timestamp_unique (hts.mono hpre) hfacts.timestamped
  have hr' := hans _ _ _ hr
  have hbound := hlaw (.updateReadEntryMaxCommitTs j)
    (.updateMaxCommitTsAndReread k (x.keyReadSet.entry l).version ts)
  rw [← hr', Lawful, hts'] at hbound
  simp only [TransactionExecution.next, nextImpl, updateReadEntryMaxCommitTsNext]
  rw [show (e.setFlags (.updateReadEntryMaxCommitTs j) ⟨true, true⟩).handlerResult =
    e.handlerResult from rfl, hres]
  cases he : r.isError with
  | true => exact ⟨_, rfl⟩
  | false =>
    rw [if_neg (by simp)]
    dsimp only
    split
    · exact ⟨_, rfl⟩
    · next hv =>
      have hle := hbound he hv
      rw [if_neg]
      · split
        · exact ⟨_, rfl⟩
        · split <;> exact ⟨_, rfl⟩
      · exact Int.not_lt.mpr hle

def Passed (e e' : TransactionExecution K V S) (i : ℕ) : Prop :=
  e'.operationVector.slot i = none ∨ ∃ j,
    e'.operationVector.slot i = some (.pushConflictTxnCommitTsLowerBound j) ∧
      e.operationVector.slot i = some (.updateReadEntryMaxCommitTs j)

structure Visited (reply : (op : Op) → HandlerCall K → Reply V op) (x : ExecutionState K V S)
    (gaveUp : Prop) (s : Stage) (i : ℕ) (e e' : TransactionExecution K V S) : Prop where
  calm : Calm reply x gaveUp s e'
  length : e'.operationVector.length = e.operationVector.length
  other : ∀ j, j ≠ i → e'.operationVector.slot j = e.operationVector.slot j
  passed : Passed e e' i

theorem Calm.visit_leave (h : Calm reply x gaveUp s e) (hs : s ≠ .failing)
    (hi : e.operationVector.slot i = some op) (hop : s.bottom ≠ some op)
    (hf : e.isFinished op = true) (hn : next op e = .ok (none, e₁))
    (hp : Pipe x gaveUp s (e₁.setSlot i none)) :
    ∃ e', visitSync reply i e = .ok (e', false) ∧ Visited reply x gaveUp s i e e' := by
  have ha := next_advanced hn
  have hcalm := h.leave hi hop hn hp
  have hst : e₁.status ≠ .aborting := hp.status_ne_aborting hs
  have hslot : ∀ j, (e₁.setSlot i none).operationVector.slot j =
      if j = i then none else e.operationVector.slot j := by
    intro j
    simp only [setSlot, ha.operationVector]
    exact Slots.slot_setSlot _ _ _ _ (Slots.lt_length_of_slot hi)
  refine ⟨e₁.setSlot i none, ?_, hcalm, ?_, ?_, ?_⟩
  · rw [visitSync, visit_leaves hi hf hn]
    simp only [Except.map, answerAll_of_nil hcalm.pending]
    congr 2
    simpa using hst
  · simp [setSlot, Slots.setSlot, ha.operationVector]
  · intro j hj
    rw [hslot, if_neg hj]
  · exact .inl (by rw [hslot, if_pos rfl])

theorem Pipe.next_post_ok (h : Pipe x gaveUp s e) (hm : s.member e op)
    (hs : s = .commit ∨ s = .delete ∨ s = .release) (hf : e.leafIsFinished op = true)
    (hans : ∀ op c r, Event.answered op c r ∈ e.log → r = reply op c)
    (hlaw : ∀ op c, Lawful op c (reply op c)) : ∃ p, next op e = .ok p := by
  have hrank := Stage.rank_of_member hm
  have hpos : 0 < op.rank := by
    rw [hrank]
    rcases hs with rfl | rfl | rfl <;> simp [Stage.rank]
  obtain ⟨c, r, hr, hres⟩ := h.reply op hm hf hpos
  have hr' := hans _ _ _ hr
  have hok := hlaw op c
  rw [← hr'] at hok
  have herr : (e.handlerResult op).isError = r.isError := by rw [hres]
  rcases hs with rfl | rfl | rfl <;> obtain ⟨j, -, rfl⟩ := hm
  · exact ⟨_, if_neg (Bool.eq_false_iff.mp (herr.trans hok))⟩
  · exact ⟨_, if_neg (Bool.eq_false_iff.mp (herr.trans hok))⟩
  · exact ⟨_, if_neg (Bool.eq_false_iff.mp (herr.trans hok))⟩

theorem Calm.finished_of_slot (h : Calm reply x gaveUp s e) {i : ℕ} {op : Op}
    (hi : e.operationVector.slot i = some op) (hp : s.parent ≠ some op) :
    e.leafIsFinished op = true := by
  refine (h.live.waiting i op hi hp).resolve_right ?_
  rw [h.pending]
  simp

theorem Calm.visit_member (h : Calm reply x gaveUp s e) (hlaw : ∀ op c, Lawful op c (reply op c))
    {p : Op} (hpar : s.parent = some p) (hi : e.operationVector.slot i = some op) (hop : op ≠ p) :
    ∃ e', visitSync reply i e = .ok (e', false) ∧ Visited reply x gaveUp s i e e' := by
  have hne : s.parent ≠ some op := by
    rw [hpar]
    exact fun hc => hop (Option.some.inj hc).symm
  have hbot : s.bottom ≠ some op := by
    rw [Stage.bottom_of_parent hpar]
    exact fun hc => hop (Option.some.inj hc).symm
  have hf := h.finished_of_slot hi hne
  obtain ⟨hm, hmv⟩ := (h.live.pipe.stacked.occupied.held_of_slot hi).resolve_left hne
  cases s with
  | upload =>
    obtain ⟨j, hj, rfl⟩ := id hm
    have hfacts : UploadFacts x e := h.live.pipe.facts
    have hj' : j < x.keyWriteSet.popIndex := by
      rw [← hfacts.size]
      simpa [uploadFamily] using hj
    obtain ⟨⟨o, e₁⟩, hn⟩ : ∃ p, next (.uploadVersionEntry j) e = .ok p := ⟨_, rfl⟩
    obtain ⟨rfl, hp⟩ := h.live.pipe.leave_upload hj' hi hmv hf hn
    exact h.visit_leave (by simp) hi hbot hf hn hp
  | validate =>
    obtain ⟨j, hj, rfl⟩ | ⟨j, hj, rfl, hlock⟩ := id hm
    · obtain ⟨⟨o, e₁⟩, hn⟩ := h.live.pipe.next_reread_ok hm hf h.live.answers hlaw
      have hn : next (.updateReadEntryMaxCommitTs j) e = .ok (o, e₁) := hn
      rcases h.live.pipe.leave_reread hj hi hmv hf hn with ⟨rfl, hp⟩ | ⟨y, rfl, hp⟩
      · exact h.visit_leave (by simp) hi hbot hf hn hp
      · obtain ⟨c, r, -, hres⟩ := h.live.pipe.reply _ hm hf (Nat.succ_pos 2)
        obtain rfl : y = .pushConflictTxnCommitTsLowerBound j := by
          obtain ⟨-, -, -, -, -, ⟨ho, -⟩ | ⟨-, -, ⟨ho, -⟩ | ⟨ho, -⟩⟩⟩ := next_reread hres hn
          · cases ho
          · cases ho
          · exact Option.some.inj ho
        obtain ⟨hlive, hslot⟩ := h.push hi hn hp
        have hcalm := hlive.answerAll
        have hvec := (answer_spec reply rfl hlive.pipe.stacked.pending_nodup).operationVector
        refine ⟨_, ?_, hcalm, ?_, ?_, .inr ⟨j, ?_, hi⟩⟩
        · rw [visitSync, visit_continues hi hf hn]
          rfl
        · rw [answerAll, hvec]
          have ha := next_advanced hn
          change (e₁.operationVector.setSlot i _).length = _
          rw [ha.operationVector, Slots.setSlot, List.length_set]
        · intro l hl
          rw [answerAll, hvec, hslot, if_neg hl]
        · rw [answerAll, hvec, hslot, if_pos rfl]
    · obtain ⟨⟨o, e₁⟩, hn⟩ : ∃ p, next (.pushConflictTxnCommitTsLowerBound j) e = .ok p := ⟨_, rfl⟩
      obtain ⟨rfl, hp⟩ := h.live.pipe.leave_push hj hlock hi hf hn
      exact h.visit_leave (by simp) hi hbot hf hn hp
  | log => exact hm.elim
  | commit =>
    obtain ⟨j, hj, rfl⟩ := id hm
    obtain ⟨⟨o, e₁⟩, hn⟩ := h.live.pipe.next_post_ok hm (by simp) hf h.live.answers hlaw
    obtain ⟨rfl, hp⟩ := h.live.pipe.leave_commit hj hi hf hn
    exact h.visit_leave (by simp) hi hbot hf hn hp
  | delete =>
    obtain ⟨j, hj, rfl⟩ := id hm
    obtain ⟨⟨o, e₁⟩, hn⟩ := h.live.pipe.next_post_ok hm (by simp) hf h.live.answers hlaw
    obtain ⟨rfl, hp⟩ := h.live.pipe.leave_delete hj hi hf hn
    exact h.visit_leave (by simp) hi hbot hf hn hp
  | release =>
    obtain ⟨j, hj, rfl⟩ := id hm
    obtain ⟨⟨o, e₁⟩, hn⟩ := h.live.pipe.next_post_ok hm (by simp) hf h.live.answers hlaw
    obtain ⟨rfl, hp⟩ := h.live.pipe.leave_release hj hi hf hn
    exact h.visit_leave (by simp) hi hbot hf hn hp
  | timestamp | status | abort | committed | failing | aborted => cases hpar

theorem Calm.children_pass (h : Calm reply x gaveUp s e)
    (hlaw : ∀ op c, Lawful op c (reply op c)) {p : Op} (hpar : s.parent = some p) (n : ℕ) :
    ∃ e', visitAllSync reply (n + 1) e = visitAllSync reply 1 e' ∧ Calm reply x gaveUp s e' ∧
      e'.operationVector.length = e.operationVector.length ∧
      (∀ i, 0 < i → i ≤ n → Passed e e' i) ∧
      ∀ i, n < i → e'.operationVector.slot i = e.operationVector.slot i := by
  induction n generalizing e with
  | zero =>
    refine ⟨e, rfl, h, rfl, fun i h1 h2 => ?_, fun _ _ => rfl⟩
    omega
  | succ n ih =>
    -- the topmost slot first
    obtain ⟨e₁, hv, hcalm, hlen, hother, hpass⟩ : ∃ e₁, visitSync reply (n + 1) e = .ok (e₁, false) ∧
        Calm reply x gaveUp s e₁ ∧ e₁.operationVector.length = e.operationVector.length ∧
        (∀ j, j ≠ n + 1 → e₁.operationVector.slot j = e.operationVector.slot j) ∧
        Passed e e₁ (n + 1) := by
      cases hi : e.operationVector.slot (n + 1) with
      | none =>
        refine ⟨e, ?_, h, rfl, fun _ _ => rfl, .inl hi⟩
        rw [visitSync, show TransactionExecution.visit (n + 1) e = .ok (e, false) by
          unfold TransactionExecution.visit
          rw [hi]]
        simp only [Except.map, answerAll_of_nil h.pending]
      | some op =>
        have hop : op ≠ p := by
          rintro rfl
          have h0 := h.live.bottom op (Stage.bottom_of_parent hpar)
          have := h.live.pipe.stacked.occupied.unique _ _ _ hi h0
          omega
        obtain ⟨e₁, hv, hvis⟩ := h.visit_member hlaw hpar hi hop
        exact ⟨e₁, hv, hvis.calm, hvis.length, hvis.other, hvis.passed⟩
    obtain ⟨e', hall, hcalm', hlen', hpass', hrest⟩ := ih hcalm
    refine ⟨e', ?_, hcalm', hlen'.trans hlen, ?_, ?_⟩
    · rw [← hall, visitAllSync, hv]
    · intro i h1 h2
      by_cases hin : i = n + 1
      · subst hin
        have hslot := hrest (n + 1) (Nat.lt_succ_self n)
        rcases hpass with hpass | ⟨j, hpass, hold⟩
        · exact .inl (hslot.trans hpass)
        · exact .inr ⟨j, hslot.trans hpass, hold⟩
      · rcases hpass' i h1 (by omega) with hpass | ⟨j, hpass, hold⟩
        · exact .inl hpass
        · exact .inr ⟨j, hpass, (hother i hin).symm.trans hold⟩
    · intro i hi
      rw [hrest i (by omega), hother i (by omega)]

theorem Calm.parent_finished (h : Calm reply x gaveUp s e) {p : Op} (hpar : s.parent = some p)
    (hclear : ∀ i, 0 < i → e.operationVector.slot i = none) : e.isFinished p = true := by
  have hst := h.live.pipe.stacked
  have h0 := h.live.bottom p (Stage.bottom_of_parent hpar)
  have hmoved : ∀ z, s.member e z → e.leafIsFinished z = true ∧ (e.flags z).moveToNext = true := by
    intro z hz
    have hmv : (e.flags z).moveToNext = true := by
      by_contra hmv
      obtain ⟨j, hj⟩ := (hst.occupied.holds z).mpr (.inr ⟨hz, by simpa using hmv⟩)
      rcases Nat.eq_zero_or_pos j with rfl | hpos
      · rw [h0] at hj
        exact hst.parent_not_member z (hpar.trans hj) hz
      · rw [hclear j hpos] at hj
        cases hj
    exact ⟨hst.moved_finished z hz hmv, hmv⟩
  have hcascade : ∀ z, s.member e z → (e.leafIsFinished z && (e.flags z).moveToNext) = true := by
    intro z hz
    simp [hmoved z hz]
  cases s with
  | upload =>
    obtain rfl := Option.some.inj hpar
    exact uploadFamily.isFinished_parent.mpr fun j hj => hcascade _ ⟨j, hj, rfl⟩
  | validate =>
    obtain rfl := Option.some.inj hpar
    refine validateFamily.isFinished_parent.mpr fun j hj => ?_
    have hread := hmoved (.updateReadEntryMaxCommitTs j) (.inl ⟨j, hj, rfl⟩)
    have hpush : (e.flags (.updateReadEntryMaxCommitTs j)).hasNext = true →
        e.leafIsFinished (.pushConflictTxnCommitTsLowerBound j) = true ∧
          (e.flags (.pushConflictTxnCommitTsLowerBound j)).moveToNext = true :=
      fun hnext => hmoved _ (.inr ⟨j, hj, rfl, OperationFlags.eq_mk hread.2 hnext⟩)
    change e.isCascadeFinished (.updateReadEntryMaxCommitTs j) = true
    simp only [isCascadeFinished, hread.1, hread.2, Bool.true_and]
    cases hnext : (e.flags (.updateReadEntryMaxCommitTs j)).hasNext with
    | false => rfl
    | true => simp [hpush hnext]
  | log =>
    obtain rfl := Option.some.inj hpar
    exact h.live.log rfl
  | commit =>
    obtain rfl := Option.some.inj hpar
    exact commitFamily.isFinished_parent.mpr fun j hj => hcascade _ ⟨j, hj, rfl⟩
  | delete =>
    obtain rfl := Option.some.inj hpar
    exact deleteFamily.isFinished_parent.mpr fun j hj => hcascade _ ⟨j, hj, rfl⟩
  | release =>
    obtain rfl := Option.some.inj hpar
    exact releaseFamily.isFinished_parent.mpr fun j hj => hcascade _ ⟨j, hj, rfl⟩
  | timestamp | status | abort | committed | failing | aborted => cases hpar

theorem Calm.validate_waits (h : Calm reply x gaveUp .validate e) {i j : ℕ}
    (hi : e.operationVector.slot i = some (.pushConflictTxnCommitTsLowerBound j)) :
    e.isFinished .validate = false := by
  rcases h.live.pipe.stacked.occupied.held_of_slot hi with hp | ⟨⟨l, hl, hc⟩ | ⟨l, hl, hc, hlock⟩, hmv⟩
  · cases hp
  · cases hc
  · obtain rfl := Op.pushConflictTxnCommitTsLowerBound.inj hc
    by_contra hf
    have hf' : e.isFinished .validate = true := by simpa using hf
    have hcas : e.isCascadeFinished (.updateReadEntryMaxCommitTs j) = true :=
      validateFamily.isFinished_parent.mp hf' j hl
    simp [isCascadeFinished, hlock, hmv] at hcas

theorem Family.waiting (F : Family K V S) (z : TransactionExecution K V S)
    (hreq : ∀ j ∈ F.index z.args, (F.request z.toExecutionState j).isSome = true) {op : Op}
    (hm : F.member (call F.parent z) op) : ∃ c, (op, c) ∈ (call F.parent z).pending := by
  have hi : Invoked F (F.index z.args) (z.setMoveToNext F.parent false) (call F.parent z) := by
    rw [F.call_parent]
    exact invokeAll_invoked F _ _
  obtain ⟨i, hlt, rfl⟩ := hm
  rw [hi.index] at hlt
  have hlt : i < (F.index z.args).length := hlt
  obtain ⟨c, hc⟩ := Option.isSome_iff_exists.mp (hreq _ (List.getElem_mem hlt))
  refine ⟨c, ?_⟩
  rw [hi.pending]
  apply List.mem_append_right
  exact mem_calls.mpr ⟨i, _, List.getElem?_eq_getElem hlt, rfl, hc⟩

theorem Calm.enter (h : Calm reply x gaveUp s e) (hi : e.operationVector.slot 0 = some op)
    (hn : next op e = .ok (some y, e₁)) (hp : Pipe x gaveUp s' (call y (e₁.setSlot 0 (some y))))
    (hb : s'.bottom = some y)
    (hwait : ∀ z, s'.member (call y (e₁.setSlot 0 (some y))) z →
      ((call y (e₁.setSlot 0 (some y))).flags z).moveToNext = false →
      ∃ c, (z, c) ∈ (call y (e₁.setSlot 0 (some y))).pending)
    (hlog : s' = .log →
      (call y (e₁.setSlot 0 (some y))).leafIsFinished .writeToLog = true) :
    Live reply x gaveUp s' (call y (e₁.setSlot 0 (some y))) where
  pipe := hp
  waiting j z hj hz := by
    obtain ⟨hm, hmv⟩ := (hp.stacked.occupied.held_of_slot hj).resolve_left hz
    exact .inr (hwait z hm hmv)
  log := hlog
  answers z c r hr := by
    obtain ⟨l, hl⟩ := (call_grows y (e₁.setSlot 0 (some y))).log
    rw [hl] at hr
    have hr' := (List.mem_append.mp hr).resolve_right answered_issues
    exact h.live.answers z c r ((next_advanced hn).log ▸ hr')
  bottom p hp' := by
    obtain rfl := Option.some.inj (hb.symm.trans hp')
    apply calls_slot
    change (e₁.operationVector.setSlot 0 (some y)).slot 0 = some y
    rw [(next_advanced hn).operationVector,
      Slots.slot_setSlot _ _ _ _ (Slots.lt_length_of_slot hi), if_pos rfl]

theorem bottom_continues (hi : e.operationVector.slot 0 = some op) (hf : e.isFinished op = true)
    (hn : next op e = .ok (some y, e₁))
    (hl : Live reply x gaveUp s' (call y (e₁.setSlot 0 (some y)))) :
    ∃ e', visitAllSync reply 1 e = .ok e' ∧ Calm reply x gaveUp s' e' ∧
      e'.operationVector = (call y (e₁.setSlot 0 (some y))).operationVector := by
  refine ⟨_, ?_, hl.answerAll, (answer_spec reply rfl hl.pipe.stacked.pending_nodup).operationVector⟩
  rw [visitAllSync, visitSync, visit_continues hi hf hn]
  rfl

theorem Calm.bottom_leaves (h : Calm reply x gaveUp s e)
    (hi : e.operationVector.slot 0 = some op)
    (hclear : ∀ i, 0 < i → e.operationVector.slot i = none) (hf : e.isFinished op = true)
    (hn : next op e = .ok (none, e₁)) (hp : Pipe x gaveUp s' (e₁.setSlot 0 none))
    (hb : s'.bottom = none) :
    visitAllSync reply 1 e = .ok (e₁.setSlot 0 none) ∧
      Calm reply x gaveUp s' (e₁.setSlot 0 none) := by
  have ha := next_advanced hn
  have hpend : (e₁.setSlot 0 none).pending = [] := ha.pending.trans h.pending
  constructor
  · rw [visitAllSync, visitSync, visit_leaves hi hf hn]
    simp only [Except.map, answerAll_of_nil hpend]
    cases e₁.status == .aborting <;> rfl
  · refine ⟨⟨hp, ?_, ?_, ?_, ?_⟩, hpend⟩
    · intro j z hj _
      change (e₁.operationVector.setSlot 0 none).slot j = some z at hj
      rw [ha.operationVector, Slots.slot_setSlot _ _ _ _ (Slots.lt_length_of_slot hi)] at hj
      split at hj
      · cases hj
      · next hne =>
        rw [hclear j (Nat.pos_of_ne_zero hne)] at hj
        cases hj
    · rintro rfl
      cases hb
    · intro z c r hr
      exact h.live.answers z c r (ha.log ▸ hr)
    · intro p hp'
      rw [hb] at hp'
      cases hp'

/-- The stage is over after at most `n` more calls of `MoveForward`. A validation that still has
re-reads above it takes one call more for its pushes. -/
def Stage.Within (n : ℕ) (e : TransactionExecution K V S) : Stage → Prop
  | .upload => 7 ≤ n
  | .timestamp => 6 ≤ n
  | .validate => 5 ≤ n ∨ 4 ≤ n ∧
      ∀ i j, e.operationVector.slot i ≠ some (.updateReadEntryMaxCommitTs j)
  | .log | .abort | .failing => 3 ≤ n
  | .status | .delete => 2 ≤ n
  | .commit | .release => 1 ≤ n
  | .committed | .aborted => True

theorem Calm.upload_moves (h : Calm reply x gaveUp .upload e)
    (hclear : ∀ i, 0 < i → e.operationVector.slot i = none) :
    ∃ e' s', visitAllSync reply 1 e = .ok e' ∧ Calm reply x gaveUp s' e' ∧ s'.Within 6 e' := by
  have hi := h.live.bottom .upload rfl
  have hf := h.parent_finished (p := .upload) rfl hclear
  obtain ⟨⟨o, e₁⟩, hn⟩ : ∃ p, next .upload e = .ok p := by
    simp only [TransactionExecution.next, nextImpl]
    split <;> exact ⟨_, rfl⟩
  rcases h.live.pipe.upload_finished hi hf hn with ⟨rfl, hp⟩ | ⟨y, rfl, hp⟩
  · obtain ⟨hv, hc⟩ := h.bottom_leaves hi hclear hf hn hp rfl
    exact ⟨_, .failing, hv, hc, by simp [Stage.Within]⟩
  · obtain rfl : y = .setCommitTs := by
      simp only [TransactionExecution.next, nextImpl] at hn
      split at hn <;> cases hn
      rfl
    have hl := h.enter hi hn hp rfl (fun z hz _ => ?_) (fun hs => by cases hs)
    · obtain ⟨e', hv, hc, -⟩ := bottom_continues hi hf hn hl
      exact ⟨e', .timestamp, hv, hc, by simp [Stage.Within]⟩
    · obtain rfl : z = .setCommitTs := hz
      exact ⟨_, List.mem_append_right _ (List.mem_singleton.mpr rfl)⟩

theorem Calm.single_clear (h : Calm reply x gaveUp s e) (hpar : s.parent = none)
    (hm : ∀ z, s.member e z → s.bottom = some z) (i : ℕ) (hi : 0 < i) :
    e.operationVector.slot i = none := by
  cases hz : e.operationVector.slot i with
  | none => rfl
  | some z =>
    rcases h.live.pipe.stacked.occupied.held_of_slot hz with hp | ⟨hmz, -⟩
    · rw [hpar] at hp
      cases hp
    · have h0 := h.live.bottom z (hm z hmz)
      have := h.live.pipe.stacked.occupied.unique _ _ _ hz h0
      omega

theorem Calm.timestamp_moves (h : Calm reply x gaveUp .timestamp e) (hk : Keyed x) :
    ∃ e' s', visitAllSync reply 1 e = .ok e' ∧ Calm reply x gaveUp s' e' ∧ s'.Within 5 e' := by
  have hi := h.live.bottom .setCommitTs rfl
  have hclear := h.single_clear rfl fun z hz => congrArg some (Eq.symm hz)
  have hf : e.isFinished .setCommitTs = true := h.finished_of_slot hi (by simp [Stage.parent])
  obtain ⟨⟨o, e₁⟩, hn⟩ : ∃ p, next .setCommitTs e = .ok p := by
    simp only [TransactionExecution.next, nextImpl]
    split <;> exact ⟨_, rfl⟩
  rcases h.live.pipe.timestamp_finished hi hf hn with ⟨rfl, hp⟩ | ⟨y, rfl, hp⟩
  · obtain ⟨hv, hc⟩ := h.bottom_leaves hi hclear hf hn hp rfl
    exact ⟨_, .failing, hv, hc, by simp [Stage.Within]⟩
  · obtain rfl : y = .validate := by
      simp only [TransactionExecution.next, nextImpl] at hn
      split at hn <;> cases hn
      rfl
    let z := e₁.setSlot 0 (some .validate)
    have hfacts : ValidateFacts x (call .validate z) := hp.facts
    have hinv : Invoked validateFamily z.args.validateIndex (z.setMoveToNext .validate false)
        (call .validate z) := invokeAll_invoked validateFamily _ _
    have hset : (call .validate z).keyReadSet = z.keyReadSet :=
      (congrArg ExecutionState.keyReadSet hinv.data :)
    have hidx : z.args.validateIndex = x.unupdated := hinv.index.symm.trans hfacts.index
    have hl := h.enter hi hn hp rfl (fun w hw hmv => ?_) (fun hs => by cases hs)
    · obtain ⟨e', hv, hc, -⟩ := bottom_continues hi hf hn hl
      exact ⟨e', .validate, hv, hc, .inl (Nat.le_refl 5)⟩
    · rcases hw with hw | ⟨j, hj, rfl, hlock⟩
      · refine validateFamily.waiting z (fun j hj => ?_) hw
        have hj : j ∈ z.args.validateIndex := hj
        rw [hidx] at hj
        have hlt : j < x.keyReadSet.popIndex := List.mem_range.mp (List.mem_filter.mp hj).1
        obtain ⟨k, hkey⟩ := hk.read j hlt
        have hkey' : z.keyReadSet.key j = some k := by
          rw [← hset, ← hkey]
          exact hp.core.sets.readKey j
        simp [validateFamily, hkey']
      · have hj' : j < z.args.validateIndex.length := by
          rw [← show (call .validate z).args.validateIndex = z.args.validateIndex from hinv.index]
          exact hj
        have hfl := hinv.flags_child j hj'
        rw [show (call .validate z).flags (validateFamily.child j) = _ from hlock] at hfl
        cases hfl

theorem Calm.validate_moves (h : Calm reply x gaveUp .validate e)
    (hclear : ∀ i, 0 < i → e.operationVector.slot i = none) :
    ∃ e' s', visitAllSync reply 1 e = .ok e' ∧ Calm reply x gaveUp s' e' ∧ s'.Within 3 e' := by
  have hi := h.live.bottom .validate rfl
  have hf := h.parent_finished (p := .validate) rfl hclear
  obtain ⟨⟨o, e₁⟩, hn⟩ : ∃ p, next .validate e = .ok p := by
    simp only [TransactionExecution.next, nextImpl]
    split <;> exact ⟨_, rfl⟩
  rcases h.live.pipe.validate_finished hi hf hn with ⟨rfl, hp⟩ | ⟨y, rfl, hp⟩
  · obtain ⟨hv, hc⟩ := h.bottom_leaves hi hclear hf hn hp rfl
    exact ⟨_, .failing, hv, hc, Nat.le_refl 3⟩
  · obtain rfl : y = .writeToLog := by
      simp only [TransactionExecution.next, nextImpl] at hn
      split at hn <;> cases hn
      rfl
    have hl := h.enter hi hn hp rfl (fun z hz _ => hz.elim) (fun _ => ?_)
    · obtain ⟨e', hv, hc, -⟩ := bottom_continues hi hf hn hl
      exact ⟨e', .log, hv, hc, Nat.le_refl 3⟩
    · let z := e₁.setSlot 0 (some .writeToLog)
      change ((z.setMoveToNext .writeToLog false).writeToLogCallImpl).leafIsFinished .writeToLog =
        true
      rw [writeToLogCallImpl, if_pos (by simp [enableLog_eq])]
      simp [setHandlerResult, leafIsFinished]

theorem Calm.log_moves (h : Calm reply x gaveUp .log e)
    (hclear : ∀ i, 0 < i → e.operationVector.slot i = none) :
    ∃ e' s', visitAllSync reply 1 e = .ok e' ∧ Calm reply x gaveUp s' e' ∧ s'.Within 2 e' := by
  have hi := h.live.bottom .writeToLog rfl
  have hf := h.parent_finished (p := .writeToLog) rfl hclear
  obtain ⟨⟨o, e₁⟩, hn⟩ : ∃ p, next .writeToLog e = .ok p := ⟨_, rfl⟩
  obtain ⟨y, rfl, hp⟩ := h.live.pipe.log_finished hi hn
  obtain rfl : y = .updateTxnStatusToCommit := by
    cases hn
    rfl
  have hl := h.enter hi hn hp rfl (fun z hz _ => ?_) (fun hs => by cases hs)
  · obtain ⟨e', hv, hc, -⟩ := bottom_continues hi hf hn hl
    exact ⟨e', .status, hv, hc, Nat.le_refl 2⟩
  · obtain rfl : z = .updateTxnStatusToCommit := hz
    exact ⟨_, List.mem_append_right _ (List.mem_singleton.mpr rfl)⟩

theorem Calm.told (h : Calm reply x gaveUp s e) (hlaw : ∀ op c, Lawful op c (reply op c))
    (hm : s.member e op) (hf : e.leafIsFinished op = true)
    (hop : op = .updateTxnStatusToCommit ∨ op = .updateTxnStatusToAbort) :
    (e.handlerResult op).isError = false := by
  obtain ⟨c, r, hr, hres⟩ := h.live.pipe.reply op hm hf (by rcases hop with rfl | rfl <;> decide)
  have hok := hlaw op c
  rw [← h.live.answers op c r hr] at hok
  rw [hres]
  rcases hop with rfl | rfl <;> exact hok

theorem Calm.status_moves (h : Calm reply x gaveUp .status e)
    (hlaw : ∀ op c, Lawful op c (reply op c)) (hk : Keyed x) :
    ∃ e' s', visitAllSync reply 1 e = .ok e' ∧ Calm reply x gaveUp s' e' ∧ s'.Within 1 e' := by
  have hi := h.live.bottom .updateTxnStatusToCommit rfl
  have hf : e.isFinished .updateTxnStatusToCommit = true :=
    h.finished_of_slot hi (by simp [Stage.parent])
  have herr := h.told hlaw rfl hf (.inl rfl)
  obtain ⟨⟨o, e₁⟩, hn⟩ : ∃ p, next .updateTxnStatusToCommit e = .ok p :=
    ⟨_, if_neg (Bool.eq_false_iff.mp herr)⟩
  obtain ⟨y, rfl, hp⟩ := h.live.pipe.status_finished hi hf hn
  have hn' := hn
  simp only [TransactionExecution.next, nextImpl] at hn
  split at hn <;> cases hn
  have hl := h.enter hi hn' hp rfl (fun w hw _ => ?_) (fun hs => by cases hs)
  · obtain ⟨e', hv, hc, -⟩ := bottom_continues hi hf hn' hl
    exact ⟨e', .commit, hv, hc, Nat.le_refl 1⟩
  · refine commitFamily.waiting _ (fun j hj => ?_) hw
    have hlt : j < e.keyWriteSet.popIndex := (mem_postProcessIndex.mp hj).1
    obtain ⟨k, hkey⟩ := hk.write j (h.live.pipe.core.sets.writeSize ▸ hlt)
    have hkey' : e.keyWriteSet.key j = some k := (h.live.pipe.core.sets.writeKey j).trans hkey
    exact Option.isSome_iff_exists.mpr ⟨_, Option.map_eq_some_iff.mpr ⟨k, hkey', rfl⟩⟩

theorem Calm.commit_moves (h : Calm reply x gaveUp .commit e)
    (hclear : ∀ i, 0 < i → e.operationVector.slot i = none) :
    ∃ e' s', visitAllSync reply 1 e = .ok e' ∧ Calm reply x gaveUp s' e' ∧ s'.Within 0 e' := by
  have hi := h.live.bottom .postProcessingAfterCommit rfl
  have hf := h.parent_finished (p := .postProcessingAfterCommit) rfl hclear
  obtain ⟨⟨o, e₁⟩, hn⟩ : ∃ p, next .postProcessingAfterCommit e = .ok p := ⟨_, rfl⟩
  obtain ⟨rfl, hp⟩ := h.live.pipe.commit_finished hi hf hn
  obtain ⟨hv, hc⟩ := h.bottom_leaves hi hclear hf hn hp rfl
  exact ⟨_, .committed, hv, hc, trivial⟩

theorem Calm.abort_moves (h : Calm reply x gaveUp .abort e)
    (hlaw : ∀ op c, Lawful op c (reply op c)) (hk : Keyed x) :
    ∃ e' s', visitAllSync reply 1 e = .ok e' ∧ Calm reply x gaveUp s' e' ∧ s'.Within 2 e' := by
  have hi := h.live.bottom .updateTxnStatusToAbort rfl
  have hf : e.isFinished .updateTxnStatusToAbort = true :=
    h.finished_of_slot hi (by simp [Stage.parent])
  have herr := h.told hlaw rfl hf (.inr rfl)
  obtain ⟨⟨o, e₁⟩, hn⟩ : ∃ p, next .updateTxnStatusToAbort e = .ok p :=
    ⟨_, if_neg (Bool.eq_false_iff.mp herr)⟩
  obtain ⟨y, rfl, hp⟩ := h.live.pipe.abort_finished hi hf hn
  have hn' := hn
  simp only [TransactionExecution.next, nextImpl] at hn
  split at hn <;> cases hn
  have hl := h.enter hi hn' hp rfl (fun w hw _ => ?_) (fun hs => by cases hs)
  · obtain ⟨e', hv, hc, -⟩ := bottom_continues hi hf hn' hl
    exact ⟨e', .delete, hv, hc, Nat.le_refl 2⟩
  · refine deleteFamily.waiting _ (fun j hj => ?_) hw
    have hlt : j < e.keyWriteSet.popIndex := (mem_postProcessIndex.mp hj).1
    obtain ⟨k, hkey⟩ := hk.write j (h.live.pipe.core.sets.writeSize ▸ hlt)
    have hkey' : e.keyWriteSet.key j = some k := (h.live.pipe.core.sets.writeKey j).trans hkey
    exact Option.isSome_iff_exists.mpr ⟨_, Option.map_eq_some_iff.mpr ⟨k, hkey', rfl⟩⟩

theorem Calm.delete_moves (h : Calm reply x gaveUp .delete e)
    (hclear : ∀ i, 0 < i → e.operationVector.slot i = none) (hk : Keyed x) :
    ∃ e' s', visitAllSync reply 1 e = .ok e' ∧ Calm reply x gaveUp s' e' ∧ s'.Within 1 e' := by
  have hi := h.live.bottom .postProcessingAfterAbort rfl
  have hf := h.parent_finished (p := .postProcessingAfterAbort) rfl hclear
  obtain ⟨⟨o, e₁⟩, hn⟩ : ∃ p, next .postProcessingAfterAbort e = .ok p := ⟨_, rfl⟩
  obtain ⟨y, rfl, hp⟩ := h.live.pipe.delete_finished hi hf hn
  have hn' := hn
  cases hn
  have hl := h.enter hi hn' hp rfl (fun w hw _ => ?_) (fun hs => by cases hs)
  · obtain ⟨e', hv, hc, -⟩ := bottom_continues hi hf hn' hl
    exact ⟨e', .release, hv, hc, Nat.le_refl 1⟩
  · refine releaseFamily.waiting _ (fun j hj => ?_) hw
    have hlt : j < e.keyReadSet.popIndex := List.mem_range.mp (List.mem_filter.mp hj).1
    obtain ⟨k, hkey⟩ := hk.read j (h.live.pipe.core.sets.readSize ▸ hlt)
    have hkey' : e.keyReadSet.key j = some k := (h.live.pipe.core.sets.readKey j).trans hkey
    exact Option.isSome_iff_exists.mpr ⟨_, Option.map_eq_some_iff.mpr ⟨k, hkey', rfl⟩⟩

theorem Calm.release_moves (h : Calm reply x gaveUp .release e)
    (hclear : ∀ i, 0 < i → e.operationVector.slot i = none) :
    ∃ e' s', visitAllSync reply 1 e = .ok e' ∧ Calm reply x gaveUp s' e' ∧ s'.Within 0 e' := by
  have hi := h.live.bottom .releaseReadCounter rfl
  have hf := h.parent_finished (p := .releaseReadCounter) rfl hclear
  obtain ⟨⟨o, e₁⟩, hn⟩ : ∃ p, next .releaseReadCounter e = .ok p := ⟨_, rfl⟩
  obtain ⟨rfl, hp⟩ := h.live.pipe.release_finished hi hf hn
  obtain ⟨hv, hc⟩ := h.bottom_leaves hi hclear hf hn hp rfl
  exact ⟨_, .aborted, hv, hc, trivial⟩

theorem Calm.visitAll_empty (h : Calm reply x gaveUp s e) (n : ℕ)
    (hclear : ∀ i, 0 < i → e.operationVector.slot i = none) :
    visitAllSync reply (n + 1) e = visitAllSync reply 1 e := by
  induction n with
  | zero => rfl
  | succ n ih =>
    have hv : visitSync reply (n + 1) e = .ok (e, false) := by
      rw [visitSync, show TransactionExecution.visit (n + 1) e = .ok (e, false) by
        unfold TransactionExecution.visit
        rw [hclear (n + 1) (Nat.succ_pos n)]]
      simp only [Except.map, answerAll_of_nil h.pending]
    rw [visitAllSync, hv]
    exact ih

theorem Calm.clear_of_passed {e₀ : TransactionExecution K V S} (h : Calm reply x gaveUp s e)
    (hpass : ∀ i, 0 < i → Passed e₀ e i) :
    (∀ i, 0 < i → e.operationVector.slot i = none) ∨ s = .validate ∧
      (∀ i j, e.operationVector.slot i ≠ some (.updateReadEntryMaxCommitTs j)) ∧
      ∃ i j, e.operationVector.slot i = some (.pushConflictTxnCommitTsLowerBound j) ∧
        e₀.operationVector.slot i = some (.updateReadEntryMaxCommitTs j) := by
  by_cases hclear : ∀ i, 0 < i → e.operationVector.slot i = none
  · exact .inl hclear
  · obtain ⟨i, hi⟩ := not_forall.mp hclear
    obtain ⟨hpos, hne⟩ := Classical.not_imp.mp hi
    obtain ⟨j, hj, hold⟩ := (hpass i hpos).resolve_left hne
    have hs : s = .validate := by
      rcases h.live.pipe.stacked.occupied.held_of_slot hj with hp | ⟨hm, -⟩
      · cases s <;> cases hp
      · have hr := Stage.rank_of_member hm
        cases s <;> simp_all [Stage.rank, Op.rank, Stage.member]
    refine .inr ⟨hs, fun l m hl => ?_, i, j, hj, hold⟩
    subst hs
    rcases Nat.eq_zero_or_pos l with rfl | hlpos
    · rw [h.live.bottom .validate rfl] at hl
      cases hl
    · rcases hpass l hlpos with hn | ⟨m', hm', -⟩
      · rw [hn] at hl
        cases hl
      · rw [hm'] at hl
        cases hl

omit [DecidableEq K] [Services S] in
theorem Stage.Within.mono {n m : ℕ} (h : s.Within n e) (hnm : n ≤ m) : s.Within m e := by
  cases s with
  | validate => exact h.imp (fun h => h.trans hnm) fun h => ⟨h.1.trans hnm, h.2⟩
  | committed | aborted => trivial
  | _ => exact Nat.le_trans h hnm

/-- A loop of `MoveForward` brings the request one stage further. -/
theorem Calm.loop (h : Calm reply x gaveUp s e) (hlaw : ∀ op c, Lawful op c (reply op c))
    (hk : Keyed x) (hb : s.bottom ≠ none) {n : ℕ} (hw : s.Within (n + 1) e) :
    ∃ e' s', visitAllSync reply e.operationVector.length e = .ok e' ∧
      Calm reply x gaveUp s' e' ∧ s'.Within n e' := by
  obtain ⟨p, hbot⟩ := Option.ne_none_iff_exists'.mp hb
  have hlen := Slots.lt_length_of_slot (h.live.bottom p hbot)
  obtain ⟨k, hk'⟩ := Nat.exists_eq_add_of_lt hlen
  rw [Nat.zero_add] at hk'
  have hmoves : ∀ {m : ℕ}, (∃ e' s', visitAllSync reply 1 e = .ok e' ∧
      Calm reply x gaveUp s' e' ∧ s'.Within m e') → m ≤ n →
      (∀ i, 0 < i → e.operationVector.slot i = none) →
      ∃ e' s', visitAllSync reply e.operationVector.length e = .ok e' ∧
        Calm reply x gaveUp s' e' ∧ s'.Within n e' := by
    rintro m ⟨e', s', hv, hc, hw'⟩ hm hclear
    refine ⟨e', s', ?_, hc, hw'.mono hm⟩
    rw [hk', h.visitAll_empty k hclear, hv]
  cases hpar : s.parent with
  | none =>
    have hsingle : (∀ z, s.member e z → s.bottom = some z) →
        ∀ i, 0 < i → e.operationVector.slot i = none := h.single_clear hpar
    cases s with
    | timestamp =>
      have hw : 6 ≤ n + 1 := hw
      exact hmoves (h.timestamp_moves hk) (by omega)
        (hsingle fun z hz => congrArg some (Eq.symm hz))
    | status =>
      have hw : 2 ≤ n + 1 := hw
      exact hmoves (h.status_moves hlaw hk) (by omega)
        (hsingle fun z hz => congrArg some (Eq.symm hz))
    | abort =>
      have hw : 3 ≤ n + 1 := hw
      exact hmoves (h.abort_moves hlaw hk) (by omega)
        (hsingle fun z hz => congrArg some (Eq.symm hz))
    | upload | validate | log | commit | delete | release => cases hpar
    | committed | failing | aborted => exact absurd rfl hb
  | some q =>
    obtain ⟨e', hall, hcalm, -, hpass, hrest⟩ := h.children_pass hlaw hpar k
    rw [hk', hall]
    have hpassed : ∀ i, 0 < i → Passed e e' i := by
      intro i hi
      by_cases hik : i ≤ k
      · exact hpass i hi hik
      · left
        rw [hrest i (by omega), Slots.slot, List.getElem?_eq_none (by omega)]
        rfl
    rcases hcalm.clear_of_passed hpassed with hclear | ⟨rfl, hno, i, j, hij, hold⟩
    · cases s with
      | upload =>
        have hw : 7 ≤ n + 1 := hw
        obtain ⟨e'', s', hv, hc, hw'⟩ := hcalm.upload_moves hclear
        exact ⟨e'', s', hv, hc, hw'.mono (by omega)⟩
      | validate =>
        obtain ⟨e'', s', hv, hc, hw'⟩ := hcalm.validate_moves hclear
        refine ⟨e'', s', hv, hc, hw'.mono ?_⟩
        rcases hw with hw | ⟨hw, -⟩ <;> omega
      | log =>
        have hw : 3 ≤ n + 1 := hw
        obtain ⟨e'', s', hv, hc, hw'⟩ := hcalm.log_moves hclear
        exact ⟨e'', s', hv, hc, hw'.mono (by omega)⟩
      | commit =>
        obtain ⟨e'', s', hv, hc, hw'⟩ := hcalm.commit_moves hclear
        exact ⟨e'', s', hv, hc, hw'.mono (Nat.zero_le n)⟩
      | delete =>
        have hw : 2 ≤ n + 1 := hw
        obtain ⟨e'', s', hv, hc, hw'⟩ := hcalm.delete_moves hclear hk
        exact ⟨e'', s', hv, hc, hw'.mono (by omega)⟩
      | release =>
        obtain ⟨e'', s', hv, hc, hw'⟩ := hcalm.release_moves hclear
        exact ⟨e'', s', hv, hc, hw'.mono (Nat.zero_le n)⟩
      | timestamp | status | abort | committed | failing | aborted => cases hpar
    · -- the validation waits for the pushes that this loop started
      refine ⟨e', .validate, ?_, hcalm, ?_⟩
      · have h0 := hcalm.live.bottom .validate rfl
        have hv : visitSync reply 0 e' = .ok (e', false) := by
          rw [visitSync, show TransactionExecution.visit 0 e' = .ok (e', false) by
            unfold TransactionExecution.visit
            rw [h0]
            dsimp only
            rw [hcalm.validate_waits hij]
            rfl]
          simp only [Except.map, answerAll_of_nil hcalm.pending]
        rw [visitAllSync, hv]
        rfl
      · rcases hw with hw | ⟨-, hw⟩
        · exact .inr ⟨by omega, hno⟩
        · exact absurd hold (hw i j)

theorem Calm.tidy (h : Calm reply x gaveUp s e) {n : ℕ} (hw : s.Within n e) :
    ∃ s', Calm reply x gaveUp s' (TransactionExecution.answerAll reply e.tidy) ∧
      s'.Within n (TransactionExecution.answerAll reply e.tidy) ∧
      (s'.bottom = none → (TransactionExecution.answerAll reply e.tidy).operationVector = [] ∧
        (s' = .committed ∨ s' = .aborted)) := by
  by_cases hs : s = .failing
  · subst hs
    have hp := h.live.pipe.tidy_failing
    have htidy : e.tidy = ({ e with status := .aborted } : TransactionExecution K V S).abort := by
      unfold TransactionExecution.tidy
      rw [if_pos h.live.pipe.facts.1]
    have hslot : e.tidy.operationVector = [some .updateTxnStatusToAbort] := by
      rw [htidy]
      rfl
    have hl : Live reply x gaveUp .abort e.tidy := by
      refine ⟨hp, ?_, (fun hs => by cases hs), ?_, ?_⟩
      · intro i op hi hz
        obtain ⟨hm, -⟩ := (hp.stacked.occupied.held_of_slot hi).resolve_left hz
        obtain rfl : op = .updateTxnStatusToAbort := hm
        rw [htidy]
        exact .inr ⟨_, List.mem_append_right _ (List.mem_singleton.mpr rfl)⟩
      · intro op c r hr
        rw [htidy] at hr
        refine h.live.answers op c r ((List.mem_append.mp hr).resolve_right fun hr => ?_)
        cases List.mem_singleton.mp hr
      · intro p hp
        rw [hslot]
        exact hp
    refine ⟨.abort, hl.answerAll, hw, fun hb => by cases hb⟩
  · have hp := h.live.pipe.tidy_other hs
    have htidy : e.tidy = { e with operationVector := e.operationVector.trim } := by
      unfold TransactionExecution.tidy
      rw [if_neg (h.live.pipe.status_ne_aborting hs)]
    have hpend : e.tidy.pending = [] := by
      rw [htidy]
      exact h.pending
    rw [answerAll_of_nil hpend]
    refine ⟨s, ⟨⟨hp, ?_, ?_, ?_, ?_⟩, hpend⟩, ?_, ?_⟩
    · intro i op hi
      rw [htidy] at hi ⊢
      exact h.live.waiting i op ((Slots.slot_trim _ _).symm.trans hi)
    · rw [htidy]
      exact h.live.log
    · rw [htidy]
      exact h.live.answers
    · intro p hb
      rw [htidy]
      exact (Slots.slot_trim _ _).trans (h.live.bottom p hb)
    · cases s with
      | validate =>
        refine hw.imp id fun hw => ⟨hw.1, fun i j hi => hw.2 i j ?_⟩
        rw [htidy] at hi
        exact (Slots.slot_trim _ _).symm.trans hi
      | _ => exact hw
    · intro hb
      have hdone : s = .committed ∨ s = .aborted := by
        cases s <;> simp_all [Stage.bottom]
      refine ⟨?_, hdone⟩
      rw [htidy]
      apply h.live.pipe.stacked.occupied.trim_eq_nil
      rcases hdone with rfl | rfl
      · rintro z (hz | ⟨hz, -⟩)
        · cases hz
        · exact hz
      · rintro z (hz | ⟨hz, -⟩)
        · cases hz
        · exact hz

theorem Calm.passes (h : Calm reply x gaveUp s e) (hlaw : ∀ op c, Lawful op c (reply op c))
    (hk : Keyed x) {n : ℕ} (hb : s.bottom ≠ none) (hw : s.Within n e) :
    ∃ m ≤ n, ∃ e', passes reply m e = .ok e' ∧ e'.operationVector = [] ∧
      ∃ s', (s' = .committed ∨ s' = .aborted) ∧ Pipe x gaveUp s' e' := by
  induction n generalizing s e with
  | zero =>
    cases s with
    | committed | aborted | failing => exact absurd rfl hb
    | validate => rcases hw with hw | ⟨hw, -⟩ <;> omega
    | _ => exact absurd hw (by simp [Stage.Within])
  | succ n ih =>
    obtain ⟨p, hbot⟩ := Option.ne_none_iff_exists'.mp hb
    have hne : e.operationVector ≠ [] := by
      intro hnil
      have := Slots.lt_length_of_slot (h.live.bottom p hbot)
      rw [hnil] at this
      cases this
    obtain ⟨e₁, s₁, hv, hc₁, hw₁⟩ := h.loop hlaw hk hb hw
    obtain ⟨s₂, hc₂, hw₂, hend⟩ := hc₁.tidy hw₁
    have hmove : moveForwardSync reply e = .ok (TransactionExecution.answerAll reply e₁.tidy) := by
      rw [moveForwardSync, if_neg hne, hv]
      rfl
    by_cases hb₂ : s₂.bottom = none
    · obtain ⟨hnil, hdone⟩ := hend hb₂
      refine ⟨1, by omega, _, ?_, hnil, s₂, hdone, hc₂.live.pipe⟩
      rw [TransactionExecution.passes, hmove]
      rfl
    · obtain ⟨m, hm, e', hp, hnil, hdone⟩ := ih hc₂ hb₂ hw₂
      refine ⟨m + 1, by omega, e', ?_, hnil, hdone⟩
      rw [TransactionExecution.passes, hmove]
      exact hp

end TransactionExecution

end Fugue
