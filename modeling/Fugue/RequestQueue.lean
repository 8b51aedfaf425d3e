import Fugue.ExecutorSteps
import Fugue.LocalServices

namespace Fugue

open TransactionExecutor RuntimeTransactionExecutor

variable {K V S : Type}

namespace ExecutorRun

variable [DecidableEq K] [Services S]

structure Kept (n : ℕ) (s : ExecutorRun K V S) : Prop where
  tasks : ∀ t ∈ s.activeTxn, TaskOk t
  size : s.activeTxn.length = n
  order : s.added = s.pushed.map Push.request ++ s.waiting
  active : s.activeTxnNumber = s.activeTxn.countP (·.inUse)

inductive Launched (s s' : ExecutorRun K V S) : Prop
  | idle (hw : s.waiting = []) (hs : s' = s)
  | parked (r : SessionRequest K) (hr : r.operation.isBegin = true)
      (hw : s.waiting = r :: s'.requestQueuePool) (hc : s'.currentRequest = some r)
      (hn : (s.concurrentTxnCount : ℤ) ≤ s.activeTxnNumber)
      (hx : s'.toTransactionExecutor = s.toTransactionExecutor) (ha : s'.added = s.added)
      (hp : s'.pushed = s.pushed)
  | started (r : SessionRequest K) (i : ℕ) (t : TransactionTask K V S)
      (hr : r.operation.isBegin = true) (hw : s.waiting = r :: s'.requestQueuePool)
      (hc : s'.currentRequest = none) (ht : s.task i = some t) (hu : t.inUse = false)
      (hfirst : ∀ j u, j < i → s.activeTxn[j]? = some u → u.inUse = true)
      (hx : s'.activeTxn = s.activeTxn.set i ((t.reset r.sessionId).push r))
      (hn : s'.activeTxnNumber = s.activeTxnNumber + 1) (ha : s'.added = s.added)
      (hp : s'.pushed = s.pushed ++ [⟨r, i, true⟩])
  | routed (r : SessionRequest K) (i : ℕ) (t : TransactionTask K V S)
      (hr : r.operation.isBegin = false) (hw : s.waiting = r :: s'.requestQueuePool)
      (hc : s'.currentRequest = none) (ht : s.task i = some t) (hid : t.sessionId = r.sessionId)
      (hfirst : ∀ j u, j < i → s.activeTxn[j]? = some u → u.sessionId ≠ r.sessionId)
      (hx : s'.activeTxn = s.activeTxn.set i (t.push r))
      (hn : s'.activeTxnNumber = s.activeTxnNumber) (ha : s'.added = s.added)
      (hp : s'.pushed = s.pushed ++ [⟨r, i, t.inUse⟩])

omit [DecidableEq K] [Services S] in
theorem record_pushed {s : ExecutorRun K V S} {x : TransactionExecutor K V S} {i : ℕ}
    {t : TransactionTask K V S} (t' : TransactionTask K V S) (ht : x.task i = some t)
    (hs : s.activeTxn = x.activeTxn.set i t') (r : SessionRequest K) :
    (s.record r i).pushed = s.pushed ++ [⟨r, i, t'.inUse⟩] := by
  obtain ⟨u, hu, -⟩ := task_eq_some.mp ht
  have hlt := (List.getElem?_eq_some_iff.mp hu).1
  simp [record, task, hs, hlt]

theorem launch_launched {s s' : ExecutorRun K V S} (h : step s .launch = some s') :
    Launched s s' := by
  simp only [step] at h
  cases hl : RuntimeTransactionExecutor.launch s.toRuntimeTransactionExecutor with
  | error m =>
    rw [hl] at h
    cases h
  | ok q =>
    obtain ⟨x, p⟩ := q
    rw [hl] at h
    rcases launch_cases hl with ⟨hf, rfl, rfl⟩ | ⟨r, y, hf, hcase⟩
    · cases h
      exact .idle (fetch_eq_none hf) rfl
    · obtain ⟨hcur, hw, hy⟩ := fetch_cases hf
      rcases hcase with ⟨hb, hn, rfl, rfl⟩ | ⟨hb, hn, i, t, hs, rfl, rfl⟩ | ⟨hb, i, t, hs, rfl, rfl⟩
      · cases h
        refine .parked r hb hw hcur ?_ hy rfl rfl
        rwa [hy] at hn
      · cases h
        rw [hy] at hs
        obtain ⟨ht, hu, -, hfirst⟩ := search_eq_some (fun _ _ _ => rfl) hs
        refine .started r i t hb hw rfl ht (by simpa using hu) (fun j u hj hu => ?_)
          (by simp [record, pushRequest, setTask, hy]) (by simp [record, hy]) rfl ?_
        · simpa using hfirst j u (Nat.zero_le j) hj hu
        · exact record_pushed ((t.reset r.sessionId).push r) ht (by simp [pushRequest, setTask, hy]) r
      · cases h
        rw [hy] at hs
        obtain ⟨ht, hu, -, hfirst⟩ := search_eq_some (fun _ _ _ => rfl) hs
        refine .routed r i t hb hw rfl ht (by simpa using hu) (fun j u hj hu => ?_)
          (by simp [record, pushRequest, setTask, hy]) (by simp [record, pushRequest, setTask, hy])
          rfl ?_
        · simpa using hfirst j u (Nat.zero_le j) hj hu
        · exact record_pushed (t.push r) ht (by simp [pushRequest, setTask, hy]) r

namespace Kept

variable {n : ℕ} {s s' : ExecutorRun K V S}

theorem init (n : ℕ) (services : S) (memory : Addr → V) (key : SetKey K) :
    Kept n (ExecutorRun.init n services memory key) where
  tasks t ht := by
    obtain rfl := List.eq_of_mem_replicate ht
    exact .init services memory key
  size := List.length_replicate
  order := rfl
  active := by
    simp only [ExecutorRun.init, RuntimeTransactionExecutor.init, TransactionExecutor.init]
    rw [List.countP_replicate]
    simp [TransactionTask.init]

theorem tasks_set (h : Kept n s) {i : ℕ} {t' : TransactionTask K V S} (ht : TaskOk t')
    (hx : s'.activeTxn = s.activeTxn.set i t') : ∀ t ∈ s'.activeTxn, TaskOk t := by
  intro t hm
  rw [hx] at hm
  rcases List.mem_or_eq_of_mem_set hm with hm | rfl
  · exact h.tasks t hm
  · exact ht

theorem task (h : Kept n s) {i : ℕ} {t : TransactionTask K V S} (ht : s.task i = some t) :
    TaskOk t := by
  obtain ⟨u, hu, rfl⟩ := task_eq_some.mp ht
  exact (h.tasks u (List.mem_of_getElem? hu)).share _ _

theorem launched (h : Kept n s) (hl : Launched s s') : Kept n s' := by
  cases hl with
  | idle hw hs => rwa [hs]
  | parked r hr hw hc hn hx ha hp =>
    refine ⟨hx ▸ h.tasks, hx ▸ h.size, ?_, hx ▸ h.active⟩
    rw [ha, hp, h.order, hw, waiting, hc, Option.toList_some, List.singleton_append]
  | started r i t hr hw hc ht hu hfirst hx hn ha hp =>
    have hok := h.task ht
    obtain ⟨u, hui, rfl⟩ := task_eq_some.mp ht
    refine ⟨h.tasks_set ((hok.reset hu r.sessionId).push r) hx, ?_, ?_, ?_⟩
    · rw [hx, List.length_set, h.size]
    · rw [ha, hp, h.order, hw, waiting, hc]
      simp
    · rw [hx, countP_set_inUse hui, hn, h.active]
      simp only [TransactionTask.push, TransactionTask.reset, if_true]
      rw [if_neg (by simpa using hu)]
      omega
  | routed r i t hr hw hc ht hid hfirst hx hn ha hp =>
    have hok := h.task ht
    obtain ⟨u, hui, rfl⟩ := task_eq_some.mp ht
    refine ⟨h.tasks_set (hok.push r) hx, ?_, ?_, ?_⟩
    · rw [hx, List.length_set, h.size]
    · rw [ha, hp, h.order, hw, waiting, hc]
      simp
    · rw [hx, countP_set_inUse hui, hn, h.active]
      exact (Int.sub_add_cancel _ _).symm

theorem step (h : Kept n s) {a : ExecutorAction K V S} (hs : step s a = some s') : Kept n s' := by
  cases a with
  | addRequest r =>
    cases hs
    refine ⟨h.tasks, h.size, ?_, h.active⟩
    change s.added ++ [r] = s.pushed.map Push.request ++ (s.currentRequest.toList ++
      (s.requestQueuePool ++ [r]))
    rw [h.order, waiting]
    simp
  | launch => exact h.launched (launch_launched hs)
  | slot a =>
    obtain ⟨x, hx, rfl⟩ := Option.map_eq_some_iff.mp hs
    rcases step_cases RuntimeTransactionExecutor.dispatches h.tasks hx with ⟨ht, hn, -⟩ |
      ⟨i, t, t', hc⟩
    · exact ⟨ht ▸ h.tasks, ht ▸ h.size, h.order, by
        change x.activeTxnNumber = x.activeTxn.countP (·.inUse)
        rw [hn, ht, h.active]⟩
    · refine ⟨h.tasks_set hc.ok hc.new, ?_, h.order, ?_⟩
      · change x.activeTxn.length = n
        rw [hc.new, List.length_set, h.size]
      · change x.activeTxnNumber = x.activeTxn.countP (·.inUse)
        rw [hc.new, countP_set_inUse hc.old]
        by_cases hd : s.Releases a
        · obtain ⟨hu, -, hu', hn⟩ := hc.leaves hd
          rw [hn, hu, hu', h.active]
          simp
        · obtain ⟨hu, hn⟩ := hc.stays hd
          rw [hn, hu, h.active]
          omega

theorem active_nonneg (h : Kept n s) : 0 ≤ s.activeTxnNumber := by
  rw [h.active]
  omega

end Kept

/-- `Run` returns in this state, or `IsFinished` answers true. -/
def Stops (s : ExecutorRun K V S) : Prop := s.goesOn = false ∨ s.isFinished = true

def NoneLost (s : ExecutorRun K V S) : Prop :=
  Stops s → s.pushed.map Push.request = s.added ∧ s.currentRequest = none

/-- A `Begin` is not parked behind an empty queue when no slot is in use: neither because there
are no slots at all, nor because the last slot in use is released. -/
def Keeps (s : ExecutorRun K V S) : ExecutorAction K V S → Prop
  | .addRequest _ => True
  | .launch => ∀ r y, s.fetch = some (r, y) → r.operation.isBegin = true →
      s.concurrentTxnCount = 0 → y.requestQueuePool ≠ []
  | .slot a => s.Releases a → s.activeTxnNumber = 1 → s.requestQueuePool = [] →
      s.currentRequest = none

section

variable {n : ℕ} {s s' : ExecutorRun K V S}

omit [DecidableEq K] [Services S] in
theorem stops_iff : Stops s ↔ s.requestQueuePool = [] ∧ s.activeTxnNumber ≤ 0 := by
  simp only [Stops, goesOn, RuntimeTransactionExecutor.isFinished, Bool.or_eq_false_iff,
    Bool.and_eq_true, Bool.not_eq_false', List.isEmpty_iff, decide_eq_false_iff_not,
    decide_eq_true_eq]
  constructor
  · rintro (⟨hq, hn⟩ | ⟨hq, hn⟩) <;> exact ⟨hq, by omega⟩
  · exact fun ⟨hq, hn⟩ => .inl ⟨hq, by omega⟩

theorem noneLost_iff (h : Kept n s) : NoneLost s ↔
    (s.requestQueuePool = [] → s.activeTxnNumber ≤ 0 → s.currentRequest = none) := by
  rw [NoneLost, stops_iff]
  constructor
  · exact fun hl hq hn => (hl ⟨hq, hn⟩).2
  · rintro hl ⟨hq, hn⟩
    have hc := hl hq hn
    refine ⟨?_, hc⟩
    rw [h.order, waiting, hc, hq]
    simp

theorem noneLost_step (h : Kept n s) (hl : NoneLost s) {a : ExecutorAction K V S}
    (hs : step s a = some s') : NoneLost s' ↔ Keeps s a := by
  rw [noneLost_iff (h.step hs)]
  rw [noneLost_iff h] at hl
  have hpos := h.active_nonneg
  cases a with
  | addRequest r =>
    cases hs
    refine iff_of_true (fun hq => ?_) trivial
    simp [RuntimeTransactionExecutor.addRequest] at hq
  | launch =>
    have hlaunch := launch_launched hs
    have hfetch : ∀ r y, s.fetch = some (r, y) → s.waiting = r :: y.requestQueuePool :=
      fun r y hf => (fetch_cases hf).2.1
    cases hlaunch with
    | idle hw hs' =>
      subst hs'
      refine iff_of_true hl fun r y hf => ?_
      rw [hfetch r y hf] at hw
      cases hw
    | parked r hr hw hc hn hx ha hp =>
      have hnum : s'.activeTxnNumber = s.activeTxnNumber := by rw [hx]
      constructor
      · intro hk q y hf hb hz hq
        have hcons := (hfetch q y hf).symm.trans hw
        rw [hq] at hcons
        have hq' : s'.requestQueuePool = [] := (List.cons.inj hcons).2.symm
        have hzero : s.activeTxnNumber ≤ 0 := by
          rw [h.active]
          have := List.countP_le_length (p := fun t : TransactionTask K V S => t.inUse)
            (l := s.activeTxn)
          rw [concurrentTxnCount] at hz
          omega
        rw [hk hq' (hnum ▸ hzero)] at hc
        cases hc
      · intro hk hq hn'
        exfalso
        have hz : s.concurrentTxnCount = 0 := by omega
        cases hf : s.fetch with
        | none =>
          have := fetch_eq_none hf
          rw [hw] at this
          cases this
        | some p =>
          obtain ⟨q, y⟩ := p
          have hcons := (hfetch q y hf).symm.trans hw
          obtain ⟨rfl, hy⟩ := List.cons.inj hcons
          exact hk q y hf hr hz (hy.trans hq)
    | started r i t hr hw hc ht hu hfirst hx hn ha hp =>
      refine iff_of_true (fun _ _ => hc) fun q y hf hb hz => ?_
      obtain ⟨u, hui, -⟩ := task_eq_some.mp ht
      have := (List.getElem?_eq_some_iff.mp hui).1
      rw [concurrentTxnCount] at hz
      omega
    | routed r i t hr hw hc ht hid hfirst hx hn ha hp =>
      refine iff_of_true (fun _ _ => hc) fun q y hf hb hz => ?_
      obtain ⟨u, hui, -⟩ := task_eq_some.mp ht
      have := (List.getElem?_eq_some_iff.mp hui).1
      rw [concurrentTxnCount] at hz
      omega
  | slot a =>
    obtain ⟨x, hx, rfl⟩ := Option.map_eq_some_iff.mp hs
    change (s.requestQueuePool = [] → x.activeTxnNumber ≤ 0 → s.currentRequest = none) ↔ _
    by_cases hd : s.Releases a
    · have hnum : x.activeTxnNumber = s.activeTxnNumber - 1 := by
        rcases step_cases RuntimeTransactionExecutor.dispatches h.tasks hx with ⟨-, -, hno⟩ |
          ⟨i, t, t', hc⟩
        · exact absurd hd hno
        · exact (hc.leaves hd).2.2.2
      constructor
      · intro hk _ hone hq
        exact hk hq (by omega)
      · intro hk hq hn
        by_cases hone : s.activeTxnNumber = 1
        · exact hk hd hone hq
        · exact hl hq (by omega)
    · have hnum : x.activeTxnNumber = s.activeTxnNumber := by
        rcases step_cases RuntimeTransactionExecutor.dispatches h.tasks hx with ⟨-, hn, -⟩ |
          ⟨i, t, t', hc⟩
        · exact hn
        · exact (hc.stays hd).2
      rw [hnum]
      exact iff_of_true hl fun hr => absurd hr hd

end

/-- An executor that stops has lost no request, in any state of a run, if and only if no step of
the run leaves a parked request behind an empty queue and no slot in use. -/
theorem no_request_lost {n : ℕ} {services : S} {memory : Addr → V} {key : SetKey K}
    {as : List (ExecutorAction K V S)} {s : ExecutorRun K V S}
    (hr : run step (init n services memory key) as = some s) :
    (∀ pre post t, as = pre ++ post → run step (init n services memory key) pre = some t →
      Stops t → t.pushed.map Push.request = t.added ∧ t.currentRequest = none) ↔
    Along step Keeps (init n services memory key) as := by
  have hinit : Kept n (init n services memory key) ∧ NoneLost (init n services memory key) := by
    have hk : Kept n (init n services memory key) := .init n services memory key
    exact ⟨hk, (noneLost_iff hk).mpr fun _ _ => rfl⟩
  have hiff : Along step Keeps (init n services memory key) as ↔
      ∀ pre post t, as = pre ++ post → run step (init n services memory key) pre = some t →
        Kept n t ∧ NoneLost t := along_iff
    (fun t a t' hi hs => ⟨fun hi' => (noneLost_step hi.1 hi.2 hs).mp hi'.2,
      fun hk => ⟨hi.1.step hs, (noneLost_step hi.1 hi.2 hs).mpr hk⟩⟩) hinit hr
  rw [hiff]
  refine forall_congr' fun pre => forall_congr' fun post => forall_congr' fun t =>
    forall_congr' fun _ => forall_congr' fun ht => ?_
  have hkept : Kept n t := run_invariant (I := fun u => Kept n u)
    (fun _ _ _ hi hs => hi.step hs) hinit.1 ht
  exact ⟨fun hl => ⟨hkept, hl⟩, fun hl => hl.2⟩

def lostRequest : List (ExecutorAction ℕ ℕ LocalServices) :=
  [.addRequest ⟨1, .begin⟩, .addRequest ⟨1, .abort⟩, .addRequest ⟨2, .begin⟩, .launch, .launch,
    .launch, .slot (.serve 0), .slot (.answer 0 .initTxn ⟨false, (), []⟩), .launch,
    .slot (.visit 0 0), .slot (.serve 0),
    .slot (.answer 0 .updateTxnStatusToAbort ⟨false, (), []⟩), .launch, .slot (.visit 0 0),
    .slot (.serve 0), .launch, .slot (.visit 0 0), .slot (.serve 0), .launch, .slot (.visit 0 0),
    .slot (.serve 0)]

def sampleRun (n : ℕ) : ExecutorRun ℕ ℕ LocalServices :=
  .init n ⟨.ofBase 0 100, .ofClock fun _ => 5⟩ (fun _ => 0) ⟨"t", 0⟩

theorem lostRequest_run : ∃ s, run step (sampleRun 1) lostRequest = some s ∧ Stops s ∧
    s.added = [⟨1, .begin⟩, ⟨1, .abort⟩, ⟨2, .begin⟩] ∧
    s.pushed.map Push.request = [⟨1, .begin⟩, ⟨1, .abort⟩] ∧
    s.currentRequest = some ⟨2, .begin⟩ := by
  have h : (run step (sampleRun 1) lostRequest).map (fun s => (s.goesOn, s.added,
      s.pushed.map Push.request, s.currentRequest)) = some (false,
        [⟨1, .begin⟩, ⟨1, .abort⟩, ⟨2, .begin⟩], [⟨1, .begin⟩, ⟨1, .abort⟩], some ⟨2, .begin⟩) := by
    decide +kernel
  obtain ⟨s, hr, hs⟩ := Option.map_eq_some_iff.mp h
  obtain ⟨hg, hs⟩ := Prod.mk.inj hs
  obtain ⟨ha, hs⟩ := Prod.mk.inj hs
  obtain ⟨hp, hc⟩ := Prod.mk.inj hs
  exact ⟨s, hr, .inl hg, ha, hp, hc⟩

theorem begin_lost : ∃ s, run step (sampleRun 1) lostRequest = some s ∧ Stops s ∧
    s.pushed.map Push.request ≠ s.added ∧ s.currentRequest = some ⟨2, .begin⟩ := by
  obtain ⟨s, hr, hs, ha, hp, hc⟩ := lostRequest_run
  exact ⟨s, hr, hs, by simp [ha, hp], hc⟩

theorem no_request_lost_sample : ∃ s, run step (sampleRun 1) lostRequest = some s ∧
    ¬ Along step Keeps (sampleRun 1) lostRequest := by
  obtain ⟨s, hr, hs, -, -, hc⟩ := lostRequest_run
  refine ⟨s, hr, fun hk => ?_⟩
  have := ((no_request_lost hr).mpr hk lostRequest [] s (by simp) hr hs).2
  rw [hc] at this
  cases this

section

variable [Handler K V S]

omit [Handler K V S] in
theorem launchRequests_run {x y : RuntimeTransactionExecutor K V S}
    (h : x.launchRequests = .ok y) (added : List (SessionRequest K)) (pushed : List (Push K)) :
    ∃ as pushed', run step ⟨x, added, pushed⟩ as = some ⟨y, added, pushed'⟩ := by
  fun_induction launchRequests x generalizing pushed with
  | case1 x m hl => cases h
  | case2 x z hl =>
    cases h
    exact ⟨[.launch], pushed, run_cons.mpr ⟨_, by simp [step, hl], rfl⟩⟩
  | case3 x z p hl ih =>
    obtain ⟨as, pushed', hr⟩ := ih h (record ⟨z, added, pushed⟩ p.1 p.2).pushed
    exact ⟨.launch :: as, pushed', run_cons.mpr ⟨_, by simp only [step, hl]; rfl, hr⟩⟩

omit [Handler K V S] in
theorem slots_run {x y : TransactionExecutor K V S} {as : List (SlotAction V S)}
    (h : run (TransactionExecutor.step handle) x as = some y) {s : ExecutorRun K V S}
    (hs : s.toTransactionExecutor = x) :
    run step s (as.map .slot) = some { s with toTransactionExecutor := y } := by
  induction as generalizing x s with
  | nil =>
    obtain rfl := Option.some.inj h
    subst hs
    rfl
  | cons a as ih =>
    obtain ⟨z, hz, hr⟩ := run_cons.mp h
    subst hs
    refine run_cons.mpr ⟨{ s with toTransactionExecutor := z }, ?_, ih hr rfl⟩
    simp only [step, hz, Option.map_some]

theorem runFor_returned {m : ℕ} {x y : RuntimeTransactionExecutor K V S}
    (h : x.runFor m = .returned y) : y.goesOn = false := by
  induction m generalizing x with
  | zero =>
    rw [runFor] at h
    split at h
    · split at h <;> cases h
    · next hg =>
      cases h
      simpa using hg
  | succ m ih =>
    rw [runFor] at h
    split at h
    · split at h
      · cases h
      · dsimp only at h
        split at h
        · cases h
        · exact ih h
    · next hg =>
      cases h
      simpa using hg

/-- A call of `Run` takes steps of the executor until it returns. -/
theorem runFor_run {n : ℕ} {x y : RuntimeTransactionExecutor K V S}
    (h : x.runFor n = .returned y ∨ x.runFor n = .running y) (added : List (SessionRequest K))
    (pushed : List (Push K)) :
    ∃ as pushed', run step ⟨x, added, pushed⟩ as = some ⟨y, added, pushed'⟩ := by
  induction n generalizing x pushed with
  | zero =>
    unfold runFor at h
    split at h
    · split at h
      · simp at h
      · next z hz =>
        obtain rfl : z = y := by simpa using h
        exact launchRequests_run hz added pushed
    · obtain rfl : x = y := by simpa using h
      exact ⟨[], pushed, rfl⟩
  | succ n ih =>
    unfold runFor at h
    split at h
    · split at h
      · simp at h
      · next z hz =>
        obtain ⟨as, pushed', hr⟩ := launchRequests_run hz added pushed
        unfold advance at h
        cases hw : z.advanceAll handle with
        | error m =>
          rw [hw] at h
          simp [Except.map] at h
        | ok w =>
          simp only [hw, Except.map] at h
          obtain ⟨bs, hb⟩ := advanceAll_run (b := w.2) hw
          have hg : Goes handle w.1 _ := .deliverAll w.1 (Handler.sendBatch w.1.services)
          obtain ⟨cs, hc, -⟩ := hg
          obtain ⟨ds, pushed'', hd⟩ := ih h pushed'
          refine ⟨as ++ ((bs ++ cs).map .slot ++ ds), pushed'', run_append.mpr ⟨_, hr, ?_⟩⟩
          exact run_append.mpr ⟨_, slots_run (run_append.mpr ⟨w.1, hb, hc⟩) rfl, hd⟩
    · obtain rfl : x = y := by simpa using h
      exact ⟨[], pushed, rfl⟩

end

end ExecutorRun

end Fugue
