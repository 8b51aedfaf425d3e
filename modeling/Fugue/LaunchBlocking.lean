import Fugue.CountedTransactions
import Fugue.RequestRouting

namespace Fugue

open TransactionExecutor RuntimeTransactionExecutor

variable {K V S : Type}

namespace ExecutorRun

variable [DecidableEq K] [Services S] {n : ℕ} {s s' : ExecutorRun K V S}
  {pre post : List (SessionRequest K)} {r : SessionRequest K}

/-- Only requests of `pre` were pushed, none of which ends a transaction, and none has ended. -/
structure Blocked (n : ℕ) (pre : List (SessionRequest K)) (s : ExecutorRun K V S) : Prop where
  kept : Kept n s
  pushed : s.pushed.map Push.request <+: pre
  queues : ∀ t ∈ s.activeTxn, ∀ r ∈ t.request.operationRequestQueue, r.operation.isEnd = false
  begun : s.activeTxnNumber = (s.pushed.map Push.request).countP (·.operation.isBegin)
  commits : s.commitCount = 0
  aborts : s.abortCount = 0

omit [DecidableEq K] [Services S] in
theorem not_next {l : List (SessionRequest K)} {q : SessionRequest K} (hl : l <+: pre)
    (hq : l ++ [q] <+: pre ++ r :: post) (hr : l = pre → q ≠ r) : l ++ [q] <+: pre := by
  rcases Nat.lt_or_ge l.length pre.length with hlt | hge
  · apply List.prefix_of_prefix_length_le hq (List.prefix_append _ _)
    rw [List.length_append, List.length_singleton]
    omega
  · obtain rfl := hl.eq_of_length (Nat.le_antisymm hl.length_le hge)
    rw [List.prefix_append_right_inj] at hq
    exact absurd (List.cons_prefix_cons.mp hq).1 (hr rfl)

namespace Blocked

theorem full (h : Blocked n pre s) (hn : pre.countP (·.operation.isBegin) = n)
    (hp : s.pushed.map Push.request = pre) : ∀ t ∈ s.activeTxn, t.inUse = true := by
  have hcount := h.kept.active.symm.trans h.begun
  rw [hp, hn, ← h.kept.size] at hcount
  exact List.countP_eq_length.mp (by exact_mod_cast hcount)

theorem launched (h : Blocked n pre s) (hn : pre.countP (·.operation.isBegin) = n)
    (he : ∀ q ∈ pre, q.operation.isEnd = false) (hr : r.operation.isBegin = true)
    (hs : step s .launch = some s') (ha : s'.added <+: pre ++ r :: post) : Blocked n pre s' := by
  have hkept := h.kept.step hs
  obtain ⟨hcommit, habort⟩ := launch_counters hs
  have hprefix : s'.pushed.map Push.request <+: pre ++ r :: post := by
    rw [hkept.order] at ha
    exact (List.prefix_append _ _).trans ha
  cases launch_launched hs with
  | idle hw hs' =>
    subst hs'
    exact h
  | parked q hq hw hc hfull hx ha hp =>
    refine ⟨hkept, ?_, ?_, ?_, hcommit.trans h.commits, habort.trans h.aborts⟩
    · rw [hp]
      exact h.pushed
    · rw [hx]
      exact h.queues
    · rw [hx, hp]
      exact h.begun
  | started q i t hq hw hc ht hu hfirst hx hnum ha hp =>
    rw [hp, List.map_append, List.map_singleton] at hprefix
    have hpushed : s.pushed.map Push.request ++ [q] <+: pre := by
      apply not_next h.pushed hprefix
      intro hall
      obtain ⟨u, hi, rfl⟩ := task_eq_some.mp ht
      have hin := h.full hn hall u (List.mem_of_getElem? hi)
      rw [show u.inUse = false from hu] at hin
      cases hin
    refine ⟨hkept, ?_, fun u hmem => ?_, ?_, hcommit.trans h.commits, habort.trans h.aborts⟩
    · rwa [hp, List.map_append, List.map_singleton]
    · rw [hx] at hmem
      rcases List.mem_or_eq_of_mem_set hmem with hmem | rfl
      · exact h.queues u hmem
      · intro p hp'
        obtain rfl := List.mem_singleton.mp hp'
        exact he p (hpushed.subset (List.mem_append_right _ (List.mem_singleton_self p)))
    · rw [hnum, hp, List.map_append, List.countP_append, h.begun]
      simp [hq]
  | routed q i t hq hw hc ht hid hfirst hx hnum ha hp =>
    rw [hp, List.map_append, List.map_singleton] at hprefix
    have hpushed : s.pushed.map Push.request ++ [q] <+: pre := by
      apply not_next h.pushed hprefix
      rintro - rfl
      rw [hr] at hq
      cases hq
    obtain ⟨w, hi, rfl⟩ := task_eq_some.mp ht
    refine ⟨hkept, ?_, fun u hmem => ?_, ?_, hcommit.trans h.commits, habort.trans h.aborts⟩
    · rwa [hp, List.map_append, List.map_singleton]
    · rw [hx] at hmem
      rcases List.mem_or_eq_of_mem_set hmem with hmem | rfl
      · exact h.queues u hmem
      · intro p hp'
        rcases List.mem_append.mp hp' with hold | hnew
        · exact h.queues w (List.mem_of_getElem? hi) p hold
        · obtain rfl := List.mem_singleton.mp hnew
          exact he p (hpushed.subset (List.mem_append_right _ (List.mem_singleton_self p)))
    · rw [hnum, hp, List.map_append, List.countP_append, h.begun]
      simp [hq]

theorem unended (h : Blocked n pre s) {i : ℕ} {t : TransactionTask K V S} {status : TxnStatus}
    (ht : s.activeTxn[i]? = some t) : t.standing ≠ some (some status) := by
  have hmem := List.mem_of_getElem? ht
  cases hu : t.inUse with
  | false =>
    rw [TransactionTask.standing_idle hu]
    simp
  | true =>
    have hf := (h.kept.tasks t hmem).unfinished hu (h.queues t hmem)
    rw [TransactionTask.standing_unfinished hu hf]
    simp

theorem slot (h : Blocked n pre s) {a : SlotAction V S} (hs : step s (.slot a) = some s') :
    Blocked n pre s' := by
  have hkept := h.kept.step hs
  obtain ⟨x, hx, rfl⟩ := Option.map_eq_some_iff.mp hs
  have hqueues : ∀ t ∈ x.activeTxn, ∀ q ∈ t.request.operationRequestQueue,
      q.operation.isEnd = false := by
    rcases step_cases RuntimeTransactionExecutor.dispatches h.kept.tasks hx with ⟨ht, -⟩ |
      ⟨i, t, t', hc⟩
    · rw [ht]
      exact h.queues
    · intro u hu
      rw [hc.new] at hu
      rcases List.mem_or_eq_of_mem_set hu with hu | rfl
      · exact h.queues u hu
      · rw [hc.queue]
        exact h.queues t (List.mem_of_getElem? hc.old)
  have hsame : SameCounters s.toTransactionExecutor x := by
    cases step_slot RuntimeTransactionExecutor.dispatches h.kept.tasks hx with
    | services ha ht hc => exact hc
    | stays i t t' hi ht hok hst ha hc => exact hc
    | ends i j t t' status hi ht hok ha hst hst' hc => exact hc
    | leaves i t t' status hi ht hok ha hst => exact absurd hst (h.unended hi)
  obtain ⟨hnum, hcommit, habort⟩ := hsame
  exact ⟨hkept, h.pushed, hqueues, hnum.trans h.begun, hcommit.trans h.commits,
    habort.trans h.aborts⟩

theorem init (n : ℕ) (services : S) (memory : Addr → V) (key : SetKey K) :
    Blocked n pre (ExecutorRun.init n services memory key) := by
  refine ⟨.init n services memory key, List.nil_prefix, fun t ht q hq => ?_, rfl, rfl, rfl⟩
  obtain rfl := List.eq_of_mem_replicate ht
  cases hq

end Blocked

theorem Blocked.run {services : S} {memory : Addr → V} {key : SetKey K}
    (hn : pre.countP (·.operation.isBegin) = n) (he : ∀ q ∈ pre, q.operation.isEnd = false)
    (hr : r.operation.isBegin = true) {as : List (ExecutorAction K V S)}
    (hs : run step (ExecutorRun.init n services memory key) as = some s)
    (ha : s.added <+: pre ++ r :: post) : Blocked n pre s := by
  induction as using List.reverseRecOn generalizing s with
  | nil =>
    obtain rfl := Option.some.inj hs
    exact .init n services memory key
  | append_singleton as a ih =>
    obtain ⟨t, ht, hstep⟩ := run_concat.mp hs
    obtain ⟨l, hl⟩ := step_added hstep
    have hb := ih ht ((hl ▸ List.prefix_append _ _ : t.added <+: s.added).trans ha)
    cases a with
    | addRequest q =>
      have hkept := hb.kept.step hstep
      cases hstep
      exact ⟨hkept, hb.pushed, hb.queues, hb.begun, hb.commits, hb.aborts⟩
    | launch => exact hb.launched hn he hr hstep ha
    | slot a => exact hb.slot hstep

theorem addRequests_run (n : ℕ) (services : S) (memory : Addr → V) (key : SetKey K)
    (l : List (SessionRequest K)) :
    run step (ExecutorRun.init n services memory key) (l.map .addRequest) =
      some ⟨l.foldl RuntimeTransactionExecutor.addRequest (.init n services memory key), l, []⟩ := by
  induction l using List.reverseRecOn with
  | nil => rfl
  | append_singleton l q ih =>
    rw [List.map_append, List.map_singleton, run_concat]
    refine ⟨_, ih, ?_⟩
    rw [List.foldl_append]
    rfl

theorem Blocked.goesOn (h : Blocked n pre s) (hpos : 1 ≤ n)
    (hn : pre.countP (·.operation.isBegin) = n) (ha : s.added = pre ++ r :: post) :
    s.goesOn = true := by
  by_contra hg
  simp only [RuntimeTransactionExecutor.goesOn, Bool.or_eq_true, Bool.not_eq_true',
    decide_eq_true_eq, not_or, Bool.not_eq_false, List.isEmpty_iff] at hg
  obtain ⟨hq, hnum⟩ := hg
  have horder := congrArg List.length (h.kept.order.symm.trans ha)
  have hlen := h.pushed.length_le
  have hcurrent : s.currentRequest.toList.length ≤ 1 := by
    cases s.currentRequest <;> simp
  simp only [waiting, hq, List.append_nil, List.length_append, List.length_cons] at horder
  have hall : s.pushed.map Push.request = pre := h.pushed.eq_of_length (by omega)
  have hbegun := h.begun
  rw [hall, hn] at hbegun
  omega

/-- As many transactions as there are slots began, and none of them was asked to end before the
next one begins. Then no schedule launches that one or any request behind it, and `Run` does not
return, whatever the handler answers. -/
theorem begin_blocks [Handler K V S] (hpos : 1 ≤ n) (services : S) (memory : Addr → V)
    (key : SetKey K) (hn : pre.countP (·.operation.isBegin) = n)
    (he : ∀ q ∈ pre, q.operation.isEnd = false) (hr : r.operation.isBegin = true) :
    (∀ (as : List (ExecutorAction K V S)) (s : ExecutorRun K V S),
      run step (ExecutorRun.init n services memory key) as = some s →
      s.added <+: pre ++ r :: post →
      s.pushed.map Push.request <+: pre ∧ s.commitCount = 0 ∧ s.abortCount = 0) ∧
    ∀ m y, ((pre ++ r :: post).foldl RuntimeTransactionExecutor.addRequest
      (.init n services memory key)).runFor m ≠ .returned y := by
  constructor
  · intro as s hs ha
    have hb := Blocked.run hn he hr hs ha
    exact ⟨hb.pushed, hb.commits, hb.aborts⟩
  · intro m y hy
    obtain ⟨as, pushed, hrun⟩ := runFor_run (.inl hy) (pre ++ r :: post) []
    have hall := run_append.mpr ⟨_, addRequests_run n services memory key _, hrun⟩
    have hb := Blocked.run hn he hr hall (List.prefix_refl _)
    have hg := hb.goesOn hpos hn rfl
    rw [runFor_returned hy] at hg
    cases hg

/-- Two sessions and one slot: the `Commit` of the first one waits behind the second `Begin`. -/
def twoSessions : List (ExecutorAction ℕ ℕ LocalServices) :=
  [.addRequest ⟨1, .begin⟩, .addRequest ⟨2, .begin⟩, .addRequest ⟨1, .commit⟩,
    .addRequest ⟨2, .commit⟩, .launch, .launch, .slot (.serve 0),
    .slot (.answer 0 .initTxn ⟨false, (), []⟩), .slot (.visit 0 0), .slot (.serve 0), .launch]

theorem begin_blocks_sample : ∃ s, run step (sampleRun 1) twoSessions = some s ∧
    s.pushed.map Push.request <+: [⟨1, .begin⟩] ∧ s.commitCount = 0 ∧ s.abortCount = 0 := by
  have h : (run step (sampleRun 1) twoSessions).map (·.added) = some
      [⟨1, .begin⟩, ⟨2, .begin⟩, ⟨1, .commit⟩, ⟨2, .commit⟩] := by
    decide +kernel
  obtain ⟨s, hs, ha⟩ := Option.map_eq_some_iff.mp h
  have hn : ([⟨1, .begin⟩] : List (SessionRequest ℕ)).countP (·.operation.isBegin) = 1 := rfl
  have he : ∀ q ∈ ([⟨1, .begin⟩] : List (SessionRequest ℕ)), q.operation.isEnd = false := by
    simp [OperationRequest.isEnd]
  have hr : (⟨2, .begin⟩ : SessionRequest ℕ).operation.isBegin = true := rfl
  have hadded : s.added <+: [⟨1, .begin⟩] ++ ⟨2, .begin⟩ :: [⟨1, .commit⟩, ⟨2, .commit⟩] := by
    rw [ha]
    exact List.prefix_refl _
  exact ⟨s, hs, (begin_blocks (Nat.le_refl 1) _ _ _ hn he hr).1 _ s hs hadded⟩

end ExecutorRun

end Fugue
