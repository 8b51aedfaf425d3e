import Fugue.CountedTransactions
import Fugue.ExecutorProgress
import Fugue.RequestProgress

namespace Fugue

open TransactionExecutor Workload

variable {K V S : Type}

/-- A call that returned in a state that is `done`, or threw what an operation throws. -/
def Outcome.Ended {α : Type} (done : α → Prop) : Outcome α → Prop
  | .returned x => done x
  | .running _ => False
  | .threw m => m ∈ thrownMessages

section

variable [DecidableEq K] [Services S]

theorem Underway.launched {u : TransactionTask K V S} (h : TaskOk u) (hu : u.inUse = false)
    (services : S) (memory : Addr → V) (t : Transaction K) :
    Underway (⟨(u.execution.share services memory).reset, ⟨t.requests, 0⟩, true, t.sessionId⟩ :
      TransactionTask K V S) := by
  have hok := (h.share services memory).reset hu t.sessionId
  have hnil := (h.released hu).1
  constructor
  · constructor
    · exact hok.alive
    · intro hin _
      apply hok.serving hin
      simp [TransactionTask.reset, TransactionRequest.init]
    · exact hok.released
  · intro _
    exact TransactionExecution.Awaited.of_nil hnil
  · intro _
    right
    refine ⟨⟨t.sessionId, t.ending⟩, ?_, t.ends⟩
    simp [Transaction.requests]

theorem Underway.init (services : S) (memory : Addr → V) (key : SetKey K) :
    Underway (.init services memory key) := by
  constructor
  · exact .init services memory key
  · intro hu
    cases hu
  · intro hu
    cases hu

omit [DecidableEq K] [Services S] in
theorem TransactionTask.work_lt {t : TransactionTask K V S} {a : ℕ} (ha : a ∈ t.work) : a < 21 := by
  unfold TransactionTask.work at ha
  split at ha
  · rcases Multiset.mem_cons.mp ha with rfl | ha
    · omega
    · rcases Multiset.mem_add.mp ha with ha | ha
      · have := TransactionExecution.work_lt ha
        omega
      · obtain rfl := Multiset.eq_of_mem_replicate ha
        omega
  · exact absurd ha (Multiset.notMem_zero a)

namespace AllAtOnceTransactionExecutor

variable {x y z : AllAtOnceTransactionExecutor K V S} {txns : List (Transaction K)}

omit [DecidableEq K] [Services S] in
theorem pushTransaction_services {i : ℕ} (h : pushTransaction i x = .ok y) :
    y.services = x.services := by
  fun_induction pushTransaction i x with
  | case1 x hlt r t ht hr hid z hend =>
    obtain rfl := Except.ok.inj h
    exact (task_services ht :)
  | case2 x hlt r t ht hr hid z hend ih => exact (ih h).trans (task_services ht :)
  | case3 => cases h
  | case4 => cases h
  | case5 =>
    cases h
    rfl

omit [DecidableEq K] in
theorem launchFrom_stable {P : S → Prop} (hP : Stable P) {last : ℕ} (hx : P x.services)
    (h : launchFrom last x = .ok y) : P y.services := by
  fun_induction launchFrom last x with
  | case4 last x hlt r hreq hb hn i t hs z hz ih =>
    apply ih _ h
    have ht : x.task i = some t := (search_eq_some (fun _ _ _ => rfl) hs).1
    have hreset : P t.execution.reset.services :=
      TransactionExecution.reset_stable hP ((congrArg P (task_services ht)).mpr hx)
    exact (congrArg P (pushTransaction_services hz)).mpr hreset
  | case5 | case7 =>
    cases h
    exact hx
  | _ => cases h

theorem Distributed.slot (h : Distributed x.freeSlots txns x y)
    (htasks : ∀ t ∈ x.activeTxn, TaskOk t) {i : ℕ} {t : TransactionTask K V S}
    (ht : y.activeTxn[i]? = some t) : x.activeTxn[i]? = some t ∨
      Underway t ∧ t.execution.pending = [] ∧ ∃ u ∈ x.activeTxn, ∃ services memory,
        t.execution = (u.execution.share services memory).reset := by
  by_cases hi : i ∈ (x.freeSlots.zip txns).map Prod.fst
  · right
    obtain ⟨p, hp, rfl⟩ := List.mem_map.mp hi
    obtain ⟨u, services, memory, hu, hy⟩ := h.launched p hp
    obtain ⟨w, hw, hfree⟩ := mem_freeSlots.mp (List.of_mem_zip hp).1
    obtain rfl := Option.some.inj (hu.symm.trans hw)
    obtain rfl := Option.some.inj (hy.symm.trans ht)
    have hmem := List.mem_of_getElem? hu
    have hok := htasks u hmem
    refine ⟨?_, ?_, u, hmem, services, memory, rfl⟩
    · exact Underway.launched hok hfree services memory p.2
    · exact (hok.released hfree).2
  · left
    rw [← h.untouched i hi]
    exact ht

theorem Distributed.pending (h : Distributed x.freeSlots txns x y)
    (htasks : ∀ t ∈ x.activeTxn, TaskOk t) {i : ℕ} {t : TransactionTask K V S}
    (ht : x.activeTxn[i]? = some t) (hp : t.execution.pending ≠ []) :
    y.activeTxn[i]? = some t := by
  rw [h.untouched i, ht]
  intro hi
  obtain ⟨p, hp', rfl⟩ := List.mem_map.mp hi
  obtain ⟨w, hw, hfree⟩ := mem_freeSlots.mp (List.of_mem_zip hp').1
  obtain rfl := Option.some.inj (ht.symm.trans hw)
  exact hp ((htasks t (List.mem_of_getElem? ht)).released hfree).2

def work (failures : S → ℕ) (x : AllAtOnceTransactionExecutor K V S) : Multiset ℕ :=
  x.total failures + Multiset.replicate (x.pushIndex - x.popIndex) 21

omit [DecidableEq K] in
theorem Distributed.work_atMost {failures : S → ℕ} (h : Distributed x.freeSlots txns x y)
    (hpop : y.popIndex ≤ y.pushIndex) (hf : failures y.services ≤ failures x.services) :
    AtMost (y.work failures) (x.work failures) := by
  have hfail : Multiset.replicate (failures y.services) 21 ≤
      Multiset.replicate (failures x.services) 21 := (Multiset.replicate_le_replicate 21).mpr hf
  have hpush := h.pushIndex
  have hgrow := h.popIndex
  by_cases hnone : x.freeSlots.zip txns = []
  · have hsame : y.activeTxn = x.activeTxn := by
      apply List.ext_getElem?
      intro i
      apply h.untouched
      rw [hnone]
      exact List.not_mem_nil
    apply AtMost.of_le
    unfold work total TransactionExecutor.work
    rw [hsame]
    apply add_le_add (add_le_add_right hfail _)
    apply (Multiset.replicate_le_replicate 21).mpr
    omega
  · have hlaunched : 0 < ((txns.take x.freeSlots.length).flatMap Transaction.requests).length := by
      cases hfree : x.freeSlots with
      | nil => exact absurd (by rw [hfree]; rfl) hnone
      | cons i slots =>
        cases txns with
        | nil => exact absurd List.zip_nil_right hnone
        | cons t rest =>
          rw [List.length_cons, List.take_succ_cons, List.flatMap_cons, List.length_append,
            t.length_requests]
          omega
    -- a request of the queue is more than all that the slots have left
    right
    have hqueue : x.pushIndex - x.popIndex = x.pushIndex - x.popIndex - 1 + 1 := by omega
    rw [work, work, hqueue, Multiset.replicate_succ, Multiset.add_cons]
    apply lt_of_le_add (Y := y.toTransactionExecutor.work)
    · rw [total, add_assoc, add_comm]
      apply add_le_add_left
      apply add_le_add
      · exact hfail.trans (Multiset.le_add_left _ _)
      · apply (Multiset.replicate_le_replicate 21).mpr
        omega
    · intro a ha
      exact lt_of_mem_sum (fun t _ b hb => TransactionTask.work_lt hb) ha

/-- The transactions of `txns` are launched one after another, and each of them goes on. -/
structure Proceeding (owes : S → ℕ → Op → ℕ → Prop) (txns : List (Transaction K))
    (x : AllAtOnceTransactionExecutor K V S) : Prop where
  promised : Promised owes 0 [] x.toTransactionExecutor
  balanced : ∃ l, Balanced x.toTransactionExecutor l
  remaining : Remaining txns x
  bounded : (x.commitCount + x.abortCount + x.activeTxnNumber : ℤ) ≤ txns.length
  slots : 0 < x.concurrentTxnCount

namespace Proceeding

variable {owes : S → ℕ → Op → ℕ → Prop} {failures : S → ℕ}

theorem tasks (h : Proceeding owes txns x) : ∀ t ∈ x.activeTxn, TaskOk t :=
  fun t ht => (h.promised.tasks t ht).ok

theorem active (h : Proceeding owes txns x) :
    x.activeTxnNumber = x.activeTxn.countP (·.inUse) := by
  obtain ⟨l, hl⟩ := h.balanced
  exact hl.active

variable [Handler K V S]

theorem launch (hr : Responsive owes failures) (h : Proceeding owes txns x)
    (hg : x.goesOn = true) : ∃ y, x.launchRequests = .ok y ∧ Proceeding owes txns y ∧
      0 < y.activeTxnNumber ∧ AtMost (y.work failures) (x.work failures) ∧
      ∀ n, Due owes x.toTransactionExecutor n → Due owes y.toTransactionExecutor n := by
  obtain ⟨l, hl⟩ := h.balanced
  obtain ⟨m, hm, hq, hpop⟩ := h.remaining
  obtain ⟨y, hy, hd⟩ := launchRequests_distributed hq hl.active
  have hact : act true x .launchRequests = some y := by
    rw [act, hy]
    rfl
  have hlaunch := launching hl h.remaining rfl hact
  have hremaining := h.remaining.act hl hact
  have hlen : y.activeTxn.length = x.activeTxn.length := by
    have hlen := hlaunch.standings.length_eq
    simpa [standings] using hlen.symm
  have hstable : ∀ P, Stable P → P x.services → P y.services :=
    fun P hP hx => launchFrom_stable hP hx hy
  have hslot := fun (i : ℕ) t (ht : y.activeTxn[i]? = some t) => hd.slot h.tasks ht
  have howed : ∀ i op n, owes x.services i op n → owes y.services i op n :=
    fun i op n => hstable _ (hr.owing i op n)
  refine ⟨y, hy, ⟨⟨fun t ht => ?_, fun i t op c ht hc => ?_⟩, ⟨_, hl.launch hlaunch⟩, hremaining,
    ?_, ?_⟩, ?_, ?_, fun n hn => ?_⟩
  · obtain ⟨i, hi⟩ := List.getElem?_of_mem ht
    rcases hslot i t hi with hold | ⟨hnew, -, -⟩
    · exact h.promised.tasks t (List.mem_of_getElem? hold)
    · exact hnew
  · left
    rcases hslot i t ht with hold | ⟨-, hp, -⟩
    · rcases h.promised.owed i t op c hold hc with ⟨n, hn⟩ | ⟨-, hm⟩
      · exact ⟨n, howed i op n hn⟩
      · cases hm
    · rw [hp] at hc
      cases hc
  · have hbound := h.bounded
    rw [hd.commitCount, hd.abortCount, hd.active, List.length_drop]
    omega
  · rw [concurrentTxnCount, hlen]
    exact h.slots
  · -- either a transaction is active, or one of the queue is launched in one of the free slots
    have hfree := x.toTransactionExecutor.length_freeSlots
    have hslots := h.slots
    have hcount := hl.active
    rw [hd.active, List.length_drop]
    by_cases hpos : 0 < x.activeTxnNumber
    · omega
    · have hidx : x.popIndex ≠ x.pushIndex := by
        intro heq
        simp [goesOn, heq] at hg
        omega
      have hrest : m < txns.length := by
        by_contra hle
        have hpush := hq.pushIndex
        rw [List.drop_eq_nil_of_le (Nat.le_of_not_lt hle)] at hpush
        exact hidx hpush.symm
      omega
  · apply hd.work_atMost
    · obtain ⟨k, -, hk, -⟩ := hremaining
      rw [hk.pushIndex]
      exact Nat.le_add_right _ _
    · exact hstable _ (hr.spared (failures x.services)) (Nat.le_refl _)
  · rcases hn with ⟨i, t, op, c, ht, hc, hn⟩ | hnone
    · left
      exact ⟨i, t, op, c, hd.pending h.tasks ht (List.ne_nil_of_mem hc), hc, howed i op n hn⟩
    · right
      intro t ht
      obtain ⟨i, hi⟩ := List.getElem?_of_mem ht
      rcases hslot i t hi with hold | ⟨-, hp, -⟩
      · exact hnone t (List.mem_of_getElem? hold)
      · exact hp

theorem sweep (hr : Responsive owes failures) {driver : Bool} {n : ℕ} {b : Bool}
    (h : Proceeding owes txns x) (hpos : 0 < x.activeTxnNumber)
    (hd : Due owes x.toTransactionExecutor n) (hs : x.sweep driver = .ok (y, b)) :
    Proceeding owes txns y ∧ (b = false → y.activeTxnNumber = x.activeTxnNumber) ∧
      (Multiset.IsDershowitzMannaLT (y.work failures) (x.work failures) ∨
      y.work failures = x.work failures ∧ ∃ m < n, Due owes y.toTransactionExecutor m) := by
  obtain ⟨⟨w, b'⟩, ha, heq⟩ : ∃ p, x.toTransactionExecutor.advanceAll (handle driver) = .ok p ∧
      ({ x with toTransactionExecutor := p.1.sendBatch }, p.2) = (y, b) := by
    unfold AllAtOnceTransactionExecutor.sweep at hs
    cases ha : x.toTransactionExecutor.advanceAll (handle driver) with
    | error m =>
      rw [ha] at hs
      cases hs
    | ok p =>
      rw [ha] at hs
      exact ⟨p, rfl, Except.ok.inj hs⟩
  obtain ⟨rfl, rfl⟩ := Prod.mk.inj heq
  have hu : ∃ t ∈ x.activeTxn, t.inUse = true := by
    rw [h.active] at hpos
    exact List.countP_pos_iff.mp (Int.natCast_pos.mp hpos)
  obtain ⟨hprom, hcase⟩ := sweep_progress hr (dispatches driver) h.promised hd hu ha
  have hgoes : Goes (handle driver) w w.sendBatch := .deliverAll w (Handler.sendBatch w.services)
  obtain ⟨as, hrun⟩ := advanceAll_run ha
  obtain ⟨bs, hrun', -⟩ := id hgoes
  have hall := run_append.mpr ⟨w, hrun, hrun'⟩
  -- the steps of the slots keep the number of transactions that were launched
  let I : TransactionExecutor K V S → Prop := fun z => (∃ l, Balanced z l) ∧
    z.activeTxn.length = x.activeTxn.length ∧
    (z.commitCount + z.abortCount + z.activeTxnNumber : ℤ) =
      x.commitCount + x.abortCount + x.activeTxnNumber
  have hstep : ∀ z a z', I z → step (handle driver) z a = some z' → I z' := by
    rintro z a z' ⟨⟨l, hl⟩, hlen, htotal⟩ hz
    refine ⟨⟨_, hl.step (dispatches driver) hz⟩, ?_,
      (hl.step_total (dispatches driver) hz).trans htotal⟩
    rw [← hlen]
    rcases step_cases (dispatches driver) hl.tasks hz with ⟨ht, -⟩ | ⟨i, t, t', hc⟩
    · rw [ht]
    · rw [hc.new, List.length_set]
  obtain ⟨hbal, hlen, htotal⟩ := run_invariant hstep ⟨h.balanced, rfl, rfl⟩ hall
  obtain ⟨m, hm, hq, hpop⟩ := h.remaining
  refine ⟨⟨hprom, hbal, ⟨m, hm.trans htotal.symm, ⟨hq.request, hq.pushIndex⟩, hpop⟩,
    htotal.trans_le h.bounded, ?_⟩, ?_, ?_⟩
  · rw [concurrentTxnCount, hlen]
    exact h.slots
  · rintro rfl
    have hnum : w.activeTxnNumber = x.activeTxnNumber := advanceFrom_active ha
    rw [← hnum]
    exact (hgoes.map (f := fun t => t.inUse) fun _ _ => rfl).2
  · rcases hcase with hlt | ⟨heq, hdue⟩
    · left
      exact Workload.add_right hlt _
    · right
      exact ⟨congrArg (· + _) heq, hdue⟩

theorem sweep_error {driver : Bool} {m : String} (h : x.sweep driver = .error m) :
    m ∈ thrownMessages := by
  unfold AllAtOnceTransactionExecutor.sweep at h
  cases ha : x.toTransactionExecutor.advanceAll (handle driver) with
  | error m' =>
    rw [ha] at h
    cases h
    exact advanceAll_error ha
  | ok p =>
    rw [ha] at h
    cases h

end Proceeding

/-- The queue is empty, no slot is in use, and `n` transactions were counted. -/
def Done (n : ℕ) (x : AllAtOnceTransactionExecutor K V S) : Prop :=
  x.isFinished = true ∧ x.commitCount + x.abortCount = n

namespace Proceeding

variable {owes : S → ℕ → Op → ℕ → Prop} {failures : S → ℕ} [Handler K V S]

omit [Handler K V S] in
theorem finished (h : Proceeding owes txns x) (hg : x.goesOn = false) :
    (Outcome.returned x).Ended (Done txns.length) := by
  obtain ⟨m, hm, hq, -⟩ := h.remaining
  have hbound := h.bounded
  have hcount := h.active
  obtain ⟨hidx, hact⟩ : x.popIndex = x.pushIndex ∧ x.activeTxnNumber = 0 := by
    simp [goesOn] at hg
    omega
  have hlen : txns.length ≤ m := by
    by_contra hlt
    have hpush := hq.pushIndex
    rw [List.drop_eq_getElem_cons (Nat.lt_of_not_le hlt), List.flatMap_cons, List.length_append,
      Transaction.length_requests] at hpush
    omega
  constructor
  · simp [isFinished, hidx, hact]
  · omega

theorem ends (hr : Responsive owes failures) (driver : Bool) (h : Proceeding owes txns x)
    (hpos : 0 < x.activeTxnNumber) : ∃ m, (advanceFor driver m x).Ended (Done txns.length) := by
  apply ends_of_rounds (I := fun x : AllAtOnceTransactionExecutor K V S =>
      Proceeding owes txns x ∧ 0 < x.activeTxnNumber)
    (W := fun x n => Due owes x.toTransactionExecutor n)
    (E := fun x => ∃ m, (advanceFor driver m x).Ended (Done txns.length)) (work failures)
    ?_ ?_ ⟨h, hpos⟩
  · rintro x ⟨hx, -⟩
    exact hx.promised.due
  · rintro x n ⟨hx, hpos⟩ hdue hless hnear
    have hgo : ∀ y, Proceeding owes txns y → 0 < y.activeTxnNumber →
        Multiset.IsDershowitzMannaLT (y.work failures) (x.work failures) ∨
          y.work failures = x.work failures ∧ (∃ m < n, Due owes y.toTransactionExecutor m) →
        ∃ m, (advanceFor driver m y).Ended (Done txns.length) := by
      intro y hy hact hcase
      rcases hcase with hlt | ⟨heq, m, hm, hdue⟩
      · exact hless y ⟨hy, hact⟩ hlt
      · exact hnear y m ⟨hy, hact⟩ heq hdue hm
    cases hs : x.sweep driver with
    | error msg =>
      refine ⟨1, ?_⟩
      rw [advanceFor, hs]
      exact sweep_error hs
    | ok p =>
      obtain ⟨y, b⟩ := p
      obtain ⟨hy, hact, hcase⟩ := hx.sweep hr hpos hdue hs
      cases b with
      | false =>
        obtain ⟨m, hm⟩ := hgo y hy (by rwa [hact rfl]) hcase
        refine ⟨m + 1, ?_⟩
        rw [advanceFor, hs]
        exact hm
      | true =>
        cases hg : y.goesOn with
        | false =>
          refine ⟨1, ?_⟩
          rw [advanceFor, hs]
          dsimp only
          rw [iterate, hg]
          exact hy.finished hg
        | true =>
          obtain ⟨z, hz, hproceed, hzpos, hle, hzdue⟩ := hy.launch hr hg
          obtain ⟨m, hm⟩ := hgo z hproceed hzpos (by
            rcases hcase with hlt | ⟨heq, m, hm, hdue'⟩
            · exact .inl (hle.trans_lt hlt)
            · rcases hle with hsame | hlt
              · exact .inr ⟨hsame.trans heq, m, hm, hzdue m hdue'⟩
              · exact .inl (heq ▸ hlt))
          refine ⟨m + 1, ?_⟩
          rw [advanceFor, hs]
          dsimp only
          rw [iterate, hg, if_pos rfl, hz]
          exact hm

theorem run (hr : Responsive owes failures) (driver : Bool) (h : Proceeding owes txns x) :
    ∃ m, (runFor driver m x).Ended (Done txns.length) := by
  cases hg : x.goesOn with
  | false =>
    refine ⟨0, ?_⟩
    rw [runFor, iterate, hg]
    exact h.finished hg
  | true =>
    obtain ⟨y, hy, hproceed, hpos, -, -⟩ := h.launch hr hg
    obtain ⟨m, hm⟩ := hproceed.ends hr driver hpos
    refine ⟨m, ?_⟩
    rw [runFor, iterate, hg, if_pos rfl, hy]
    exact hm

omit [Handler K V S] in
theorem ofRequests {n capacity : ℕ} (hn : 1 ≤ n) (services : S) (memory : Addr → V)
    (key : SetKey K) (hc : (txns.flatMap Transaction.requests).length ≤ capacity) :
    Proceeding owes txns ((txns.flatMap Transaction.requests).foldl addRequest
      (init n capacity services memory key)) := by
  obtain ⟨hq, hx⟩ := Queued.ofRequests n capacity services memory key _ hc
  obtain ⟨-, -, -, hpop, -⟩ := Paired.addRequests n capacity services memory key _ hc
  generalize (txns.flatMap Transaction.requests).foldl addRequest
    (init n capacity services memory key) = x at hq hx hpop
  have hinit : ∀ t ∈ x.activeTxn, t = .init services memory key := by
    rw [hx]
    intro t ht
    exact List.eq_of_mem_replicate ht
  refine ⟨⟨fun t ht => ?_, fun i t op c ht hc => ?_⟩, ⟨.empty, hx ▸ .init n services memory key⟩,
    ⟨0, ?_, hq, hpop⟩, ?_, ?_⟩
  · rw [hinit t ht]
    exact .init services memory key
  · rw [hinit t (List.mem_of_getElem? ht)] at hc
    cases hc
  · rw [hx]
    rfl
  · rw [hx]
    exact Int.natCast_nonneg _
  · rw [hx, TransactionExecutor.init, concurrentTxnCount, List.length_replicate]
    exact hn

end Proceeding

end AllAtOnceTransactionExecutor

def Session.transaction (s : Session K) : Transaction K :=
  ⟨s.id, s.operations, s.ending, fun r hr => (OperationRequest.of_isAccess (s.accesses r hr)).2.1,
    s.ends⟩

omit [DecidableEq K] [Services S] in
theorem Session.requests_transaction (sessions : List (Session K)) :
    (sessions.map Session.transaction).flatMap Transaction.requests =
      sessions.flatMap Session.requests := by
  rw [List.flatMap_map]
  rfl

namespace RuntimeTransactionExecutor

def Done (n : ℕ) (x : RuntimeTransactionExecutor K V S) : Prop :=
  x.isFinished = true ∧ x.commitCount + x.abortCount = n

variable [Handler K V S]

theorem ended {m n : ℕ} {x : RuntimeTransactionExecutor K V S}
    {o : Outcome (AllAtOnceTransactionExecutor K V S)} (ha : Agree (x.runFor m) o)
    (h : o.Ended (AllAtOnceTransactionExecutor.Done n)) : (x.runFor m).Ended (Done n) := by
  cases ho : x.runFor m with
  | running y =>
    rw [ho] at ha
    cases o with
    | running z => exact h
    | returned z => exact ha
    | threw m => exact ha
  | threw msg =>
    rw [ho] at ha
    cases o with
    | threw m =>
      obtain rfl : msg = m := ha
      exact h
    | running z => exact ha.elim
    | returned z => exact ha.elim
  | returned y =>
    have hg := ExecutorRun.runFor_returned ho
    rw [ho] at ha
    cases o with
    | threw m => exact ha.elim
    | running z => exact ha.elim
    | returned z =>
      have heq : y.toTransactionExecutor = z.toTransactionExecutor := ha
      obtain ⟨hfin, hcount⟩ := h
      constructor
      · simp only [AllAtOnceTransactionExecutor.isFinished, ← heq, Bool.and_eq_true] at hfin
        rw [isFinished, hfin.2, Bool.and_true]
        simp only [goesOn, Bool.or_eq_false_iff] at hg
        simpa using hg.1
      · rw [heq]
        exact hcount

theorem agree_sessions {n : ℕ} (hn : 1 ≤ n) (services : S) (memory : Addr → V) (key : SetKey K)
    {sessions : List (Session K)} (hd : (sessions.map Session.id).Nodup) (m : ℕ) :
    Agree (((sessions.flatMap Session.requests).foldl addRequest
        (init n services memory key)).runFor m)
      (AllAtOnceTransactionExecutor.runFor true m
        (((sessions.map Session.transaction).flatMap Transaction.requests).foldl
          AllAtOnceTransactionExecutor.addRequest (.init n
            ((sessions.map Session.transaction).flatMap Transaction.requests).length
            services memory key))) := by
  rw [Session.requests_transaction]
  exact (Paired.init services memory key hd (Nat.le_refl _)).iterate hn true
    fun h hg hl => h.agree hn true hg hl

end RuntimeTransactionExecutor

variable [Handler K V S] {owes : S → ℕ → Op → ℕ → Prop} {failures : S → ℕ}

open AllAtOnceTransactionExecutor in
/-- `Run` of the executor whose requests are all added before ends, however its transactions and
the answers of the handler interleave: it returns once each transaction was counted, or an
operation throws. -/
theorem run_terminates (hr : Responsive owes failures) {n capacity : ℕ} (hn : 1 ≤ n)
    (driver : Bool) (services : S) (memory : Addr → V) (key : SetKey K)
    {txns : List (Transaction K)} (hc : (txns.flatMap Transaction.requests).length ≤ capacity) :
    ∃ m, (runFor driver m ((txns.flatMap Transaction.requests).foldl addRequest
      (init n capacity services memory key))).Ended (Done txns.length) :=
  (Proceeding.ofRequests hn services memory key hc).run hr driver

/-- So does `Run` of the other executor, on sessions with distinct ids. -/
theorem runtime_run_terminates (hr : Responsive owes failures) {n : ℕ} (hn : 1 ≤ n) (services : S)
    (memory : Addr → V) (key : SetKey K) {sessions : List (Session K)}
    (hd : (sessions.map Session.id).Nodup) :
    ∃ m, (((sessions.flatMap Session.requests).foldl RuntimeTransactionExecutor.addRequest
      (.init n services memory key)).runFor m).Ended
        (RuntimeTransactionExecutor.Done sessions.length) := by
  have hproceed : AllAtOnceTransactionExecutor.Proceeding owes (sessions.map Session.transaction) _ :=
    .ofRequests hn services memory key (Nat.le_refl _)
  obtain ⟨m, hm⟩ := hproceed.run hr true
  rw [List.length_map] at hm
  exact ⟨m, RuntimeTransactionExecutor.ended
    (RuntimeTransactionExecutor.agree_sessions hn services memory key hd m) hm⟩

end

/-- The services of a handler that holds its calls back until `SendBatch`. -/
structure Batched where
  services : LocalServices
  held : List (ℕ × Op × HandlerCall ℕ)

instance : Services Batched where
  generateID s :=
    ((Services.generateID s.services).1, { s with services := (Services.generateID s.services).2 })
  getTime s :=
    ((Services.getTime s.services).1, { s with services := (Services.getTime s.services).2 })
  setTime s time := { s with services := Services.setTime s.services time }

instance : Handler ℕ ℕ Batched where
  call s i op c := ({ s with held := s.held ++ [(i, op, c)] }, [])
  sendBatch s := ({ s with held := [] },
    s.held.map fun p => ⟨p.1, p.2.1, TransactionExecution.samplePrompt p.2.1 p.2.2⟩)

theorem batched_responsive : Responsive (K := ℕ) (V := ℕ)
    (fun (s : Batched) i op _ => ∃ c, (i, op, c) ∈ s.held) fun _ => 0 where
  called s i op c := .inr ⟨1, c, List.mem_append_right _ (List.mem_singleton_self _)⟩
  kept s i op n j y c h := .inr ⟨n, Nat.le_refl n, h.imp fun _ => List.mem_append_left _⟩
  batch s i op n h := by
    obtain ⟨c, hc⟩ := h
    exact .inl ⟨_, List.mem_map_of_mem hc, rfl, rfl⟩
  owing i op n := ⟨fun _ h => h, fun _ h => h, fun _ _ h => h⟩
  failing s i op c := Nat.le_refl 0
  failingBatch s := by
    have hnone : (Handler.sendBatch (K := ℕ) (V := ℕ) s).2.countP Delivery.fails = 0 := by
      apply List.countP_eq_zero.mpr
      intro d hd
      obtain ⟨⟨i, op, c⟩, -, rfl⟩ := List.mem_map.mp hd
      by_cases hop : op = .initTxn
      · subst hop
        exact ne_true_of_eq_false (TransactionExecution.samplePrompt_lawful .initTxn c)
      · simp [Delivery.fails, hop]
    exact Nat.le_of_eq ((Nat.zero_add _).trans hnone)
  spared n := ⟨fun _ h => h, fun _ h => h, fun _ _ h => h⟩

open AllAtOnceTransactionExecutor in
theorem run_terminates_sample :
    ∃ m, (runFor false m ((sampleTransactions.flatMap Transaction.requests).foldl addRequest
      (init 1 8 (⟨⟨.ofBase 0 100, .ofClock fun _ => 5⟩, []⟩ : Batched) (fun _ => 0)
        ⟨"t", 0⟩))).Ended (Done 2) :=
  run_terminates batched_responsive (by decide) false _ _ _ (by decide)

theorem runtime_run_terminates_sample :
    ∃ m, (((sampleSessions.flatMap Session.requests).foldl RuntimeTransactionExecutor.addRequest
      (.init 2 (⟨⟨.ofBase 0 100, .ofClock fun _ => 5⟩, []⟩ : Batched) (fun _ => 0)
        ⟨"t", 0⟩)).runFor m).Ended (RuntimeTransactionExecutor.Done 3) :=
  runtime_run_terminates batched_responsive (by decide) _ _ _ (by decide)

end Fugue
