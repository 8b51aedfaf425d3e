import Fugue.ExecutorAgreement

namespace Fugue

open TransactionExecutor

variable {K V S : Type}

/-- The requests of one transaction, which follow one another in the queue. -/
structure Transaction (K : Type) where
  sessionId : ℤ
  operations : List (OperationRequest K)
  ending : OperationRequest K
  unended : ∀ r ∈ operations, r.isEnd = false
  ends : ending.isEnd = true

def Transaction.requests (t : Transaction K) : List (SessionRequest K) :=
  ⟨t.sessionId, .begin⟩ :: (t.operations.map (⟨t.sessionId, ·⟩) ++ [⟨t.sessionId, t.ending⟩])

theorem OperationRequest.isEnd_commit {K : Type} : (commit : OperationRequest K).isEnd = true := rfl

theorem OperationRequest.isEnd_abort {K : Type} : (abort : OperationRequest K).isEnd = true := rfl

theorem Transaction.length_requests (t : Transaction K) :
    t.requests.length = t.operations.length + 2 := by
  simp [requests]

theorem findIdxs_set {α : Type} {p : α → Bool} {l : List α} {i s : ℕ} {rest : List ℕ} {a : α}
    (h : l.findIdxs p s = (s + i) :: rest) (ha : p a = false) :
    (l.set i a).findIdxs p s = rest := by
  induction l generalizing i s with
  | nil => cases h
  | cons b l ih =>
    rw [List.findIdxs_cons] at h
    split at h
    · obtain ⟨hi, rfl⟩ := List.cons.inj h
      obtain rfl : i = 0 := by omega
      rw [List.set_cons_zero, List.findIdxs_cons, ha]
      rfl
    · next hb =>
      have hge := List.ge_of_mem_findIdxs (s + i) (h ▸ List.mem_cons_self)
      obtain ⟨j, rfl⟩ : ∃ j, i = j + 1 := ⟨i - 1, by omega⟩
      rw [List.set_cons_succ, List.findIdxs_cons, if_neg hb]
      apply ih
      rw [h, Nat.add_right_comm, Nat.add_assoc]

namespace TransactionExecutor

variable {x : TransactionExecutor K V S}

def freeSlots (x : TransactionExecutor K V S) : List ℕ := x.activeTxn.findIdxs fun t => !t.inUse

theorem mem_freeSlots {i : ℕ} :
    i ∈ x.freeSlots ↔ ∃ t, x.activeTxn[i]? = some t ∧ t.inUse = false := by
  rw [freeSlots, List.mem_findIdxs_iff_exists_getElem_pos]
  constructor
  · rintro ⟨hi, hu⟩
    exact ⟨_, List.getElem?_eq_getElem hi, by simpa using hu⟩
  · rintro ⟨t, ht, hu⟩
    obtain ⟨hi, rfl⟩ := List.getElem?_eq_some_iff.mp ht
    exact ⟨hi, by simpa using hu⟩

theorem first_free {i : ℕ} {slots : List ℕ} (h : x.freeSlots = i :: slots) :
    (∃ t, x.activeTxn[i]? = some t ∧ t.inUse = false) ∧
      (∀ j w, j < i → x.activeTxn[j]? = some w → w.inUse = true) ∧ ∀ j ∈ slots, i < j := by
  obtain ⟨hleast, -⟩ := List.pairwise_cons.mp (h ▸ List.pairwise_findIdxs :
    (i :: slots).Pairwise (· < ·))
  refine ⟨mem_freeSlots.mp (h ▸ List.mem_cons_self), fun j w hj hw => ?_, hleast⟩
  by_contra hwu
  have hmem : j ∈ x.freeSlots := mem_freeSlots.mpr ⟨w, hw, by simpa using hwu⟩
  rw [h] at hmem
  rcases List.mem_cons.mp hmem with rfl | hmem
  · exact Nat.lt_irrefl j hj
  · exact Nat.lt_asymm hj (hleast j hmem)

theorem freeSlots_set {i : ℕ} {slots : List ℕ} (h : x.freeSlots = i :: slots)
    {z : TransactionExecutor K V S} {t : TransactionTask K V S}
    (hz : z.activeTxn = x.activeTxn.set i t) (hu : t.inUse = true) : z.freeSlots = slots := by
  rw [freeSlots, hz]
  refine findIdxs_set (i := i) (s := 0) ?_ (by rw [hu]; rfl)
  rw [Nat.zero_add]
  exact h

theorem length_freeSlots :
    x.freeSlots.length + x.activeTxn.countP (·.inUse) = x.concurrentTxnCount := by
  rw [freeSlots, List.length_findIdxs, Nat.add_comm, concurrentTxnCount,
    List.length_eq_countP_add_countP (·.inUse)]
  congr 2
  funext t
  cases t.inUse <;> rfl

end TransactionExecutor

namespace AllAtOnceTransactionExecutor

variable {x y : AllAtOnceTransactionExecutor K V S}

structure Queued (l : List (SessionRequest K)) (x : AllAtOnceTransactionExecutor K V S) : Prop where
  request : ∀ j r, l[j]? = some r → x.request (x.popIndex + j) = some r
  pushIndex : x.pushIndex = x.popIndex + l.length

theorem Queued.drop {l m : List (SessionRequest K)} (h : Queued (l ++ m) x)
    (z : TransactionExecutor K V S) {n : ℕ} (hn : n = l.length) :
    Queued m { x with toTransactionExecutor := z, popIndex := x.popIndex + n } := by
  subst hn
  constructor
  · intro j r hr
    have hreq := h.request (l.length + j) r (by
      rwa [List.getElem?_append_right (Nat.le_add_right _ _), Nat.add_sub_cancel_left])
    rw [← Nat.add_assoc] at hreq
    exact hreq
  · have hlen := h.pushIndex
    rw [List.length_append, ← Nat.add_assoc] at hlen
    exact hlen

/-- The transactions of the queue are launched in the slots, one each, as far as both last. -/
structure Distributed (slots : List ℕ) (txns : List (Transaction K))
    (x y : AllAtOnceTransactionExecutor K V S) [Services S] : Prop where
  launched : ∀ p ∈ slots.zip txns, ∃ u services memory, x.activeTxn[p.1]? = some u ∧
    y.activeTxn[p.1]? = some ⟨(u.execution.share services memory).reset, ⟨p.2.requests, 0⟩, true,
      p.2.sessionId⟩
  untouched : ∀ i ∉ (slots.zip txns).map Prod.fst, y.activeTxn[i]? = x.activeTxn[i]?
  active : y.activeTxnNumber = x.activeTxnNumber + min slots.length txns.length
  inUse : y.activeTxnNumber = y.activeTxn.countP (·.inUse)
  commitCount : y.commitCount = x.commitCount
  abortCount : y.abortCount = x.abortCount
  requestQueuePool : y.requestQueuePool = x.requestQueuePool
  pushIndex : y.pushIndex = x.pushIndex
  popIndex : y.popIndex = x.popIndex +
    ((txns.take slots.length).flatMap Transaction.requests).length
  next : y.popIndex = y.pushIndex ∨
    ∃ t ∈ txns[slots.length]?, y.request y.popIndex = some ⟨t.sessionId, .begin⟩

variable [Services S] {slots : List ℕ} {txns : List (Transaction K)}

theorem Distributed.none (hq : Queued (txns.flatMap Transaction.requests) x)
    (hact : x.activeTxnNumber = x.activeTxn.countP (·.inUse)) (h : slots = [] ∨ txns = []) :
    Distributed slots txns x x := by
  have hempty : (txns.take slots.length).flatMap Transaction.requests = [] := by
    rcases h with rfl | rfl <;> simp
  refine ⟨?_, fun _ _ => rfl, ?_, hact, rfl, rfl, rfl, rfl, ?_, ?_⟩
  · rcases h with rfl | rfl <;> simp
  · rcases h with rfl | rfl <;> simp
  · rw [hempty]
    rfl
  · cases txns with
    | nil => exact .inl hq.pushIndex.symm
    | cons t rest =>
      obtain rfl := h.resolve_right (List.cons_ne_nil t rest)
      exact .inr ⟨t, rfl, hq.request 0 _ rfl⟩

theorem Distributed.cons {i : ℕ} {t : Transaction K} {z : AllAtOnceTransactionExecutor K V S}
    {u : TransactionTask K V S} {services : S} {memory : Addr → V} (hi : x.activeTxn[i]? = some u)
    (hnew : z.activeTxn = x.activeTxn.set i ⟨(u.execution.share services memory).reset,
      ⟨t.requests, 0⟩, true, t.sessionId⟩)
    (hfresh : i ∉ slots) (hact : z.activeTxnNumber = x.activeTxnNumber + 1)
    (hcommit : z.commitCount = x.commitCount) (habort : z.abortCount = x.abortCount)
    (hpool : z.requestQueuePool = x.requestQueuePool) (hpush : z.pushIndex = x.pushIndex)
    (hpop : z.popIndex = x.popIndex + t.requests.length) (h : Distributed slots txns z y) :
    Distributed (i :: slots) (t :: txns) x y := by
  have hlt := (List.getElem?_eq_some_iff.mp hi).1
  have hother : ∀ j, j ≠ i → z.activeTxn[j]? = x.activeTxn[j]? := fun j hj => by
    rw [hnew, List.getElem?_set_ne (Ne.symm hj)]
  refine ⟨fun p hp => ?_, fun j hj => ?_, ?_, h.inUse, h.commitCount.trans hcommit,
    h.abortCount.trans habort, h.requestQueuePool.trans hpool, h.pushIndex.trans hpush, ?_, h.next⟩
  · rcases List.mem_cons.mp hp with rfl | hp
    · have hself := h.untouched i fun hm => by
        obtain ⟨q, hq, hqi⟩ := List.mem_map.mp hm
        exact hfresh (hqi ▸ (List.of_mem_zip hq).1)
      refine ⟨u, services, memory, hi, ?_⟩
      rw [hself, hnew, List.getElem?_set_self hlt]
    · obtain ⟨w, services', memory', hw, hy⟩ := h.launched p hp
      have hne : p.1 ≠ i := fun hpi => hfresh (hpi ▸ (List.of_mem_zip hp).1)
      exact ⟨w, services', memory', (hother p.1 hne).symm.trans hw, hy⟩
  · rw [List.zip_cons_cons, List.map_cons, List.mem_cons, not_or] at hj
    rw [h.untouched j hj.2, hother j hj.1]
  · rw [h.active, hact, List.length_cons, List.length_cons]
    omega
  · rw [h.popIndex, hpop, List.length_cons, List.take_succ_cons, List.flatMap_cons,
      List.length_append, Nat.add_assoc]

theorem launchFrom_full {last : ℕ} {r : SessionRequest K} (hlt : x.popIndex < x.pushIndex)
    (hreq : x.request x.popIndex = some r) (hb : r.operation.isBegin = true)
    (hn : x.concurrentTxnCount ≤ x.activeTxnNumber) : launchFrom last x = .ok x := by
  rw [launchFrom, if_pos hlt, hreq]
  simp only
  rw [if_pos hb, if_neg (Int.not_lt.mpr hn)]

theorem launchFrom_distributes {last : ℕ} (hq : Queued (txns.flatMap Transaction.requests) x)
    (hact : x.activeTxnNumber = x.activeTxn.countP (·.inUse))
    (hlast : ∀ i ∈ x.freeSlots, last ≤ i) :
    ∃ y, launchFrom last x = .ok y ∧ Distributed x.freeSlots txns x y := by
  induction txns generalizing x last with
  | nil =>
    have hlen : x.pushIndex = x.popIndex := hq.pushIndex
    refine ⟨x, ?_, .none hq hact (.inr rfl)⟩
    rw [launchFrom, if_neg (by omega)]
  | cons t rest ih =>
    have hlen := hq.pushIndex
    rw [List.flatMap_cons, List.length_append, t.length_requests] at hlen
    have hfree := x.toTransactionExecutor.length_freeSlots
    cases hf : x.freeSlots with
    | nil =>
      -- every slot is in use
      rw [hf, List.length_nil] at hfree
      refine ⟨x, ?_, .none hq hact (.inl rfl)⟩
      exact launchFrom_full (by omega) (hq.request 0 _ rfl) rfl (by omega)
    | cons i slots =>
      rw [hf, List.length_cons] at hfree
      obtain ⟨⟨u, hi, hu⟩, hbefore, hleast⟩ := first_free hf
      have hfresh : i ∉ slots := fun hm => Nat.lt_irrefl i (hleast i hm)
      have hstep : launchFrom last x = _ := launch_first t.unended t.ends (by omega) (by omega)
        (fun j q hj => hq.request j q (by
          rw [List.flatMap_cons, List.getElem?_append_left]
          · exact hj
          · exact (List.getElem?_eq_some_iff.mp hj).1))
        (task_eq_some.mpr ⟨u, hi, rfl⟩) hu (hlast i (hf ▸ List.mem_cons_self))
        fun j w _ hj hw => hbefore j w hj hw
      rw [hstep]
      generalize hz : ({ x with toTransactionExecutor := _, popIndex := _ } :
        AllAtOnceTransactionExecutor K V S) = z
      have hnew : z.activeTxn = x.activeTxn.set i
          ⟨(u.execution.share x.services x.memory).reset, ⟨t.requests, 0⟩, true, t.sessionId⟩ := by
        rw [← hz]
        simp only [setTask, TransactionTask.foldl_push]
        rfl
      have hslots : z.freeSlots = slots := freeSlots_set hf hnew rfl
      have hrest : Queued (rest.flatMap Transaction.requests) z := by
        rw [← hz]
        exact Queued.drop (l := t.requests) hq _ t.length_requests.symm
      have hcount : z.activeTxnNumber = z.activeTxn.countP (·.inUse) := by
        rw [hnew, countP_set_inUse hi, hu, ← hz]
        simp [hact]
      have hnext : ∀ j ∈ z.freeSlots, i + 1 ≤ j := fun j hj => hleast j (hslots ▸ hj)
      obtain ⟨y, hy, hd⟩ := ih hrest hcount hnext
      refine ⟨y, hy, .cons hi hnew hfresh ?_ ?_ ?_ ?_ ?_ ?_ (hslots ▸ hd)⟩
      all_goals rw [← hz]
      · rfl
      · rfl
      · rw [t.length_requests, Nat.add_assoc]

theorem launchRequests_distributed (hq : Queued (txns.flatMap Transaction.requests) x)
    (hact : x.activeTxnNumber = x.activeTxn.countP (·.inUse)) :
    ∃ y, x.launchRequests = .ok y ∧ Distributed x.freeSlots txns x y :=
  launchFrom_distributes hq hact fun _ _ => Nat.zero_le _

/-- A call of `LaunchRequests` launches as many transactions as there are free slots, the first
ones of the queue, in the order of both. -/
theorem launch_distributes (hq : Queued (txns.flatMap Transaction.requests) x)
    (hact : x.activeTxnNumber = x.activeTxn.countP (·.inUse)) :
    ∃ y, x.launchRequests = .ok y ∧ Distributed x.freeSlots txns x y :=
  launchFrom_distributes hq hact fun _ _ => Nat.zero_le _

omit [Services S] in
theorem Queued.ofRequests (n capacity : ℕ) (services : S) (memory : Addr → V) (key : SetKey K)
    (l : List (SessionRequest K)) (hl : l.length ≤ capacity) :
    Queued l (l.foldl addRequest (init n capacity services memory key)) ∧
      (l.foldl addRequest (init n capacity services memory key)).toTransactionExecutor =
        .init n services memory key := by
  obtain ⟨-, hy, -, hpop, hpush, -, hpool⟩ := Paired.addRequests n capacity services memory key l hl
  refine ⟨⟨fun j r hj => ?_, ?_⟩, hy⟩
  · rw [hpop, Nat.zero_add]
    exact hpool j r hj
  · rw [hpush, hpop, Nat.zero_add]

def sampleTransactions : List (Transaction ℕ) :=
  [⟨1, [.upsert ⟨"t", 1⟩ (some 7)], .commit, List.forall_mem_singleton.mpr rfl,
    OperationRequest.isEnd_commit⟩,
    ⟨2, [], .abort, fun _ hr => absurd hr List.not_mem_nil, OperationRequest.isEnd_abort⟩]

def sampleQueue (n : ℕ) : AllAtOnceTransactionExecutor ℕ ℕ LocalServices :=
  (sampleTransactions.flatMap Transaction.requests).foldl addRequest
    (init n 8 ⟨.ofBase 0 100, .ofClock fun _ => 5⟩ (fun _ => 0) ⟨"t", 0⟩)

theorem launch_distributes_sample : ∃ y, (sampleQueue 1).launchRequests = .ok y ∧
    y.activeTxnNumber = 1 ∧ y.popIndex = 3 := by
  have hq : Queued (sampleTransactions.flatMap Transaction.requests) (sampleQueue 1) :=
    (Queued.ofRequests _ _ _ _ _ _ (by decide)).1
  obtain ⟨y, hy, hd⟩ := launch_distributes hq (by decide)
  exact ⟨y, hy, hd.active, hd.popIndex⟩

end AllAtOnceTransactionExecutor

end Fugue
