import Fugue.LaunchDistribution

namespace Fugue

open TransactionExecutor

variable {K V S : Type}

/-- An index of `request_queue_pool_` that is read and dereferenced, or a new `pop_index_`. -/
inductive Access
  | read (index : ℕ)
  | popIndex (value : ℕ)

def Access.Within (pushIndex : ℕ) : Access → Prop
  | .read index => index < pushIndex
  | .popIndex value => value ≤ pushIndex

/-- A transaction whose `Commit` or `Abort` is not in the queue. -/
structure OpenTransaction (K : Type) where
  sessionId : ℤ
  operations : List (OperationRequest K)
  unended : ∀ r ∈ operations, r.isEnd = false

def OpenTransaction.requests (t : OpenTransaction K) : List (SessionRequest K) :=
  ⟨t.sessionId, .begin⟩ :: t.operations.map (⟨t.sessionId, ·⟩)

namespace AllAtOnceTransactionExecutor

def pushAccesses (i : ℕ) (x : AllAtOnceTransactionExecutor K V S) : List Access :=
  if x.popIndex < x.pushIndex then
    .popIndex (x.popIndex + 1) :: .read (x.popIndex + 1) ::
      match x.request (x.popIndex + 1), x.task i with
      | some r, some t =>
        if t.sessionId = r.sessionId then
          if r.operation.isEnd then []
          else pushAccesses i { x with toTransactionExecutor := x.setTask i (t.push r),
                                       popIndex := x.popIndex + 1 }
        else []
      | _, _ => []
  else []
termination_by x.pushIndex - x.popIndex

section

variable [Services S]

def begun (x : AllAtOnceTransactionExecutor K V S) (i : ℕ) (t : TransactionTask K V S)
    (r : SessionRequest K) : AllAtOnceTransactionExecutor K V S :=
  { x with toTransactionExecutor := { x.setTask i ((t.reset r.sessionId).push r) with
      activeTxnNumber := x.activeTxnNumber + 1 } }

def launchAccesses (last : ℕ) (x : AllAtOnceTransactionExecutor K V S) : List Access :=
  if x.popIndex < x.pushIndex then
    .read x.popIndex ::
      match x.request x.popIndex with
      | none => []
      | some r =>
        if r.operation.isBegin then
          if x.activeTxnNumber < x.concurrentTxnCount then
            match x.search (fun t => !t.inUse) last with
            | none => []
            | some (i, t) =>
              pushAccesses i (x.begun i t r) ++
                match _h : pushTransaction i (x.begun i t r) with
                | .error _ => []
                | .ok y =>
                  .popIndex (y.popIndex + 1) ::
                    launchAccesses (i + 1) { y with popIndex := y.popIndex + 1 }
          else []
        else []
  else []
termination_by x.pushIndex - x.popIndex
decreasing_by
  obtain ⟨h1, h2⟩ := pushTransaction_index _h
  dsimp only [begun] at h1 h2 ⊢
  omega

end

section

variable {x : AllAtOnceTransactionExecutor K V S} {i : ℕ} {id : ℤ} {l : List (OperationRequest K)}

def Serves (x : AllAtOnceTransactionExecutor K V S) (i : ℕ) (id : ℤ) : Prop :=
  ∃ t, x.task i = some t ∧ t.sessionId = id

theorem Serves.push {t : TransactionTask K V S} (ht : x.task i = some t) (hid : t.sessionId = id)
    (r : SessionRequest K) (n : ℕ) : Serves { x with
      toTransactionExecutor := x.setTask i (t.push r), popIndex := n } i id := by
  obtain ⟨u, hu, -⟩ := task_eq_some.mp ht
  exact ⟨t.push r, task_setTask (List.getElem?_eq_some_iff.mp hu).1 _, hid⟩

theorem pushAccesses_cons {q : OperationRequest K} {t : TransactionTask K V S}
    (hlt : x.popIndex < x.pushIndex) (hreq : x.request (x.popIndex + 1) = some ⟨id, q⟩)
    (ht : x.task i = some t) (hid : t.sessionId = id) :
    pushAccesses i x = .popIndex (x.popIndex + 1) :: .read (x.popIndex + 1) ::
      if q.isEnd then [] else pushAccesses i { x with
        toTransactionExecutor := x.setTask i (t.push ⟨id, q⟩), popIndex := x.popIndex + 1 } := by
  rw [pushAccesses, if_pos hlt, hreq, ht]
  simp only
  rw [if_pos hid]

theorem pushAccesses_within {r : OperationRequest K} (hl : ∀ q ∈ l, q.isEnd = false)
    (hr : r.isEnd = true) (hs : Serves x i id) (hlt : x.popIndex + l.length + 1 < x.pushIndex)
    (hpool : ∀ j q, (l.map (⟨id, ·⟩) ++ [⟨id, r⟩] : List (SessionRequest K))[j]? = some q →
      x.request (x.popIndex + 1 + j) = some q) :
    ∀ a ∈ pushAccesses i x, a.Within x.pushIndex := by
  induction l generalizing x with
  | nil =>
    obtain ⟨t, ht, hid⟩ := hs
    rw [pushAccesses_cons (by omega) (hpool 0 _ rfl) ht hid, if_pos hr]
    intro a ha
    simp only [List.mem_cons, List.not_mem_nil, or_false] at ha
    rw [List.length_nil] at hlt
    rcases ha with rfl | rfl
    · exact Nat.le_of_lt hlt
    · exact hlt
  | cons q l ih =>
    obtain ⟨t, ht, hid⟩ := hs
    rw [List.length_cons] at hlt
    rw [pushAccesses_cons (by omega) (hpool 0 _ rfl) ht hid,
      if_neg (by simp [hl q List.mem_cons_self])]
    intro a ha
    rcases List.mem_cons.mp ha with rfl | ha
    · exact Nat.le_of_lt (by omega : x.popIndex + 1 < x.pushIndex)
    rcases List.mem_cons.mp ha with rfl | ha
    · exact (by omega : x.popIndex + 1 < x.pushIndex)
    refine ih (fun w hw => hl w (List.mem_cons_of_mem _ hw)) (.push ht hid _ _) ?_ ?_ a ha
    · dsimp only
      omega
    · intro j w hw
      have hreq := hpool (j + 1) w hw
      rw [show x.popIndex + 1 + (j + 1) = x.popIndex + 1 + 1 + j by omega] at hreq
      exact hreq

theorem read_pushIndex (hl : ∀ q ∈ l, q.isEnd = false) (hs : Serves x i id)
    (hlen : x.pushIndex = x.popIndex + 1 + l.length)
    (hpool : ∀ j q, (l.map (⟨id, ·⟩) : List (SessionRequest K))[j]? = some q →
      x.request (x.popIndex + 1 + j) = some q) :
    .read x.pushIndex ∈ pushAccesses i x := by
  induction l generalizing x with
  | nil =>
    rw [List.length_nil] at hlen
    rw [pushAccesses, if_pos (by omega), hlen]
    simp
  | cons q l ih =>
    obtain ⟨t, ht, hid⟩ := hs
    rw [List.length_cons] at hlen
    rw [pushAccesses_cons (by omega) (hpool 0 _ rfl) ht hid,
      if_neg (by simp [hl q List.mem_cons_self])]
    apply List.mem_cons_of_mem
    apply List.mem_cons_of_mem
    refine ih (fun w hw => hl w (List.mem_cons_of_mem _ hw)) (.push ht hid _ _) ?_ ?_
    · dsimp only
      omega
    · intro j w hw
      have hreq := hpool (j + 1) w hw
      rw [show x.popIndex + 1 + (j + 1) = x.popIndex + 1 + 1 + j by omega] at hreq
      exact hreq

end

variable [Services S] {x : AllAtOnceTransactionExecutor K V S}

def launchable (x : AllAtOnceTransactionExecutor K V S) : ℕ :=
  min x.freeSlots.length (x.concurrentTxnCount - x.activeTxnNumber).toNat

theorem launchAccesses_full {last : ℕ} {r : SessionRequest K} (hlt : x.popIndex < x.pushIndex)
    (hreq : x.request x.popIndex = some r) (h : x.launchable = 0) :
    launchAccesses last x = [.read x.popIndex] := by
  rw [launchAccesses, if_pos hlt, hreq]
  simp only
  split
  · split
    · next hn =>
      have hfree : x.freeSlots = [] := by
        rw [launchable] at h
        apply List.eq_nil_of_length_eq_zero
        omega
      have hsearch : x.search (fun t => !t.inUse) last = none := by
        have hnone : (x.activeTxn.drop last).findIdx? (fun t => !t.inUse) = none := by
          rw [List.findIdx?_eq_none_iff]
          intro t ht
          exact List.findIdxs_eq_nil_iff.mp hfree t (List.mem_of_mem_drop ht)
        rw [search, hnone]
        rfl
      rw [hsearch]
    · rfl
  · rfl

theorem launchAccesses_begin {last i : ℕ} {t : TransactionTask K V S} {r : SessionRequest K}
    (hlt : x.popIndex < x.pushIndex) (hreq : x.request x.popIndex = some r)
    (hb : r.operation.isBegin = true) (hn : x.activeTxnNumber < x.concurrentTxnCount)
    (hs : x.search (fun t => !t.inUse) last = some (i, t)) :
    launchAccesses last x = .read x.popIndex :: (pushAccesses i (x.begun i t r) ++
      match pushTransaction i (x.begun i t r) with
      | .error _ => []
      | .ok y => .popIndex (y.popIndex + 1) ::
        launchAccesses (i + 1) { y with popIndex := y.popIndex + 1 }) := by
  rw [launchAccesses, if_pos hlt, hreq]
  simp only
  rw [if_pos hb, if_pos hn, hs]
  simp only
  congr 2
  split
  · next m hm => rw [hm]
  · next y hy => rw [hy]

omit [Services S] in
theorem exists_launch {last : ℕ} (hlast : ∀ i ∈ x.freeSlots, last ≤ i) (h : 0 < x.launchable) :
    x.activeTxnNumber < x.concurrentTxnCount ∧ ∃ i slots t, x.freeSlots = i :: slots ∧
      x.search (fun t => !t.inUse) last = some (i, t) ∧ x.task i = some t ∧
      ∀ j ∈ slots, i < j := by
  rw [launchable] at h
  refine ⟨by omega, ?_⟩
  cases hf : x.freeSlots with
  | nil =>
    rw [hf, List.length_nil] at h
    omega
  | cons i slots =>
    obtain ⟨⟨u, hi, hu⟩, hbefore, hleast⟩ := first_free hf
    have ht := task_eq_some.mpr ⟨u, hi, rfl⟩
    refine ⟨i, slots, _, rfl, search_of (fun _ _ _ => rfl) ht (by simp [hu])
      (hlast i (hf ▸ List.mem_cons_self)) fun j w _ hj hw => ?_, ht, hleast⟩
    simpa using hbefore j w hj hw

theorem within_of_full {last : ℕ} {r : SessionRequest K} (hlt : x.popIndex < x.pushIndex)
    (hreq : x.request x.popIndex = some r) (h : x.launchable = 0) :
    ∀ a ∈ launchAccesses last x, a.Within x.pushIndex := by
  intro a ha
  rw [launchAccesses_full hlt hreq h] at ha
  obtain rfl := List.mem_singleton.mp ha
  exact hlt

omit [Services S] in
theorem Queued.tail_request {t : Transaction K} {m : List (SessionRequest K)}
    (hq : Queued (t.requests ++ m) x) (j : ℕ) (q : SessionRequest K)
    (hj : (t.operations.map (⟨t.sessionId, ·⟩) ++ [⟨t.sessionId, t.ending⟩] :
      List (SessionRequest K))[j]? = some q) : x.request (x.popIndex + 1 + j) = some q := by
  have hreq := hq.request (j + 1) q (by
    rw [List.getElem?_append_left]
    · exact hj
    · rw [t.length_requests]
      have hlt := (List.getElem?_eq_some_iff.mp hj).1
      simp only [List.length_append, List.length_map, List.length_singleton] at hlt
      omega)
  rw [show x.popIndex + (j + 1) = x.popIndex + 1 + j by omega] at hreq
  exact hreq

theorem pushTransaction_begun {i : ℕ} {t : Transaction K} {m : List (SessionRequest K)}
    {w : TransactionTask K V S} (hq : Queued (t.requests ++ m) x) (hw : x.task i = some w) :
    ∃ y, pushTransaction i (x.begun i w ⟨t.sessionId, .begin⟩) = .ok y ∧
      (∃ t', y.activeTxn = x.activeTxn.set i t' ∧ t'.inUse = true) ∧
      y.activeTxnNumber = x.activeTxnNumber + 1 ∧ y.pushIndex = x.pushIndex ∧
      Queued m { y with popIndex := y.popIndex + 1 } := by
  have hlen := hq.pushIndex
  rw [List.length_append, t.length_requests] at hlen
  obtain ⟨v, hi, -⟩ := task_eq_some.mp hw
  have hpush := push_tail (x := x.begun i w ⟨t.sessionId, .begin⟩)
    (z := { x.toTransactionExecutor with activeTxnNumber := x.activeTxnNumber + 1 })
    (List.getElem?_eq_some_iff.mp hi).1 t.unended t.ends rfl
    (show ((w.reset t.sessionId).push ⟨t.sessionId, .begin⟩).sessionId = t.sessionId from rfl)
    (by simp only [begun]; omega) hq.tail_request
  refine ⟨_, hpush, ⟨_, rfl, ?_⟩, rfl, rfl, ?_⟩
  · rw [TransactionTask.foldl_push]
    rfl
  · exact hq.drop _ t.length_requests.symm

theorem pushAccesses_begun {i : ℕ} {t : Transaction K} {m : List (SessionRequest K)}
    {w : TransactionTask K V S} (hq : Queued (t.requests ++ m) x) (hw : x.task i = some w) :
    ∀ a ∈ pushAccesses i (x.begun i w ⟨t.sessionId, .begin⟩), a.Within x.pushIndex := by
  have hlen := hq.pushIndex
  rw [List.length_append, t.length_requests] at hlen
  obtain ⟨v, hi, -⟩ := task_eq_some.mp hw
  have hserves : Serves (x.begun i w ⟨t.sessionId, .begin⟩) i t.sessionId :=
    ⟨_, task_setTask (List.getElem?_eq_some_iff.mp hi).1 _, rfl⟩
  exact pushAccesses_within t.unended t.ends hserves (by simp only [begun]; omega) hq.tail_request

theorem accesses_within_iff {last : ℕ} {txns : List (Transaction K)}
    {tail : Option (OpenTransaction K)} (hlast : ∀ i ∈ x.freeSlots, last ≤ i)
    (hq : Queued (txns.flatMap Transaction.requests ++
      (tail.map OpenTransaction.requests).getD []) x) :
    (∀ a ∈ launchAccesses last x, a.Within x.pushIndex) ↔
      tail = none ∨ x.launchable ≤ txns.length := by
  induction txns generalizing x last with
  | nil =>
    have hlen := hq.pushIndex
    cases tail with
    | none =>
      have hpop : x.pushIndex = x.popIndex := hlen
      rw [launchAccesses, if_neg (by omega)]
      simp
    | some u =>
      have hpush : x.pushIndex = x.popIndex + 1 + u.operations.length := by
        rw [hlen]
        simp [OpenTransaction.requests]
        omega
      have hreq : x.request x.popIndex = some ⟨u.sessionId, .begin⟩ := hq.request 0 _ rfl
      rcases Nat.eq_zero_or_pos x.launchable with hz | hpos
      · simp only [hz, List.length_nil, Nat.le_refl, or_true, iff_true]
        exact within_of_full (by omega) hreq hz
      · -- the transaction is launched, and its end is looked for behind the queue
        obtain ⟨hn, i, slots, t, -, hs, ht, -⟩ := exists_launch hlast hpos
        obtain ⟨w, hw, -⟩ := task_eq_some.mp ht
        have hserves : Serves (x.begun i t ⟨u.sessionId, .begin⟩) i u.sessionId :=
          ⟨_, task_setTask (List.getElem?_eq_some_iff.mp hw).1 _, rfl⟩
        have hbad := read_pushIndex u.unended hserves hpush fun j q hj => by
          have hreq := hq.request (j + 1) q hj
          rw [show x.popIndex + (j + 1) = x.popIndex + 1 + j by omega] at hreq
          exact hreq
        constructor
        · intro h
          have hmem : .read x.pushIndex ∈ launchAccesses last x := by
            rw [launchAccesses_begin (by omega) hreq rfl hn hs]
            exact List.mem_cons_of_mem _ (List.mem_append_left _ hbad)
          exact absurd (h _ hmem) (Nat.lt_irrefl _)
        · rintro (hnone | hle)
          · cases hnone
          · exact absurd hpos (Nat.not_lt.mpr hle)
  | cons t rest ih =>
    have hlen := hq.pushIndex
    have hreq : x.request x.popIndex = some ⟨t.sessionId, .begin⟩ := hq.request 0 _ rfl
    rw [List.flatMap_cons, List.append_assoc] at hq
    rw [List.flatMap_cons, List.append_assoc, List.length_append, t.length_requests] at hlen
    rcases Nat.eq_zero_or_pos x.launchable with hz | hpos
    · simp only [hz, Nat.zero_le, or_true, iff_true]
      exact within_of_full (by omega) hreq hz
    obtain ⟨hn, i, slots, w, hfree, hs, hw, hleast⟩ := exists_launch hlast hpos
    obtain ⟨y, hpush, ⟨w', hset, hu⟩, hact, hend, hrest⟩ := pushTransaction_begun hq hw
    have hslots : y.freeSlots = slots := freeSlots_set hfree hset hu
    have hone : x.launchable = y.launchable + 1 := by
      have hcount : y.concurrentTxnCount = x.concurrentTxnCount := by
        rw [concurrentTxnCount, hset, List.length_set]
        rfl
      rw [launchable, launchable, hfree, hslots, hact, hcount, List.length_cons]
      omega
    have hnext : ∀ j ∈ y.freeSlots, i + 1 ≤ j := fun j hj => hleast j (hslots ▸ hj)
    have hiff : (∀ a ∈ launchAccesses (i + 1) { y with popIndex := y.popIndex + 1 },
        a.Within y.pushIndex) ↔ tail = none ∨ y.launchable ≤ rest.length := ih hnext hrest
    have hpop : y.popIndex + 1 ≤ x.pushIndex := by
      have := hrest.pushIndex
      simp only at this
      omega
    rw [launchAccesses_begin (by omega) hreq rfl hn hs, hpush, hone, List.length_cons,
      Nat.add_le_add_iff_right, ← hiff]
    simp only [List.forall_mem_cons, List.forall_mem_append]
    rw [hend]
    constructor
    · rintro ⟨-, -, -, h⟩
      exact h
    · intro h
      exact ⟨(by omega : x.popIndex < x.pushIndex), pushAccesses_begun hq hw, hpop, h⟩

/-- `LaunchRequests` reads only queued requests if and only if no transaction of the queue is without
its end, or the transactions before it take all slots that the call can fill. -/
theorem launch_reads_queued {txns : List (Transaction K)} {tail : Option (OpenTransaction K)}
    (hq : Queued (txns.flatMap Transaction.requests ++
      (tail.map OpenTransaction.requests).getD []) x) :
    (∀ a ∈ launchAccesses 0 x, a.Within x.pushIndex) ↔
      tail = none ∨ x.launchable ≤ txns.length :=
  accesses_within_iff (fun _ _ => Nat.zero_le _) hq

def sampleOpen : OpenTransaction ℕ :=
  ⟨3, [.read ⟨"t", 1⟩ none], by simp [OperationRequest.isEnd]⟩

def sampleOpenQueue (n : ℕ) : AllAtOnceTransactionExecutor ℕ ℕ LocalServices :=
  (sampleTransactions.flatMap Transaction.requests ++ sampleOpen.requests).foldl addRequest
    (init n 8 ⟨.ofBase 0 100, .ofClock fun _ => 5⟩ (fun _ => 0) ⟨"t", 0⟩)

theorem launch_reads_queued_sample : (sampleOpenQueue 2).pushIndex = 7 ∧
    ∀ a ∈ launchAccesses 0 (sampleOpenQueue 2), a.Within (sampleOpenQueue 2).pushIndex := by
  have hq : Queued (sampleTransactions.flatMap Transaction.requests ++
      ((some sampleOpen).map OpenTransaction.requests).getD []) (sampleOpenQueue 2) :=
    (Queued.ofRequests _ _ _ _ _ _ (by decide)).1
  exact ⟨by decide, (launch_reads_queued hq).mpr (.inr (by decide))⟩

/-- With a third slot the request behind the queue is read. -/
theorem launch_reads_behind : ∃ a ∈ launchAccesses 0 (sampleOpenQueue 3),
    ¬ a.Within (sampleOpenQueue 3).pushIndex := by
  have hq : Queued (sampleTransactions.flatMap Transaction.requests ++
      ((some sampleOpen).map OpenTransaction.requests).getD []) (sampleOpenQueue 3) :=
    (Queued.ofRequests _ _ _ _ _ _ (by decide)).1
  by_contra hall
  push Not at hall
  rcases (accesses_within_iff (fun _ _ => Nat.zero_le _) hq).mp hall with hnone | hle
  · cases hnone
  · exact absurd hle (by decide)

end AllAtOnceTransactionExecutor

end Fugue
