import Fugue.ExecutorSteps

namespace Fugue

open TransactionExecutor

variable {K V S : Type}

namespace OperationRequest

def isAccess : OperationRequest K → Bool
  | .insert .. | .update .. | .upsert .. | .delete .. | .read .. | .readOutside .. => true
  | _ => false

def isReadDataStore : OperationRequest K → Bool
  | .readDataStore .. => true
  | _ => false

theorem of_isAccess {r : OperationRequest K} (h : r.isAccess = true) :
    r.isBegin = false ∧ r.isEnd = false ∧ r.isReadDataStore = false := by
  cases r <;> first | exact ⟨rfl, rfl, rfl⟩ | cases h

theorem of_isEnd {r : OperationRequest K} (h : r.isEnd = true) :
    r.isBegin = false ∧ r.isReadDataStore = false := by
  cases r <;> first | exact ⟨rfl, rfl⟩ | cases h

end OperationRequest

/-- A session that runs one transaction: `Begin`, the operations, and `Commit` or `Abort`. -/
structure Session (K : Type) where
  id : ℤ
  operations : List (OperationRequest K)
  ending : OperationRequest K
  accesses : ∀ r ∈ operations, r.isAccess = true
  ends : ending.isEnd = true

namespace Session

def tail (s : Session K) : List (SessionRequest K) :=
  s.operations.map (⟨s.id, ·⟩) ++ [⟨s.id, s.ending⟩]

def requests (s : Session K) : List (SessionRequest K) := ⟨s.id, .begin⟩ :: s.tail

theorem mem_tail {s : Session K} {r : SessionRequest K} (h : r ∈ s.tail) :
    r.sessionId = s.id ∧ r.operation.isBegin = false ∧ r.operation.isReadDataStore = false := by
  rcases List.mem_append.mp h with h | h
  · obtain ⟨op, hop, rfl⟩ := List.mem_map.mp h
    obtain ⟨hb, -, hd⟩ := OperationRequest.of_isAccess (s.accesses op hop)
    exact ⟨rfl, hb, hd⟩
  · obtain rfl := List.mem_singleton.mp h
    exact ⟨rfl, OperationRequest.of_isEnd s.ends⟩

end Session

theorem TransactionTask.foldl_push (t : TransactionTask K V S) (l : List (SessionRequest K)) :
    l.foldl push t = { t with request := { t.request with
      operationRequestQueue := t.request.operationRequestQueue ++ l } } := by
  induction l generalizing t with
  | nil => simp
  | cons r l ih =>
    rw [List.foldl_cons, ih]
    simp [push, TransactionRequest.pushRequest]

variable [DecidableEq K] [Services S]

/-- The switches of the two executors differ in the requests for `ReadDataStore` only. -/
theorem handle_eq (driver : Bool) {r : OperationRequest K} (h : r.isReadDataStore = false) :
    (RuntimeTransactionExecutor.handle r : TransactionExecution K V S → _) =
      AllAtOnceTransactionExecutor.handle driver r := by
  cases r <;> first | rfl | cases h

theorem TransactionTask.serve_congr {handle handle' : Handling K V S} {t : TransactionTask K V S}
    (h : ∀ r ∈ t.request.operationRequestQueue, handle r.operation = handle' r.operation) :
    t.serve handle = t.serve handle' := by
  have hn : ∀ e, ({ t with execution := e } : TransactionTask K V S).next handle =
      ({ t with execution := e } : TransactionTask K V S).next handle' := by
    intro e
    unfold next TransactionRequest.currentRequest
    simp only
    cases hr : t.request.operationRequestQueue[t.request.current]? with
    | none => rfl
    | some r =>
      simp only [Option.map_some]
      rw [h r (List.mem_of_getElem? hr)]
  unfold serve
  simp only
  rw [hn]

namespace TransactionExecutor

variable {x x' : TransactionExecutor K V S} {handle handle' : Handling K V S}

structure Slotted (n : ℕ) (rest : List (Session K)) (x : TransactionExecutor K V S) : Prop where
  tasks : ∀ t ∈ x.activeTxn, TaskOk t
  size : x.activeTxn.length = n
  active : x.activeTxnNumber = x.activeTxn.countP (·.inUse)
  queue : ∀ t ∈ x.activeTxn, ∀ r ∈ t.request.operationRequestQueue,
    r.operation.isReadDataStore = false
  fresh : ∀ t ∈ x.activeTxn, t.inUse = true → ∀ s ∈ rest, t.sessionId ≠ s.id

namespace Slotted

variable {n : ℕ} {rest : List (Session K)}

theorem init (n : ℕ) (rest : List (Session K)) (services : S) (memory : Addr → V)
    (key : SetKey K) : Slotted n rest (TransactionExecutor.init n services memory key) := by
  have hmem : ∀ t ∈ (TransactionExecutor.init n services memory key).activeTxn,
      t = .init services memory key := fun t ht => List.eq_of_mem_replicate ht
  refine ⟨fun t ht => ?_, List.length_replicate, ?_, fun t ht r hr => ?_, fun t ht hu => ?_⟩
  · rw [hmem t ht]
    exact .init services memory key
  · rw [TransactionExecutor.init, List.countP_replicate]
    simp [TransactionTask.init]
  · rw [hmem t ht] at hr
    cases hr
  · rw [hmem t ht] at hu
    cases hu

theorem nonneg (h : Slotted n rest x) : 0 ≤ x.activeTxnNumber := by
  rw [h.active]
  omega

theorem step (h : Slotted n rest x) (hh : Dispatches handle) {a : SlotAction V S}
    (hs : step handle x a = some x') : Slotted n rest x' := by
  rcases step_cases hh h.tasks hs with ⟨ht, hn, -⟩ | ⟨i, t, t', hc⟩
  · exact ⟨ht ▸ h.tasks, ht ▸ h.size, by rw [hn, ht, h.active], ht ▸ h.queue, ht ▸ h.fresh⟩
  have hold := List.mem_of_getElem? hc.old
  have hmem : ∀ u ∈ x'.activeTxn, u ∈ x.activeTxn ∨ u = t' := by
    intro u hu
    rw [hc.new] at hu
    exact List.mem_or_eq_of_mem_set hu
  refine ⟨fun u hu => ?_, ?_, ?_, fun u hu => ?_, fun u hu huse => ?_⟩
  · rcases hmem u hu with hu | rfl
    · exact h.tasks u hu
    · exact hc.ok
  · rw [hc.new, List.length_set, h.size]
  · rw [hc.new, countP_set_inUse hc.old]
    by_cases hd : x.Releases a
    · obtain ⟨hu, -, hu', hn⟩ := hc.leaves hd
      rw [hn, hu, hu', h.active]
      simp
    · obtain ⟨hu, hn⟩ := hc.stays hd
      rw [hn, hu, h.active]
      omega
  · rcases hmem u hu with hu | rfl
    · exact h.queue u hu
    · rw [hc.queue]
      exact h.queue t hold
  · rcases hmem u hu with hu | rfl
    · exact h.fresh u hu huse
    · rw [hc.sessionId]
      apply h.fresh t hold
      by_cases hd : x.Releases a
      · exact (hc.leaves hd).1
      · rw [← (hc.stays hd).1]
        exact huse

theorem run (h : Slotted n rest x) (hh : Dispatches handle) {as : List (SlotAction V S)}
    (hr : run (TransactionExecutor.step handle) x as = some x') : Slotted n rest x' :=
  run_invariant (fun _ _ _ hi hs => hi.step hh hs) h hr

end Slotted

section

variable {n : ℕ} {rest : List (Session K)} [Handler K V S]

theorem advanceSlot_congr (hq : ∀ t ∈ x.activeTxn, ∀ r ∈ t.request.operationRequestQueue,
      handle r.operation = handle' r.operation) (i : ℕ) :
    advanceSlot handle i x = advanceSlot handle' i x := by
  unfold advanceSlot
  cases ht : x.task i with
  | none => rfl
  | some t =>
    simp only
    split
    · cases hv : visitSlot i t.execution.operationVector.length x with
      | error m => rfl
      | ok y =>
        have hg : Goes handle x y := .visitSlot hv
        obtain ⟨w, hw, -, -, hreq⟩ := hg.task ht
        obtain ⟨u, hu, rfl⟩ := task_eq_some.mp ht
        have hserve : w.serve handle = w.serve handle' := by
          apply TransactionTask.serve_congr
          rw [hreq]
          exact hq u (List.mem_of_getElem? hu)
        simp only [Except.map, serveSlot, hw, hserve]
    · rfl

theorem advanceFrom_congr (hh : Dispatches handle)
    (heq : ∀ r : OperationRequest K, r.isReadDataStore = false → handle r = handle' r)
    (h : Slotted n rest x) (i k : ℕ) : advanceFrom handle i k x = advanceFrom handle' i k x := by
  induction k generalizing i x with
  | zero => rfl
  | succ k ih =>
    have hslot : advanceSlot handle i x = advanceSlot handle' i x :=
      advanceSlot_congr (fun t ht r hr => heq _ (h.queue t ht r hr)) i
    unfold advanceFrom
    rw [← hslot]
    cases ha : advanceSlot handle i x with
    | error m => rfl
    | ok p =>
      obtain ⟨as, hr⟩ := advanceSlot_run (b := p.2) ha
      simp only
      rw [ih (h.run hh hr)]

theorem advanceSlot_active {i : ℕ} (h : advanceSlot handle i x = .ok (x', false)) :
    x'.activeTxnNumber = x.activeTxnNumber := by
  unfold advanceSlot at h
  split at h
  · cases h
    rfl
  · next t ht =>
    split at h
    · cases hv : visitSlot i t.execution.operationVector.length x with
      | error m =>
        rw [hv] at h
        cases h
      | ok y =>
        have hy : Goes handle x y := .visitSlot hv
        have hnum := (hy.map (f := fun t => t.inUse) fun _ _ => rfl).2
        obtain ⟨w, hw, -⟩ := hy.task ht
        simp only [hv, Except.map, serveSlot, hw] at h
        obtain ⟨rfl, hf⟩ := Prod.mk.inj (Except.ok.inj h)
        have hg : Goes handle (y.settle i (w.serve handle)) _ := .react w.execution.log i _
        rw [(hg.map (f := fun t => t.inUse) fun _ _ => rfl).2, ← hnum]
        rw [settle, if_neg (by simp [hf])]
        rfl
    · cases h
      rfl

theorem advanceFrom_active {i k : ℕ} (h : advanceFrom handle i k x = .ok (x', false)) :
    x'.activeTxnNumber = x.activeTxnNumber := by
  induction k generalizing i x with
  | zero =>
    cases h
    rfl
  | succ k ih =>
    unfold advanceFrom at h
    split at h
    · cases h
    · next y b hy =>
      cases hz : advanceFrom handle (i + 1) k y with
      | error m =>
        rw [hz] at h
        cases h
      | ok z =>
        rw [hz] at h
        obtain ⟨rfl, hb⟩ := Prod.mk.inj (Except.ok.inj h)
        obtain ⟨rfl, hf⟩ := Bool.or_eq_false_iff.mp hb
        rw [ih (hz.trans (by rw [← hf])), advanceSlot_active hy]

theorem Slotted.swept (h : Slotted n rest x) (hh : Dispatches handle) {b : Bool}
    (ha : x.advanceAll handle = .ok (x', b)) : Slotted n rest x'.sendBatch ∧
      (b = false → x'.sendBatch.activeTxnNumber = x.activeTxnNumber) := by
  obtain ⟨as, hr⟩ := advanceAll_run ha
  have hg : Goes handle x' _ := .deliverAll x' (Handler.sendBatch x'.services)
  obtain ⟨bs, hb, -⟩ := id hg
  refine ⟨(h.run hh hr).run hh hb, ?_⟩
  rintro rfl
  have hnum : x'.activeTxnNumber = x.activeTxnNumber := advanceFrom_active ha
  rw [← hnum]
  exact (hg.map (f := fun t => t.inUse) fun _ _ => rfl).2

end

def place (x : TransactionExecutor K V S) (i : ℕ) (t : TransactionTask K V S) (s : Session K) :
    TransactionExecutor K V S :=
  { x.setTask i (s.tail.foldl TransactionTask.push ((t.reset s.id).push ⟨s.id, .begin⟩)) with
    activeTxnNumber := x.activeTxnNumber + 1 }

section

variable {n i : ℕ} {rest : List (Session K)} {s : Session K} {t : TransactionTask K V S}

theorem Slotted.place (h : Slotted n (s :: rest) x) (hd : ∀ s' ∈ rest, s.id ≠ s'.id)
    (ht : x.task i = some t) (hu : t.inUse = false) : Slotted n rest (x.place i t s) := by
  obtain ⟨u, hi, rfl⟩ := task_eq_some.mp ht
  have hu : u.inUse = false := hu
  have hold := List.mem_of_getElem? hi
  have hok := (((h.tasks u hold).share x.services x.memory).reset hu s.id).push ⟨s.id, .begin⟩
  obtain ⟨t', ht'⟩ : ∃ t', t' = s.tail.foldl TransactionTask.push
      ((TransactionTask.reset { u with execution := u.execution.share x.services x.memory }
        s.id).push ⟨s.id, .begin⟩) := ⟨_, rfl⟩
  have hnew : (x.place i { u with execution := u.execution.share x.services x.memory } s).activeTxn =
      x.activeTxn.set i t' := by
    rw [ht']
    rfl
  rw [TransactionTask.foldl_push] at ht'
  have hmem : ∀ w ∈ x.activeTxn.set i t', w ∈ x.activeTxn ∨ w = t' := fun w =>
    List.mem_or_eq_of_mem_set
  have huse : t'.inUse = true := by
    rw [ht']
    rfl
  refine ⟨fun w hw => ?_, ?_, ?_, fun w hw => ?_, fun w hw hwu s' hs' => ?_⟩
  · rw [hnew] at hw
    rcases hmem w hw with hw | rfl
    · exact h.tasks w hw
    · rw [ht']
      exact ⟨hok.alive, fun hwu hr => hok.serving hwu fun r hmr => hr r (List.mem_append_left _ hmr),
        hok.released⟩
  · rw [hnew, List.length_set, h.size]
  · change x.activeTxnNumber + 1 = _
    rw [hnew, countP_set_inUse hi, h.active, hu, huse]
    simp
  · rw [hnew] at hw
    rcases hmem w hw with hw | rfl
    · exact h.queue w hw
    · intro r hr
      rw [ht'] at hr
      rcases List.mem_append.mp hr with hr | hr
      · obtain rfl := List.mem_singleton.mp hr
        rfl
      · exact (Session.mem_tail hr).2.2
  · rw [hnew] at hw
    rcases hmem w hw with hw | rfl
    · exact h.fresh w hw hwu s' (List.mem_cons_of_mem _ hs')
    · rw [ht']
      exact hd s' hs'

theorem Slotted.exists_free (h : Slotted n (s :: rest) x) (hn : x.activeTxnNumber < n) :
    ∃ i t, x.search (fun t => !t.inUse) 0 = some (i, t) ∧ x.task i = some t ∧ t.inUse = false ∧
      ∀ j u, j < i → x.activeTxn[j]? = some u → u.inUse = true := by
  obtain ⟨i, u, hs⟩ := TransactionExecutor.exists_free h.active (by
    rwa [concurrentTxnCount, h.size])
  obtain ⟨hi, hui, -, hfirst⟩ := search_eq_some (fun _ _ _ => rfl) hs
  refine ⟨i, u, hs, hi, by simpa using hui, fun j w hj hw => ?_⟩
  simpa using hfirst j w (Nat.zero_le j) hj hw

end

end TransactionExecutor

namespace RuntimeTransactionExecutor

variable {x y : RuntimeTransactionExecutor K V S} {r : SessionRequest K} {l : List (SessionRequest K)}

omit [DecidableEq K] [Services S] in
theorem fetch_of_waiting (h : x.waiting = r :: l) :
    x.fetch = some (r, { x with currentRequest := some r, requestQueuePool := l }) := by
  obtain ⟨z, queue, current⟩ := x
  cases current with
  | some q =>
    obtain ⟨rfl, rfl⟩ := List.cons.inj h
    rfl
  | none =>
    obtain rfl : queue = r :: l := h
    rfl

omit [DecidableEq K] in
theorem launchRequests_none (h : x.launch = .ok (y, none)) : x.launchRequests = .ok y := by
  unfold launchRequests
  split
  · next m hm => cases hm.symm.trans h
  · next z hz => cases hz.symm.trans h; rfl
  · next z p hz => cases hz.symm.trans h

omit [DecidableEq K] in
theorem launchRequests_some {p : SessionRequest K × ℕ} (h : x.launch = .ok (y, some p)) :
    x.launchRequests = y.launchRequests := by
  rw [launchRequests]
  split
  · next m hm => cases hm.symm.trans h
  · next z hz => cases hz.symm.trans h
  · next z q hz => cases hz.symm.trans h; rfl

omit [DecidableEq K] in
theorem launchRequests_nil (h : x.waiting = []) : x.launchRequests = .ok x := by
  apply launchRequests_none
  cases hf : x.fetch with
  | none => simp only [launch, hf]
  | some p =>
    have hw := (fetch_cases hf).2.1
    rw [h] at hw
    cases hw

omit [DecidableEq K] in
theorem launchRequests_full (h : x.waiting = r :: l) (hb : r.operation.isBegin = true)
    (hn : (x.concurrentTxnCount : ℤ) ≤ x.activeTxnNumber) :
    x.launchRequests = .ok { x with currentRequest := some r, requestQueuePool := l } := by
  apply launchRequests_none
  unfold launch
  rw [fetch_of_waiting h]
  simp only
  rw [if_pos hb, if_pos hn]

omit [DecidableEq K] in
theorem launch_tail {z : TransactionExecutor K V S} {i : ℕ} {t : TransactionTask K V S} {id : ℤ}
    (hi : i < z.activeTxn.length)
    (hfirst : ∀ j u, j < i → z.activeTxn[j]? = some u → u.sessionId ≠ id)
    (hl : ∀ r ∈ l, r.sessionId = id ∧ r.operation.isBegin = false)
    {queue : List (SessionRequest K)} (hx : x.toTransactionExecutor = z.setTask i t)
    (hid : t.sessionId = id) (hw : x.waiting = l ++ queue) :
    ∃ y : RuntimeTransactionExecutor K V S,
      x.launchRequests = y.launchRequests ∧ y.waiting = queue ∧
      y.toTransactionExecutor = z.setTask i (l.foldl TransactionTask.push t) := by
  induction l generalizing x t with
  | nil => exact ⟨x, rfl, hw, hx⟩
  | cons r l ih =>
    obtain ⟨hr, hb⟩ := hl r List.mem_cons_self
    have ht : x.task i = some t := by
      rw [hx]
      exact task_setTask hi t
    have hsearch : x.search (fun t => t.sessionId == r.sessionId) 0 = some (i, t) := by
      apply search_of (fun _ _ _ => rfl) ht (by simp [hid, hr]) (Nat.zero_le i)
      intro j u _ hj hu
      rw [hx] at hu
      simp only [setTask, List.getElem?_set_ne (Nat.ne_of_gt hj)] at hu
      simpa [hr] using hfirst j u hj hu
    let y : RuntimeTransactionExecutor K V S := { x with
      toTransactionExecutor := x.setTask i (t.push r), currentRequest := none,
      requestQueuePool := l ++ queue }
    have hlaunch : x.launch = .ok (y, some (r, i)) := by
      unfold launch
      rw [fetch_of_waiting hw]
      simp only
      rw [if_neg (by simp [hb]), hsearch]
      rfl
    have hy : y.toTransactionExecutor = z.setTask i (t.push r) := by
      change x.setTask i (t.push r) = _
      rw [hx, setTask_setTask]
    obtain ⟨w, h1, h2, h3⟩ := ih (fun q hq => hl q (List.mem_cons_of_mem _ hq)) hy hid rfl
    exact ⟨w, (launchRequests_some hlaunch).trans h1, h2, h3⟩

theorem launch_session {n i : ℕ} {s : Session K} {rest : List (Session K)}
    {t : TransactionTask K V S} {queue : List (SessionRequest K)}
    (h : Slotted n (s :: rest) x.toTransactionExecutor) (hn : x.activeTxnNumber < n)
    (hw : x.waiting = s.requests ++ queue)
    (hs : x.search (fun t => !t.inUse) 0 = some (i, t)) (ht : x.task i = some t)
    (hfirst : ∀ j u, j < i → x.activeTxn[j]? = some u → u.inUse = true) :
    ∃ y : RuntimeTransactionExecutor K V S,
      x.launchRequests = y.launchRequests ∧ y.waiting = queue ∧
      y.toTransactionExecutor = x.place i t s := by
  obtain ⟨u, hu, -⟩ := task_eq_some.mp ht
  have hi := (List.getElem?_eq_some_iff.mp hu).1
  let b : TransactionExecutor K V S :=
    { x.toTransactionExecutor with activeTxnNumber := x.activeTxnNumber + 1 }
  let t' := (t.reset s.id).push ⟨s.id, .begin⟩
  let y : RuntimeTransactionExecutor K V S :=
    { toTransactionExecutor := b.setTask i t', currentRequest := none,
      requestQueuePool := s.tail ++ queue }
  have hlaunch : x.launch = .ok (y, some (⟨s.id, .begin⟩, i)) := by
    unfold launch
    rw [fetch_of_waiting hw]
    simp only
    rw [if_pos (show (OperationRequest.begin : OperationRequest K).isBegin = true from rfl), if_neg,
      hs]
    · rfl
    · rw [concurrentTxnCount, h.size]
      omega
  obtain ⟨w, h1, h2, h3⟩ := launch_tail (x := y) (z := b) (i := i) (t := t') hi
    (fun j u hj hu => h.fresh u (List.mem_of_getElem? hu) (hfirst j u hj hu) s List.mem_cons_self)
    (fun r hr => ⟨(Session.mem_tail hr).1, (Session.mem_tail hr).2.1⟩) rfl rfl rfl
  exact ⟨w, (launchRequests_some hlaunch).trans h1, h2, h3⟩

end RuntimeTransactionExecutor

namespace AllAtOnceTransactionExecutor

variable {x : AllAtOnceTransactionExecutor K V S}

omit [DecidableEq K] [Services S] in
theorem push_tail {z : TransactionExecutor K V S} {i : ℕ} {t : TransactionTask K V S} {id : ℤ}
    (hi : i < z.activeTxn.length) {l : List (OperationRequest K)} {r : OperationRequest K}
    (hl : ∀ q ∈ l, q.isEnd = false) (hr : r.isEnd = true)
    (hx : x.toTransactionExecutor = z.setTask i t) (hid : t.sessionId = id)
    (hlt : x.popIndex + l.length < x.pushIndex)
    (hpool : ∀ j q, (l.map (⟨id, ·⟩) ++ [⟨id, r⟩] : List (SessionRequest K))[j]? = some q →
      x.request (x.popIndex + 1 + j) = some q) :
    pushTransaction i x = .ok { x with
      toTransactionExecutor := z.setTask i
        ((l.map (⟨id, ·⟩) ++ [⟨id, r⟩] : List (SessionRequest K)).foldl TransactionTask.push t)
      popIndex := x.popIndex + l.length + 1 } := by
  induction l generalizing x t with
  | nil =>
    have ht : x.task i = some t := by
      rw [hx]
      exact task_setTask hi t
    have hreq : x.request (x.popIndex + 1) = some ⟨id, r⟩ := hpool 0 _ rfl
    rw [pushTransaction, if_pos (by simpa using hlt), hreq, ht]
    simp only
    rw [if_pos hid, if_pos hr, hx, setTask_setTask]
    rfl
  | cons q l ih =>
    have ht : x.task i = some t := by
      rw [hx]
      exact task_setTask hi t
    have hreq : x.request (x.popIndex + 1) = some ⟨id, q⟩ := hpool 0 _ rfl
    have hq := hl q List.mem_cons_self
    rw [List.length_cons] at hlt
    rw [pushTransaction, if_pos (by omega), hreq, ht]
    simp only
    rw [if_pos hid, if_neg (by simp [hq]), ih (fun w hw => hl w (List.mem_cons_of_mem _ hw))
      (t := t.push ⟨id, q⟩)]
    · simp only [List.map_cons, List.cons_append, List.foldl_cons, List.length_cons]
      rw [show x.popIndex + 1 + l.length + 1 = x.popIndex + (l.length + 1) + 1 by omega]
    · simp only
      rw [hx, setTask_setTask]
    · exact hid
    · simp only
      omega
    · intro j w hw
      have := hpool (j + 1) w hw
      simp only [request] at this ⊢
      rwa [show x.popIndex + 1 + 1 + j = x.popIndex + 1 + (j + 1) by omega]

omit [DecidableEq K] in
theorem launch_first {i last : ℕ} {id : ℤ} {l : List (OperationRequest K)} {r : OperationRequest K}
    {t : TransactionTask K V S} (hl : ∀ q ∈ l, q.isEnd = false) (hr : r.isEnd = true)
    (hn : x.activeTxnNumber < x.concurrentTxnCount) (hlt : x.popIndex + l.length + 1 < x.pushIndex)
    (hpool : ∀ j q, (⟨id, .begin⟩ :: (l.map (⟨id, ·⟩) ++ [⟨id, r⟩]) : List (SessionRequest K))[j]? =
      some q → x.request (x.popIndex + j) = some q)
    (ht : x.task i = some t) (hu : t.inUse = false) (hlast : last ≤ i)
    (hfirst : ∀ j u, last ≤ j → j < i → x.activeTxn[j]? = some u → u.inUse = true) :
    launchFrom last x = launchFrom (i + 1) { x with
      toTransactionExecutor := { x.setTask i
        ((l.map (⟨id, ·⟩) ++ [⟨id, r⟩] : List (SessionRequest K)).foldl TransactionTask.push
          ((t.reset id).push ⟨id, .begin⟩)) with activeTxnNumber := x.activeTxnNumber + 1 }
      popIndex := x.popIndex + l.length + 2 } := by
  obtain ⟨u, hui, -⟩ := task_eq_some.mp ht
  have hi := (List.getElem?_eq_some_iff.mp hui).1
  have hsearch : x.search (fun t => !t.inUse) last = some (i, t) :=
    search_of (fun _ _ _ => rfl) ht (by simp [hu]) hlast fun j w hml hj hw => by
      simpa using hfirst j w hml hj hw
  have hreq : x.request x.popIndex = some ⟨id, .begin⟩ := hpool 0 _ rfl
  let b : TransactionExecutor K V S :=
    { x.toTransactionExecutor with activeTxnNumber := x.activeTxnNumber + 1 }
  have hpush := push_tail (x := { x with
      toTransactionExecutor := b.setTask i ((t.reset id).push ⟨id, .begin⟩) }) (z := b)
    (i := i) (l := l) (r := r) hi hl hr rfl rfl (by dsimp only; omega) fun j q hq => by
      have := hpool (j + 1) q hq
      simp only [request] at this ⊢
      rwa [show x.popIndex + 1 + j = x.popIndex + (j + 1) by omega]
  rw [launchFrom, if_pos (by omega), hreq]
  simp only
  rw [if_pos (show (OperationRequest.begin : OperationRequest K).isBegin = true from rfl),
    if_pos hn, hsearch]
  simp only
  split
  · next m hm => cases hm.symm.trans hpush
  · next y hy =>
    cases hy.symm.trans hpush
    rfl

theorem launch_session {n i last : ℕ} {s : Session K} {rest : List (Session K)}
    {t : TransactionTask K V S} (h : Slotted n (s :: rest) x.toTransactionExecutor)
    (hn : x.activeTxnNumber < n) (hlt : x.popIndex + s.tail.length < x.pushIndex)
    (hpool : ∀ j r, s.requests[j]? = some r → x.request (x.popIndex + j) = some r)
    (ht : x.task i = some t) (hu : t.inUse = false) (hlast : last ≤ i)
    (hfirst : ∀ j u, j < i → x.activeTxn[j]? = some u → u.inUse = true) :
    launchFrom last x = launchFrom (i + 1) { x with
      toTransactionExecutor := x.place i t s, popIndex := x.popIndex + s.requests.length } := by
  have htail : s.tail.length = s.operations.length + 1 := by simp [Session.tail]
  rw [launch_first (fun q hq => (OperationRequest.of_isAccess (s.accesses q hq)).2.1) s.ends
    (by rwa [concurrentTxnCount, h.size]) (by omega) hpool ht hu hlast
    fun j w _ hj hw => hfirst j w hj hw]
  simp only [Session.requests, List.length_cons, htail]
  rfl

end AllAtOnceTransactionExecutor

/-- The two executors are in the same state, and the sessions of `rest` wait in both. -/
structure Paired (n : ℕ) (rest : List (Session K)) (x : RuntimeTransactionExecutor K V S)
    (y : AllAtOnceTransactionExecutor K V S) : Prop where
  same : y.toTransactionExecutor = x.toTransactionExecutor
  slotted : Slotted n rest x.toTransactionExecutor
  distinct : (rest.map Session.id).Nodup
  waiting : x.waiting = rest.flatMap Session.requests
  pushIndex : y.pushIndex = y.popIndex + (rest.flatMap Session.requests).length
  pool : ∀ j r, (rest.flatMap Session.requests)[j]? = some r →
    y.request (y.popIndex + j) = some r

namespace Paired

variable {n : ℕ} {rest : List (Session K)} {x : RuntimeTransactionExecutor K V S}
  {y : AllAtOnceTransactionExecutor K V S}

theorem goesOn (h : Paired n rest x y) : x.goesOn = y.goesOn := by
  have hactive : y.activeTxnNumber = x.activeTxnNumber := by rw [h.same]
  have hqueue : x.requestQueuePool.isEmpty = (y.popIndex == y.pushIndex) := by
    have hw := h.waiting
    cases rest with
    | nil =>
      rw [RuntimeTransactionExecutor.waiting, List.flatMap_nil] at hw
      obtain ⟨-, hnil⟩ := List.append_eq_nil_iff.mp hw
      simp [hnil, h.pushIndex]
    | cons s rest =>
      -- the first session has at least two requests, one of which is in the queue
      have hne : x.requestQueuePool ≠ [] := by
        intro hnil
        rw [RuntimeTransactionExecutor.waiting, hnil, List.append_nil] at hw
        have hlen := congrArg List.length hw
        cases hc : x.currentRequest <;>
          simp [hc, Session.requests, Session.tail] at hlen
      have hidx : y.popIndex ≠ y.pushIndex := by
        rw [h.pushIndex]
        simp [Session.requests]
      rw [beq_eq_false_iff_ne.mpr hidx]
      exact List.isEmpty_eq_false_iff.mpr hne
  simp only [RuntimeTransactionExecutor.goesOn, AllAtOnceTransactionExecutor.goesOn, hqueue,
    hactive, bne]

theorem launch_full (h : Paired n rest x y) (hf : rest = [] ∨ (n : ℤ) ≤ x.activeTxnNumber) :
    ∃ x', x.launchRequests = .ok x' ∧ Paired n rest x' y ∧
      x'.toTransactionExecutor = x.toTransactionExecutor := by
  cases rest with
  | nil => exact ⟨x, RuntimeTransactionExecutor.launchRequests_nil h.waiting, h, rfl⟩
  | cons s rest =>
    have hn := hf.resolve_left (List.cons_ne_nil s rest)
    have hw : x.waiting = ⟨s.id, .begin⟩ :: (s.tail ++ rest.flatMap Session.requests) := h.waiting
    refine ⟨_, RuntimeTransactionExecutor.launchRequests_full hw rfl ?_, ⟨h.same, h.slotted,
      h.distinct, rfl, h.pushIndex, h.pool⟩, rfl⟩
    rw [concurrentTxnCount, h.slotted.size]
    exact hn

theorem launch (h : Paired n rest x y) {last : ℕ}
    (hlast : ∀ j u, j < last → x.activeTxn[j]? = some u → u.inUse = true) :
    ∃ rest' x' y', x.launchRequests = .ok x' ∧ y.launchFrom last = .ok y' ∧ Paired n rest' x' y' ∧
      (rest' = [] ∨ (n : ℤ) ≤ x'.activeTxnNumber) ∧ x.activeTxnNumber ≤ x'.activeTxnNumber ∧
      (rest ≠ [] → (n : ℤ) ≤ x'.activeTxnNumber ∨ x.activeTxnNumber < x'.activeTxnNumber) := by
  induction rest generalizing x y last with
  | nil =>
    obtain ⟨x', hx, hp, heq⟩ := h.launch_full (.inl rfl)
    refine ⟨[], x', y, hx, ?_, hp, .inl rfl, heq ▸ Int.le_refl _, fun hne => absurd rfl hne⟩
    have hidx := h.pushIndex
    simp only [List.flatMap_nil, List.length_nil, Nat.add_zero] at hidx
    rw [AllAtOnceTransactionExecutor.launchFrom, if_neg (by omega)]
  | cons s rest ih =>
    by_cases hn : (n : ℤ) ≤ x.activeTxnNumber
    · obtain ⟨x', hx, hp, heq⟩ := h.launch_full (.inr hn)
      refine ⟨s :: rest, x', y, hx, ?_, hp, .inr ?_, heq ▸ Int.le_refl _, fun _ => .inl ?_⟩
      · have hidx := h.pushIndex
        simp only [List.flatMap_cons, Session.requests, List.length_append, List.length_cons] at hidx
        have hreq : y.request y.popIndex = some ⟨s.id, .begin⟩ := h.pool 0 _ rfl
        rw [AllAtOnceTransactionExecutor.launchFrom, if_pos (by omega), hreq]
        simp only
        rw [if_pos (show (OperationRequest.begin : OperationRequest K).isBegin = true from rfl),
          if_neg]
        rw [h.same, concurrentTxnCount, h.slotted.size]
        omega
      · rwa [heq]
      · rwa [heq]
    · have hn : x.activeTxnNumber < n := by omega
      obtain ⟨i, t, hs, ht, hu, hfirst⟩ := h.slotted.exists_free hn
      have hle : last ≤ i := by
        by_contra hlt
        obtain ⟨u, hui, rfl⟩ := task_eq_some.mp ht
        have hin := hlast i u (by omega) hui
        rw [show u.inUse = false from hu] at hin
        cases hin
      obtain ⟨hd, hdis⟩ := List.nodup_cons.mp h.distinct
      have hd' : ∀ s' ∈ rest, s.id ≠ s'.id :=
        fun s' hs' heq => hd (heq ▸ List.mem_map_of_mem hs')
      obtain ⟨w, hxw, hww, hwx⟩ := RuntimeTransactionExecutor.launch_session h.slotted hn h.waiting
        hs ht hfirst
      have hidx := h.pushIndex
      rw [List.flatMap_cons, List.length_append] at hidx
      have hpool := h.pool
      rw [List.flatMap_cons] at hpool
      have hy := AllAtOnceTransactionExecutor.launch_session (x := y)
        (h.same ▸ h.slotted) (by rwa [h.same]) (by simp [Session.requests] at hidx; omega)
        (fun j r hj => hpool j r (by
          rw [List.getElem?_append_left (List.getElem?_eq_some_iff.mp hj).1]
          exact hj)) (by rwa [h.same]) hu hle (by rwa [h.same])
      have hpair : Paired n rest w { y with
          toTransactionExecutor := y.place i t s
          popIndex := y.popIndex + s.requests.length } := by
        refine ⟨?_, ?_, hdis, hww, ?_, fun j r hj => ?_⟩
        · rw [hwx, h.same]
        · rw [hwx]
          exact h.slotted.place hd' ht hu
        · simp only
          omega
        · have := hpool (s.requests.length + j) r (by
            rw [List.getElem?_append_right (Nat.le_add_right _ _), Nat.add_sub_cancel_left]
            exact hj)
          rwa [← Nat.add_assoc] at this
      have hact : w.activeTxnNumber = x.activeTxnNumber + 1 := by rw [hwx]; rfl
      have hbusy : ∀ j u, j < i + 1 → w.activeTxn[j]? = some u → u.inUse = true := by
        intro j u hj hu'
        rw [hwx, place] at hu'
        by_cases hji : j = i
        · subst hji
          obtain ⟨v, hv, -⟩ := task_eq_some.mp ht
          have hlt := (List.getElem?_eq_some_iff.mp hv).1
          simp only [setTask, List.getElem?_set_self hlt, Option.some.injEq] at hu'
          rw [← hu', TransactionTask.foldl_push]
          rfl
        · simp only [setTask, List.getElem?_set_ne (Ne.symm hji)] at hu'
          exact hfirst j u (by omega) hu'
      obtain ⟨rest', x', y', hx', hy', hp, hf, hmono, -⟩ := ih hpair hbusy
      refine ⟨rest', x', y', hxw.trans hx', hy.trans hy', hp, hf, by omega, fun _ => .inr ?_⟩
      omega

omit [DecidableEq K] [Services S] in
theorem addRequests (n capacity : ℕ) (services : S) (memory : Addr → V) (key : SetKey K)
    (l : List (SessionRequest K)) (hl : l.length ≤ capacity) :
    let x := l.foldl RuntimeTransactionExecutor.addRequest (.init n services memory key)
    let y := l.foldl AllAtOnceTransactionExecutor.addRequest (.init n capacity services memory key)
    x.toTransactionExecutor = .init n services memory key ∧
      y.toTransactionExecutor = .init n services memory key ∧ x.waiting = l ∧ y.popIndex = 0 ∧
      y.pushIndex = l.length ∧ y.requestQueuePool.length = capacity ∧
      ∀ j r, l[j]? = some r → y.request j = some r := by
  induction l using List.reverseRecOn with
  | nil => exact ⟨rfl, rfl, rfl, rfl, rfl, List.length_replicate, fun j r hj => by simp at hj⟩
  | append_singleton l q ih =>
    rw [List.length_append, List.length_singleton] at hl
    obtain ⟨hx, hy, hw, hpop, hpush, hlen, hpool⟩ := ih (by omega)
    simp only [List.foldl_concat]
    refine ⟨hx, hy, ?_, hpop, ?_, ?_, fun j r hj => ?_⟩
    · rw [RuntimeTransactionExecutor.waiting] at hw
      rw [RuntimeTransactionExecutor.waiting, RuntimeTransactionExecutor.addRequest,
        ← List.append_assoc, hw]
    · rw [AllAtOnceTransactionExecutor.addRequest, List.length_append, hpush]
      rfl
    · rw [AllAtOnceTransactionExecutor.addRequest, List.length_set, hlen]
    · rw [AllAtOnceTransactionExecutor.addRequest, AllAtOnceTransactionExecutor.request, hpush]
      by_cases hjl : j = l.length
      · subst hjl
        rw [List.getElem?_set_self (by omega)]
        simpa using hj
      · rw [List.getElem?_set_ne (Ne.symm hjl)]
        refine hpool j r ?_
        rwa [List.getElem?_append_left] at hj
        have hlt := (List.getElem?_eq_some_iff.mp hj).1
        rw [List.length_append, List.length_singleton] at hlt
        omega

theorem init {capacity : ℕ} (services : S) (memory : Addr → V) (key : SetKey K)
    {sessions : List (Session K)} (hd : (sessions.map Session.id).Nodup)
    (hc : (sessions.flatMap Session.requests).length ≤ capacity) : Paired n sessions
      ((sessions.flatMap Session.requests).foldl RuntimeTransactionExecutor.addRequest
        (.init n services memory key))
      ((sessions.flatMap Session.requests).foldl AllAtOnceTransactionExecutor.addRequest
        (.init n capacity services memory key)) := by
  obtain ⟨hx, hy, hw, hpop, hpush, -, hpool⟩ :=
    addRequests n capacity services memory key (sessions.flatMap Session.requests) hc
  refine ⟨hy.trans hx.symm, hx ▸ .init n sessions services memory key, hd, hw, ?_, fun j r hj => ?_⟩
  · rw [hpush, hpop, Nat.zero_add]
  · rw [hpop, Nat.zero_add]
    exact hpool j r hj

end Paired

/-- Two calls of `Run` are in the same state: in the same slots are the same transactions, and what
the handler was called with, the clock and both counters agree. -/
def Agree : Outcome (RuntimeTransactionExecutor K V S) →
    Outcome (AllAtOnceTransactionExecutor K V S) → Prop
  | .returned x, .returned y => x.toTransactionExecutor = y.toTransactionExecutor
  | .running x, .running y => x.toTransactionExecutor = y.toTransactionExecutor
  | .threw m, .threw m' => m = m'
  | _, _ => False

section

variable {n : ℕ} {rest : List (Session K)} {x x₁ : RuntimeTransactionExecutor K V S}
  {y : AllAtOnceTransactionExecutor K V S} [Handler K V S]

structure Advancing (n : ℕ) (rest : List (Session K)) (x : RuntimeTransactionExecutor K V S)
    (y : AllAtOnceTransactionExecutor K V S) : Prop where
  paired : Paired n rest x y
  full : rest = [] ∨ (n : ℤ) ≤ x.activeTxnNumber
  active : 0 < x.activeTxnNumber

theorem Paired.iterate (hn : 1 ≤ n) (driver : Bool) {m : ℕ}
    (ih : ∀ {rest : List (Session K)} {x₁ x : RuntimeTransactionExecutor K V S}
      {y : AllAtOnceTransactionExecutor K V S}, Advancing n rest x y → x₁.goesOn = true →
      x₁.launchRequests = .ok x → Agree (x₁.runFor m) (y.advanceFor driver m))
    (h : Paired n rest x y) : Agree (x.runFor m) (y.runFor driver m) := by
  unfold AllAtOnceTransactionExecutor.runFor AllAtOnceTransactionExecutor.iterate
  rw [← h.goesOn]
  cases hg : x.goesOn with
  | false =>
    unfold RuntimeTransactionExecutor.runFor
    rw [hg]
    exact h.same.symm
  | true =>
    rw [if_pos rfl]
    obtain ⟨rest', x', y', hx, hy, hp, hf, hmono, hact⟩ := h.launch
      fun j u hj => absurd hj (Nat.not_lt_zero j)
    rw [AllAtOnceTransactionExecutor.launchRequests, hy]
    refine ih ⟨hp, hf, ?_⟩ hg hx
    by_cases hr : rest = []
    · have hq : x.requestQueuePool = [] := by
        have hw := h.waiting
        rw [hr, List.flatMap_nil, RuntimeTransactionExecutor.waiting] at hw
        exact (List.append_eq_nil_iff.mp hw).2
      have hpos : 0 < x.activeTxnNumber := by
        simpa [RuntimeTransactionExecutor.goesOn, hq] using hg
      omega
    · have hpos := h.slotted.nonneg
      rcases hact hr with hle | hlt <;> omega

/-- The loop of `Advance` goes on until a slot is released, while `Run` calls `Advance` of the
other executor again, which launches nothing before that. -/
theorem Advancing.agree (hn : 1 ≤ n) (driver : Bool) {m : ℕ} (h : Advancing n rest x y)
    (hg : x₁.goesOn = true) (hl : x₁.launchRequests = .ok x) :
    Agree (x₁.runFor m) (y.advanceFor driver m) := by
  induction m generalizing rest x₁ x y with
  | zero =>
    rw [RuntimeTransactionExecutor.runFor, if_pos hg, hl, AllAtOnceTransactionExecutor.advanceFor]
    exact h.paired.same.symm
  | succ m ih =>
    rw [RuntimeTransactionExecutor.runFor, if_pos hg, hl]
    simp only [RuntimeTransactionExecutor.advance, AllAtOnceTransactionExecutor.advanceFor,
      AllAtOnceTransactionExecutor.sweep]
    have hcongr : x.advanceAll RuntimeTransactionExecutor.handle =
        y.advanceAll (AllAtOnceTransactionExecutor.handle driver) := by
      rw [h.paired.same]
      exact advanceFrom_congr RuntimeTransactionExecutor.dispatches
        (fun r hr => handle_eq driver hr) h.paired.slotted _ _
    rw [← hcongr]
    cases ha : x.advanceAll RuntimeTransactionExecutor.handle with
    | error e => rfl
    | ok p =>
      obtain ⟨z, b⟩ := p
      obtain ⟨hz, hnum⟩ := h.paired.slotted.swept RuntimeTransactionExecutor.dispatches ha
      have hp : Paired n rest { x with toTransactionExecutor := z.sendBatch }
          { y with toTransactionExecutor := z.sendBatch } :=
        ⟨rfl, hz, h.paired.distinct, h.paired.waiting, h.paired.pushIndex, h.paired.pool⟩
      simp only [Except.map]
      cases b with
      | true => exact hp.iterate hn driver fun h hg hl => ih h hg hl
      | false =>
        have hact : z.sendBatch.activeTxnNumber = x.activeTxnNumber := hnum rfl
        have hfull := h.full
        rw [← hact] at hfull
        obtain ⟨x₂, hx₂, hp₂, heq⟩ := hp.launch_full hfull
        have hact₂ : x₂.activeTxnNumber = x.activeTxnNumber := by
          rw [heq]
          exact hact
        refine ih ⟨hp₂, by rw [hact₂]; exact h.full, by rw [hact₂]; exact h.active⟩ ?_ hx₂
        have hpos : 0 < z.sendBatch.activeTxnNumber := hact ▸ h.active
        simp [RuntimeTransactionExecutor.goesOn, hpos]

end

inductive HandlerEvent (K : Type)
  | call (slot : ℕ) (op : Op) (call : HandlerCall K)
  | sendBatch
  deriving DecidableEq

structure Traced (K S : Type) where
  services : S
  events : List (HandlerEvent K)

instance {K S : Type} [Services S] : Services (Traced K S) where
  generateID s :=
    ((Services.generateID s.services).1, { s with services := (Services.generateID s.services).2 })
  getTime s :=
    ((Services.getTime s.services).1, { s with services := (Services.getTime s.services).2 })
  setTime s time := { s with services := Services.setTime s.services time }

instance {K V S : Type} [Handler K V S] : Handler K V (Traced K S) where
  call s i op c := (⟨(Handler.call s.services i op c).1, s.events ++ [.call i op c]⟩,
    (Handler.call s.services i op c).2)
  sendBatch s := (⟨(Handler.sendBatch s.services).1, s.events ++ [.sendBatch]⟩,
    (Handler.sendBatch s.services).2)

/-- Both executors go through the same states, and either both calls of `Run` return or none. -/
theorem executors_agree [Handler K V S] {n capacity : ℕ} (hn : 1 ≤ n) (driver : Bool) (services : S)
    (memory : Addr → V) (key : SetKey K) {sessions : List (Session K)}
    (hd : (sessions.map Session.id).Nodup)
    (hc : (sessions.flatMap Session.requests).length ≤ capacity) (m : ℕ) :
    Agree
      (((sessions.flatMap Session.requests).foldl RuntimeTransactionExecutor.addRequest
        (.init n (⟨services, []⟩ : Traced K S) memory key)).runFor m)
      (((sessions.flatMap Session.requests).foldl AllAtOnceTransactionExecutor.addRequest
        (.init n capacity (⟨services, []⟩ : Traced K S) memory key)).runFor driver m) :=
  (Paired.init _ memory key hd hc).iterate hn driver fun h hg hl => h.agree hn driver hg hl

instance sampleHandler : Handler ℕ ℕ LocalServices where
  call s i op _ := (s, [⟨i, op, TransactionExecution.sampleReply op⟩])
  sendBatch s := (s, [])

def sampleSessions : List (Session ℕ) :=
  [⟨1, [.upsert ⟨"t", 1⟩ (some 7)], .commit, by simp [OperationRequest.isAccess], rfl⟩,
    ⟨2, [.read ⟨"t", 1⟩ none], .abort, by simp [OperationRequest.isAccess], rfl⟩,
    ⟨3, [], .commit, by simp, rfl⟩]

theorem executors_agree_sample : Agree
    (((sampleSessions.flatMap Session.requests).foldl RuntimeTransactionExecutor.addRequest
      (.init 2 (⟨⟨.ofBase 0 100, .ofClock fun _ => 5⟩, []⟩ : Traced ℕ LocalServices) (fun _ => 0)
        ⟨"t", 0⟩)).runFor 20)
    (((sampleSessions.flatMap Session.requests).foldl AllAtOnceTransactionExecutor.addRequest
      (.init 2 8 (⟨⟨.ofBase 0 100, .ofClock fun _ => 5⟩, []⟩ : Traced ℕ LocalServices) (fun _ => 0)
        ⟨"t", 0⟩)).runFor false 20) :=
  executors_agree (by decide) false _ _ _ (by decide) (by decide) 20

end Fugue
