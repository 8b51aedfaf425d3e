import Fugue.AllAtOnceTransactionExecutor
import Fugue.RuntimeTransactionExecutor
import Mathlib.Data.List.Count

namespace Fugue

variable {K V S : Type}

namespace TransactionExecution

variable {e : TransactionExecution K V S}

section

variable [DecidableEq K] [Services S]

omit [DecidableEq K] [Services S] in
theorem Serving.share (h : Serving e) (services : S) (memory : Addr → V) :
    Serving (e.share services memory) :=
  h.frame services memory fun _ ho => ho

theorem Alive.share (h : Alive e) (services : S) (memory : Addr → V) :
    Alive (e.share services memory) := by
  cases h with
  | serving h => exact .serving (h.share services memory)
  | ending x gaveUp s entries h =>
    refine .ending x gaveUp s entries (h.frame services memory (fun _ ho => ho) ?_)
    rintro rfl
    exact h.facts.2.2

omit [DecidableEq K] [Services S] in
theorem Serving.unhandled (h : Serving e) (r : OperationRequest K) (b : Bool) (result : Result) :
    Serving { e with currentRequest := some r, requestFinished := b, result := result } := by
  have ho : ∀ {n}, Open n e → Open n
      { e with currentRequest := some r, requestFinished := b, result := result } :=
    fun h => h.quiet rfl rfl rfl rfl (fun _ => rfl) rfl
  have hst : ∀ {parent member}, Stacked parent member e → Stacked parent member
      { e with currentRequest := some r, requestFinished := b, result := result } :=
    fun h => ⟨h.parent_not_member, h.occupied, h.pending_member, h.pending_nodup,
      h.moved_finished, h.finished_answered⟩
  cases h with
  | idle n h size stacked => exact .idle n (ho h) size (hst stacked)
  | single n h size op hop stacked moved => exact .single n (ho h) size op hop (hst stacked) moved
  | reading n h parent hp stacked read =>
    exact .reading n (ho h) parent hp (hst stacked)
      ⟨read.size, read.entry, read.moved, read.pending, read.answered⟩
  | returned n h size op hop stacked moved =>
    exact .returned n (ho h) size op hop (hst stacked) moved
  | instant n h size op hop stacked => exact .instant n (ho h) size op hop (hst stacked)

theorem Serving.dispatch_of_isEnd (h : Serving e) (hv : e.operationVector = [])
    {r : OperationRequest K} (hr : r.isEnd = false) : Serving (e.dispatch r) := by
  obtain ⟨-, n, hi⟩ := h.settled hv
  apply Serving.dispatch hi
  · rintro rfl
    cases hr
  · rintro rfl
    cases hr

theorem Serving.dispatch_unfinished (h : Serving e) (hv : e.operationVector = [])
    (r : OperationRequest K) : (e.dispatch r).isTransactionFinished = false := by
  have hpipe : ∀ {gaveUp s}, Pipe e.toExecutionState gaveUp s (e.dispatch r) →
      s = .upload ∨ s = .abort → (e.dispatch r).isTransactionFinished = false := by
    intro gaveUp s hp hs
    cases hf : (e.dispatch r).isTransactionFinished with
    | false => rfl
    | true => rcases hp.finished.mp hf with rfl | rfl <;> simp at hs
  obtain ⟨hset, -⟩ := h.settled hv
  cases hr : r.isEnd with
  | false => exact (h.dispatch_of_isEnd hv hr).unfinished
  | true =>
    cases r with
    | commit => exact hpipe hset.dispatch_commit (.inl rfl)
    | abort => exact hpipe hset.dispatch_abort (.inr rfl)
    | _ => cases hr

theorem tidied_of_nil (h : e.operationVector = []) : e.tidied = e := if_pos h

theorem tidied_step : e.tidied = e ∨ e.step .tidy = some e.tidied := by
  unfold tidied
  split
  · exact .inl rfl
  · next hv => exact .inr (by rw [step, if_neg hv])

theorem tidied_isTransactionFinished : e.tidied.isTransactionFinished = e.isTransactionFinished := by
  unfold tidied tidy
  split
  · rfl
  · split <;> rfl

theorem Alive.tidied (h : Alive e) : Alive e.tidied := by
  rcases tidied_step (e := e) with ht | ht
  · rwa [ht]
  · exact h.step ht

theorem Serving.tidied (h : Serving e) : Serving e.tidied := by
  rcases tidied_step (e := e) with ht | ht
  · rwa [ht]
  · exact h.step (fun r => by simp) ht

theorem Alive.tidied_finished (h : Alive e) (hf : e.isTransactionFinished = true) :
    e.tidied.operationVector = [] ∧ e.tidied.pending = [] := by
  obtain ⟨x, gaveUp, s, -, hp⟩ := h.finished hf
  have hs := hp.finished.mp hf
  have hst : e.status ≠ .aborting := hp.status_ne_aborting (by rintro rfl; simp at hs)
  have hnone : ∀ z, ¬ (s.parent = some z ∨ s.member e z ∧ (e.flags z).moveToNext = false) := by
    rcases hs with rfl | rfl <;> simp [Stage.parent, Stage.member]
  have hpend : e.pending = [] := by
    apply List.eq_nil_iff_forall_not_mem.mpr
    intro p hp'
    have := (hp.stacked.pending_member p hp').1
    rcases hs with rfl | rfl <;> exact this
  unfold TransactionExecution.tidied
  split
  · next hv => exact ⟨hv, hpend⟩
  · rw [tidy, if_neg hst]
    exact ⟨hp.stacked.occupied.trim_eq_nil hnone, hpend⟩

end

end TransactionExecution

open TransactionExecution

section

variable [DecidableEq K] [Services S]

/-- An executor's `switch` dispatches each request, except that one for `ReadDataStore` may only
become the current one. -/
def Dispatches (handle : Handling K V S) : Prop :=
  ∀ r e, handle r e = e.dispatch r ∨ ∃ k record b result, r = .readDataStore k record b ∧
    handle r e = { e with currentRequest := some r, requestFinished := false, result := result }

theorem RuntimeTransactionExecutor.dispatches :
    Dispatches (RuntimeTransactionExecutor.handle : Handling K V S) := by
  intro r e
  cases r with
  | readDataStore k record b => exact .inr ⟨k, record, b, e.result, rfl, rfl⟩
  | _ => exact .inl rfl

theorem AllAtOnceTransactionExecutor.dispatches (driver : Bool) :
    Dispatches (AllAtOnceTransactionExecutor.handle driver : Handling K V S) := by
  intro r e
  cases r with
  | readDataStore k record b =>
    cases driver with
    | true => exact .inl rfl
    | false => exact .inr ⟨k, record, b, Result.reset record, rfl, rfl⟩
  | _ => exact .inl rfl

namespace Dispatches

variable {handle : Handling K V S} {e : TransactionExecution K V S}

theorem serving (h : Dispatches handle) (hs : Serving e) (hv : e.operationVector = [])
    {r : OperationRequest K} (hr : r.isEnd = false) : Serving (handle r e) := by
  rcases h r e with heq | ⟨k, record, b, result, rfl, heq⟩ <;> rw [heq]
  · exact hs.dispatch_of_isEnd hv hr
  · exact hs.unhandled _ _ _

theorem alive (h : Dispatches handle) (hs : Serving e) (hv : e.operationVector = [])
    (r : OperationRequest K) : Alive (handle r e) := by
  rcases h r e with heq | ⟨k, record, b, result, rfl, heq⟩ <;> rw [heq]
  · exact .dispatch hs hv
  · exact .serving (hs.unhandled _ _ _)

theorem unfinished (h : Dispatches handle) (hs : Serving e) (hv : e.operationVector = [])
    (r : OperationRequest K) : (handle r e).isTransactionFinished = false := by
  rcases h r e with heq | ⟨k, record, b, result, rfl, heq⟩ <;> rw [heq]
  · exact hs.dispatch_unfinished hv r
  · exact hs.unfinished

end Dispatches

/-- A task in use runs a transaction that serves requests until one ends it; a released task has
nothing in flight. -/
structure TaskOk (t : TransactionTask K V S) : Prop where
  alive : t.inUse = true → Alive t.execution
  serving : t.inUse = true →
    (∀ r ∈ t.request.operationRequestQueue, r.operation.isEnd = false) → Serving t.execution
  released : t.inUse = false → t.execution.operationVector = [] ∧ t.execution.pending = []

namespace TaskOk

variable {t : TransactionTask K V S}

theorem init (services : S) (memory : Addr → V) (key : SetKey K) :
    TaskOk (.init services memory key : TransactionTask K V S) where
  alive h := by cases h
  serving h := by cases h
  released _ := ⟨rfl, rfl⟩

theorem share (h : TaskOk t) (services : S) (memory : Addr → V) :
    TaskOk { t with execution := t.execution.share services memory } where
  alive hu := (h.alive hu).share services memory
  serving hu hr := (h.serving hu hr).share services memory
  released := h.released

theorem reset (h : TaskOk t) (hu : t.inUse = false) (sessionId : ℤ) :
    TaskOk (t.reset sessionId) := by
  obtain ⟨hv, hp⟩ := h.released hu
  exact ⟨fun _ => .reset hv hp, fun _ _ => .reset hv hp, fun hf => by cases hf⟩

theorem push (h : TaskOk t) (r : SessionRequest K) : TaskOk (t.push r) where
  alive := h.alive
  serving hu hr := h.serving hu fun q hq => hr q (List.mem_append_left _ hq)
  released := h.released

theorem step (h : TaskOk t) {a : Action K V} (ha : ∀ r, a ≠ .dispatch r)
    {e : TransactionExecution K V S} (hs : t.execution.step a = some e)
    (ht : a ≠ .tidy) : TaskOk { t with execution := e } where
  alive hu := (h.alive hu).step hs
  serving hu hr := (h.serving hu hr).step ha hs
  released hu := by
    obtain ⟨hv, hp⟩ := h.released hu
    cases a with
    | dispatch r => exact absurd rfl (ha r)
    | complete op reply =>
      obtain ⟨c, hc⟩ := complete_cases hs
      have hmem := hc.mem
      rw [hp] at hmem
      cases hmem
    | visit j =>
      simp only [TransactionExecution.step, visit, hv, Slots.slot_nil] at hs
      cases hs
      exact ⟨hv, hp⟩
    | tidy => exact absurd rfl ht

theorem unfinished (h : TaskOk t) (hu : t.inUse = true)
    (hr : ∀ r ∈ t.request.operationRequestQueue, r.operation.isEnd = false) :
    t.execution.isTransactionFinished = false :=
  (h.serving hu hr).unfinished

end TaskOk

omit [DecidableEq K] [Services S] in
theorem TransactionTask.next_cases (handle : Handling K V S) (t : TransactionTask K V S) :
    t.next handle = t ∨ ∃ r ∈ t.request.operationRequestQueue,
      t.next handle = { t with execution := handle r.operation t.execution
                               request := { t.request with current := t.request.current + 1 } } := by
  unfold next TransactionRequest.currentRequest
  cases h : t.request.operationRequestQueue[t.request.current]? with
  | none => exact .inl rfl
  | some r => exact .inr ⟨r, List.mem_of_getElem? h, rfl⟩

theorem TransactionTask.serve_request {handle : Handling K V S} {t : TransactionTask K V S}
    {r : SessionRequest K} (hv : t.execution.tidied.operationVector = [])
    (hf : t.execution.isTransactionFinished = false)
    (hr : t.request.operationRequestQueue[t.request.current]? = some r) :
    (t.serve handle).execution = handle r.operation t.execution.tidied := by
  have hf' : t.execution.tidied.isTransactionFinished = false :=
    tidied_isTransactionFinished.trans hf
  unfold serve
  simp only
  rw [if_pos ⟨hv, hf'⟩]
  simp only [next, TransactionRequest.currentRequest, hr, Option.map_some]

theorem TaskOk.tidied {t : TransactionTask K V S} (h : TaskOk t) :
    TaskOk { t with execution := t.execution.tidied } where
  alive hu := (h.alive hu).tidied
  serving hu hr := (h.serving hu hr).tidied
  released hu := by
    obtain ⟨hv, hp⟩ := h.released hu
    rw [TransactionExecution.tidied, if_pos hv]
    exact ⟨hv, hp⟩

structure TaskServed (t t' : TransactionTask K V S) : Prop where
  ok : TaskOk t'
  inUse : t'.inUse = true
  sessionId : t'.sessionId = t.sessionId
  queue : t'.request.operationRequestQueue = t.request.operationRequestQueue
  finished : t'.execution.isTransactionFinished = t.execution.isTransactionFinished
  empty : t.execution.isTransactionFinished = true →
    t'.execution.operationVector = [] ∧ t'.execution.pending = []

theorem TaskOk.serve {handle : Handling K V S} (hh : Dispatches handle) {t : TransactionTask K V S}
    (h : TaskOk t) (hu : t.inUse = true) : TaskServed t (t.serve handle) := by
  have hfin := tidied_isTransactionFinished (e := t.execution)
  unfold TransactionTask.serve
  simp only
  split
  · next hi =>
    have hnf : t.execution.isTransactionFinished = false := hfin.symm.trans hi.2
    have hserv : Serving t.execution.tidied := by
      cases h.tidied.alive hu with
      | serving hs => exact hs
      | ending x gaveUp s entries hp => exact absurd (hp.not_dispatch hi.1) (by simp [hi.2])
    rcases TransactionTask.next_cases handle { t with execution := t.execution.tidied } with
      hn | ⟨r, hr, hn⟩ <;> rw [hn]
    · exact ⟨h.tidied, hu, rfl, rfl, hfin, fun hf => absurd (hnf.symm.trans hf) (by simp)⟩
    · refine ⟨⟨fun _ => hh.alive hserv hi.1 _, fun _ hq => ?_, fun hf => ?_⟩, hu, rfl, rfl, ?_, ?_⟩
      · exact hh.serving hserv hi.1 (hq r hr)
      · exact absurd (hu.symm.trans hf) (by simp)
      · exact (hh.unfinished hserv hi.1 _).trans hnf.symm
      · exact fun hf => absurd (hnf.symm.trans hf) (by simp)
  · exact ⟨h.tidied, hu, rfl, rfl, hfin, fun hf => (h.alive hu).tidied_finished hf⟩

end

namespace TransactionExecutor

section

variable {x : TransactionExecutor K V S} {i : ℕ} {t u : TransactionTask K V S}

theorem task_eq_some : x.task i = some t ↔ ∃ u, x.activeTxn[i]? = some u ∧
    t = { u with execution := u.execution.share x.services x.memory } := by
  rw [task, Option.map_eq_some_iff]
  exact exists_congr fun u => and_congr_right fun _ => eq_comm

theorem setExecution_eq (h : x.task i = some t) (e : TransactionExecution K V S) :
    x.setExecution i e = x.setTask i { t with execution := e } := by
  simp only [setExecution, h]

theorem search_eq_some {p : TransactionTask K V S → Bool} {m : ℕ}
    (hp : ∀ u services memory, p { u with execution := u.execution.share services memory } = p u)
    (h : x.search p m = some (i, t)) : x.task i = some t ∧ p t = true ∧ m ≤ i ∧
      ∀ j u, m ≤ j → j < i → x.activeTxn[j]? = some u → p u = false := by
  obtain ⟨j, hj, h⟩ := Option.bind_eq_some_iff.mp h
  obtain ⟨u, hu, h⟩ := Option.map_eq_some_iff.mp h
  obtain ⟨rfl, rfl⟩ := Prod.mk.inj h
  obtain ⟨hlt, hpj, hbefore⟩ := List.findIdx?_eq_some_iff_getElem.mp hj
  obtain ⟨w, hw, rfl⟩ := task_eq_some.mp hu
  refine ⟨hu, ?_, Nat.le_add_right m j, fun l v hml hl hv => ?_⟩
  · rw [hp]
    rw [List.getElem_drop] at hpj
    rwa [List.getElem?_eq_some_iff.mp hw |>.2] at hpj
  · have hlj : l - m < j := by omega
    have := hbefore (l - m) hlj
    rw [List.getElem_drop] at this
    obtain ⟨hlen, hv⟩ := List.getElem?_eq_some_iff.mp hv
    have heq : m + (l - m) = l := by omega
    simp only [heq] at this
    rw [hv] at this
    simpa using this

theorem search_of {p : TransactionTask K V S → Bool} {m : ℕ}
    (hp : ∀ u services memory, p { u with execution := u.execution.share services memory } = p u)
    (ht : x.task i = some t) (hpt : p t = true) (hm : m ≤ i)
    (hfirst : ∀ j u, m ≤ j → j < i → x.activeTxn[j]? = some u → p u = false) :
    x.search p m = some (i, t) := by
  obtain ⟨u, hu, rfl⟩ := task_eq_some.mp ht
  obtain ⟨hlt, rfl⟩ := List.getElem?_eq_some_iff.mp hu
  have hfind : (x.activeTxn.drop m).findIdx? p = some (i - m) := by
    refine List.findIdx?_eq_some_iff_getElem.mpr ⟨by simp; omega, ?_, fun j hj => ?_⟩
    · simp only [List.getElem_drop, Nat.add_sub_cancel' hm]
      rwa [hp] at hpt
    · have hlt' : m + j < x.activeTxn.length := by omega
      rw [List.getElem_drop]
      simpa using hfirst (m + j) _ (Nat.le_add_right m j) (by omega)
        (List.getElem?_eq_getElem hlt')
  rw [search, hfind, Option.bind_some, Nat.add_sub_cancel' hm, ht, Option.map_some]

theorem exists_search {p : TransactionTask K V S → Bool} (ht : t ∈ x.activeTxn)
    (hpt : p t = true) : ∃ i u, x.search p 0 = some (i, u) := by
  have hany : (x.activeTxn.findIdx? p).isSome = true := by
    rw [List.findIdx?_isSome]
    exact List.any_eq_true.mpr ⟨t, ht, hpt⟩
  obtain ⟨i, hi⟩ := Option.isSome_iff_exists.mp hany
  have hlt := (List.findIdx?_eq_some_iff_getElem.mp hi).1
  have hi' : x.task i ≠ none := by
    rw [task, List.getElem?_eq_getElem hlt, Option.map_some]
    exact Option.some_ne_none _
  obtain ⟨u, hu⟩ := Option.ne_none_iff_exists'.mp hi'
  refine ⟨i, u, ?_⟩
  rw [search, List.drop_zero, hi, Option.bind_some, Nat.zero_add, hu, Option.map_some]

theorem exists_free (hact : x.activeTxnNumber = x.activeTxn.countP (·.inUse))
    (hn : x.activeTxnNumber < x.concurrentTxnCount) :
    ∃ i t, x.search (fun t => !t.inUse) 0 = some (i, t) := by
  have hex : ∃ t ∈ x.activeTxn, (!t.inUse) = true := by
    by_contra hno
    push Not at hno
    have hall : x.activeTxn.countP (·.inUse) = x.activeTxn.length :=
      List.countP_eq_length.mpr fun t ht => by simpa using hno t ht
    rw [concurrentTxnCount, hact, hall] at hn
    exact Int.lt_irrefl _ hn
  obtain ⟨t, ht, hu⟩ := hex
  exact exists_search (p := fun t => !t.inUse) ht hu

theorem task_setTask (hi : i < x.activeTxn.length) (u : TransactionTask K V S) :
    (x.setTask i u).task i = some u :=
  task_eq_some.mpr ⟨u, List.getElem?_set_self hi, rfl⟩

theorem setTask_setTask (x : TransactionExecutor K V S) (i : ℕ) (t u : TransactionTask K V S) :
    (x.setTask i t).setTask i u = x.setTask i u := by
  simp [setTask]

theorem countP_set_inUse {l : List (TransactionTask K V S)} {i : ℕ} {t t' : TransactionTask K V S}
    (h : l[i]? = some t) : ((l.set i t').countP (·.inUse) : ℤ) =
      l.countP (·.inUse) - (if t.inUse then 1 else 0) + if t'.inUse then 1 else 0 := by
  obtain ⟨hlt, hget⟩ := List.getElem?_eq_some_iff.mp h
  have hpos : t.inUse = true → 0 < l.countP (·.inUse) := fun hu =>
    List.countP_pos_iff.mpr ⟨t, List.mem_of_getElem? h, hu⟩
  rw [List.countP_set hlt, hget]
  cases hu : t.inUse with
  | false => cases t'.inUse <;> simp
  | true =>
    have := hpos hu
    cases t'.inUse <;> simp <;> omega

end

variable [DecidableEq K] [Services S] {x x' : TransactionExecutor K V S}

def Releases (x : TransactionExecutor K V S) (a : SlotAction V S) : Prop :=
  ∃ i t, a = .serve i ∧ x.task i = some t ∧ t.execution.isTransactionFinished = true

structure Changed (x : TransactionExecutor K V S) (done : Prop) (x' : TransactionExecutor K V S)
    (i : ℕ) (t t' : TransactionTask K V S) : Prop where
  old : x.activeTxn[i]? = some t
  new : x'.activeTxn = x.activeTxn.set i t'
  ok : TaskOk t'
  sessionId : t'.sessionId = t.sessionId
  queue : t'.request.operationRequestQueue = t.request.operationRequestQueue
  stays : ¬ done → t'.inUse = t.inUse ∧ x'.activeTxnNumber = x.activeTxnNumber
  leaves : done → t.inUse = true ∧ t.execution.isTransactionFinished = true ∧ t'.inUse = false ∧
    x'.activeTxnNumber = x.activeTxnNumber - 1

theorem step_cases {handle : Handling K V S} (hh : Dispatches handle) {a : SlotAction V S}
    (ht : ∀ t ∈ x.activeTxn, TaskOk t) (h : step handle x a = some x') :
    (x'.activeTxn = x.activeTxn ∧ x'.activeTxnNumber = x.activeTxnNumber ∧ ¬ x.Releases a) ∨
      ∃ i t t', Changed x (x.Releases a) x' i t t' := by
  have hshare : ∀ {i t}, x.task i = some t → ∃ u, x.activeTxn[i]? = some u ∧ TaskOk t ∧
      t = { u with execution := u.execution.share x.services x.memory } := by
    intro i t hi
    obtain ⟨u, hu, rfl⟩ := task_eq_some.mp hi
    exact ⟨u, hu, (ht u (List.mem_of_getElem? hu)).share _ _, rfl⟩
  have hexec : ∀ {i t} {b : Action K V} {e}, (∀ r, b ≠ .dispatch r) → b ≠ .tidy →
      x.task i = some t → t.execution.step b = some e → (∀ j, a ≠ .serve j) →
      x' = x.setExecution i e → ∃ i t t', Changed x (x.Releases a) x' i t t' := by
    rintro i t b e hb hc hi hs ha rfl
    obtain ⟨u, hu, hok, rfl⟩ := hshare hi
    rw [setExecution_eq hi]
    have hno : ¬ x.Releases a := fun ⟨j, _, hj, _⟩ => ha j hj
    exact ⟨i, u, _, hu, rfl, hok.step hb hs hc, rfl, rfl, fun _ => ⟨rfl, rfl⟩, fun hr => absurd hr hno⟩
  cases a with
  | answer i op reply =>
    obtain ⟨t, hi, h⟩ := Option.bind_eq_some_iff.mp h
    obtain ⟨e, he, rfl⟩ := Option.map_eq_some_iff.mp h
    right
    exact hexec (b := .complete op reply) (by simp) (by simp) hi he (by simp) rfl
  | visit i j =>
    obtain ⟨t, hi, h⟩ := Option.bind_eq_some_iff.mp h
    obtain ⟨e, he, rfl⟩ := Option.map_eq_some_iff.mp h
    right
    exact hexec (b := .visit j) (by simp) (by simp) hi he (by simp) rfl
  | serve i =>
    obtain ⟨t, hi, h⟩ := Option.bind_eq_some_iff.mp h
    split at h
    · next hu =>
      obtain rfl := Option.some.inj h
      obtain ⟨u, hui, hok, rfl⟩ := hshare hi
      have hsv := hok.serve hh hu
      right
      refine ⟨i, u, ?_⟩
      unfold settle
      split
      · next hf =>
        have hfin := hsv.finished.symm.trans hf
        have hdone : x.Releases (.serve i) := ⟨i, _, rfl, hi, hfin⟩
        exact ⟨_, hui, rfl, ⟨by simp [TransactionTask.release], by simp [TransactionTask.release],
          fun _ => hsv.empty hfin⟩, hsv.sessionId, hsv.queue, fun hn => absurd hdone hn,
          fun _ => ⟨hu, hfin, rfl, rfl⟩⟩
      · next hf =>
        refine ⟨_, hui, rfl, hsv.ok, hsv.sessionId, hsv.queue,
          fun _ => ⟨hsv.inUse.trans hu.symm, rfl⟩, ?_⟩
        rintro ⟨j, w, hj, hw, hwf⟩
        obtain rfl := SlotAction.serve.inj hj
        obtain rfl := Option.some.inj (hi.symm.trans hw)
        exact absurd (hsv.finished.trans hwf) hf
    · cases h
  | services services =>
    cases h
    left
    refine ⟨rfl, rfl, ?_⟩
    rintro ⟨j, w, hj, -⟩
    cases hj

section

variable {handle : Handling K V S}

def QuietAction (a : SlotAction V S) : Prop := ∀ i, a ≠ .serve i

section

variable {α : Type} {f : TransactionTask K V S → α}

omit [DecidableEq K] [Services S] in
theorem setTask_map (hf : ∀ t services memory,
      f { t with execution := t.execution.share services memory } = f t)
    {i : ℕ} {t t' : TransactionTask K V S} (h : x.task i = some t) (hu : f t' = f t) :
    (x.setTask i t').activeTxn.map f = x.activeTxn.map f := by
  obtain ⟨u, hi, rfl⟩ := task_eq_some.mp h
  have hmap : (x.activeTxn.map f)[i]? = some (f u) := by
    rw [List.getElem?_map, hi, Option.map_some]
  obtain ⟨hlt, hget⟩ := List.getElem?_eq_some_iff.mp hmap
  simp only [setTask, List.map_set, hu, hf]
  rw [← hget, List.set_getElem_self]

theorem step_map (hf : ∀ t e, f { t with execution := e } = f t) {a : SlotAction V S}
    (ha : QuietAction a) (h : step handle x a = some x') :
    x'.activeTxn.map f = x.activeTxn.map f ∧ x'.activeTxnNumber = x.activeTxnNumber := by
  cases a with
  | answer i op reply =>
    obtain ⟨t, hi, h⟩ := Option.bind_eq_some_iff.mp h
    obtain ⟨e, -, rfl⟩ := Option.map_eq_some_iff.mp h
    rw [setExecution_eq hi]
    exact ⟨setTask_map (fun t _ _ => hf t _) hi (hf t e), rfl⟩
  | visit i j =>
    obtain ⟨t, hi, h⟩ := Option.bind_eq_some_iff.mp h
    obtain ⟨e, -, rfl⟩ := Option.map_eq_some_iff.mp h
    rw [setExecution_eq hi]
    exact ⟨setTask_map (fun t _ _ => hf t _) hi (hf t e), rfl⟩
  | serve i => exact absurd rfl (ha i)
  | services services =>
    cases h
    exact ⟨rfl, rfl⟩

end

/-- `x'` is reached from `x` without serving a slot. -/
def Goes (handle : Handling K V S) (x x' : TransactionExecutor K V S) : Prop :=
  ∃ as, run (step handle) x as = some x' ∧ ∀ a ∈ as, QuietAction a

namespace Goes

variable {y : TransactionExecutor K V S}

theorem refl (x : TransactionExecutor K V S) : Goes handle x x := ⟨[], rfl, by simp⟩

theorem trans (h : Goes handle x y) (h' : Goes handle y x') : Goes handle x x' := by
  obtain ⟨as, hr, ha⟩ := h
  obtain ⟨bs, hr', hb⟩ := h'
  refine ⟨as ++ bs, run_append.mpr ⟨y, hr, hr'⟩, fun a hab => ?_⟩
  rcases List.mem_append.mp hab with hab | hab
  · exact ha a hab
  · exact hb a hab

theorem single {a : SlotAction V S} (ha : QuietAction a) (h : step handle x a = some x') :
    Goes handle x x' :=
  ⟨[a], run_cons.mpr ⟨x', h, rfl⟩, by simpa using ha⟩

theorem map (h : Goes handle x x') {α : Type} {f : TransactionTask K V S → α}
    (hf : ∀ t e, f { t with execution := e } = f t) :
    x'.activeTxn.map f = x.activeTxn.map f ∧ x'.activeTxnNumber = x.activeTxnNumber := by
  obtain ⟨as, hr, ha⟩ := h
  induction as generalizing x with
  | nil =>
    obtain rfl := Option.some.inj hr
    exact ⟨rfl, rfl⟩
  | cons a as ih =>
    obtain ⟨z, hz, hr⟩ := run_cons.mp hr
    obtain ⟨hmap, hnum⟩ := step_map hf (ha a List.mem_cons_self) hz
    obtain ⟨hmap', hnum'⟩ := ih hr fun b hb => ha b (List.mem_cons_of_mem _ hb)
    exact ⟨hmap'.trans hmap, hnum'.trans hnum⟩

theorem task (h : Goes handle x x') {i : ℕ} {t : TransactionTask K V S} (ht : x.task i = some t) :
    ∃ t', x'.task i = some t' ∧ t'.inUse = t.inUse ∧ t'.sessionId = t.sessionId ∧
      t'.request = t.request := by
  obtain ⟨u, hu, rfl⟩ := task_eq_some.mp ht
  have hmap := congrArg (·[i]?) (h.map (f := fun t => (t.inUse, t.sessionId, t.request))
    fun _ _ => rfl).1
  simp only [List.getElem?_map, hu, Option.map_some] at hmap
  obtain ⟨w, hw, hwu⟩ := Option.map_eq_some_iff.mp hmap
  obtain ⟨h1, hwu⟩ := Prod.mk.inj hwu
  obtain ⟨h2, h3⟩ := Prod.mk.inj hwu
  exact ⟨_, task_eq_some.mpr ⟨w, hw, rfl⟩, h1, h2, h3⟩

theorem foldl {α : Type} {f : TransactionExecutor K V S → α → TransactionExecutor K V S}
    (hf : ∀ y a, Goes handle y (f y a)) (l : List α) (x : TransactionExecutor K V S) :
    Goes handle x (l.foldl f x) := by
  induction l generalizing x with
  | nil => exact refl x
  | cons a l ih => exact (hf x a).trans (ih _)

variable [Handler K V S]

omit [Handler K V S] in
theorem deliver (x : TransactionExecutor K V S) (d : Delivery V) :
    Goes handle x (x.deliver d) := by
  unfold TransactionExecutor.deliver
  split
  · exact refl x
  · next e he =>
    obtain ⟨t, ht, hc⟩ := Option.bind_eq_some_iff.mp he
    apply single (a := .answer d.slot d.op d.reply)
    · simp [QuietAction]
    · simp only [step, ht, Option.bind_some, hc, Option.map_some]

omit [Handler K V S] in
theorem deliverAll (x : TransactionExecutor K V S) (r : S × List (Delivery V)) :
    Goes handle x (x.deliverAll r) := by
  have hs : Goes handle x { x with services := r.1 } :=
    single (a := .services r.1) (by simp [QuietAction]) rfl
  exact hs.trans (foldl deliver _ _)

theorem react (log : List (Event K V)) (i : ℕ) (x : TransactionExecutor K V S) :
    Goes handle x (x.react log i) := by
  unfold TransactionExecutor.react
  split
  · exact refl x
  · exact foldl (fun y c => deliverAll y _) _ _

theorem visitSlot {i n : ℕ} (h : visitSlot i n x = .ok x') : Goes handle x x' := by
  induction n generalizing x with
  | zero =>
    cases h
    exact refl _
  | succ n ih =>
    have hv : ∀ {t e b}, x.task i = some t → t.execution.visit n = .ok (e, b) →
        Goes handle x ((x.setExecution i e).react t.execution.log i) := by
      intro t e b ht hv
      refine (single (a := .visit i n) (by simp [QuietAction]) ?_).trans (react _ i _)
      simp only [step, ht, Option.bind_some, TransactionExecution.step, hv, Except.map,
        Except.toOption, Option.map_some]
    unfold TransactionExecutor.visitSlot at h
    split at h
    · cases h
      exact refl _
    · next t ht =>
      split at h
      · cases h
      · next e he =>
        cases h
        exact hv ht he
      · next e he => exact (hv ht he).trans (ih h)

end Goes

variable [Handler K V S]

theorem advanceSlot_run {i : ℕ} {b : Bool} (h : advanceSlot handle i x = .ok (x', b)) :
    ∃ as, run (step handle) x as = some x' := by
  unfold advanceSlot at h
  split at h
  · cases h
    exact ⟨[], rfl⟩
  · next t ht =>
    split at h
    · next hu =>
      cases hv : visitSlot i t.execution.operationVector.length x with
      | error m => rw [hv] at h; cases h
      | ok y =>
        have hy : Goes handle x y := .visitSlot hv
        obtain ⟨w, hw, hwu, -⟩ := hy.task ht
        obtain ⟨as, hr, -⟩ := hy
        have hg : Goes handle (y.settle i (w.serve handle)) _ := .react w.execution.log i _
        obtain ⟨bs, hb, -⟩ := hg
        simp only [hv, Except.map, serveSlot, hw] at h
        cases h
        refine ⟨as ++ .serve i :: bs, run_append.mpr ⟨y, hr, run_cons.mpr
          ⟨y.settle i (w.serve handle), ?_, hb⟩⟩⟩
        simp only [step, hw, Option.bind_some, hwu, hu, if_true]
    · cases h
      exact ⟨[], rfl⟩

theorem advanceAll_run {b : Bool} (h : advanceAll handle x = .ok (x', b)) :
    ∃ as, run (step handle) x as = some x' := by
  have hfrom : ∀ n i (x x' : TransactionExecutor K V S) b,
      advanceFrom handle i n x = .ok (x', b) → ∃ as, run (step handle) x as = some x' := by
    intro n
    induction n with
    | zero =>
      intro i x x' b h
      cases h
      exact ⟨[], rfl⟩
    | succ n ih =>
      intro i x x' b h
      unfold advanceFrom at h
      split at h
      · cases h
      · next y c hy =>
        cases hz : advanceFrom handle (i + 1) n y with
        | error m => rw [hz] at h; cases h
        | ok z =>
          rw [hz] at h
          cases h
          obtain ⟨as, ha⟩ := advanceSlot_run hy
          obtain ⟨bs, hb⟩ := ih _ _ _ z.2 hz
          exact ⟨as ++ bs, run_append.mpr ⟨y, ha, hb⟩⟩
  exact hfrom _ _ _ _ _ h

end

inductive TaskStep (handle : Handling K V S) (i : ℕ) (t : TransactionTask K V S) :
    TaskAction K V S → TransactionTask K V S → Prop
  | launch (r : SessionRequest K) (hu : t.inUse = false) :
    TaskStep handle i t (.launch i r) ((t.reset r.sessionId).push r)
  | push (r : SessionRequest K) : TaskStep handle i t (.push i r) (t.push r)
  | answer (op : Op) (reply : Reply V op) (c : HandlerCall K) (e : TransactionExecution K V S)
      (h : t.execution.complete op reply = some e) (hc : Completed op c reply t.execution e) :
    TaskStep handle i t (.slot (.answer i op reply)) { t with execution := e }
  | visit (j : ℕ) (e : TransactionExecution K V S) (b : Bool)
      (h : t.execution.visit j = .ok (e, b)) :
    TaskStep handle i t (.slot (.visit i j)) { t with execution := e }
  | serve (hu : t.inUse = true) (hf : (t.serve handle).execution.isTransactionFinished = false) :
    TaskStep handle i t (.slot (.serve i)) (t.serve handle)
  | finish (hu : t.inUse = true) (hf : (t.serve handle).execution.isTransactionFinished = true) :
    TaskStep handle i t (.slot (.serve i)) (t.serve handle).release

section

variable {handle : Handling K V S} {a : TaskAction K V S}

theorem act_task (h : act handle x a = some x') :
    (∃ s, a = .slot (.services s) ∧ x' = { x with services := s }) ∨
      ∃ i t t', x.task i = some t ∧ TaskStep handle i t a t' ∧
        x'.activeTxn = x.activeTxn.set i t' ∧ x'.services = t'.execution.services := by
  cases a with
  | launch i r =>
    obtain ⟨t, hi, h⟩ := Option.bind_eq_some_iff.mp h
    split at h
    · cases h
    · next hu =>
      cases h
      exact .inr ⟨i, t, _, hi, .launch r (by simpa using hu), rfl, rfl⟩
  | push i r =>
    obtain ⟨t, hi, rfl⟩ := Option.map_eq_some_iff.mp h
    exact .inr ⟨i, t, _, hi, .push r, rfl, rfl⟩
  | slot a =>
    cases a with
    | answer i op reply =>
      obtain ⟨t, hi, h⟩ := Option.bind_eq_some_iff.mp h
      obtain ⟨e, he, rfl⟩ := Option.map_eq_some_iff.mp h
      obtain ⟨c, hc⟩ := complete_cases he
      rw [setExecution_eq hi]
      exact .inr ⟨i, t, _, hi, .answer op reply c e he hc, rfl, rfl⟩
    | visit i j =>
      obtain ⟨t, hi, h⟩ := Option.bind_eq_some_iff.mp h
      obtain ⟨e, he, rfl⟩ := Option.map_eq_some_iff.mp h
      rw [setExecution_eq hi]
      simp only [TransactionExecution.step] at he
      cases hv : t.execution.visit j with
      | error m =>
        rw [hv] at he
        cases he
      | ok p =>
        rw [hv] at he
        cases he
        exact .inr ⟨i, t, _, hi, .visit j p.1 p.2 hv, rfl, rfl⟩
    | serve i =>
      obtain ⟨t, hi, h⟩ := Option.bind_eq_some_iff.mp h
      split at h
      · next hu =>
        obtain rfl := Option.some.inj h
        unfold settle
        split
        · next hf => exact .inr ⟨i, t, _, hi, .finish hu hf, rfl, rfl⟩
        · next hf => exact .inr ⟨i, t, _, hi, .serve hu (by simpa using hf), rfl, rfl⟩
      · cases h
    | services services =>
      cases h
      exact .inl ⟨services, rfl, rfl⟩

theorem TaskStep.ok {i : ℕ} {t t' : TransactionTask K V S} (h : TaskStep handle i t a t')
    (hh : Dispatches handle) (ht : TaskOk t) : TaskOk t' := by
  cases h with
  | launch r hu => exact (ht.reset hu _).push r
  | push r => exact ht.push r
  | answer op reply c e h hc => exact ht.step (a := .complete op reply) (by simp) h (by simp)
  | visit j e b h =>
    have hs : t.execution.step (.visit j) = some e := by
      rw [TransactionExecution.step, h]
      rfl
    exact ht.step (by simp) hs (by simp)
  | serve hu hf => exact (ht.serve hh hu).ok
  | finish hu hf =>
    have hsv := ht.serve hh hu
    refine ⟨?_, ?_, fun _ => hsv.empty (hsv.finished.symm.trans hf)⟩
    · simp [TransactionTask.release]
    · simp [TransactionTask.release]

end

end TransactionExecutor

end Fugue
