import Fugue.ResponsiveHandler

namespace Fugue

open TransactionExecution Workload

variable {K V S : Type}

/-- The end of the task, its requests that were not taken yet, and what its execution has left. -/
def TransactionTask.work (t : TransactionTask K V S) : Multiset ℕ :=
  if t.inUse then 0 ::ₘ (t.execution.work +
    Multiset.replicate (t.request.operationRequestQueue.length - t.request.current) 20) else 0

section

variable [DecidableEq K] [Services S]

/-- A task in use runs on, and ends: the request that ends it was taken, or is still to come. -/
structure Underway (t : TransactionTask K V S) : Prop where
  ok : TaskOk t
  awaited : t.inUse = true → Awaited t.execution
  due : t.inUse = true → (∃ x gaveUp s, Pipe x gaveUp s t.execution) ∨
    ∃ r ∈ t.request.operationRequestQueue.drop t.request.current, r.operation.isEnd = true

namespace Underway

variable {t : TransactionTask K V S} {e : TransactionExecution K V S}

theorem share (h : Underway t) (services : S) (memory : Addr → V) :
    Underway { t with execution := t.execution.share services memory } where
  ok := h.ok.share services memory
  awaited hu := (h.awaited hu).congr (fun _ => rfl) rfl rfl
  due hu := by
    apply (h.due hu).imp_left
    rintro ⟨x, gaveUp, s, hp⟩
    refine ⟨x, gaveUp, s, hp.frame services memory (fun _ ho => ho) ?_⟩
    rintro rfl
    exact hp.facts.2.2

theorem complete {op : Op} {c : HandlerCall K} {r : Reply V op} (h : Underway t)
    (hs : t.execution.complete op r = some e) (hc : Completed op c r t.execution e) :
    Underway { t with execution := e } where
  ok := h.ok.step (a := .complete op r) (by simp) hs (by simp)
  awaited hu := (h.awaited hu).complete hc
  due hu := by
    apply (h.due hu).imp_left
    rintro ⟨x, gaveUp, s, hp⟩
    exact ⟨x, gaveUp, s, hp.complete hc⟩

theorem visit {i : ℕ} {b : Bool} (h : Underway t) (hu : t.inUse = true)
    (hv : TransactionExecution.visit i t.execution = .ok (e, b)) :
    Underway { t with execution := e } := by
  have hs : t.execution.step (.visit i) = some e := by
    rw [TransactionExecution.step, hv]
    rfl
  have hok := h.ok.step (by simp) hs (by simp)
  refine ⟨hok, fun _ => (h.awaited hu).visit (hok.alive hu) hv, fun _ => ?_⟩
  apply (h.due hu).imp_left
  rintro ⟨x, gaveUp, s, hp⟩
  obtain ⟨s', hp'⟩ := hp.visit hv
  exact ⟨x, gaveUp, s', hp'⟩

theorem tidied (h : Underway t) : Underway { t with execution := t.execution.tidied } where
  ok := h.ok.tidied
  awaited hu := (h.awaited hu).tidied
  due hu := by
    apply (h.due hu).imp_left
    rintro ⟨x, gaveUp, s, hp⟩
    obtain ⟨s', hp'⟩ := hp.tidy
    unfold TransactionExecution.tidied
    split
    · exact ⟨x, gaveUp, s, hp⟩
    · exact ⟨x, gaveUp, s', hp'⟩

theorem release (h : TaskOk t.release) : Underway t.release where
  ok := h
  awaited hu := by cases hu
  due hu := by cases hu

theorem inUse_of_pending (h : Underway t) {p : Op × HandlerCall K}
    (hp : p ∈ t.execution.pending) : t.inUse = true := by
  by_contra hu
  rw [(h.ok.released (by simpa using hu)).2] at hp
  cases hp

theorem pending_nodup (h : Underway t) : (t.execution.pending.map Prod.fst).Nodup := by
  by_cases hu : t.inUse = true
  · exact (h.ok.alive hu).pending_nodup
  · rw [(h.ok.released (by simpa using hu)).2]
    exact List.nodup_nil

theorem pending_unique (h : Underway t) {op : Op} {c c' : HandlerCall K}
    (hc : (op, c) ∈ t.execution.pending) (hc' : (op, c') ∈ t.execution.pending) : c = c' :=
  (Prod.mk.inj (List.inj_on_of_nodup_map h.pending_nodup hc hc' rfl)).2

theorem exists_request (h : Underway t) (hu : t.inUse = true) (hv : t.execution.operationVector = [])
    (hf : t.execution.isTransactionFinished = false) :
    ∃ r, t.request.operationRequestQueue[t.request.current]? = some r ∧
      (r.operation.isEnd = true ∨ ∃ q ∈ t.request.operationRequestQueue.drop
        (t.request.current + 1), q.operation.isEnd = true) := by
  rcases h.due hu with ⟨x, gaveUp, s, hp⟩ | ⟨q, hq, hend⟩
  · exact absurd (hf.symm.trans (hp.not_dispatch hv)) (by simp)
  · have hlt : t.request.current < t.request.operationRequestQueue.length := by
      by_contra hle
      rw [List.drop_eq_nil_of_le (Nat.le_of_not_lt hle)] at hq
      cases hq
    refine ⟨_, List.getElem?_eq_getElem hlt, ?_⟩
    rw [List.drop_eq_getElem_cons hlt] at hq
    rcases List.mem_cons.mp hq with rfl | hq
    · exact .inl hend
    · exact .inr ⟨q, hq, hend⟩

variable {handle : Handling K V S}

theorem handled (hh : Dispatches handle) (hset : Settled e) {r : OperationRequest K}
    (hr : r.isEnd = true) : ∃ x gaveUp s, Pipe x gaveUp s (handle r e) := by
  rcases hh r e with heq | ⟨k, record, b, result, rfl, -⟩
  · rw [heq]
    cases r with
    | commit => exact ⟨_, _, _, hset.dispatch_commit⟩
    | abort => exact ⟨_, _, _, hset.dispatch_abort⟩
    | _ => cases hr
  · cases hr

theorem next (hh : Dispatches handle) (h : Underway t) (hu : t.inUse = true)
    (hv : t.execution.operationVector = []) (hf : t.execution.isTransactionFinished = false) :
    Underway (t.next handle) ∧
      Multiset.IsDershowitzMannaLT (t.next handle).work t.work := by
  obtain ⟨r, hr, hend⟩ := h.exists_request hu hv hf
  have hset := (h.ok.alive hu).settled hv hf
  have hnext : t.next handle = { t with execution := handle r.operation t.execution
                                        request := { t.request with
                                          current := t.request.current + 1 } } := by
    simp only [TransactionTask.next, TransactionRequest.currentRequest, hr, Option.map_some]
  have hserve : t.serve handle = t.next handle := by
    have ht : t.execution.tidied = t.execution := tidied_of_nil hv
    simp only [TransactionTask.serve, ht, hv, hf, and_self, if_true]
  have hok := (h.ok.serve hh hu).ok
  rw [hserve, hnext] at hok
  rw [hnext]
  refine ⟨⟨hok, fun _ => ?_, fun _ => ?_⟩, ?_⟩
  · have hal := hok.alive hu
    rcases hh r.operation t.execution with heq | ⟨k, record, b, result, -, heq⟩
    · dsimp only at hal ⊢
      rw [heq] at hal ⊢
      exact .dispatch hv hal
    · dsimp only
      rw [heq]
      exact .of_nil hv
  · rcases hend with hend | hmore
    · exact .inl (handled hh hset hend)
    · exact .inr hmore
  · have hlt := (List.getElem?_eq_some_iff.mp hr).1
    have hlen : t.request.operationRequestQueue.length - t.request.current =
        t.request.operationRequestQueue.length - (t.request.current + 1) + 1 := by
      omega
    have hold : t.work = 20 ::ₘ (0 ::ₘ (t.execution.work + Multiset.replicate
        (t.request.operationRequestQueue.length - (t.request.current + 1)) 20)) := by
      rw [TransactionTask.work, if_pos hu, hlen, Multiset.replicate_succ]
      simp only [← Multiset.singleton_add]
      abel
    rw [hold]
    apply lt_of_le_add (Y := (handle r.operation t.execution).work)
    · rw [TransactionTask.work, if_pos hu]
      simp only [← Multiset.singleton_add]
      calc _ ≤ t.execution.work + _ := Multiset.le_add_left _ _
        _ = _ := by abel
    · intro a ha
      exact (work_lt ha).trans (by omega)

theorem serve (hh : Dispatches handle) (h : Underway t) (hu : t.inUse = true) :
    Underway (t.serve handle) ∧
      (Multiset.IsDershowitzMannaLT (t.serve handle).work t.work ∨
      t.serve handle = { t with execution := { t.execution with
          operationVector := t.execution.operationVector.trim } } ∧
        (t.serve handle).work = t.work ∧
        ((t.serve handle).execution.operationVector = [] →
          (t.serve handle).execution.isTransactionFinished = true)) := by
  have hwork : ∀ e : TransactionExecution K V S, ({ t with execution := e }).work =
      e.work + (0 ::ₘ Multiset.replicate
        (t.request.operationRequestQueue.length - t.request.current) 20) := by
    intro e
    rw [TransactionTask.work, if_pos hu]
    simp only [← Multiset.singleton_add]
    abel
  have hle : Multiset.IsDershowitzMannaLT ({ t with execution := t.execution.tidied }).work t.work ∨
      t.execution.tidied = { t.execution with
        operationVector := t.execution.operationVector.trim } ∧
      ({ t with execution := t.execution.tidied }).work = t.work := by
    rcases tidied_work t.execution with hlt | ⟨heq, hw⟩
    · left
      rw [hwork, show t.work = _ from hwork t.execution]
      exact Workload.add_right hlt _
    · right
      refine ⟨heq, ?_⟩
      rw [hwork, hw]
      exact (hwork t.execution).symm
  unfold TransactionTask.serve
  dsimp only
  split
  · next hidle =>
    obtain ⟨hund, hlt⟩ := h.tidied.next hh hu hidle.1 hidle.2
    refine ⟨hund, .inl ?_⟩
    apply AtMost.lt_trans hlt
    exact hle.elim .inr fun hw => .inl hw.2
  · next hbusy =>
    refine ⟨h.tidied, ?_⟩
    apply hle.imp_right
    rintro ⟨heq, hw⟩
    refine ⟨by rw [heq], hw, fun hv => ?_⟩
    by_contra hf
    exact hbusy ⟨hv, by simpa using hf⟩

theorem handle_log (hh : Dispatches handle) (r : OperationRequest K) :
    ∃ l, (handle r e).log = e.log ++ issues l := by
  rcases hh r e with heq | ⟨k, record, b, result, -, heq⟩ <;> rw [heq]
  · exact dispatch_log r e
  · exact ⟨[], (List.append_nil _).symm⟩

theorem tidied_log (e : TransactionExecution K V S) : ∃ l, e.tidied.log = e.log ++ issues l := by
  unfold TransactionExecution.tidied tidy
  split
  · exact ⟨[], (List.append_nil _).symm⟩
  · split
    · exact abort_log { e with status := .aborted }
    · exact ⟨[], (List.append_nil _).symm⟩

theorem serve_log (hh : Dispatches handle) (t : TransactionTask K V S) :
    ∃ l, (t.serve handle).execution.log = t.execution.log ++ issues l := by
  obtain ⟨l, hl⟩ := tidied_log t.execution
  unfold TransactionTask.serve
  dsimp only
  split
  · rcases TransactionTask.next_cases handle { t with execution := t.execution.tidied } with
      hn | ⟨r, -, hn⟩ <;> rw [hn]
    · exact ⟨l, hl⟩
    · obtain ⟨l', hl'⟩ := handle_log (e := t.execution.tidied) hh r.operation
      refine ⟨l ++ l', hl'.trans ?_⟩
      rw [hl, issues, issues, issues, List.map_append, List.append_assoc]
  · exact ⟨l, hl⟩

theorem serve_stable (hh : Dispatches handle) {P : S → Prop} (hP : Stable P)
    (h : P t.execution.services) : P (t.serve handle).execution.services := by
  have ht := tidied_stable (e := t.execution) h
  unfold TransactionTask.serve
  dsimp only
  split
  · rcases TransactionTask.next_cases handle { t with execution := t.execution.tidied } with
      hn | ⟨r, -, hn⟩ <;> rw [hn]
    · exact ht
    · rcases hh r.operation t.execution.tidied with heq | ⟨k, record, b, result, -, heq⟩
      · dsimp only
        rw [heq]
        exact dispatch_stable hP ht _
      · dsimp only
        rw [heq]
        exact ht
  · exact ht

def served (handle : Handling K V S) (t : TransactionTask K V S) : TransactionTask K V S :=
  if (t.serve handle).execution.isTransactionFinished then (t.serve handle).release
  else t.serve handle

structure Makes (t u : TransactionTask K V S) (l : List (Op × HandlerCall K)) : Prop where
  underway : Underway u
  log : u.execution.log = t.execution.log ++ issues l
  pending : u.execution.pending.Perm (t.execution.pending ++ l)
  stable : ∀ P : S → Prop, Stable P → P t.execution.services → P u.execution.services

theorem exists_visited {j : ℕ} {b : Bool} (h : Underway t) (hu : t.inUse = true)
    (hv : TransactionExecution.visit j t.execution = .ok (e, b)) :
    ∃ l, Makes t { t with execution := e } l := by
  obtain ⟨l, hl⟩ := (visit_grows hv).1
  have hvis := h.visit hu hv
  refine ⟨l, hvis, hl, ?_, fun P hP hs => visit_stable hP hs hv⟩
  exact (h.ok.alive hu).pending_issued (hvis.ok.alive hu) hl

theorem exists_served (hh : Dispatches handle) (h : Underway t) (hu : t.inUse = true) :
    ∃ l, Makes t (served handle t) l := by
  obtain ⟨hserve, -⟩ := h.serve hh hu
  have hsv := h.ok.serve hh hu
  obtain ⟨l, hl⟩ := serve_log hh t
  have hperm := (h.ok.alive hu).pending_issued (hserve.ok.alive hsv.inUse) hl
  refine ⟨l, ?_⟩
  unfold served
  split
  · next hf =>
    have hempty := hsv.empty (hsv.finished.symm.trans hf)
    refine ⟨release ⟨?_, ?_, fun _ => hempty⟩, hl, hperm, fun P hP hs => ?_⟩
    · simp [TransactionTask.release]
    · simp [TransactionTask.release]
    · exact serve_stable hh hP hs
  · exact ⟨hserve, hl, hperm, fun P hP hs => serve_stable hh hP hs⟩

end Underway

namespace TransactionExecutor

variable {x y : TransactionExecutor K V S}

omit [DecidableEq K] [Services S] in
def work (x : TransactionExecutor K V S) : Multiset ℕ := (x.activeTxn.map TransactionTask.work).sum

omit [DecidableEq K] [Services S] in
theorem work_setTask {i : ℕ} {t u : TransactionTask K V S} (h : x.task i = some t) :
    ∃ R, x.work = R + t.work ∧ (x.setTask i u).work = R + u.work := by
  obtain ⟨w, hw, rfl⟩ := task_eq_some.mp h
  obtain ⟨R, hR, hset⟩ := sum_set (f := TransactionTask.work) hw
  exact ⟨R, hR, hset u⟩

omit [DecidableEq K] [Services S] in
theorem setTask_lt {i : ℕ} {t u : TransactionTask K V S} (h : x.task i = some t) {M : Multiset ℕ}
    (hlt : Multiset.IsDershowitzMannaLT u.work (t.work + M)) :
    Multiset.IsDershowitzMannaLT (x.setTask i u).work (x.work + M) := by
  obtain ⟨R, hx, hset⟩ := work_setTask (u := u) h
  rw [hx, hset, add_assoc, add_comm R, add_comm R]
  exact Workload.add_right hlt R

omit [Services S] in
theorem deliver_cases (x : TransactionExecutor K V S) (d : Delivery V) :
    (x.deliver d = x ∧ ∀ t c, x.task d.slot = some t → (d.op, c) ∉ t.execution.pending) ∨
      ∃ t e c, x.task d.slot = some t ∧ t.execution.complete d.op d.reply = some e ∧
        Completed d.op c d.reply t.execution e ∧
        x.deliver d = x.setTask d.slot { t with execution := e } := by
  unfold deliver
  split
  · next hn =>
    left
    refine ⟨rfl, fun t c ht hc => ?_⟩
    rw [ht, Option.bind_some] at hn
    have hfind := List.find?_eq_none.mp (Option.map_eq_none_iff.mp hn) _ hc
    simp at hfind
  · next e he =>
    right
    obtain ⟨t, ht, hc⟩ := Option.bind_eq_some_iff.mp he
    obtain ⟨c, hcomp⟩ := complete_cases hc
    exact ⟨t, e, c, ht, hc, hcomp, setExecution_eq ht e⟩

structure Delivered (l : List (Delivery V)) (x y : TransactionExecutor K V S) : Prop where
  tasks : ∀ t ∈ y.activeTxn, Underway t
  services : y.services = x.services
  pending : ∀ (i : ℕ) t, y.activeTxn[i]? = some t →
    ∃ u, x.activeTxn[i]? = some u ∧ t.execution.pending ⊆ u.execution.pending
  answered : ∀ d ∈ l, ∀ t c, y.activeTxn[d.slot]? = some t → (d.op, c) ∉ t.execution.pending
  work : y = x ∨ Multiset.IsDershowitzMannaLT y.work
    (x.work + Multiset.replicate (l.countP Delivery.fails) 2)

theorem setTask_tasks {i : ℕ} {u : TransactionTask K V S} (h : ∀ t ∈ x.activeTxn, Underway t)
    (hu : Underway u) : ∀ t ∈ (x.setTask i u).activeTxn, Underway t := by
  intro t ht
  rcases List.mem_or_eq_of_mem_set ht with ht | rfl
  · exact h t ht
  · exact hu

theorem task_underway {i : ℕ} {t : TransactionTask K V S} (h : ∀ t ∈ x.activeTxn, Underway t)
    (ht : x.task i = some t) : Underway t := by
  obtain ⟨u, hu, rfl⟩ := task_eq_some.mp ht
  exact (h u (List.mem_of_getElem? hu)).share _ _

omit [DecidableEq K] [Services S] in
theorem task_services {i : ℕ} {t : TransactionTask K V S} (h : x.task i = some t) :
    t.execution.services = x.services := by
  obtain ⟨u, -, rfl⟩ := task_eq_some.mp h
  rfl

theorem makes_stable {i : ℕ} {t u : TransactionTask K V S}
    {l : List (Op × HandlerCall K)} (h : Underway.Makes t u l) (ht : x.task i = some t) :
    ∀ P : S → Prop, Stable P → P x.services → P u.execution.services :=
  fun P hP hx => h.stable P hP ((congrArg P (task_services ht)).mpr hx)

theorem deliver_delivered (h : ∀ t ∈ x.activeTxn, Underway t) (d : Delivery V) :
    Delivered [d] x (x.deliver d) := by
  rcases x.deliver_cases d with ⟨heq, hno⟩ | ⟨t, e, c, ht, hs, hc, heq⟩
  · rw [heq]
    refine ⟨h, rfl, fun i t ht => ⟨t, ht, fun _ hp => hp⟩, fun d' hd t c ht => ?_, .inl rfl⟩
    obtain rfl := List.mem_singleton.mp hd
    exact hno { t with execution := t.execution.share x.services x.memory } c
      (task_eq_some.mpr ⟨t, ht, rfl⟩)
  · have hund := task_underway h ht
    have hservices : e.services = t.execution.services :=
      (congrArg ExecutionState.services hc.data :)
    have hshare := ht
    obtain ⟨w, hw, htw⟩ := task_eq_some.mp hshare
    have hlt := (List.getElem?_eq_some_iff.mp hw).1
    have hu : t.inUse = true := hund.inUse_of_pending hc.mem
    rw [heq]
    refine ⟨setTask_tasks h (hund.complete hs hc), ?_, fun i u hu => ?_, fun d' hd u c' hu => ?_, ?_⟩
    · exact hservices.trans (by rw [htw]; rfl)
    · by_cases hi : d.slot = i
      · subst hi
        obtain rfl := Option.some.inj ((List.getElem?_set_self hlt).symm.trans hu)
        refine ⟨w, hw, ?_⟩
        change e.pending ⊆ _
        rw [hc.pending, htw]
        exact List.erase_subset
      · exact ⟨u, (List.getElem?_set_ne hi).symm.trans hu, fun _ hp => hp⟩
    · obtain rfl := List.mem_singleton.mp hd
      obtain rfl := Option.some.inj ((List.getElem?_set_self hlt).symm.trans hu)
      change (d'.op, c') ∉ e.pending
      rw [hc.pending]
      intro hmem
      obtain rfl := hund.pending_unique (List.mem_of_mem_erase hmem) hc.mem
      exact (List.Nodup.of_map _ hund.pending_nodup).not_mem_erase hmem
    · right
      apply setTask_lt ht
      have hwork := complete_work hc
      have hfail : Multiset.replicate ([d].countP Delivery.fails) 2 =
          if d.op = .initTxn ∧ d.reply.isError = true then {2} else (0 : Multiset ℕ) := by
        rw [List.countP_singleton, Delivery.fails]
        by_cases hd : d.op = .initTxn ∧ d.reply.isError = true
        · simp [hd]
        · rw [if_neg hd, if_neg (by simpa using hd)]
          rfl
      rw [hfail, TransactionTask.work, TransactionTask.work]
      simp only [hu, if_true, ← Multiset.singleton_add]
      have hadd := Workload.add_right hwork ({0} + Multiset.replicate
        (t.request.operationRequestQueue.length - t.request.current) 20)
      convert hadd using 1 <;> abel

theorem foldl_delivered (l : List (Delivery V)) (h : ∀ t ∈ x.activeTxn, Underway t) :
    Delivered l x (l.foldl deliver x) := by
  induction l generalizing x with
  | nil =>
    exact ⟨h, rfl, fun i t ht => ⟨t, ht, fun _ hp => hp⟩,
      fun d hd => absurd hd List.not_mem_nil, .inl rfl⟩
  | cons d l ih =>
    have hd := deliver_delivered h d
    have hl := ih hd.tasks
    refine ⟨hl.tasks, hl.services.trans hd.services, fun i t ht => ?_, fun d' hd' t c ht => ?_, ?_⟩
    · obtain ⟨u, hu, hsub⟩ := hl.pending i t ht
      obtain ⟨w, hw, hsub'⟩ := hd.pending i u hu
      exact ⟨w, hw, List.Subset.trans hsub hsub'⟩
    · rcases List.mem_cons.mp hd' with rfl | hd'
      · obtain ⟨u, hu, hsub⟩ := hl.pending _ t ht
        exact fun hc => hd.answered d' List.mem_cons_self u c hu (hsub hc)
      · exact hl.answered d' hd' t c ht
    · have hcount : Multiset.replicate ((d :: l).countP Delivery.fails) 2 =
          Multiset.replicate ([d].countP Delivery.fails) 2 +
            Multiset.replicate (l.countP Delivery.fails) 2 := by
        rw [← Multiset.replicate_add, ← List.singleton_append, List.countP_append]
      rw [hcount, ← add_assoc]
      have hx : AtMost (x.deliver d).work
          (x.work + Multiset.replicate ([d].countP Delivery.fails) 2) := by
        rcases hd.work with heq | hlt
        · rw [heq]
          exact AtMost.of_le (Multiset.le_add_right _ _)
        · exact .inr hlt
      rcases hl.work with heq | hlt
      · rw [List.foldl_cons, heq]
        rcases hd.work with heq' | hlt'
        · exact .inl heq'
        · exact .inr (AtMost.lt_trans hlt' (AtMost.of_le (Multiset.le_add_right _ _)))
      · exact .inr (AtMost.lt_trans hlt (hx.add_right _))

section

variable {owes : S → ℕ → Op → ℕ → Prop} {failures : S → ℕ}

def total (failures : S → ℕ) (x : TransactionExecutor K V S) : Multiset ℕ :=
  x.work + Multiset.replicate (failures x.services) 21

/-- All pending calls were passed to the handler, but for the calls `l` of the slot `i`. -/
structure Promised (owes : S → ℕ → Op → ℕ → Prop) (i : ℕ) (l : List (Op × HandlerCall K))
    (x : TransactionExecutor K V S) : Prop where
  tasks : ∀ t ∈ x.activeTxn, Underway t
  owed : ∀ (j : ℕ) t op c, x.activeTxn[j]? = some t → (op, c) ∈ t.execution.pending →
    (∃ n, owes x.services j op n) ∨ j = i ∧ (op, c) ∈ l

theorem deliverAll_total {r : S × List (Delivery V)} (h : ∀ t ∈ x.activeTxn, Underway t)
    (hf : failures r.1 + r.2.countP Delivery.fails ≤ failures x.services) :
    Multiset.IsDershowitzMannaLT ((x.deliverAll r).total failures) (x.total failures) ∨
      x.deliverAll r = { x with services := r.1 } ∧
        AtMost ((x.deliverAll r).total failures) (x.total failures) := by
  have hd := foldl_delivered (x := { x with services := r.1 }) r.2 h
  have hservices : (x.deliverAll r).services = r.1 := hd.services
  have hrep : AtMost (Multiset.replicate (r.2.countP Delivery.fails) 2 +
      Multiset.replicate (failures r.1) 21) (Multiset.replicate (failures x.services) 21) := by
    obtain ⟨k, hk⟩ := Nat.le.dest hf
    rw [← hk, add_comm (failures r.1), Multiset.replicate_add, Multiset.replicate_add]
    have h2 : AtMost (Multiset.replicate (r.2.countP Delivery.fails) 2)
        (Multiset.replicate (r.2.countP Delivery.fails) 21) :=
      AtMost.replicate (by omega) (Nat.le_refl _)
    apply (h2.add_right _).trans
    exact AtMost.of_le (Multiset.le_add_right _ _)
  rcases hd.work with heq | hlt
  · right
    refine ⟨heq, ?_⟩
    rw [total, total, hservices]
    change AtMost ((List.foldl deliver _ r.2).work + _) _
    rw [heq]
    apply AtMost.add_left
    exact (AtMost.of_le (Multiset.le_add_left _ _)).trans hrep
  · left
    rw [total, total, hservices]
    apply AtMost.lt_trans (Workload.add_right hlt _)
    rw [add_assoc]
    exact hrep.add_left _

theorem deliverAll_tasks {r : S × List (Delivery V)} (h : ∀ t ∈ x.activeTxn, Underway t) :
    ∀ t ∈ (x.deliverAll r).activeTxn, Underway t :=
  (foldl_delivered (x := { x with services := r.1 }) r.2 h).tasks

theorem deliverAll_pending {r : S × List (Delivery V)} (h : ∀ t ∈ x.activeTxn, Underway t)
    {i : ℕ} {t : TransactionTask K V S} {op : Op} {c : HandlerCall K}
    (ht : (x.deliverAll r).activeTxn[i]? = some t) (hc : (op, c) ∈ t.execution.pending) :
    ¬ Answers r i op ∧ ∃ u, x.activeTxn[i]? = some u ∧ (op, c) ∈ u.execution.pending := by
  have hd := foldl_delivered (x := { x with services := r.1 }) r.2 h
  constructor
  · rintro ⟨d, hd', rfl, rfl⟩
    exact hd.answered d hd' t c ht hc
  · obtain ⟨u, hu, hsub⟩ := hd.pending i t ht
    exact ⟨u, hu, hsub hc⟩

theorem deliverAll_services {r : S × List (Delivery V)} (h : ∀ t ∈ x.activeTxn, Underway t) :
    (x.deliverAll r).services = r.1 :=
  (foldl_delivered (x := { x with services := r.1 }) r.2 h).services

namespace Promised

variable [Handler K V S] {i : ℕ} {op : Op} {c : HandlerCall K} {l : List (Op × HandlerCall K)}

theorem called (hr : Responsive owes failures) (h : Promised owes i ((op, c) :: l) x) :
    Promised owes i l (x.deliverAll (Handler.call x.services i op c)) := by
  refine ⟨deliverAll_tasks h.tasks, fun j t op' c' ht hc => ?_⟩
  obtain ⟨hno, u, hu, hcu⟩ := deliverAll_pending h.tasks ht hc
  rw [deliverAll_services h.tasks]
  rcases h.owed j u op' c' hu hcu with ⟨n, hn⟩ | ⟨rfl, hmem⟩
  · left
    obtain ⟨m, -, hm⟩ := (hr.kept _ _ _ _ i op c hn).resolve_left hno
    exact ⟨m, hm⟩
  · rcases List.mem_cons.mp hmem with heq | hmem
    · obtain ⟨rfl, rfl⟩ := Prod.mk.inj heq
      exact .inl ((hr.called _ _ _ _).resolve_left hno)
    · exact .inr ⟨rfl, hmem⟩

theorem calledAll (hr : Responsive owes failures) (h : Promised owes i l x) :
    Promised owes i [] (l.foldl (fun x c => x.deliverAll (Handler.call x.services i c.1 c.2)) x) ∧
      AtMost ((l.foldl (fun x c => x.deliverAll (Handler.call x.services i c.1 c.2)) x).total
        failures) (x.total failures) := by
  induction l generalizing x with
  | nil => exact ⟨h, .refl _⟩
  | cons p l ih =>
    obtain ⟨hp, hle⟩ := ih (h.called hr)
    refine ⟨hp, hle.trans ?_⟩
    rcases deliverAll_total h.tasks (hr.failing x.services i p.1 p.2) with hlt | ⟨-, hle'⟩
    · exact .inr hlt
    · exact hle'

theorem react (hr : Responsive owes failures) {log : List (Event K V)} {t : TransactionTask K V S}
    (ht : x.task i = some t)
    (h : Promised owes i (issuedCalls (t.execution.log.drop log.length)) x) :
    Promised owes i [] (x.react log i) ∧ AtMost ((x.react log i).total failures)
      (x.total failures) := by
  unfold TransactionExecutor.react
  rw [ht]
  exact h.calledAll hr

omit [Handler K V S] in
theorem slot (h : Promised owes i [] x) (j : ℕ) : Promised owes j [] x := by
  refine ⟨h.tasks, fun k t op c ht hc => .inl ?_⟩
  rcases h.owed k t op c ht hc with ho | ⟨-, hm⟩
  · exact ho
  · cases hm

theorem set (hr : Responsive owes failures) {t u : TransactionTask K V S} (h : Promised owes i [] x)
    (ht : x.task i = some t) (hm : Underway.Makes t u l) : Promised owes i l (x.setTask i u) := by
  have hs := makes_stable hm ht
  obtain ⟨w, hw, rfl⟩ := task_eq_some.mp ht
  have hlt := (List.getElem?_eq_some_iff.mp hw).1
  refine ⟨setTask_tasks h.tasks hm.underway, fun j v op' c' hv hc => ?_⟩
  have hold : ∀ v, x.activeTxn[j]? = some v → (op', c') ∈ v.execution.pending →
      ∃ n, owes (x.setTask i u).services j op' n := by
    intro v hv hc
    rcases h.owed j v op' c' hv hc with ⟨n, hn⟩ | ⟨-, hm⟩
    · exact ⟨n, hs _ (hr.owing j op' n) hn⟩
    · cases hm
  by_cases hij : i = j
  · subst hij
    obtain rfl := Option.some.inj ((List.getElem?_set_self hlt).symm.trans hv)
    rcases List.mem_append.mp (hm.pending.mem_iff.mp hc) with hc | hc
    · exact .inl (hold w hw hc)
    · exact .inr ⟨rfl, hc⟩
  · exact .inl (hold v ((List.getElem?_set_ne hij).symm.trans hv) hc)

end Promised

theorem set_total [Handler K V S] (hr : Responsive owes failures) {i : ℕ}
    {t u : TransactionTask K V S} {l : List (Op × HandlerCall K)} (ht : x.task i = some t)
    (hm : Underway.Makes t u l) (hlt : Multiset.IsDershowitzMannaLT u.work t.work) :
    Multiset.IsDershowitzMannaLT ((x.setTask i u).total failures) (x.total failures) := by
  have hf : failures u.execution.services ≤ failures x.services :=
    makes_stable hm ht _ (hr.spared (failures x.services)) (Nat.le_refl _)
  have hwork := setTask_lt (M := 0) ht (by rwa [add_zero])
  rw [add_zero] at hwork
  apply AtMost.lt_trans (Workload.add_right hwork _)
  apply AtMost.add_left
  exact AtMost.of_le ((Multiset.replicate_le_replicate 21).mpr hf)

/-- The same calls are pending in the same slots, and the handler was not called. -/
structure Still (x y : TransactionExecutor K V S) : Prop where
  services : y.services = x.services
  slots : y.activeTxn.map (fun t => (t.inUse, t.execution.pending)) =
    x.activeTxn.map fun t => (t.inUse, t.execution.pending)
  work : y.work = x.work

omit [DecidableEq K] [Services S] in
theorem Still.refl (x : TransactionExecutor K V S) : Still x x := ⟨rfl, rfl, rfl⟩

omit [DecidableEq K] [Services S] in
theorem Still.trans {z : TransactionExecutor K V S} (h : Still x y) (h' : Still y z) : Still x z :=
  ⟨h'.services.trans h.services, h'.slots.trans h.slots, h'.work.trans h.work⟩

omit [DecidableEq K] [Services S] in
theorem Still.total (h : Still x y) : y.total failures = x.total failures := by
  rw [TransactionExecutor.total, TransactionExecutor.total, h.work, h.services]

omit [DecidableEq K] [Services S] in
theorem Still.setTask {i : ℕ} {t u : TransactionTask K V S} (ht : x.task i = some t)
    (hs : u.execution.services = x.services) (hu : u.inUse = t.inUse)
    (hp : u.execution.pending = t.execution.pending) (hw : u.work = t.work) :
    Still x (x.setTask i u) := by
  refine ⟨hs, setTask_map (fun _ _ _ => rfl) ht (by rw [hu, hp]), ?_⟩
  obtain ⟨R, hx, hset⟩ := work_setTask (u := u) ht
  rw [hx, hset, hw]

section

variable [Handler K V S] {i : ℕ}

theorem Goes.visit {handle : Handling K V S} {t : TransactionTask K V S} {j : ℕ}
    {e : TransactionExecution K V S} {b : Bool} (ht : x.task i = some t)
    (hv : t.execution.visit j = .ok (e, b)) :
    Goes handle x ((x.setExecution i e).react t.execution.log i) := by
  apply (Goes.single (a := .visit i j) (by simp [QuietAction]) ?_).trans (.react _ i _)
  simp only [step, ht, Option.bind_some, TransactionExecution.step, hv, Except.map,
    Except.toOption, Option.map_some]

theorem visit_progress (hr : Responsive owes failures) {t : TransactionTask K V S} {j : ℕ}
    {e : TransactionExecution K V S} {b : Bool} (h : Promised owes i [] x) (ht : x.task i = some t)
    (hu : t.inUse = true) (hv : t.execution.visit j = .ok (e, b)) :
    Promised owes i [] ((x.setExecution i e).react t.execution.log i) ∧
      (Multiset.IsDershowitzMannaLT
        (((x.setExecution i e).react t.execution.log i).total failures) (x.total failures) ∨
      Still x ((x.setExecution i e).react t.execution.log i) ∧
        ((x.setExecution i e).react t.execution.log i).task i = some t ∧ b = false ∧
        ∀ op, t.execution.operationVector.slot j = some op → t.execution.isFinished op = false) := by
  have hund := task_underway h.tasks ht
  obtain ⟨l, hm⟩ := hund.exists_visited hu hv
  obtain ⟨w, hw, -⟩ := task_eq_some.mp ht
  have hlt := (List.getElem?_eq_some_iff.mp hw).1
  have hset : Promised owes i (issuedCalls (e.log.drop t.execution.log.length))
      (x.setTask i { t with execution := e }) := by
    have hnew : issuedCalls (e.log.drop t.execution.log.length) = l := issuedCalls_drop hm.log
    rw [hnew]
    exact h.set hr ht hm
  have htask := task_setTask hlt { t with execution := e }
  rw [setExecution_eq ht]
  obtain ⟨hprom, hle⟩ := hset.react hr htask
  refine ⟨hprom, ?_⟩
  rcases visit_work hv with ⟨rfl, rfl, hno⟩ | hwork
  · right
    have hreact : (x.setTask i t).react t.execution.log i = x.setTask i t := by
      have htask : (x.setTask i t).task i = some t := htask
      rw [react, htask]
      simp [issuedCalls]
    have heq : { t with execution := t.execution } = t := rfl
    rw [heq, hreact]
    exact ⟨Still.setTask ht (task_services ht) rfl rfl rfl, htask, rfl, hno⟩
  · left
    apply hle.trans_lt
    apply set_total hr ht hm
    rw [TransactionTask.work, TransactionTask.work, if_pos hu, if_pos hu,
      ← Multiset.singleton_add, ← Multiset.singleton_add, add_comm {0}, add_comm {0}]
    exact Workload.add_right (Workload.add_right hwork _) _

/-- The loop of `MoveForward` does some work, or finds no finished operation. -/
theorem visitSlot_progress (hr : Responsive owes failures) {t : TransactionTask K V S} {n : ℕ}
    (h : Promised owes i [] x) (ht : x.task i = some t) (hu : t.inUse = true)
    (hv : visitSlot i n x = .ok y) :
    Promised owes i [] y ∧
      (Multiset.IsDershowitzMannaLT (y.total failures) (x.total failures) ∨
      Still x y ∧ y.task i = some t ∧ ∀ j < n, ∀ op, t.execution.operationVector.slot j = some op →
        t.execution.isFinished op = false) := by
  induction n generalizing x t with
  | zero =>
    cases hv
    exact ⟨h, .inr ⟨.refl _, ht, fun j hj => absurd hj (Nat.not_lt_zero j)⟩⟩
  | succ n ih =>
    unfold visitSlot at hv
    rw [ht] at hv
    dsimp only at hv
    cases hw : t.execution.visit n with
    | error m =>
      rw [hw] at hv
      cases hv
    | ok p =>
      obtain ⟨e, b⟩ := p
      obtain ⟨hz, hcase⟩ := visit_progress hr h ht hu hw
      have hgoes : Goes (AllAtOnceTransactionExecutor.handle true) x _ := .visit ht hw
      rw [hw] at hv
      cases b with
      | true =>
        cases hv
        rcases hcase with hlt | ⟨-, -, hb, -⟩
        · exact ⟨hz, .inl hlt⟩
        · cases hb
      | false =>
        dsimp only at hv
        obtain ⟨w, hw', hwu, -⟩ := hgoes.task ht
        have hwu := hwu.trans hu
        obtain ⟨hy, hrest⟩ := ih hz hw' hwu hv
        refine ⟨hy, ?_⟩
        rcases hcase with hlt | ⟨hstill, htask, -, hno⟩
        · left
          rcases hrest with hlt' | ⟨hstill', -, -⟩
          · exact hlt'.trans hlt
          · rwa [hstill'.total]
        · obtain rfl := Option.some.inj (htask.symm.trans hw')
          rcases hrest with hlt' | ⟨hstill', htask', hno'⟩
          · left
            rwa [hstill.total] at hlt'
          · right
            refine ⟨hstill.trans hstill', htask', fun j hj op hop => ?_⟩
            rcases Nat.lt_succ_iff_lt_or_eq.mp hj with hj | rfl
            · exact hno' j hj op hop
            · exact hno op hop

omit [Handler K V S] in
theorem settle_eq (handle : Handling K V S) (x : TransactionExecutor K V S) (i : ℕ)
    (t : TransactionTask K V S) : ∃ n a c, x.settle i (t.serve handle) =
      { x.setTask i (Underway.served handle t) with
        activeTxnNumber := n, abortCount := a, commitCount := c } := by
  unfold settle Underway.served
  split
  · exact ⟨_, _, _, rfl⟩
  · exact ⟨_, _, _, rfl⟩

variable {handle : Handling K V S}

omit [Handler K V S] in
theorem task_settle (hu : x.activeTxn[i]?.isSome) (t : TransactionTask K V S) :
    (x.settle i (t.serve handle)).task i = some (Underway.served handle t) := by
  obtain ⟨n, a, c, hset⟩ := settle_eq handle x i t
  obtain ⟨w, hw⟩ := Option.isSome_iff_exists.mp hu
  rw [hset, task]
  change ((x.activeTxn.set i _)[i]?).map _ = _
  rw [List.getElem?_set_self (List.getElem?_eq_some_iff.mp hw).1]
  rfl

theorem serveSlot_progress (hr : Responsive owes failures) (hh : Dispatches handle)
    {t : TransactionTask K V S} (h : Promised owes i [] x) (ht : x.task i = some t)
    (hu : t.inUse = true) :
    Promised owes i [] (serveSlot handle i x).1 ∧
      (Multiset.IsDershowitzMannaLT ((serveSlot handle i x).1.total failures) (x.total failures) ∨
      Still x (serveSlot handle i x).1 ∧ ∃ j op, t.execution.operationVector.slot j = some op) := by
  have hund := task_underway h.tasks ht
  obtain ⟨w, hw, -⟩ := task_eq_some.mp ht
  obtain ⟨hserve, hcase⟩ := hund.serve hh hu
  obtain ⟨l, hm⟩ := hund.exists_served hh hu
  obtain ⟨n, a, c, hset⟩ := settle_eq handle x i t
  have htask : (x.settle i (t.serve handle)).task i = some (Underway.served handle t) :=
    task_settle (by rw [hw]; rfl) t
  have hprom : Promised owes i
      (issuedCalls ((Underway.served handle t).execution.log.drop t.execution.log.length))
      (x.settle i (t.serve handle)) := by
    have hput := h.set hr ht hm
    rw [issuedCalls_drop hm.log]
    rw [hset]
    exact ⟨hput.tasks, hput.owed⟩
  have htotal : (x.settle i (t.serve handle)).total failures =
      (x.setTask i (Underway.served handle t)).total failures := by
    rw [hset]
    rfl
  obtain ⟨hdone, hle⟩ := hprom.react hr htask
  unfold serveSlot
  rw [ht]
  refine ⟨hdone, ?_⟩
  dsimp only
  have hless : Multiset.IsDershowitzMannaLT (Underway.served handle t).work t.work →
      Multiset.IsDershowitzMannaLT
        (((x.settle i (t.serve handle)).react t.execution.log i).total failures)
        (x.total failures) := by
    intro hwork
    apply hle.trans_lt
    rw [htotal]
    exact set_total hr ht hm hwork
  cases hf : (t.serve handle).execution.isTransactionFinished with
  | true =>
    left
    apply hless
    have hnone : (Underway.served handle t).work = 0 := by
      rw [Underway.served, if_pos hf]
      rfl
    rw [hnone, TransactionTask.work, if_pos hu]
    exact of_le (Multiset.zero_le _) (lt_cons_self 0)
  | false =>
    have heq : Underway.served handle t = t.serve handle := if_neg (by simp [hf])
    rw [heq] at hless htask hset
    rcases hcase with hwork | ⟨htrim, hwork, hempty⟩
    · exact .inl (hless hwork)
    · right
      have hreact : (x.settle i (t.serve handle)).react t.execution.log i =
          x.settle i (t.serve handle) := by
        rw [react, htask]
        dsimp only
        rw [htrim]
        simp [issuedCalls]
      have hstill : Still x (x.setTask i (t.serve handle)) := by
        apply Still.setTask ht
        · rw [htrim]
          exact (task_services ht :)
        · rw [htrim]
        · rw [htrim]
        · exact hwork
      rw [hreact]
      refine ⟨?_, ?_⟩
      · rw [hset]
        exact ⟨hstill.services, hstill.slots, hstill.work⟩
      · have hne : (t.serve handle).execution.operationVector ≠ [] := by
          intro hnil
          rw [hempty hnil] at hf
          cases hf
        rw [htrim] at hne
        have hholds := mt Slots.trim_eq_nil.mpr hne
        obtain ⟨op, hop⟩ := not_forall.mp hholds
        obtain ⟨j, hj⟩ := not_not.mp hop
        exact ⟨j, op, hj⟩

def Waits (i j : ℕ) (x : TransactionExecutor K V S) : Prop :=
  ∀ k t, i ≤ k → k < j → x.activeTxn[k]? = some t → t.inUse = true → t.execution.pending ≠ []

omit [DecidableEq K] [Services S] [Handler K V S] in
theorem Still.symm (h : Still x y) : Still y x := ⟨h.services.symm, h.slots.symm, h.work.symm⟩

omit [DecidableEq K] [Services S] [Handler K V S] in
theorem Still.slot {k : ℕ} {t : TransactionTask K V S} (h : Still x y)
    (ht : x.activeTxn[k]? = some t) : ∃ u, y.activeTxn[k]? = some u ∧ u.inUse = t.inUse ∧
      u.execution.pending = t.execution.pending := by
  have hmap := congrArg (·[k]?) h.slots
  simp only [List.getElem?_map, ht, Option.map_some] at hmap
  obtain ⟨u, hu, hut⟩ := Option.map_eq_some_iff.mp hmap
  exact ⟨u, hu, Prod.mk.inj hut⟩

omit [DecidableEq K] [Services S] [Handler K V S] in
theorem Waits.still {j : ℕ} (h : Waits i j x) (hs : Still x y) : Waits i j y := by
  intro k t hi hj ht hu
  obtain ⟨u, hut, hin, hp⟩ := hs.symm.slot ht
  rw [← hp]
  exact h k u hi hj hut (hin.trans hu)

theorem advanceSlot_progress (hr : Responsive owes failures) (hh : Dispatches handle) {b : Bool}
    (h : Promised owes i [] x) (ha : advanceSlot handle i x = .ok (y, b)) :
    Promised owes i [] y ∧ (Multiset.IsDershowitzMannaLT (y.total failures) (x.total failures) ∨
      Still x y ∧ Waits i (i + 1) y) := by
  have hone : ∀ k, i ≤ k → k < i + 1 → k = i := by omega
  unfold advanceSlot at ha
  split at ha
  · next hn =>
    cases ha
    refine ⟨h, .inr ⟨.refl _, fun k t hi hj ht => ?_⟩⟩
    obtain rfl := hone k hi hj
    rw [task, ht] at hn
    cases hn
  · next t ht =>
    split at ha
    · next hu =>
      cases hv : visitSlot i t.execution.operationVector.length x with
      | error m =>
        rw [hv] at ha
        cases ha
      | ok z =>
        rw [hv] at ha
        obtain ⟨hz, hcase⟩ := visitSlot_progress hr h ht hu hv
        have hgoes : Goes handle x z := .visitSlot hv
        obtain ⟨w, hw, hwu, -⟩ := hgoes.task ht
        have hwu := hwu.trans hu
        obtain ⟨hy, hcase'⟩ := serveSlot_progress hr hh hz hw hwu
        obtain rfl : (serveSlot handle i z).1 = y := congrArg Prod.fst (Except.ok.inj ha)
        refine ⟨hy, ?_⟩
        rcases hcase with hlt | ⟨hstill, htask, hno⟩
        · left
          rcases hcase' with hlt' | ⟨hstill', -⟩
          · exact hlt'.trans hlt
          · rwa [hstill'.total]
        · obtain rfl := Option.some.inj (htask.symm.trans hw)
          rcases hcase' with hlt' | ⟨hstill', j, op, hj⟩
          · left
            rwa [hstill.total] at hlt'
          · right
            refine ⟨hstill.trans hstill', Waits.still ?_ hstill'⟩
            intro k v hi hj' hv' hvu hp
            obtain rfl := hone k hi hj'
            have hund := task_underway hz.tasks hw
            obtain ⟨v', hv'', rfl⟩ := task_eq_some.mp hw
            obtain rfl := Option.some.inj (hv'.symm.trans hv'')
            obtain ⟨l, op', hl, hf⟩ := (hund.ok.alive hu).exists_finished (hund.awaited hu) hp hj
            rw [hno l (Slots.lt_length_of_slot hl) op' hl] at hf
            cases hf
    · next hu =>
      cases ha
      refine ⟨h, .inr ⟨.refl _, fun k v hi hj hv hvu => ?_⟩⟩
      obtain rfl := hone k hi hj
      obtain ⟨v', hv', rfl⟩ := task_eq_some.mp ht
      obtain rfl := Option.some.inj (hv.symm.trans hv')
      exact absurd hvu hu

theorem advanceFrom_progress (hr : Responsive owes failures) (hh : Dispatches handle) {n : ℕ}
    {b : Bool} (h : Promised owes i [] x) (ha : advanceFrom handle i n x = .ok (y, b)) :
    Promised owes i [] y ∧ (Multiset.IsDershowitzMannaLT (y.total failures) (x.total failures) ∨
      Still x y ∧ Waits i (i + n) y) := by
  induction n generalizing i x b with
  | zero =>
    cases ha
    refine ⟨h, .inr ⟨.refl _, fun k t hi hj => ?_⟩⟩
    omega
  | succ n ih =>
    unfold advanceFrom at ha
    split at ha
    · cases ha
    · next z c hz =>
      cases hrest : advanceFrom handle (i + 1) n z with
      | error m =>
        rw [hrest] at ha
        cases ha
      | ok p =>
        obtain ⟨y', d⟩ := p
        rw [hrest] at ha
        obtain rfl : y' = y := congrArg Prod.fst (Except.ok.inj ha)
        obtain ⟨hprom, hcase⟩ := advanceSlot_progress hr hh h hz
        obtain ⟨hprom', hcase'⟩ := ih (hprom.slot (i + 1)) hrest
        refine ⟨hprom'.slot i, ?_⟩
        rcases hcase with hlt | ⟨hstill, hwait⟩
        · left
          rcases hcase' with hlt' | ⟨hstill', -⟩
          · exact hlt'.trans hlt
          · rwa [hstill'.total]
        · rcases hcase' with hlt' | ⟨hstill', hwait'⟩
          · left
            rwa [hstill.total] at hlt'
          · right
            refine ⟨hstill.trans hstill', fun k t hi hj ht hu => ?_⟩
            by_cases hk : k = i
            · subst hk
              exact hwait.still hstill' k t hi (Nat.lt_succ_self k) ht hu
            · exact hwait' k t (by omega) (by omega) ht hu

theorem advanceAll_error {m : String} (h : x.advanceAll handle = .error m) : m ∈ thrownMessages := by
  have hvisit : ∀ n (x : TransactionExecutor K V S) i, visitSlot i n x = .error m →
      m ∈ thrownMessages := by
    intro n
    induction n with
    | zero =>
      intro x i hv
      cases hv
    | succ n ih =>
      intro x i hv
      unfold visitSlot at hv
      split at hv
      · cases hv
      · split at hv
        · next hw =>
          cases hv
          exact visit_error hw
        · cases hv
        · exact ih _ _ hv
  have hfrom : ∀ n i (x : TransactionExecutor K V S), advanceFrom handle i n x = .error m →
      m ∈ thrownMessages := by
    intro n
    induction n with
    | zero =>
      intro i x ha
      cases ha
    | succ n ih =>
      intro i x ha
      unfold advanceFrom at ha
      split at ha
      · next hs =>
        cases ha
        unfold advanceSlot at hs
        split at hs
        · cases hs
        · next t _ =>
          split at hs
          · cases hv : visitSlot i t.execution.operationVector.length x with
            | error m' =>
              rw [hv] at hs
              cases hs
              exact hvisit _ _ _ hv
            | ok z =>
              rw [hv] at hs
              cases hs
          · cases hs
      · next z c _ =>
        cases hrest : advanceFrom handle (i + 1) n z with
        | error m' =>
          rw [hrest] at ha
          cases ha
          exact ih _ _ hrest
        | ok p =>
          rw [hrest] at ha
          cases ha
  exact hfrom _ _ _ h

/-- A call `op` of a slot is answered after at most `n` more batches; or nothing is pending. -/
def Due (owes : S → ℕ → Op → ℕ → Prop) (x : TransactionExecutor K V S) (n : ℕ) : Prop :=
  (∃ i t op c, x.activeTxn[i]? = some t ∧ (op, c) ∈ t.execution.pending ∧
    owes x.services i op n) ∨ ∀ t ∈ x.activeTxn, t.execution.pending = []

omit [Handler K V S] in
theorem Promised.due (h : Promised owes i [] x) : ∃ n, Due owes x n := by
  by_cases hp : ∀ t ∈ x.activeTxn, t.execution.pending = []
  · exact ⟨0, .inr hp⟩
  · obtain ⟨t, ht⟩ := not_forall.mp hp
    obtain ⟨hmem, hne⟩ := Classical.not_imp.mp ht
    obtain ⟨j, hj⟩ := List.getElem?_of_mem hmem
    obtain ⟨⟨op, c⟩, hc⟩ := List.exists_mem_of_ne_nil _ hne
    rcases h.owed j t op c hj hc with ⟨n, hn⟩ | ⟨-, hm⟩
    · exact ⟨n, .inl ⟨j, t, op, c, hj, hc, hn⟩⟩
    · cases hm

/-- A sweep over the slots and the `SendBatch` after it do some work, or bring an answer nearer. -/
theorem sweep_progress (hr : Responsive owes failures) (hh : Dispatches handle) {b : Bool} {n : ℕ}
    (h : Promised owes 0 [] x) (hd : Due owes x n)
    (hu : ∃ t ∈ x.activeTxn, t.inUse = true) (ha : x.advanceAll handle = .ok (y, b)) :
    Promised owes 0 [] y.sendBatch ∧
      (Multiset.IsDershowitzMannaLT (y.sendBatch.total failures) (x.total failures) ∨
      y.sendBatch.total failures = x.total failures ∧ ∃ m < n, Due owes y.sendBatch m) := by
  obtain ⟨hy, hcase⟩ := advanceFrom_progress hr hh h ha
  have hbatch : Promised owes 0 [] y.sendBatch := by
    refine ⟨deliverAll_tasks hy.tasks, fun j t op c ht hc => .inl ?_⟩
    obtain ⟨hno, u, hu, hcu⟩ := deliverAll_pending hy.tasks ht hc
    rw [sendBatch, deliverAll_services hy.tasks]
    rcases hy.owed j u op c hu hcu with ⟨m, hm⟩ | ⟨-, hm⟩
    · obtain ⟨k, -, hk⟩ := (hr.batch _ _ _ _ hm).resolve_left hno
      exact ⟨k, hk⟩
    · cases hm
  refine ⟨hbatch, ?_⟩
  have htotal := deliverAll_total hy.tasks (hr.failingBatch y.services)
  rcases hcase with hlt | ⟨hstill, hwait⟩
  · left
    rcases htotal with hlt' | ⟨-, hle⟩
    · exact hlt'.trans hlt
    · exact hle.trans_lt hlt
  · have hsame : y.total failures = x.total failures := hstill.total
    rw [← hsame]
    rcases htotal with hlt' | ⟨heq, hle⟩
    · exact .inl hlt'
    · rcases hle with hsame | hlt'
      · right
        refine ⟨hsame, ?_⟩
        rcases hd with ⟨i, t, op, c, ht, hc, hn⟩ | hnone
        · obtain ⟨u, hut, -, hp⟩ := hstill.slot ht
          have hut' : y.sendBatch.activeTxn[i]? = some u := by
            rw [sendBatch, heq]
            exact hut
          have hcu : (op, c) ∈ u.execution.pending := hp ▸ hc
          obtain ⟨hno, -⟩ := deliverAll_pending hy.tasks hut' hcu
          rw [← hstill.services] at hn
          obtain ⟨m, hm, hown⟩ := (hr.batch _ _ _ _ hn).resolve_left hno
          refine ⟨m, hm, .inl ⟨i, u, op, c, hut', hcu, ?_⟩⟩
          rwa [sendBatch, deliverAll_services hy.tasks]
        · -- every slot in use waits for an answer
          obtain ⟨t, ht, hin⟩ := hu
          obtain ⟨i, hi⟩ := List.getElem?_of_mem ht
          obtain ⟨u, hut, hin', hp⟩ := hstill.slot hi
          have hlen : y.activeTxn.length = x.activeTxn.length := by
            simpa using congrArg List.length hstill.slots
          have hlt := (List.getElem?_eq_some_iff.mp hi).1
          exact absurd (hp.trans (hnone t ht)) (hwait i u (Nat.zero_le i)
            (by rw [concurrentTxnCount]; omega) hut (hin'.trans hin))
      · exact .inl hlt'

end

end

end TransactionExecutor

end

end Fugue
