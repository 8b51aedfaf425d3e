import Fugue.HonestHandler
import Fugue.RunTermination

namespace Fugue

open TransactionExecution TransactionExecutor

variable {K V S : Type} [DecidableEq K] [Services S]

namespace TransactionExecutor

variable {x y : TransactionExecutor K V S}

structure Told (l : List (Delivery V)) (x y : TransactionExecutor K V S) : Prop where
  trusted : ∀ t ∈ y.activeTxn, Trusted t.execution
  pending : ∀ (i : ℕ) t, x.activeTxn[i]? = some t → ∃ u, y.activeTxn[i]? = some u ∧
    ∀ p ∈ t.execution.pending, p ∈ u.execution.pending ∨ ∃ d ∈ l, d.slot = i ∧ d.op = p.1

omit [DecidableEq K] [Services S] in
theorem setTask_trusted {i : ℕ} {u : TransactionTask K V S}
    (h : ∀ t ∈ x.activeTxn, Trusted t.execution) (hu : Trusted u.execution) :
    ∀ t ∈ (x.setTask i u).activeTxn, Trusted t.execution := by
  intro t ht
  rcases List.mem_or_eq_of_mem_set ht with ht | rfl
  · exact h t ht
  · exact hu

omit [DecidableEq K] [Services S] in
theorem task_trusted {i : ℕ} {t : TransactionTask K V S}
    (h : ∀ t ∈ x.activeTxn, Trusted t.execution) (ht : x.task i = some t) :
    Trusted t.execution := by
  obtain ⟨u, hu, rfl⟩ := task_eq_some.mp ht
  exact (h u (List.mem_of_getElem? hu)).of_same rfl rfl

omit [Services S] in
theorem deliver_told (h : ∀ t ∈ x.activeTxn, Trusted t.execution) {d : Delivery V}
    (hs : ∀ t c, x.activeTxn[d.slot]? = some t → (d.op, c) ∈ t.execution.pending →
      Sane d.op c d.reply) : Told [d] x (x.deliver d) := by
  rcases x.deliver_cases d with ⟨heq, -⟩ | ⟨t, e, c, ht, -, hc, heq⟩
  · rw [heq]
    exact ⟨h, fun i t ht => ⟨t, ht, fun p hp => .inl hp⟩⟩
  · have htrusted := task_trusted h ht
    obtain ⟨w, hw, rfl⟩ := task_eq_some.mp ht
    have hlt := (List.getElem?_eq_some_iff.mp hw).1
    rw [heq]
    constructor
    · apply setTask_trusted h
      exact htrusted.complete hc (hs w c hw hc.mem)
    · intro i u hu
      by_cases hi : d.slot = i
      · subst hi
        obtain rfl := Option.some.inj (hw.symm.trans hu)
        refine ⟨_, List.getElem?_set_self hlt, fun p hp => ?_⟩
        change p ∈ e.pending ∨ _
        rw [hc.pending]
        by_cases hpc : p = (d.op, c)
        · right
          exact ⟨d, List.mem_singleton_self d, rfl, by rw [hpc]⟩
        · left
          exact (List.mem_erase_of_ne hpc).mpr hp
      · exact ⟨u, (List.getElem?_set_ne hi).trans hu, fun p hp => .inl hp⟩

theorem foldl_told (l : List (Delivery V)) (hu : ∀ t ∈ x.activeTxn, Underway t)
    (h : ∀ t ∈ x.activeTxn, Trusted t.execution)
    (hs : ∀ d ∈ l, ∀ t c, x.activeTxn[d.slot]? = some t → (d.op, c) ∈ t.execution.pending →
      Sane d.op c d.reply) : Told l x (l.foldl deliver x) := by
  induction l generalizing x with
  | nil => exact ⟨h, fun i t ht => ⟨t, ht, fun p hp => .inl hp⟩⟩
  | cons d l ih =>
    have hd := deliver_told h (hs d List.mem_cons_self)
    have hdel := deliver_delivered hu d
    have hl := ih hdel.tasks hd.trusted fun d' hd' t c ht hc => by
      obtain ⟨u, hu', hsub⟩ := hdel.pending _ t ht
      exact hs d' (List.mem_cons_of_mem d hd') u c hu' (hsub hc)
    refine ⟨hl.trusted, fun i t ht => ?_⟩
    obtain ⟨u, hu', hkept⟩ := hd.pending i t ht
    obtain ⟨w, hw, hkept'⟩ := hl.pending i u hu'
    refine ⟨w, hw, fun p hp => ?_⟩
    rcases hkept p hp with hp | ⟨d', hd', hslot⟩
    · apply (hkept' p hp).imp_right
      rintro ⟨d', hd', hslot⟩
      exact ⟨d', List.mem_cons_of_mem d hd', hslot⟩
    · right
      obtain rfl := List.mem_singleton.mp hd'
      exact ⟨d', List.mem_cons_self, hslot⟩

/-- The handler holds pending calls only, and none of the calls `l` of the slot `i`, which are
still to be passed to it. -/
structure Heard (held : S → ℕ → Op → HandlerCall K → Prop) (i : ℕ) (l : List (Op × HandlerCall K))
    (x : TransactionExecutor K V S) : Prop where
  tasks : ∀ t ∈ x.activeTxn, Underway t
  trusted : ∀ t ∈ x.activeTxn, Trusted t.execution
  held : ∀ (j : ℕ) op c, held x.services j op c → ∃ t, x.activeTxn[j]? = some t ∧
    (op, c) ∈ t.execution.pending ∧ ¬ (j = i ∧ (op, c) ∈ l)
  issued : ∀ p ∈ l, ∃ t, x.activeTxn[i]? = some t ∧ p ∈ t.execution.pending
  nodup : (l.map Prod.fst).Nodup

namespace Heard

variable {held : S → ℕ → Op → HandlerCall K → Prop} [Handler K V S] {i : ℕ} {op : Op}
  {c : HandlerCall K} {l : List (Op × HandlerCall K)}

omit [Handler K V S] in
theorem told (h : Heard held i l x) {r : S × List (Delivery V)}
    (hr : ∀ d ∈ r.2, ∃ c', (∃ t, x.activeTxn[d.slot]? = some t ∧
      (d.op, c') ∈ t.execution.pending) ∧ Sane d.op c' d.reply) : Told r.2 x (x.deliverAll r) := by
  have hfold := foldl_told (x := { x with services := r.1 }) r.2 h.tasks h.trusted
    fun d hd t c ht hc => by
      obtain ⟨c', ⟨u, hu, hc'⟩, hsane⟩ := hr d hd
      obtain rfl := Option.some.inj (ht.symm.trans hu)
      obtain rfl := (h.tasks t (List.mem_of_getElem? hu)).pending_unique hc hc'
      exact hsane
  exact ⟨hfold.trusted, hfold.pending⟩

theorem called (hh : Honest held) (h : Heard held i ((op, c) :: l) x) :
    Heard held i l (x.deliverAll (Handler.call x.services i op c)) := by
  obtain ⟨hnew, hnodup⟩ := List.nodup_cons.mp h.nodup
  have hknown : ∀ j y c', held x.services j y c' ∨ j = i ∧ y = op ∧ c' = c →
      ∃ t, x.activeTxn[j]? = some t ∧ (y, c') ∈ t.execution.pending := by
    rintro j y c' (hold | ⟨rfl, rfl, rfl⟩)
    · obtain ⟨t, ht, hc, -⟩ := h.held j y c' hold
      exact ⟨t, ht, hc⟩
    · exact h.issued _ List.mem_cons_self
  have htold := h.told (r := Handler.call x.services i op c) fun d hd => by
    obtain ⟨c', hc', hsane⟩ := hh.answers _ _ _ _ d hd
    exact ⟨c', hknown _ _ _ hc', hsane⟩
  refine ⟨deliverAll_tasks h.tasks, htold.trusted, fun j y c' hc' => ?_, fun p hp => ?_, hnodup⟩
  · rw [deliverAll_services h.tasks] at hc'
    obtain ⟨hcase, hno⟩ := hh.called _ _ _ _ _ _ _ hc'
    obtain ⟨t, ht, hpend⟩ := hknown j y c' hcase
    obtain ⟨u, hu, hkept⟩ := htold.pending j t ht
    refine ⟨u, hu, (hkept _ hpend).resolve_right ?_, ?_⟩
    · rintro ⟨d, hd, hslot, hop⟩
      exact hno ⟨d, hd, hslot, hop⟩
    · rintro ⟨rfl, hmem⟩
      rcases hcase with hold | ⟨-, rfl, rfl⟩
      · obtain ⟨-, -, -, hno⟩ := h.held j y c' hold
        exact hno ⟨rfl, List.mem_cons_of_mem _ hmem⟩
      · exact hnew (List.mem_map_of_mem hmem)
  · obtain ⟨t, ht, hpend⟩ := h.issued p (List.mem_cons_of_mem _ hp)
    obtain ⟨u, hu, hkept⟩ := htold.pending i t ht
    refine ⟨u, hu, (hkept p hpend).resolve_right ?_⟩
    -- an answer to a call that was not passed yet would be one to a call that is held
    rintro ⟨d, hd, hslot, hop⟩
    obtain ⟨c', hc' | ⟨-, hsame, -⟩, -⟩ := hh.answers _ _ _ _ d hd
    · rw [hslot, hop] at hc'
      obtain ⟨w, hw, hpend', hno⟩ := h.held i p.1 c' hc'
      obtain rfl := Option.some.inj (ht.symm.trans hw)
      obtain rfl := (h.tasks t (List.mem_of_getElem? ht)).pending_unique hpend' hpend
      exact hno ⟨rfl, List.mem_cons_of_mem _ hp⟩
    · apply hnew
      rw [← hsame, hop]
      exact List.mem_map.mpr ⟨p, hp, rfl⟩

theorem react (hh : Honest held) {log : List (Event K V)} {t : TransactionTask K V S}
    (ht : x.task i = some t)
    (h : Heard held i (issuedCalls (t.execution.log.drop log.length)) x) :
    Heard held i [] (x.react log i) := by
  have hall : ∀ l (x : TransactionExecutor K V S), Heard held i l x →
      Heard held i [] (l.foldl (fun x c => x.deliverAll (Handler.call x.services i c.1 c.2)) x) := by
    intro l
    induction l with
    | nil =>
      intro x h
      exact h
    | cons p l ih =>
      intro x h
      exact ih _ (h.called hh)
  unfold TransactionExecutor.react
  rw [ht]
  exact hall _ x h

theorem batch (hh : Honest held) (h : Heard held i [] x) : Heard held i [] x.sendBatch := by
  have htold := h.told (r := Handler.sendBatch x.services) fun d hd => by
    obtain ⟨c', hc', hsane⟩ := hh.batchAnswers _ d hd
    obtain ⟨t, ht, hc, -⟩ := h.held _ _ _ hc'
    exact ⟨c', ⟨t, ht, hc⟩, hsane⟩
  refine ⟨deliverAll_tasks h.tasks, htold.trusted, fun j y c' hc' => ?_, ?_, List.nodup_nil⟩
  · rw [sendBatch, deliverAll_services h.tasks] at hc'
    obtain ⟨hold, hno⟩ := hh.batch _ _ _ _ hc'
    obtain ⟨t, ht, hpend, -⟩ := h.held j y c' hold
    obtain ⟨u, hu, hkept⟩ := htold.pending j t ht
    refine ⟨u, hu, (hkept _ hpend).resolve_right ?_, by simp⟩
    rintro ⟨d, hd, hslot, hop⟩
    exact hno ⟨d, hd, hslot, hop⟩
  · intro p hp
    cases hp

omit [Handler K V S] in
theorem slot (h : Heard held i [] x) (j : ℕ) : Heard held j [] x := by
  refine ⟨h.tasks, h.trusted, fun k y c' hc' => ?_, ?_, List.nodup_nil⟩
  · obtain ⟨t, ht, hpend, -⟩ := h.held k y c' hc'
    exact ⟨t, ht, hpend, by simp⟩
  · intro p hp
    cases hp

theorem set (hh : Honest held) {t u : TransactionTask K V S} (h : Heard held i [] x)
    (ht : x.task i = some t) (hm : Underway.Makes t u l) (hu : Trusted u.execution) :
    Heard held i l (x.setTask i u) := by
  have hs := makes_stable hm ht
  obtain ⟨w, hw, rfl⟩ := task_eq_some.mp ht
  have hlt := (List.getElem?_eq_some_iff.mp hw).1
  have hself : (x.setTask i u).activeTxn[i]? = some u := List.getElem?_set_self hlt
  have hnodup : ((w.execution.pending ++ l).map Prod.fst).Nodup :=
    (hm.pending.map Prod.fst).nodup_iff.mp hm.underway.pending_nodup
  rw [List.map_append, List.nodup_append] at hnodup
  obtain ⟨-, hnodup, hdisj⟩ := hnodup
  refine ⟨setTask_tasks h.tasks hm.underway, setTask_trusted h.trusted hu,
    fun j y c' hc' => ?_, fun p hp => ?_, hnodup⟩
  · have hold : held x.services j y c' := by
      by_contra hno
      exact hs _ (hh.keeping j y c') hno hc'
    obtain ⟨v, hv, hpend, -⟩ := h.held j y c' hold
    by_cases hij : i = j
    · subst hij
      obtain rfl := Option.some.inj (hw.symm.trans hv)
      refine ⟨u, hself, ?_, ?_⟩
      · apply hm.pending.mem_iff.mpr
        exact List.mem_append_left _ hpend
      · rintro ⟨-, hmem⟩
        have hy : ∀ m : List (Op × HandlerCall K), (y, c') ∈ m → y ∈ m.map Prod.fst :=
          fun m hc => List.mem_map_of_mem hc
        exact hdisj y (hy _ hpend) y (hy _ hmem) rfl
    · refine ⟨v, (List.getElem?_set_ne hij).trans hv, hpend, ?_⟩
      rintro ⟨rfl, -⟩
      exact hij rfl
  · refine ⟨u, hself, ?_⟩
    apply hm.pending.mem_iff.mpr
    exact List.mem_append_right _ hp

theorem visitSlot (hh : Honest held) {t : TransactionTask K V S} (n : ℕ) (h : Heard held i [] x)
    (ht : x.task i = some t) (hu : t.inUse = true) :
    ∃ y, TransactionExecutor.visitSlot i n x = .ok y ∧ Heard held i [] y := by
  induction n generalizing x t with
  | zero => exact ⟨x, rfl, h⟩
  | succ n ih =>
    have hund := task_underway h.tasks ht
    have htrusted := task_trusted h.trusted ht
    unfold TransactionExecutor.visitSlot
    rw [ht]
    dsimp only
    cases hv : t.execution.visit n with
    | error m => exact absurd hv (htrusted.visit_ok (hund.ok.alive hu) n m)
    | ok p =>
      obtain ⟨e, b⟩ := p
      obtain ⟨l, hm⟩ := hund.exists_visited hu hv
      obtain ⟨w, hw, -⟩ := task_eq_some.mp ht
      have hset := h.set hh ht hm (htrusted.visit hv)
      rw [← issuedCalls_drop hm.log] at hset
      have hreact := hset.react hh (task_setTask (List.getElem?_eq_some_iff.mp hw).1 _)
      rw [← setExecution_eq ht] at hreact
      have hgoes : Goes (AllAtOnceTransactionExecutor.handle true) x _ := .visit ht hv
      cases b with
      | true => exact ⟨_, rfl, hreact⟩
      | false =>
        obtain ⟨v, hv', hvu, -⟩ := hgoes.task ht
        exact ih hreact hv' (hvu.trans hu)

variable {handle : Handling K V S}

theorem serveSlot (hh : Honest held) (hd : Dispatches handle) {t : TransactionTask K V S}
    (h : Heard held i [] x) (ht : x.task i = some t) (hu : t.inUse = true) :
    Heard held i [] (TransactionExecutor.serveSlot handle i x).1 := by
  obtain ⟨l, hm⟩ := (task_underway h.tasks ht).exists_served hd hu
  obtain ⟨n, a, c, hset⟩ := settle_eq handle x i t
  obtain ⟨w, hw, -⟩ := task_eq_some.mp ht
  have htrusted : Trusted (Underway.served handle t).execution := by
    have hserve := (task_trusted h.trusted ht).serve hd
    unfold Underway.served
    split
    · exact hserve.of_same rfl rfl
    · exact hserve
  have hput := h.set hh ht hm htrusted
  rw [← issuedCalls_drop hm.log] at hput
  have hheard : Heard held i
      (issuedCalls ((Underway.served handle t).execution.log.drop t.execution.log.length))
      (x.settle i (t.serve handle)) := by
    rw [hset]
    exact ⟨hput.tasks, hput.trusted, hput.held, hput.issued, hput.nodup⟩
  have hreact := hheard.react hh (task_settle (by rw [hw]; rfl) t)
  unfold TransactionExecutor.serveSlot
  rw [ht]
  exact hreact

theorem advanceSlot (hh : Honest held) (hd : Dispatches handle) (h : Heard held i [] x) :
    ∃ y b, TransactionExecutor.advanceSlot handle i x = .ok (y, b) ∧ Heard held i [] y := by
  unfold TransactionExecutor.advanceSlot
  split
  · exact ⟨x, _, rfl, h⟩
  · next t ht =>
    split
    · next hu =>
      obtain ⟨y, hy, hheard⟩ := h.visitSlot hh t.execution.operationVector.length ht hu
      have hgoes : Goes handle x y := .visitSlot hy
      obtain ⟨w, hw, hwu, -⟩ := hgoes.task ht
      rw [hy]
      exact ⟨_, _, rfl, hheard.serveSlot hh hd hw (hwu.trans hu)⟩
    · exact ⟨x, _, rfl, h⟩

theorem advanceFrom (hh : Honest held) (hd : Dispatches handle) (n : ℕ) (h : Heard held i [] x) :
    ∃ y b, TransactionExecutor.advanceFrom handle i n x = .ok (y, b) ∧ Heard held i [] y := by
  induction n generalizing i x with
  | zero => exact ⟨x, _, rfl, h⟩
  | succ n ih =>
    obtain ⟨y, b, hy, hheard⟩ := h.advanceSlot hh hd
    obtain ⟨z, c, hz, hheard'⟩ := ih (hheard.slot (i + 1))
    unfold TransactionExecutor.advanceFrom
    rw [hy]
    dsimp only
    rw [hz]
    exact ⟨z, _, rfl, hheard'.slot i⟩

end Heard

end TransactionExecutor

namespace AllAtOnceTransactionExecutor

variable {x y : AllAtOnceTransactionExecutor K V S} {txns : List (Transaction K)}
  {held : S → ℕ → Op → HandlerCall K → Prop} {owes : S → ℕ → Op → ℕ → Prop} {failures : S → ℕ}
  [Handler K V S]

theorem sweep_heard (hh : Honest held) (driver : Bool)
    (h : Heard held 0 [] x.toTransactionExecutor) :
    ∃ y b, x.sweep driver = .ok (y, b) ∧ Heard held 0 [] y.toTransactionExecutor := by
  obtain ⟨y, b, hy, hheard⟩ := h.advanceFrom hh (dispatches driver) x.activeTxn.length
  have hall : x.toTransactionExecutor.advanceAll (handle driver) = .ok (y, b) := hy
  unfold AllAtOnceTransactionExecutor.sweep
  rw [hall]
  exact ⟨_, _, rfl, hheard.batch hh⟩

theorem launch_heard (hh : Honest held) (h : Proceeding owes txns x)
    (hheard : Heard held 0 [] x.toTransactionExecutor) (hy : x.launchRequests = .ok y)
    (hnew : ∀ t ∈ y.activeTxn, Underway t) : Heard held 0 [] y.toTransactionExecutor := by
  obtain ⟨m, hm, hq, hpop⟩ := h.remaining
  obtain ⟨z, hz, hd⟩ := launchRequests_distributed hq h.active
  obtain rfl := Except.ok.inj (hz.symm.trans hy)
  refine ⟨hnew, fun t ht => ?_, fun j op c hc => ?_, ?_, List.nodup_nil⟩
  · obtain ⟨i, hi⟩ := List.getElem?_of_mem ht
    rcases hd.slot h.tasks hi with hold | ⟨-, -, u, hu, services, memory, heq⟩
    · exact hheard.trusted t (List.mem_of_getElem? hold)
    · constructor
      · intro op c r hr
        rw [heq] at hr
        cases hr
      · rw [heq]
        exact (hheard.trusted u hu).read
  · have hold : held x.services j op c := by
      by_contra hno
      exact launchFrom_stable (hh.keeping j op c) hno hz hc
    obtain ⟨t, ht, hpend, -⟩ := hheard.held j op c hold
    have hsame := hd.pending h.tasks ht (List.ne_nil_of_mem hpend)
    exact ⟨t, hsame, hpend, by simp⟩
  · intro p hp
    cases hp

namespace Proceeding

theorem advance_ok (hr : Responsive owes failures) (hh : Honest held) (driver : Bool) (m : ℕ)
    (msg : String) (h : Proceeding owes txns x) (hpos : 0 < x.activeTxnNumber)
    (hheard : Heard held 0 [] x.toTransactionExecutor) : advanceFor driver m x ≠ .threw msg := by
  induction m generalizing x with
  | zero => simp [advanceFor]
  | succ m ih =>
    obtain ⟨n, hn⟩ := h.promised.due
    obtain ⟨y, b, hs, hheard'⟩ := sweep_heard hh driver hheard
    obtain ⟨hy, hact, -⟩ := h.sweep hr hpos hn hs
    rw [advanceFor, hs]
    cases b with
    | false => exact ih hy (by rwa [hact rfl]) hheard'
    | true =>
      dsimp only
      unfold iterate
      cases hg : y.goesOn with
      | false => simp
      | true =>
        obtain ⟨z, hz, hproceed, hzpos, -, -⟩ := hy.launch hr hg
        rw [if_pos rfl, hz]
        exact ih hproceed hzpos (launch_heard hh hy hheard' hz hproceed.promised.tasks)

theorem run_ok (hr : Responsive owes failures) (hh : Honest held) (driver : Bool) (m : ℕ)
    (msg : String) (h : Proceeding owes txns x)
    (hheard : Heard held 0 [] x.toTransactionExecutor) : runFor driver m x ≠ .threw msg := by
  unfold runFor iterate
  cases hg : x.goesOn with
  | false => simp
  | true =>
    obtain ⟨y, hy, hproceed, hpos, -, -⟩ := h.launch hr hg
    rw [if_pos rfl, hy]
    apply hproceed.advance_ok hr hh driver m msg hpos
    exact launch_heard hh h hheard hy hproceed.promised.tasks

theorem returned (hr : Responsive owes failures) (hh : Honest held) (driver : Bool)
    (h : Proceeding owes txns x) (hheard : Heard held 0 [] x.toTransactionExecutor) :
    ∃ m y, runFor driver m x = .returned y ∧ Done txns.length y := by
  obtain ⟨m, hm⟩ := h.run hr driver
  cases ho : runFor driver m x with
  | returned y =>
    rw [ho] at hm
    exact ⟨m, y, ho, hm⟩
  | running y =>
    rw [ho] at hm
    exact hm.elim
  | threw msg => exact absurd ho (h.run_ok hr hh driver m msg hheard)

end Proceeding

end AllAtOnceTransactionExecutor

variable [Handler K V S] {owes : S → ℕ → Op → ℕ → Prop} {failures : S → ℕ}
  {held : S → ℕ → Op → HandlerCall K → Prop}

open AllAtOnceTransactionExecutor

omit [Handler K V S] in
theorem TransactionExecutor.Heard.init (n : ℕ) {services : S} (memory : Addr → V) (key : SetKey K)
    (hs : ∀ i op c, ¬ held services i op c) :
    Heard held 0 [] (TransactionExecutor.init n services memory key) := by
  have hinit : ∀ t ∈ (TransactionExecutor.init n services memory key).activeTxn,
      t = .init services memory key := fun t ht => List.eq_of_mem_replicate ht
  refine ⟨fun t ht => ?_, fun t ht => ?_, fun j op c hc => absurd hc (hs j op c), ?_,
    List.nodup_nil⟩
  · rw [hinit t ht]
    exact .init services memory key
  · rw [hinit t ht]
    constructor
    · intro op c r hr
      cases hr
    · intro hf
      cases hf
  · intro p hp
    cases hp

/-- With a handler that answers each call at last, and as the operations assert, `Run` of the
executor whose requests are all added before returns: each transaction was counted by then. -/
theorem run_returns (hr : Responsive owes failures) (hh : Honest held) {n capacity : ℕ}
    (hn : 1 ≤ n) (driver : Bool) {services : S} (hs : ∀ i op c, ¬ held services i op c)
    (memory : Addr → V) (key : SetKey K) {txns : List (Transaction K)}
    (hc : (txns.flatMap Transaction.requests).length ≤ capacity) :
    ∃ m y, runFor driver m ((txns.flatMap Transaction.requests).foldl addRequest
      (init n capacity services memory key)) = .returned y ∧ Done txns.length y := by
  apply Proceeding.returned hr hh driver (.ofRequests hn services memory key hc)
  obtain ⟨-, hx⟩ := Queued.ofRequests n capacity services memory key _ hc
  rw [hx]
  exact .init n memory key hs

/-- So does `Run` of the other executor, on sessions with distinct ids. -/
theorem runtime_run_returns (hr : Responsive owes failures) (hh : Honest held) {n : ℕ}
    (hn : 1 ≤ n) {services : S} (hs : ∀ i op c, ¬ held services i op c) (memory : Addr → V)
    (key : SetKey K) {sessions : List (Session K)} (hd : (sessions.map Session.id).Nodup) :
    ∃ m y, ((sessions.flatMap Session.requests).foldl RuntimeTransactionExecutor.addRequest
      (.init n services memory key)).runFor m = .returned y ∧
        RuntimeTransactionExecutor.Done sessions.length y := by
  obtain ⟨-, hx⟩ := Queued.ofRequests n _ services memory key
    ((sessions.map Session.transaction).flatMap Transaction.requests) (Nat.le_refl _)
  have hheard := TransactionExecutor.Heard.init (K := K) n memory key hs
  rw [← hx] at hheard
  have hproceed : Proceeding owes (sessions.map Session.transaction) _ :=
    .ofRequests hn services memory key (Nat.le_refl _)
  obtain ⟨m, z, hz, hdone⟩ := hproceed.returned hr hh true hheard
  have hagree := RuntimeTransactionExecutor.agree_sessions hn services memory key hd m
  rw [hz] at hagree
  rw [List.length_map] at hdone
  have hended := RuntimeTransactionExecutor.ended hagree hdone
  cases ho : ((sessions.flatMap Session.requests).foldl RuntimeTransactionExecutor.addRequest
      (.init n services memory key)).runFor m with
  | returned y =>
    rw [ho] at hended
    exact ⟨m, y, ho, hended⟩
  | running y =>
    rw [ho] at hended
    exact hended.elim
  | threw msg =>
    rw [ho] at hagree
    exact hagree.elim

theorem batched_honest :
    Honest (K := ℕ) (V := ℕ) fun (s : Batched) i op c => (i, op, c) ∈ s.held where
  called s i op c j y c' h := by
    constructor
    · rcases List.mem_append.mp h with h | h
      · exact .inl h
      · obtain ⟨⟩ := List.mem_singleton.mp h
        exact .inr ⟨rfl, rfl, rfl⟩
    · rintro ⟨d, hd, -⟩
      cases hd
  batch s j y c' h := by cases h
  answers s i op c d hd := by cases hd
  batchAnswers s d hd := by
    obtain ⟨⟨i, op, c⟩, hc, rfl⟩ := List.mem_map.mp hd
    exact ⟨c, hc, fun _ => samplePrompt_lawful op c⟩
  keeping i op c := ⟨fun _ h => h, fun _ h => h, fun _ _ h => h⟩

theorem run_returns_sample :
    ∃ m y, runFor false m ((sampleTransactions.flatMap Transaction.requests).foldl addRequest
      (init 1 8 (⟨⟨.ofBase 0 100, .ofClock fun _ => 5⟩, []⟩ : Batched) (fun _ => 0)
        ⟨"t", 0⟩)) = .returned y ∧ Done 2 y :=
  run_returns batched_responsive batched_honest (by decide) false
    (fun _ _ _ h => by cases h) _ _ (by decide)

theorem runtime_run_returns_sample :
    ∃ m y, ((sampleSessions.flatMap Session.requests).foldl RuntimeTransactionExecutor.addRequest
      (.init 2 (⟨⟨.ofBase 0 100, .ofClock fun _ => 5⟩, []⟩ : Batched) (fun _ => 0)
        ⟨"t", 0⟩)).runFor m = .returned y ∧ RuntimeTransactionExecutor.Done 3 y :=
  runtime_run_returns batched_responsive batched_honest (by decide)
    (fun _ _ _ h => by cases h) _ _ (by decide)

end Fugue
