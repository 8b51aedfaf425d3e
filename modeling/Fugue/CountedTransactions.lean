import Fugue.SlotAccounting

namespace Fugue

open TransactionExecutor

variable {K V S : Type}

namespace TransactionExecutor

/-- A step of a system that has the slots `slots`, with the ledger that is kept by looking at
them. -/
def watched {σ α : Type} (step : σ → α → Option σ) (slots : σ → TransactionExecutor K V S)
    (p : σ × Ledger TxnStatus) (a : α) : Option (σ × Ledger TxnStatus) :=
  (step p.1 a).map fun s => (s, p.2.observe (slots p.1).standings (slots s).standings)

/-- The slot `i` went through an iteration of the loop of `MoveForward`, and the rest of the body of
the loop of `Advance` is still to come. -/
def Unserved (as : List (SlotAction V S)) (i : ℕ) : Prop :=
  ∃ pre j post, as = pre ++ .visit i j :: post ∧ .serve i ∉ post

structure Conserved (as : List (SlotAction V S)) (x : TransactionExecutor K V S)
    (l : Ledger TxnStatus) : Prop extends Accounts x l where
  launched : (l.started : ℤ) = x.commitCount + x.abortCount + x.activeTxnNumber
  commits : (∀ i, ¬ Unserved as i) → x.commitCount = l.ended.countP (·.2 = .committed)
  aborts : (∀ i, ¬ Unserved as i) → x.abortCount = l.ended.countP (·.2 = .aborted)

theorem Unserved.concat {as : List (SlotAction V S)} {i : ℕ} (h : Unserved as i)
    {a : SlotAction V S} (ha : a ≠ .serve i) : Unserved (as ++ [a]) i := by
  obtain ⟨pre, j, post, rfl, hno⟩ := h
  refine ⟨pre, j, post ++ [a], by simp, fun hm => ?_⟩
  rcases List.mem_append.mp hm with hm | hm
  · exact hno hm
  · exact ha (List.mem_singleton.mp hm).symm

theorem Accounts.conserved {x : TransactionExecutor K V S} {l : Ledger TxnStatus}
    (h : Accounts x l) {as : List (SlotAction V S)}
    (hu : ∀ i s, x.standings[i]? = some (some (some s)) → Unserved as i) : Conserved as x l := by
  have hnone : (∀ i, ¬ Unserved as i) → ∀ s, x.standings.count (some (some s)) = 0 := by
    intro hno s
    refine List.count_eq_zero.mpr fun hm => ?_
    obtain ⟨i, hi⟩ := List.getElem?_of_mem hm
    exact hno i (hu i s hi)
  refine ⟨h, h.launched, fun hno => ?_, fun hno => ?_⟩
  · have hc := h.counted .committed
    rwa [hnone hno, Nat.add_zero] at hc
  · have ha := h.counted .aborted
    rwa [hnone hno, Nat.add_zero] at ha

variable [DecidableEq K] [Services S]

/-- The ledger that is kept over a run is right, as long as what the run does besides the steps of
the slots only launches transactions. -/
theorem watched_run {σ α : Type} {step : σ → α → Option σ} {slots : σ → TransactionExecutor K V S}
    {slotOf : α → Option (SlotAction V S)} {handle : Handling K V S} {I : σ → Prop}
    (hh : Dispatches handle)
    (hslot : ∀ s a s' b, slotOf a = some b → step s a = some s' →
      TransactionExecutor.step handle (slots s) b = some (slots s'))
    (hlaunch : ∀ s a s' l, slotOf a = none → Balanced (slots s) l → I s → step s a = some s' →
      Launching (slots s) (slots s'))
    (hI : ∀ s a s' l, Balanced (slots s) l → I s → step s a = some s' → I s')
    {s s' : σ} {l l' : Ledger TxnStatus} (hb : Balanced (slots s) l) (hs : I s)
    (hfree : ∀ b ∈ (slots s).standings, b = none) {as : List α}
    (hr : run (watched step slots) (s, l) as = some (s', l')) :
    Balanced (slots s') l' ∧ I s' ∧ ∀ i r, (slots s').standings[i]? = some (some (some r)) →
      Unserved (as.filterMap slotOf) i := by
  induction as using List.reverseRecOn generalizing s' l' with
  | nil =>
    obtain ⟨rfl, rfl⟩ := Prod.mk.inj (Option.some.inj hr)
    exact ⟨hb, hs, fun i r hi => absurd (hfree _ (List.mem_of_getElem? hi)) (Option.some_ne_none _)⟩
  | append_singleton as a ih =>
    obtain ⟨⟨u, m⟩, hu, ha⟩ := run_concat.mp hr
    obtain ⟨hbal, hiu, hun⟩ := ih hu
    obtain ⟨v, hv, heq⟩ := Option.map_eq_some_iff.mp ha
    obtain ⟨rfl, rfl⟩ := Prod.mk.inj heq
    have hiv := hI u a v m hbal hiu hv
    rw [List.filterMap_append]
    cases hsa : slotOf a with
    | none =>
      have hl := hlaunch u a v m hsa hbal hiu hv
      refine ⟨hbal.launch hl, hiv, fun i r hi => ?_⟩
      have hslots := hl.standings
      simp only [List.filterMap_cons, hsa, List.filterMap_nil, List.append_nil]
      obtain ⟨hlen, hall⟩ := List.forall₂_iff_get.mp hslots
      obtain ⟨hlt, hget⟩ := List.getElem?_eq_some_iff.mp hi
      have hbefore := hall i (hlen ▸ hlt) hlt
      simp only [List.get_eq_getElem, hget] at hbefore
      rcases hbefore with hbefore | ⟨-, hbefore⟩
      · exact hun i r (List.getElem?_eq_some_iff.mpr ⟨hlen ▸ hlt, hbefore.symm⟩)
      · cases hbefore
    | some b =>
      have hstep := hslot u a v b hsa hv
      refine ⟨hbal.step hh hstep, hiv, fun i r hi => ?_⟩
      simp only [List.filterMap_cons, hsa, List.filterMap_nil]
      rcases hbal.ended_slot hh hstep hi with ⟨j, rfl⟩ | ⟨hi, hne⟩
      · exact ⟨_, j, [], rfl, by simp⟩
      · exact (hun i r hi).concat hne

end TransactionExecutor

section

variable [DecidableEq K] [Services S]

namespace ExecutorAction

def slotAction : ExecutorAction K V S → Option (SlotAction V S)
  | .slot a => some a
  | _ => none

end ExecutorAction

namespace ExecutorRun

open RuntimeTransactionExecutor

variable {s s' : ExecutorRun K V S} {l : Ledger TxnStatus} {a : ExecutorAction K V S}

theorem launch_counters (h : step s .launch = some s') :
    s'.commitCount = s.commitCount ∧ s'.abortCount = s.abortCount := by
  simp only [step] at h
  cases hl : RuntimeTransactionExecutor.launch s.toRuntimeTransactionExecutor with
  | error m =>
    rw [hl] at h
    cases h
  | ok q =>
    obtain ⟨x, p⟩ := q
    rw [hl] at h
    have hx : x.commitCount = s.commitCount ∧ x.abortCount = s.abortCount := by
      rcases launch_cases hl with ⟨-, rfl, -⟩ | ⟨r, y, hf, hcase⟩
      · exact ⟨rfl, rfl⟩
      · have hy := (fetch_cases hf).2.2
        rcases hcase with ⟨-, -, rfl, -⟩ | ⟨-, -, i, t, -, -, rfl⟩ | ⟨-, i, t, -, -, rfl⟩
        · rw [hy]
          exact ⟨rfl, rfl⟩
        · rw [← hy]
          exact ⟨rfl, rfl⟩
        · rw [← hy]
          exact ⟨rfl, rfl⟩
    cases p with
    | none =>
      cases h
      exact hx
    | some p =>
      cases h
      exact hx

theorem launching (hb : Balanced s.toTransactionExecutor l) (ha : a.slotAction = none)
    (h : step s a = some s') : Launching s.toTransactionExecutor s'.toTransactionExecutor := by
  have hsame : ∀ {z : TransactionExecutor K V S}, z.activeTxn = s.activeTxn →
      z.activeTxnNumber = s.activeTxnNumber → z.commitCount = s.commitCount →
      z.abortCount = s.abortCount → Launching s.toTransactionExecutor z := by
    intro z hz hact hcommit habort
    refine ⟨?_, by rw [hact, hz, hb.active], hcommit, habort, hz ▸ hb.tasks⟩
    rw [standings, standings, hz]
    exact List.forall₂_same.mpr fun _ _ => .inl rfl
  cases a with
  | addRequest r =>
    cases h
    exact hsame rfl rfl rfl rfl
  | slot a => cases ha
  | launch =>
    obtain ⟨hcommit, habort⟩ := launch_counters h
    have htasks : ∀ {i : ℕ} {t' : TransactionTask K V S}, TaskOk t' →
        s'.activeTxn = s.activeTxn.set i t' → ∀ t ∈ s'.activeTxn, TaskOk t := by
      intro i t' ht hx t hm
      rw [hx] at hm
      rcases List.mem_or_eq_of_mem_set hm with hm | rfl
      · exact hb.tasks t hm
      · exact ht
    cases launch_launched h with
    | idle hw hs => exact hs ▸ hsame rfl rfl rfl rfl
    | parked r hr hw hc hn hx ha hp =>
      rw [hx]
      exact hsame rfl rfl rfl rfl
    | started r i t hr hw hc ht hu hfirst hx hn ha hp =>
      have hok := ((hb.task ht).reset hu r.sessionId).push r
      obtain ⟨u, hi, rfl⟩ := task_eq_some.mp ht
      have hu' : u.inUse = false := hu
      have hnew := standings_set hx
      rw [TransactionTask.standing_unfinished (by rfl) (by rfl)] at hnew
      refine ⟨?_, ?_, hcommit, habort, htasks hok hx⟩
      · rw [hnew]
        have hold := standings_slot hi
        rw [TransactionTask.standing_idle hu'] at hold
        exact Ledger.forall₂_set (fun _ => .inl rfl) hold (.inr ⟨rfl, rfl⟩)
      · rw [hn, hx, countP_set_inUse hi, hb.active]
        simp [hu', TransactionTask.push, TransactionTask.reset]
    | routed r i t hr hw hc ht hid hfirst hx hn ha hp =>
      have hok := (hb.task ht).push r
      obtain ⟨u, hi, rfl⟩ := task_eq_some.mp ht
      refine ⟨?_, ?_, hcommit, habort, htasks hok hx⟩
      · rw [standings_set hx]
        exact Ledger.forall₂_set (fun _ => .inl rfl) (standings_slot hi) (.inl rfl)
      · rw [hn, hx, countP_set_inUse hi, hb.active]
        exact (Int.sub_add_cancel _ _).symm

def Begun (s : ExecutorRun K V S) : Prop :=
  (s.commitCount + s.abortCount + s.activeTxnNumber : ℤ) =
    s.pushed.countP fun p => p.request.operation.isBegin

theorem Begun.step (h : Begun s) (hb : Balanced s.toTransactionExecutor l)
    (hs : step s a = some s') : Begun s' := by
  cases a with
  | addRequest r =>
    cases hs
    exact h
  | slot a =>
    obtain ⟨x, hx, rfl⟩ := Option.map_eq_some_iff.mp hs
    have htotal := hb.step_total RuntimeTransactionExecutor.dispatches hx
    exact htotal.trans h
  | launch =>
    obtain ⟨hcommit, habort⟩ := launch_counters hs
    unfold Begun at h ⊢
    rw [hcommit, habort]
    cases launch_launched hs with
    | idle hw hs => rw [hs, h]
    | parked r hr hw hc hn hx ha hp => rw [hx, hp, h]
    | started r i t hr hw hc ht hu hfirst hx hn ha hp =>
      rw [hn, hp, List.countP_append]
      simp [hr, ← h]
      omega
    | routed r i t hr hw hc ht hid hfirst hx hn ha hp =>
      rw [hn, hp, List.countP_append]
      simp [hr, ← h]

omit [DecidableEq K] in
theorem launch_ok (hact : s.activeTxnNumber = s.activeTxn.countP (·.inUse)) :
    s.launch ≠ .error "no empty txn task" := by
  unfold launch
  cases hf : s.fetch with
  | none => simp
  | some p =>
    obtain ⟨r, y⟩ := p
    have hy := (fetch_cases hf).2.2
    simp only
    split
    · split
      · simp
      · next hn =>
        rw [hy] at hn
        obtain ⟨i, t, hs⟩ := exists_free hact (by omega)
        rw [← hy] at hs
        rw [hs]
        simp
    · split <;> simp

theorem launchRequests_error {x : RuntimeTransactionExecutor K V S} {m : String}
    (h : x.launchRequests = .error m) (added : List (SessionRequest K))
    (pushed : List (Push K)) : ∃ as y pushed', run step ⟨x, added, pushed⟩ as =
      some ⟨y, added, pushed'⟩ ∧ (∀ a ∈ as, a = .launch) ∧ y.launch = .error m := by
  fun_induction RuntimeTransactionExecutor.launchRequests x generalizing pushed with
  | case1 x m' hl =>
    cases h
    exact ⟨[], x, pushed, rfl, by simp, hl⟩
  | case2 x z hl => cases h
  | case3 x z p hl ih =>
    obtain ⟨as, y, pushed', hr, ha, hy⟩ := ih h (record ⟨z, added, pushed⟩ p.1 p.2).pushed
    refine ⟨.launch :: as, y, pushed', run_cons.mpr ⟨_, by simp only [step, hl]; rfl, hr⟩, ?_, hy⟩
    intro a hm
    rcases List.mem_cons.mp hm with rfl | hm
    · rfl
    · exact ha a hm

theorem launchRequests_ok (hb : Balanced s.toTransactionExecutor l) :
    s.launchRequests ≠ .error "no empty txn task" := by
  intro h
  obtain ⟨as, y, pushed', hr, ha, hy⟩ := launchRequests_error h s.added s.pushed
  have hbal : ∃ l, Balanced y.toTransactionExecutor l := by
    refine run_invariant_of_mem (I := fun s : ExecutorRun K V S =>
      ∃ l, Balanced s.toTransactionExecutor l) ?_ ⟨l, hb⟩ hr
    rintro t a t' hm ⟨m, hm'⟩ ht
    exact ⟨_, hm'.launch (launching hm' (by rw [ha a hm]; rfl) ht)⟩
  obtain ⟨m, hm⟩ := hbal
  exact launch_ok (s := ⟨y, s.added, pushed'⟩) hm.active hy

theorem watched_invariant (n : ℕ) (services : S) (memory : Addr → V) (key : SetKey K)
    {as : List (ExecutorAction K V S)}
    (hr : run (watched step fun s => s.toTransactionExecutor)
      (init n services memory key, .empty) as = some (s, l)) :
    Balanced s.toTransactionExecutor l ∧ Begun s ∧
      Conserved (as.filterMap ExecutorAction.slotAction) s.toTransactionExecutor l := by
  have hb : Balanced (init n services memory key : ExecutorRun K V S).toTransactionExecutor .empty :=
    .init n services memory key
  have hfree : ∀ b ∈ (init n services memory key : ExecutorRun K V S).standings, b = none := by
    intro b hb
    obtain ⟨t, ht, rfl⟩ := List.mem_map.mp hb
    obtain rfl := List.eq_of_mem_replicate ht
    rfl
  have hslot : ∀ (s : ExecutorRun K V S) (a : ExecutorAction K V S) s' b, a.slotAction = some b →
      step s a = some s' → TransactionExecutor.step handle s.toTransactionExecutor b =
        some s'.toTransactionExecutor := by
    intro s a s' b ha hs
    cases a with
    | slot a =>
      obtain rfl := Option.some.inj ha
      obtain ⟨x, hx, rfl⟩ := Option.map_eq_some_iff.mp hs
      exact hx
    | _ => cases ha
  obtain ⟨hbal, hbegun, hun⟩ := watched_run (I := Begun) RuntimeTransactionExecutor.dispatches
    hslot (fun s a s' l ha hb _ h => launching hb ha h) (fun s a s' l hb h hs => h.step hb hs)
    hb rfl hfree hr
  exact ⟨hbal, hbegun, hbal.conserved hun⟩

end ExecutorRun

inductive AllAtOnceAction (V S : Type)
  | launchRequests
  | slot (a : SlotAction V S)

def AllAtOnceAction.slotAction : AllAtOnceAction V S → Option (SlotAction V S)
  | .slot a => some a
  | .launchRequests => none

namespace AllAtOnceTransactionExecutor

variable {x x' : AllAtOnceTransactionExecutor K V S} {l : Ledger TxnStatus}
  {a : AllAtOnceAction V S} {txns : List (Transaction K)} {driver : Bool}

def act (driver : Bool) (x : AllAtOnceTransactionExecutor K V S) :
    AllAtOnceAction V S → Option (AllAtOnceTransactionExecutor K V S)
  | .launchRequests => x.launchRequests.toOption
  | .slot a => (TransactionExecutor.step (handle driver) x.toTransactionExecutor a).map fun y =>
      { x with toTransactionExecutor := y }

/-- The transactions that were not launched yet are those that wait in the queue. -/
def Remaining (txns : List (Transaction K)) (x : AllAtOnceTransactionExecutor K V S) : Prop :=
  ∃ m : ℕ, (m : ℤ) = x.commitCount + x.abortCount + x.activeTxnNumber ∧
    Queued ((txns.drop m).flatMap Transaction.requests) x ∧
    x.popIndex = ((txns.take m).flatMap Transaction.requests).length

theorem act_launchRequests (hb : Balanced x.toTransactionExecutor l) (hm : Remaining txns x)
    (h : act driver x .launchRequests = some x') :
    ∃ m : ℕ, (m : ℤ) = x.commitCount + x.abortCount + x.activeTxnNumber ∧
      Queued ((txns.drop m).flatMap Transaction.requests) x ∧
      x.popIndex = ((txns.take m).flatMap Transaction.requests).length ∧
      Distributed x.freeSlots (txns.drop m) x x' := by
  obtain ⟨m, hm, hq, hpop⟩ := hm
  obtain ⟨y, hy, hd⟩ := launchRequests_distributed hq hb.active
  rw [act, hy] at h
  obtain rfl := Option.some.inj h
  exact ⟨m, hm, hq, hpop, hd⟩

theorem launching (hb : Balanced x.toTransactionExecutor l) (hm : Remaining txns x)
    (ha : a.slotAction = none) (h : act driver x a = some x') :
    Launching x.toTransactionExecutor x'.toTransactionExecutor := by
  cases a with
  | slot a => cases ha
  | launchRequests =>
    obtain ⟨m, -, -, -, hd⟩ := act_launchRequests hb hm h
    -- a slot is as it was, or was free and holds one of the transactions now
    have hslot : ∀ i : ℕ, x'.activeTxn[i]? = x.activeTxn[i]? ∨ ∃ u t' : TransactionTask K V S,
        x.activeTxn[i]? = some u ∧ u.inUse = false ∧ x'.activeTxn[i]? = some t' ∧
        TaskOk t' ∧ t'.standing = some none := by
      intro i
      by_cases hi : i ∈ (x.freeSlots.zip (txns.drop m)).map Prod.fst
      · obtain ⟨p, hp, rfl⟩ := List.mem_map.mp hi
        obtain ⟨u, services, memory, hu, hy⟩ := hd.launched p hp
        obtain ⟨w, hw, hfree⟩ := mem_freeSlots.mp (List.of_mem_zip hp).1
        obtain rfl := Option.some.inj (hu.symm.trans hw)
        have hok := ((hb.tasks u (List.mem_of_getElem? hu)).share services memory).reset hfree
          p.2.sessionId
        refine .inr ⟨u, _, hu, hfree, hy, ?_, rfl⟩
        exact ⟨hok.alive, fun hin _ => hok.serving hin (by simp [TransactionTask.reset,
          TransactionRequest.init]), hok.released⟩
      · exact .inl (hd.untouched i hi)
    refine ⟨?_, hd.inUse, hd.commitCount, hd.abortCount, fun t ht => ?_⟩
    · refine Ledger.forall₂_of_slots fun i => ?_
      rcases hslot i with hsame | ⟨u, t', hu, hfree, hnew, -, hstand⟩
      · cases hi : x.activeTxn[i]? with
        | none =>
          rw [hi] at hsame
          left
          rw [standings, standings, List.getElem?_map, List.getElem?_map, hi, hsame]
          exact ⟨rfl, rfl⟩
        | some u =>
          exact .inr ⟨_, _, standings_slot hi, standings_slot (hsame.trans hi), .inl rfl⟩
      · refine .inr ⟨_, _, standings_slot hu, standings_slot hnew, .inr ⟨?_, hstand⟩⟩
        exact TransactionTask.standing_idle hfree
    · obtain ⟨i, hi⟩ := List.getElem?_of_mem ht
      rcases hslot i with hsame | ⟨u, t', -, -, hnew, hok, -⟩
      · exact hb.tasks t (List.mem_of_getElem? (hsame.symm.trans hi))
      · obtain rfl := Option.some.inj (hi.symm.trans hnew)
        exact hok

theorem Remaining.act (hm : Remaining txns x) (hb : Balanced x.toTransactionExecutor l)
    (h : act driver x a = some x') : Remaining txns x' := by
  cases a with
  | slot a =>
    obtain ⟨y, hy, rfl⟩ := Option.map_eq_some_iff.mp h
    obtain ⟨m, hm, hq, hpop⟩ := hm
    refine ⟨m, ?_, ⟨hq.request, hq.pushIndex⟩, hpop⟩
    exact hm.trans (hb.step_total (dispatches driver) hy).symm
  | launchRequests =>
    obtain ⟨m, hm, hq, hpop, hd⟩ := act_launchRequests hb hm h
    have hpop' := hd.popIndex
    rw [List.take_eq_take_min] at hpop'
    have hact := hd.active
    generalize min x.freeSlots.length (txns.drop m).length = k at hpop' hact
    have hx : x' = { x with
        toTransactionExecutor := x'.toTransactionExecutor
        popIndex := x.popIndex + (((txns.drop m).take k).flatMap Transaction.requests).length } := by
      rw [← hpop', ← hd.requestQueuePool, ← hd.pushIndex]
    refine ⟨m + k, ?_, ?_, ?_⟩
    · rw [hd.commitCount, hd.abortCount, hact]
      omega
    · rw [← List.take_append_drop k (txns.drop m), List.flatMap_append, List.drop_drop] at hq
      rw [hx]
      exact hq.drop _ rfl
    · rw [hpop', hpop, List.take_add, List.flatMap_append, List.length_append]

theorem watched_invariant (n capacity : ℕ) (services : S) (memory : Addr → V) (key : SetKey K)
    (hc : (txns.flatMap Transaction.requests).length ≤ capacity) {as : List (AllAtOnceAction V S)}
    (hr : run (watched (act driver) fun x => x.toTransactionExecutor)
      ((txns.flatMap Transaction.requests).foldl addRequest
        (init n capacity services memory key), .empty) as = some (x, l)) :
    Balanced x.toTransactionExecutor l ∧ Remaining txns x ∧
      Conserved (as.filterMap AllAtOnceAction.slotAction) x.toTransactionExecutor l := by
  obtain ⟨hq, hx⟩ := Queued.ofRequests n capacity services memory key _ hc
  obtain ⟨-, -, -, hpop, -⟩ := Paired.addRequests n capacity services memory key _ hc
  generalize (txns.flatMap Transaction.requests).foldl addRequest
    (init n capacity services memory key) = z at hq hx hr hpop
  have hslot : ∀ (x : AllAtOnceTransactionExecutor K V S) (a : AllAtOnceAction V S) x' b,
      a.slotAction = some b → act driver x a = some x' →
      TransactionExecutor.step (handle driver) x.toTransactionExecutor b =
        some x'.toTransactionExecutor := by
    intro x a x' b ha hs
    cases a with
    | slot a =>
      obtain rfl := Option.some.inj ha
      obtain ⟨y, hy, rfl⟩ := Option.map_eq_some_iff.mp hs
      exact hy
    | launchRequests => cases ha
  have hfree : ∀ b ∈ z.standings, b = none := by
    intro b hb
    obtain ⟨t, ht, rfl⟩ := List.mem_map.mp hb
    rw [hx] at ht
    obtain rfl := List.eq_of_mem_replicate ht
    rfl
  obtain ⟨hbal, hrem, hun⟩ := watched_run (I := Remaining txns) (dispatches driver) hslot
    (fun x a x' l ha hb hm h => launching hb hm ha h) (fun x a x' l hb hm h => hm.act hb h)
    (hx ▸ .init n services memory key) ⟨0, by rw [hx]; rfl, hq, hpop⟩ hfree hr
  exact ⟨hbal, hrem, hbal.conserved hun⟩

end AllAtOnceTransactionExecutor

end

open AllAtOnceTransactionExecutor

/-- In every state that an executor reaches, its counters agree with its slots and with the
transactions that it launched, each of which ends once and is counted under its status. -/
theorem transactions_conserved [DecidableEq K] [Services S] (n : ℕ) (services : S)
    (memory : Addr → V) (key : SetKey K) :
    (∀ (as : List (ExecutorAction K V S)) (s : ExecutorRun K V S) (l : Ledger TxnStatus),
      run (watched ExecutorRun.step fun s => s.toTransactionExecutor)
        (ExecutorRun.init n services memory key, .empty) as = some (s, l) →
      Conserved (as.filterMap ExecutorAction.slotAction) s.toTransactionExecutor l ∧
        l.started = s.pushed.countP (fun p => p.request.operation.isBegin) ∧
        s.launchRequests ≠ .error "no empty txn task") ∧
    ∀ (driver : Bool) (capacity : ℕ) (txns : List (Transaction K)),
      (txns.flatMap Transaction.requests).length ≤ capacity →
      ∀ (as : List (AllAtOnceAction V S)) (x : AllAtOnceTransactionExecutor K V S)
        (l : Ledger TxnStatus),
      run (watched (AllAtOnceTransactionExecutor.act driver) fun x => x.toTransactionExecutor)
        ((txns.flatMap Transaction.requests).foldl addRequest
          (AllAtOnceTransactionExecutor.init n capacity services memory key), .empty) as =
        some (x, l) →
      Conserved (as.filterMap AllAtOnceAction.slotAction) x.toTransactionExecutor l ∧
        x.popIndex = ((txns.take l.started).flatMap Transaction.requests).length ∧
        ∃ y, x.launchRequests = .ok y := by
  constructor
  · intro as s l hr
    obtain ⟨hb, hbegun, hc⟩ := ExecutorRun.watched_invariant n services memory key hr
    have hl := hc.launched.trans hbegun
    exact ⟨hc, by exact_mod_cast hl, ExecutorRun.launchRequests_ok hb⟩
  · intro driver capacity txns hcap as x l hr
    obtain ⟨hb, ⟨m, hm, hq, hpop⟩, hc⟩ :=
      AllAtOnceTransactionExecutor.watched_invariant n capacity services memory key hcap hr
    obtain rfl : l.started = m := by exact_mod_cast hc.launched.trans hm.symm
    obtain ⟨y, hy, -⟩ := launchRequests_distributed hq hb.active
    exact ⟨hc, hpop, y, hy⟩

theorem transactions_conserved_sample :
    (∃ s l, run (watched ExecutorRun.step fun s => s.toTransactionExecutor)
      (ExecutorRun.sampleRun 1, .empty) ExecutorRun.lostRequest = some (s, l) ∧
      l.ended = [(0, .aborted)] ∧ (1 : ℤ) = s.commitCount + s.abortCount + s.activeTxnNumber) ∧
    ∃ x l, run (watched (AllAtOnceTransactionExecutor.act true) fun x => x.toTransactionExecutor)
      (sampleQueue 1, .empty) [.launchRequests] = some (x, l) ∧
      x.popIndex = ((sampleTransactions.take l.started).flatMap Transaction.requests).length := by
  obtain ⟨hrun, hall⟩ := transactions_conserved 1
    (⟨.ofBase 0 100, .ofClock fun _ => 5⟩ : LocalServices) (fun _ => 0) (⟨"t", 0⟩ : SetKey ℕ)
  constructor
  · have h : (run (watched ExecutorRun.step fun s => s.toTransactionExecutor)
        (ExecutorRun.sampleRun 1, .empty) ExecutorRun.lostRequest).map
        (fun p => (p.2.started, p.2.ended)) = some (1, [(0, .aborted)]) := by
      decide +kernel
    obtain ⟨⟨s, l⟩, hr, hp⟩ := Option.map_eq_some_iff.mp h
    obtain ⟨hstarted, hended⟩ := Prod.mk.inj hp
    have hl := (hrun _ s l hr).1.launched
    rw [hstarted] at hl
    exact ⟨s, l, hr, hended, hl⟩
  · obtain ⟨y, hy⟩ := (hall true 8 sampleTransactions (by decide) [] (sampleQueue 1) .empty rfl).2.2
    have hr : run (watched (AllAtOnceTransactionExecutor.act true) fun x => x.toTransactionExecutor)
        (sampleQueue 1, .empty) [.launchRequests] =
          some (y, Ledger.empty.observe (sampleQueue 1).standings y.standings) := by
      refine run_cons.mpr ⟨_, ?_, rfl⟩
      simp only [watched, AllAtOnceTransactionExecutor.act, hy]
      rfl
    exact ⟨y, _, hr, (hall true 8 sampleTransactions (by decide) _ y _ hr).2.1⟩

end Fugue
