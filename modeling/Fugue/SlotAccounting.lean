import Fugue.LaunchDistribution
import Fugue.Library.Ledger
import Fugue.RequestQueue

namespace Fugue

open TransactionExecution TransactionExecutor

variable {K V S : Type}

namespace TransactionExecution

variable [DecidableEq K] [Services S] {e e' : TransactionExecution K V S}

theorem Alive.ended_status (h : Alive e) (hf : e.isTransactionFinished = true) :
    e.status = .committed ∨ e.status = .aborted := by
  obtain ⟨x, gaveUp, s, -, hp⟩ := h.finished hf
  rcases hp.finished.mp hf with rfl | rfl
  · exact .inl hp.facts.1
  · exact .inr hp.facts.1

theorem Alive.visit_ended (h : Alive e) (hf : e.isTransactionFinished = true) {j : ℕ} {b : Bool}
    (hv : e.visit j = .ok (e', b)) : e' = e := by
  obtain ⟨x, gaveUp, s, -, hp⟩ := h.finished hf
  have hnone : e.operationVector.slot j = none := by
    by_contra hne
    obtain ⟨op, hop⟩ := Option.ne_none_iff_exists'.mp hne
    have hheld := hp.stacked.occupied.held_of_slot hop
    rcases hp.finished.mp hf with rfl | rfl <;> simp [Stage.parent, Stage.member] at hheld
  simp only [visit, hnone] at hv
  cases hv
  rfl

theorem Alive.tidied_status (h : Alive e) (hf : e.isTransactionFinished = true) :
    e.tidied.status = e.status := by
  have hst : e.status ≠ .aborting := by
    rcases h.ended_status hf with hs | hs <;> simp [hs]
  unfold TransactionExecution.tidied
  split
  · rfl
  · rw [tidy, if_neg hst]

end TransactionExecution

namespace TransactionTask

def standing (t : TransactionTask K V S) : Standing TxnStatus :=
  if t.inUse then
    some (if t.execution.isTransactionFinished then some t.execution.status else none)
  else none

theorem standing_share (t : TransactionTask K V S) (services : S) (memory : Addr → V) :
    ({ t with execution := t.execution.share services memory } : TransactionTask K V S).standing =
      t.standing := rfl

theorem standing_idle {t : TransactionTask K V S} (h : t.inUse = false) : t.standing = none := by
  simp [standing, h]

theorem standing_unfinished {t : TransactionTask K V S} (h : t.inUse = true)
    (hf : t.execution.isTransactionFinished = false) : t.standing = some none := by
  simp [standing, h, hf]

theorem standing_ended {t : TransactionTask K V S} (h : t.inUse = true)
    (hf : t.execution.isTransactionFinished = true) :
    t.standing = some (some t.execution.status) := by
  simp [standing, h, hf]

theorem isSome_standing (t : TransactionTask K V S) : t.standing.isSome = t.inUse := by
  unfold standing
  split
  · next h => rw [h, Option.isSome_some]
  · next h => simpa using h

theorem standing_answer [DecidableEq K] {t : TransactionTask K V S}
    {e : TransactionExecution K V S} {op : Op} {reply : Reply V op}
    (h : t.execution.complete op reply = some e) :
    ({ t with execution := e } : TransactionTask K V S).standing = t.standing := by
  obtain ⟨c, hc⟩ := complete_cases h
  simp only [standing, hc.isTransactionFinished, hc.status]

end TransactionTask

section

open TransactionTask

variable [DecidableEq K] [Services S] {t : TransactionTask K V S}

theorem TaskOk.standing_visit (h : TaskOk t) {j : ℕ} {e : TransactionExecution K V S}
    (hs : t.execution.step (.visit j) = some e) :
    ({ t with execution := e } : TransactionTask K V S).standing = t.standing ∨
      ∃ s, t.standing = some none ∧
        ({ t with execution := e } : TransactionTask K V S).standing = some (some s) := by
  generalize ht : ({ t with execution := e } : TransactionTask K V S) = t'
  have huse : t'.inUse = t.inUse := by rw [← ht]
  cases hin : t.inUse with
  | false =>
    left
    rw [standing_idle hin, standing_idle (huse.trans hin)]
  | true =>
    cases hf : t.execution.isTransactionFinished with
    | false =>
      rw [standing_unfinished hin hf]
      cases hf' : t'.execution.isTransactionFinished with
      | false => exact .inl (standing_unfinished (huse.trans hin) hf')
      | true => exact .inr ⟨_, rfl, standing_ended (huse.trans hin) hf'⟩
    | true =>
      left
      simp only [TransactionExecution.step] at hs
      cases hv : t.execution.visit j with
      | error m =>
        rw [hv] at hs
        cases hs
      | ok p =>
        rw [hv] at hs
        have hp : p.1 = e := Option.some.inj hs
        rw [(h.alive hin).visit_ended (b := p.2) hf hv] at hp
        rw [← ht, ← hp]

theorem TaskOk.status_served (h : TaskOk t) {handle : Handling K V S} (hin : t.inUse = true)
    (hf : t.execution.isTransactionFinished = true) :
    (t.serve handle).execution.status = t.execution.status := by
  have hfin : t.execution.tidied.isTransactionFinished = true :=
    tidied_isTransactionFinished.trans hf
  unfold TransactionTask.serve
  simp only
  rw [if_neg (by simp [hfin])]
  exact (h.alive hin).tidied_status hf

end

namespace TransactionExecutor

def standings (x : TransactionExecutor K V S) : List (Standing TxnStatus) :=
  x.activeTxn.map TransactionTask.standing

theorem standings_slot {x : TransactionExecutor K V S} {i : ℕ} {t : TransactionTask K V S}
    (hi : x.activeTxn[i]? = some t) : x.standings[i]? = some t.standing := by
  rw [standings, List.getElem?_map, hi, Option.map_some]

theorem standings_set {x x' : TransactionExecutor K V S} {i : ℕ} {t' : TransactionTask K V S}
    (hx : x'.activeTxn = x.activeTxn.set i t') : x'.standings = x.standings.set i t'.standing := by
  rw [standings, hx, List.map_set]
  rfl

def counted (x : TransactionExecutor K V S) : TxnStatus → ℕ
  | .committed => x.commitCount
  | .aborted => x.abortCount
  | _ => 0

theorem counted_congr {x x' : TransactionExecutor K V S} (hc : x'.commitCount = x.commitCount)
    (ha : x'.abortCount = x.abortCount) (s : TxnStatus) : x'.counted s = x.counted s := by
  cases s <;> first | rfl | assumption

/-- The counters, and a ledger with the number that each transaction got when it was launched and
the status that it ended with. -/
structure Accounts (x : TransactionExecutor K V S) (l : Ledger TxnStatus) : Prop where
  active : x.activeTxnNumber = x.activeTxn.countP (·.inUse)
  sound : l.Sound x.standings
  counted : ∀ s, x.counted s + x.standings.count (some (some s)) = l.ended.countP (·.2 = s)
  statuses : ∀ p ∈ l.ended, p.2 = .committed ∨ p.2 = .aborted

namespace Accounts

variable {x : TransactionExecutor K V S} {l : Ledger TxnStatus}

theorem slots_in_use (h : Accounts x l) : x.activeTxn.countP (·.inUse) =
    x.standings.count (some none) + x.standings.count (some (some .committed)) +
      x.standings.count (some (some .aborted)) := by
  have hslot : ∀ b ∈ x.standings, b = none ∨ b = some none ∨ b = some (some .committed) ∨
      b = some (some .aborted) := by
    intro b hb
    obtain ⟨i, hi⟩ := List.getElem?_of_mem hb
    obtain _ | _ | s := b
    · exact .inl rfl
    · exact .inr (.inl rfl)
    · obtain ⟨n, hn⟩ := h.sound.running_of_slot hi
      have hmem := (h.sound.result i n _ hn hi s).mpr rfl
      rcases h.statuses _ hmem with rfl | rfl
      · exact .inr (.inr (.inl rfl))
      · exact .inr (.inr (.inr rfl))
  have hcount : ∀ slots : List (Standing TxnStatus), (∀ b ∈ slots, b = none ∨ b = some none ∨
      b = some (some .committed) ∨ b = some (some .aborted)) →
      slots.countP Option.isSome = slots.count (some none) +
        slots.count (some (some .committed)) + slots.count (some (some .aborted)) := by
    intro slots hall
    induction slots with
    | nil => rfl
    | cons b slots ih =>
      have hrest := ih fun c hc => hall c (List.mem_cons_of_mem _ hc)
      rw [List.countP_cons, List.count_cons, List.count_cons, List.count_cons, hrest]
      rcases hall b List.mem_cons_self with rfl | rfl | rfl | rfl
      · simp
      · simp
        omega
      · simp
        omega
      · simp
        omega
  rw [← hcount x.standings hslot, standings, List.countP_map]
  exact List.countP_congr fun t _ => by simp [TransactionTask.isSome_standing]

theorem launched (h : Accounts x l) :
    (l.started : ℤ) = x.commitCount + x.abortCount + x.activeTxnNumber := by
  have hended : l.ended.length =
      l.ended.countP (·.2 = .committed) + l.ended.countP (·.2 = .aborted) := by
    rw [List.length_eq_countP_add_countP (fun p : ℕ × TxnStatus => p.2 = .committed)]
    congr 1
    apply List.countP_congr
    intro p hp
    rcases h.statuses p hp with hs | hs <;> simp [hs]
  have hc : x.commitCount + _ = _ := h.counted .committed
  have ha : x.abortCount + _ = _ := h.counted .aborted
  have htotal := h.sound.total
  have hslots := h.slots_in_use
  rw [h.active]
  omega

end Accounts

variable [DecidableEq K] [Services S]

structure Balanced (x : TransactionExecutor K V S) (l : Ledger TxnStatus) : Prop
    extends Accounts x l where
  tasks : ∀ t ∈ x.activeTxn, TaskOk t

structure Launching (x x' : TransactionExecutor K V S) : Prop where
  standings : List.Forall₂ (fun b c => c = b ∨ b = none ∧ c = some none) x.standings x'.standings
  active : x'.activeTxnNumber = x'.activeTxn.countP (·.inUse)
  commitCount : x'.commitCount = x.commitCount
  abortCount : x'.abortCount = x.abortCount
  tasks : ∀ t ∈ x'.activeTxn, TaskOk t

def SameCounters (x x' : TransactionExecutor K V S) : Prop :=
  x'.activeTxnNumber = x.activeTxnNumber ∧ x'.commitCount = x.commitCount ∧
    x'.abortCount = x.abortCount

/-- What a step does to the slots and to the counters: a transaction only ends in the loop of
`MoveForward`, and is counted when its slot is served. -/
inductive SlotMove (x : TransactionExecutor K V S) (a : SlotAction V S)
    (x' : TransactionExecutor K V S) : Prop
  | services (ha : ∀ i, a ≠ .serve i) (hx : x'.activeTxn = x.activeTxn) (hc : SameCounters x x')
  | stays (i : ℕ) (t t' : TransactionTask K V S) (hi : x.activeTxn[i]? = some t)
      (hx : x'.activeTxn = x.activeTxn.set i t') (hok : TaskOk t')
      (hs : t'.standing = t.standing) (ha : (∀ j, a ≠ .serve j) ∨ a = .serve i ∧ t.standing = some none)
      (hc : SameCounters x x')
  | ends (i j : ℕ) (t t' : TransactionTask K V S) (s : TxnStatus) (hi : x.activeTxn[i]? = some t)
      (hx : x'.activeTxn = x.activeTxn.set i t') (hok : TaskOk t') (ha : a = .visit i j)
      (hs : t.standing = some none) (hs' : t'.standing = some (some s)) (hc : SameCounters x x')
  | leaves (i : ℕ) (t t' : TransactionTask K V S) (s : TxnStatus) (hi : x.activeTxn[i]? = some t)
      (hx : x'.activeTxn = x.activeTxn.set i t') (hok : TaskOk t') (ha : a = .serve i)
      (hs : t.standing = some (some s)) (hs' : t'.standing = none)
      (hended : s = .committed ∨ s = .aborted)
      (hact : x'.activeTxnNumber = x.activeTxnNumber - 1)
      (hcommit : x'.commitCount = x.commitCount + if s = .committed then 1 else 0)
      (habort : x'.abortCount = x.abortCount + if s = .aborted then 1 else 0)

theorem step_slot {handle : Handling K V S} (hh : Dispatches handle)
    {x x' : TransactionExecutor K V S} (htasks : ∀ t ∈ x.activeTxn, TaskOk t)
    {a : SlotAction V S} (h : step handle x a = some x') : SlotMove x a x' := by
  have htask : ∀ {i t}, x.task i = some t → TaskOk t := by
    intro i t ht
    obtain ⟨u, hu, rfl⟩ := task_eq_some.mp ht
    exact (htasks u (List.mem_of_getElem? hu)).share _ _
  cases a with
  | answer i op reply =>
    obtain ⟨t, ht, h⟩ := Option.bind_eq_some_iff.mp h
    obtain ⟨e, he, rfl⟩ := Option.map_eq_some_iff.mp h
    have hok := (htask ht).step (a := .complete op reply) (by simp) he (by simp)
    have hstand := TransactionTask.standing_answer he
    rw [setExecution_eq ht]
    obtain ⟨u, hu, rfl⟩ := task_eq_some.mp ht
    exact .stays i u _ hu rfl hok hstand (.inl (by simp)) ⟨rfl, rfl, rfl⟩
  | visit i j =>
    obtain ⟨t, ht, h⟩ := Option.bind_eq_some_iff.mp h
    obtain ⟨e, he, rfl⟩ := Option.map_eq_some_iff.mp h
    have hok := (htask ht).step (by simp) he (by simp)
    have hstand := (htask ht).standing_visit he
    rw [setExecution_eq ht]
    obtain ⟨u, hu, rfl⟩ := task_eq_some.mp ht
    rcases hstand with hstand | ⟨s, hs, hs'⟩
    · exact .stays i u _ hu rfl hok hstand (.inl (by simp)) ⟨rfl, rfl, rfl⟩
    · exact .ends i j u _ s hu rfl hok rfl hs hs' ⟨rfl, rfl, rfl⟩
  | serve i =>
    obtain ⟨t, ht, h⟩ := Option.bind_eq_some_iff.mp h
    split at h
    · next hin =>
      cases h
      have hok := htask ht
      have hsv := hok.serve hh hin
      obtain ⟨u, hu, hut⟩ := task_eq_some.mp ht
      have hstand : u.standing = t.standing := by rw [hut, TransactionTask.standing_share]
      unfold settle
      split
      · next hf =>
        have hfin := hsv.finished.symm.trans hf
        have hst : (t.serve handle).execution.status = t.execution.status :=
          hok.status_served hin hfin
        refine .leaves i u (t.serve handle).release t.execution.status hu rfl ?_ rfl ?_ ?_ ?_ rfl ?_ ?_
        · refine ⟨?_, ?_, fun _ => hsv.empty hfin⟩
          · simp [TransactionTask.release]
          · simp [TransactionTask.release]
        · rw [hstand, TransactionTask.standing_ended hin hfin]
        · exact TransactionTask.standing_idle rfl
        · exact (hok.alive hin).ended_status hfin
        · simp only [hst]
        · simp only [hst]
      · next hf =>
        have hf' : (t.serve handle).execution.isTransactionFinished = false := by simpa using hf
        have hnone : t.standing = some none :=
          TransactionTask.standing_unfinished hin (hsv.finished.symm.trans hf')
        refine .stays i u (t.serve handle) hu rfl hsv.ok ?_ (.inr ⟨rfl, hstand.trans hnone⟩)
          ⟨rfl, rfl, rfl⟩
        rw [TransactionTask.standing_unfinished hsv.inUse hf', hstand, hnone]
    · cases h
  | services services =>
    cases h
    exact .services (by simp) rfl ⟨rfl, rfl, rfl⟩

namespace Balanced

variable {x x' : TransactionExecutor K V S} {l : Ledger TxnStatus} {i : ℕ}
  {t t' : TransactionTask K V S}

theorem init (n : ℕ) (services : S) (memory : Addr → V) (key : SetKey K) :
    Balanced (TransactionExecutor.init n services memory key) .empty := by
  have hmem : ∀ t ∈ (TransactionExecutor.init n services memory key).activeTxn,
      t = .init services memory key := fun t ht => List.eq_of_mem_replicate ht
  have hfree : ∀ b ∈ (TransactionExecutor.init n services memory key).standings, b = none := by
    intro b hb
    obtain ⟨t, ht, rfl⟩ := List.mem_map.mp hb
    rw [hmem t ht]
    rfl
  refine ⟨⟨?_, .empty hfree, fun s => ?_, by simp [Ledger.empty]⟩, fun t ht => ?_⟩
  · have hcount : (TransactionExecutor.init n services memory key).activeTxn.countP (·.inUse) = 0 := by
      rw [List.countP_eq_zero]
      intro t ht
      rw [hmem t ht]
      simp [TransactionTask.init]
    rw [hcount]
    rfl
  · have hcount : (TransactionExecutor.init n services memory key).standings.count
        (some (some s)) = 0 :=
      List.count_eq_zero.mpr fun hm => Option.some_ne_none _ (hfree _ hm)
    rw [hcount]
    cases s <;> rfl
  · rw [hmem t ht]
    exact .init services memory key

theorem task (h : Balanced x l) (ht : x.task i = some t) : TaskOk t := by
  obtain ⟨u, hu, rfl⟩ := task_eq_some.mp ht
  exact (h.tasks u (List.mem_of_getElem? hu)).share _ _

theorem same (h : Balanced x l) (hx : x'.activeTxn = x.activeTxn)
    (hact : x'.activeTxnNumber = x.activeTxnNumber) (hcommit : x'.commitCount = x.commitCount)
    (habort : x'.abortCount = x.abortCount) :
    Balanced x' (l.observe x.standings x'.standings) := by
  have hstand : x'.standings = x.standings := by rw [standings, hx, standings]
  rw [hstand, Ledger.observe, Ledger.observeFrom_self]
  refine ⟨⟨?_, hstand ▸ h.sound, fun s => ?_, h.statuses⟩, hx ▸ h.tasks⟩
  · rw [hact, hx, h.active]
  · rw [hstand, counted_congr hcommit habort, h.counted]

theorem move (h : Balanced x l) (hi : x.activeTxn[i]? = some t)
    (hx : x'.activeTxn = x.activeTxn.set i t') (hm : Moves t.standing t'.standing)
    (hok : TaskOk t')
    (hact : x'.activeTxnNumber =
      x.activeTxnNumber - (if t.inUse then 1 else 0) + if t'.inUse then 1 else 0)
    (hcounted : ∀ s, x'.counted s =
      x.counted s + if t.standing = some (some s) ∧ t'.standing = none then 1 else 0) :
    Balanced x' (l.observe x.standings x'.standings) := by
  have hslot := standings_slot hi
  obtain ⟨hlt, hget⟩ := List.getElem?_eq_some_iff.mp hslot
  have hset := standings_set hx
  have hsee := h.sound.see hslot hm
  rw [hset, Ledger.observe_set hslot]
  refine ⟨⟨?_, hset ▸ hsee, fun s => ?_, fun p hp => ?_⟩, fun u hu => ?_⟩
  · rw [hact, hx, countP_set_inUse hi, h.active]
  · have hold := h.counted s
    have hmem : t.standing = some (some s) → 0 < x.standings.count (some (some s)) := fun hs =>
      List.count_pos_iff.mpr (hs ▸ List.mem_of_getElem? hslot)
    rw [hcounted, hset, List.count_set hlt, hget]
    -- by what the slot does: the transaction in it ends, or is counted, or neither
    generalize t.standing = b at hm hslot hmem ⊢
    generalize t'.standing = c at hm ⊢
    cases hm with
    | stay b =>
      rw [Ledger.see_self]
      by_cases hb : b = some (some s)
      · have := hmem hb
        simp [hb]
        omega
      · simp [hb]
        omega
    | start =>
      simp [Ledger.see, Ledger.start]
      omega
    | finish a =>
      obtain ⟨n, hn⟩ := h.sound.running_of_slot hslot
      simp only [Ledger.see, Ledger.finish, hn, Option.map_some, Option.toList_some,
        List.countP_append, ← hold]
      by_cases ha : a = s
      · simp [ha]
        omega
      · simp [ha]
    | leave a =>
      simp only [Ledger.see, Ledger.leave, ← hold]
      by_cases ha : a = s
      · have := hmem (by rw [ha])
        simp [ha]
        omega
      · simp [ha]
  · have hnew : ∀ s, t'.standing = some (some s) → s = .committed ∨ s = .aborted := by
      intro s hs
      cases hu : t'.inUse with
      | false =>
        rw [TransactionTask.standing_idle hu] at hs
        cases hs
      | true =>
        cases hf : t'.execution.isTransactionFinished with
        | false =>
          rw [TransactionTask.standing_unfinished hu hf] at hs
          cases hs
        | true =>
          rw [TransactionTask.standing_ended hu hf] at hs
          obtain rfl := Option.some.inj (Option.some.inj hs)
          exact (hok.alive hu).ended_status hf
    generalize t.standing = b at hm hp
    generalize t'.standing = c at hm hp hnew
    cases hm with
    | stay b =>
      rw [Ledger.see_self] at hp
      exact h.statuses p hp
    | start => exact h.statuses p hp
    | finish a =>
      rcases List.mem_append.mp hp with hp | hp
      · exact h.statuses p hp
      · obtain ⟨n, -, rfl⟩ := Option.map_eq_some_iff.mp (Option.mem_toList.mp hp)
        exact hnew a rfl
    | leave a => exact h.statuses p hp
  · rw [hx] at hu
    rcases List.mem_or_eq_of_mem_set hu with hu | rfl
    · exact h.tasks u hu
    · exact hok

theorem launch (h : Balanced x l) (hl : Launching x x') :
    Balanced x' (l.observe x.standings x'.standings) := by
  obtain ⟨hended, hcount⟩ := Ledger.observeFrom_starts 0 hl.standings l
  have hmoves : List.Forall₂ Moves x.standings x'.standings := hl.standings.imp fun b c hbc => by
    rcases hbc with rfl | ⟨rfl, rfl⟩
    · exact .stay _
    · exact .start
  refine ⟨⟨hl.active, h.sound.observe hmoves, fun s => ?_, ?_⟩, hl.tasks⟩
  · rw [Ledger.observe, hended, counted_congr hl.commitCount hl.abortCount, hcount, h.counted]
  · rw [Ledger.observe, hended]
    exact h.statuses

theorem step (h : Balanced x l) {handle : Handling K V S} (hh : Dispatches handle)
    {a : SlotAction V S} (hs : TransactionExecutor.step handle x a = some x') :
    Balanced x' (l.observe x.standings x'.standings) := by
  cases step_slot hh h.tasks hs with
  | services ha hx hc => exact h.same hx hc.1 hc.2.1 hc.2.2
  | stays i t t' hi hx hok hs ha hc =>
    have huse : t'.inUse = t.inUse := by
      rw [← t'.isSome_standing, hs, t.isSome_standing]
    refine h.move hi hx (hs ▸ .stay _) hok ?_ fun s => ?_
    · rw [hc.1, huse]
      omega
    · rw [counted_congr hc.2.1 hc.2.2, if_neg, Nat.add_zero]
      rintro ⟨hold, hnew⟩
      cases hold.symm.trans (hs.symm.trans hnew)
  | ends i j t t' s hi hx hok ha hs hs' hc =>
    have huse : t.inUse = true := by rw [← t.isSome_standing, hs, Option.isSome_some]
    have huse' : t'.inUse = true := by rw [← t'.isSome_standing, hs', Option.isSome_some]
    refine h.move hi hx ?_ hok ?_ fun r => ?_
    · rw [hs, hs']
      exact .finish s
    · rw [hc.1, huse, huse']
      omega
    · rw [counted_congr hc.2.1 hc.2.2, hs, hs', if_neg (by simp), Nat.add_zero]
  | leaves i t t' s hi hx hok ha hs hs' hended hact hcommit habort =>
    have huse : t.inUse = true := by rw [← t.isSome_standing, hs, Option.isSome_some]
    have huse' : t'.inUse = false := by rw [← t'.isSome_standing, hs', Option.isSome_none]
    refine h.move hi hx ?_ hok ?_ fun r => ?_
    · rw [hs, hs']
      exact .leave s
    · rw [hact, huse, huse']
      simp
    · rw [hs, hs']
      rcases hended with rfl | rfl <;> cases r <;> simp [counted, hcommit, habort]

theorem step_total (h : Balanced x l) {handle : Handling K V S} (hh : Dispatches handle)
    {a : SlotAction V S} (hs : TransactionExecutor.step handle x a = some x') :
    (x'.commitCount + x'.abortCount + x'.activeTxnNumber : ℤ) =
      x.commitCount + x.abortCount + x.activeTxnNumber := by
  cases step_slot hh h.tasks hs with
  | services ha hx hc => rw [hc.1, hc.2.1, hc.2.2]
  | stays i t t' hi hx hok hs ha hc => rw [hc.1, hc.2.1, hc.2.2]
  | ends i j t t' s hi hx hok ha hs hs' hc => rw [hc.1, hc.2.1, hc.2.2]
  | leaves i t t' s hi hx hok ha hs hs' hended hact hcommit habort =>
    rw [hact, hcommit, habort]
    rcases hended with rfl | rfl
    · simp
      omega
    · simp
      omega

theorem ended_slot (h : Balanced x l) {handle : Handling K V S} (hh : Dispatches handle)
    {a : SlotAction V S} (hs : TransactionExecutor.step handle x a = some x') {s : TxnStatus}
    (hi : x'.standings[i]? = some (some (some s))) :
    (∃ j, a = .visit i j) ∨ x.standings[i]? = some (some (some s)) ∧ a ≠ .serve i := by
  -- the slot `k` changes
  have hslot : ∀ {k : ℕ} {t t' : TransactionTask K V S}, x.activeTxn[k]? = some t →
      x'.activeTxn = x.activeTxn.set k t' → k = i ∧ t'.standing = some (some s) ∨
        k ≠ i ∧ x.standings[i]? = some (some (some s)) := by
    intro k t t' ht hx
    have hlt := (List.getElem?_eq_some_iff.mp (standings_slot ht)).1
    rw [standings_set hx] at hi
    by_cases hk : k = i
    · subst hk
      rw [List.getElem?_set_self hlt] at hi
      exact .inl ⟨rfl, Option.some.inj hi⟩
    · rw [List.getElem?_set_ne hk] at hi
      exact .inr ⟨hk, hi⟩
  cases step_slot hh h.tasks hs with
  | services ha hx hc =>
    rw [standings, hx] at hi
    exact .inr ⟨hi, ha i⟩
  | stays k t t' hk hx hok hs ha hc =>
    right
    rcases hslot hk hx with ⟨rfl, ht'⟩ | ⟨hne, hold⟩
    · refine ⟨by rw [standings_slot hk, ← hs, ht'], ?_⟩
      rcases ha with ha | ⟨-, ha⟩
      · exact ha k
      · rw [← hs, ht'] at ha
        cases ha
    · refine ⟨hold, ?_⟩
      rcases ha with ha | ⟨rfl, -⟩
      · exact ha i
      · simpa using hne
  | ends k j t t' r hk hx hok ha hs hs' hc =>
    rcases hslot hk hx with ⟨rfl, -⟩ | ⟨hne, hold⟩
    · exact .inl ⟨j, ha⟩
    · exact .inr ⟨hold, by simp [ha]⟩
  | leaves k t t' r hk hx hok ha hs hs' hended hact hcommit habort =>
    rcases hslot hk hx with ⟨rfl, ht'⟩ | ⟨hne, hold⟩
    · rw [hs'] at ht'
      cases ht'
    · exact .inr ⟨hold, by simpa [ha] using hne⟩

end Balanced

end TransactionExecutor

end Fugue
