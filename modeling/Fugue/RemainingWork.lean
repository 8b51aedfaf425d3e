import Fugue.AwaitedCalls
import Fugue.ExecutorSteps
import Fugue.Library.Workload
import Mathlib.Tactic.Abel

namespace Fugue

open Workload

/-- Whatever follows an operation, its children or its successor, is lower. -/
def Op.height : Op → ℕ
  | .upload => 13
  | .setCommitTs => 12
  | .validate => 11
  | .writeToLog => 10
  | .updateTxnStatusToCommit => 9
  | .postProcessingAfterCommit => 8
  | .updateTxnStatusToAbort => 6
  | .postProcessingAfterAbort => 5
  | .releaseReadCounter => 4
  | .insert | .upsert => 3
  | .updateReadEntryMaxCommitTs _ => 2
  | _ => 1

theorem Op.height_pos (op : Op) : 0 < op.height := by
  cases op <;> simp [height]

theorem Op.height_le (op : Op) : op.height ≤ 13 := by
  cases op <;> simp [height]

namespace TransactionExecution

variable {K V S : Type} {e e' : TransactionExecution K V S}

/-- What is left besides the operations on the stack: an abort lies between the operations that
start it and its own ones, and a failed start of the transaction is repeated. -/
def waitingWork (e : TransactionExecution K V S) : Multiset ℕ :=
  (if e.status = .aborting then {7} else 0) +
    (if (e.handlerResult .initTxn).isError then {2} else 0) + Multiset.replicate e.pending.length 0

def work (e : TransactionExecution K V S) : Multiset ℕ :=
  e.operationVector.work Op.height + e.waitingWork

theorem waitingWork_lt {a : ℕ} (h : a ∈ e.waitingWork) : a < 14 := by
  have hif : ∀ (p : Prop) [Decidable p] (n : ℕ), n < 14 →
      a ∈ (if p then {n} else 0 : Multiset ℕ) → a < 14 := by
    intro p _ n hn ha
    split at ha
    · rwa [Multiset.mem_singleton.mp ha]
    · exact absurd ha (Multiset.notMem_zero a)
  rcases Multiset.mem_add.mp h with h | h
  · rcases Multiset.mem_add.mp h with h | h
    · exact hif _ 7 (by omega) h
    · exact hif _ 2 (by omega) h
  · rw [Multiset.eq_of_mem_replicate h]
    omega

theorem work_lt {a : ℕ} (h : a ∈ e.work) : a < 14 := by
  rcases Multiset.mem_add.mp h with h | h
  · obtain ⟨op, -, rfl⟩ := List.mem_map.mp (Multiset.mem_coe.mp h)
    have := op.height_le
    omega
  · exact waitingWork_lt h

theorem children_height {op y : Op} (h : y ∈ (e.children op).getD []) : y.height < op.height := by
  have hmap : ∀ (l : List ℕ) (f : ℕ → Op) n, (∀ i, (f i).height < n) → y ∈ l.map f →
      y.height < n := by
    intro l f n hf hy
    obtain ⟨i, -, rfl⟩ := List.mem_map.mp hy
    exact hf i
  cases op with
  | upload => exact hmap _ _ _ (fun i => by simp [Op.height]) h
  | validate => exact hmap _ _ _ (fun i => by simp [Op.height]) h
  | postProcessingAfterCommit => exact hmap _ _ _ (fun i => by simp [Op.height]) h
  | postProcessingAfterAbort => exact hmap _ _ _ (fun i => by simp [Op.height]) h
  | releaseReadCounter => exact hmap _ _ _ (fun i => by simp [Op.height]) h
  | insert | upsert =>
    obtain rfl := List.mem_singleton.mp h
    decide
  | _ => exact absurd h List.not_mem_nil

theorem initTxn_notMem {op : Op} : .initTxn ∉ (e.children op).getD [] := by
  cases op <;> simp [children]

section

variable [DecidableEq K] [Services S] {op y : Op} {o : Option Op} {e₁ : TransactionExecution K V S}

/-- An operation is followed by a lower one, but for a failed start, which is repeated. -/
theorem next_lower (h : next op e = .ok (some y, e₁)) :
    y ≠ .initTxn ∧ y.height < op.height ∨
      op = .initTxn ∧ y = .initTxn ∧ (e.handlerResult .initTxn).isError = true ∧
        (e₁.handlerResult .initTxn).isError = false ∧ e₁.status = e.status := by
  unfold TransactionExecution.next at h
  cases op <;> simp only [nextImpl, uploadVersionEntryNext, updateReadEntryMaxCommitTsNext,
    pushConflictNext, deleteEntryNext, readDataStoreNext, insertNext, upsertNext] at h
  case readOutside =>
    split at h
    · cases h
    · cases hr : (e.setFlags .readOutside ⟨true, true⟩).internalRead <;> rw [hr] at h <;> cases h
  case initTxn =>
    split at h
    · next herr =>
      cases h
      refine .inr ⟨rfl, rfl, herr, ?_, rfl⟩
      simp [resetResult, setHandlerResult]
    · cases h
  all_goals repeat' split at h
  all_goals cases h
  all_goals simp [Op.height]

theorem next_aborting (h : next op e = .ok (o, e₁)) (hs : e₁.status = .aborting) :
    e.status = .aborting ∨ 7 < op.height := by
  have hrec : ∀ (z : TransactionExecution K V S) a, (z.setResultRecord a).status = z.status :=
    fun z a => (setResultRecord_frame (e := z) a).2.2.1
  unfold TransactionExecution.next at h
  cases op with
  | upload | setCommitTs | validate | writeToLog | updateTxnStatusToCommit
  | postProcessingAfterCommit => exact .inr (by simp [Op.height])
  | readOutside =>
    left
    simp only [nextImpl] at h
    split at h
    · cases h
      exact hs
    · cases hr : (e.setFlags .readOutside ⟨true, true⟩).internalRead with
      | error m =>
        rw [hr] at h
        cases h
      | ok z =>
        rw [hr] at h
        cases h
        exact (internalRead_sets hr).1.symm.trans hs
  | readDataStore =>
    left
    simp only [nextImpl, readDataStoreNext] at h
    cases h
    refine (Eq.symm ?_).trans hs
    split
    · rfl
    · split
      · rfl
      · exact hrec _ _
  | insert | upsert =>
    left
    simp only [nextImpl, insertNext, upsertNext] at h
    cases h
    refine (Eq.symm ?_).trans hs
    repeat' split
    all_goals rfl
  | postProcessingCommitEntryAfterCommit i =>
    left
    simp only [nextImpl, clearReleaseOfWrite] at h
    split at h <;> cases h
    split at hs <;> exact hs
  | postProcessingDeleteEntryAfterAbort i =>
    left
    simp only [nextImpl, deleteEntryNext] at h
    repeat' split at h
    all_goals cases h
    all_goals exact hs
  | _ =>
    left
    simp only [nextImpl, uploadVersionEntryNext, updateReadEntryMaxCommitTsNext,
      pushConflictNext] at h
    repeat' split at h
    all_goals cases h
    all_goals first | exact hs | cases hs

omit [DecidableEq K] [Services S] in
theorem waitingWork_le {z : TransactionExecution K V S} {a : ℕ} (ha : 0 < a)
    (hs : z.status = .aborting → e.status = .aborting ∨ 7 < a)
    (hr : (z.handlerResult .initTxn).isError = true → (e.handlerResult .initTxn).isError = true)
    (hp : ∃ l, z.pending = e.pending ++ l) :
    ∃ Y, z.waitingWork ≤ e.waitingWork + Y ∧ ∀ y ∈ Y, y < a := by
  obtain ⟨l, hl⟩ := hp
  have hr' : (if (z.handlerResult .initTxn).isError then {2} else 0 : Multiset ℕ) ≤
      if (e.handlerResult .initTxn).isError then {2} else 0 := by
    split
    · next h => rw [if_pos (hr h)]
    · exact Multiset.zero_le _
  have hz : Multiset.replicate z.pending.length 0 =
      Multiset.replicate e.pending.length 0 + Multiset.replicate l.length 0 := by
    rw [hl, List.length_append, Multiset.replicate_add]
  by_cases h : z.status = .aborting → e.status = .aborting
  · refine ⟨Multiset.replicate l.length 0, ?_, fun y hy => ?_⟩
    · have hs' : (if z.status = .aborting then {7} else 0 : Multiset ℕ) ≤
          if e.status = .aborting then {7} else 0 := by
        split
        · next hab => rw [if_pos (h hab)]
        · exact Multiset.zero_le _
      rw [waitingWork, waitingWork, hz, ← add_assoc]
      exact add_le_add_left (add_le_add_left (add_le_add hs' hr') _) _
    · rwa [Multiset.eq_of_mem_replicate hy]
  · obtain ⟨hab, hnot⟩ := Classical.not_imp.mp h
    have h7 := (hs hab).resolve_left hnot
    refine ⟨{7} + Multiset.replicate l.length 0, ?_, fun y hy => ?_⟩
    · rw [waitingWork, waitingWork, if_pos hab, if_neg hnot, hz, zero_add]
      calc _ ≤ {7} + (if (e.handlerResult .initTxn).isError then {2} else 0) +
          (Multiset.replicate e.pending.length 0 + Multiset.replicate l.length 0) := by
            gcongr
        _ = _ := by abel
    · rcases Multiset.mem_add.mp hy with hy | hy
      · rwa [Multiset.mem_singleton.mp hy]
      · rwa [Multiset.eq_of_mem_replicate hy]

/-- A visit finds no finished operation, or replaces it by lower work. -/
theorem visit_work {i : ℕ} {b : Bool} (h : visit i e = .ok (e', b)) :
    (e' = e ∧ b = false ∧ ∀ op, e.operationVector.slot i = some op → e.isFinished op = false) ∨
      Multiset.IsDershowitzMannaLT e'.work e.work := by
  obtain ⟨rfl, rfl, hno⟩ | ⟨op, o, e₁, hi, hn, hcase⟩ : (e' = e ∧ b = false ∧
      ∀ op, e.operationVector.slot i = some op → e.isFinished op = false) ∨
      ∃ op o e₁, e.operationVector.slot i = some op ∧ next op e = .ok (o, e₁) ∧
        (o = none ∧ e' = e₁.setSlot i none ∨
          ∃ y, o = some y ∧ e' = call y (e₁.setSlot i (some y))) := by
    unfold visit at h
    split at h
    · next hi =>
      cases h
      exact .inl ⟨rfl, rfl, fun op hop => by rw [hi] at hop; cases hop⟩
    · next op hi =>
      split at h
      · right
        split at h
        · cases h
        · next y e₁ hn =>
          cases h
          exact ⟨op, some y, e₁, hi, hn, .inr ⟨y, rfl, rfl⟩⟩
        · next e₁ hn =>
          cases h
          exact ⟨op, none, e₁, hi, hn, .inl ⟨rfl, rfl⟩⟩
      · next hf =>
        cases h
        refine .inl ⟨rfl, rfl, fun op' hop => ?_⟩
        obtain rfl := Option.some.inj (hi.symm.trans hop)
        exact Bool.eq_false_iff.mpr hf
  · exact .inl ⟨rfl, rfl, hno⟩
  right
  have ha := next_advanced hn
  have hwork := Slots.work_setSlot Op.height hi
  have hlt := Slots.lt_length_of_slot hi
  let W := Slots.work Op.height (e.operationVector.setSlot i none)
  have hold : e.work = op.height ::ₘ (W + e.waitingWork) := by
    rw [work, hwork, Multiset.cons_add]
  rcases hcase with ⟨rfl, rfl⟩ | ⟨y, rfl, rfl⟩
  · obtain ⟨Y, hY, hlow⟩ := waitingWork_le (z := e₁.setSlot i none) op.height_pos
      (fun hs => next_aborting hn hs) (fun hr => by
        rwa [← ha.handlerResult .initTxn (by simp)])
      ⟨[], ha.pending.trans (List.append_nil _).symm⟩
    rw [hold]
    apply lt_of_le_add _ hlow
    rw [work, show (e₁.setSlot i none).operationVector = e.operationVector.setSlot i none from
      congrArg (·.setSlot i none) ha.operationVector, add_assoc]
    exact add_le_add_right hY _
  · let z := e₁.setSlot i (some y)
    have hframe := call_callFrame y z
    let H : Multiset ℕ := ((z.children y).getD []).map Op.height
    have hH : ∀ a ∈ H, a < y.height := by
      intro a hm
      obtain ⟨x, hx, rfl⟩ := List.mem_map.mp (Multiset.mem_coe.mp hm)
      exact children_height hx
    have hstack : Slots.work Op.height (call y z).operationVector = y.height ::ₘ (W + H) := by
      have hz : z.operationVector = e.operationVector.setSlot i (some y) :=
        congrArg (·.setSlot i (some y)) ha.operationVector
      rw [call_stack, Slots.work_append, Slots.work_map_some, hz, Slots.work_replace _ hlt,
        Multiset.cons_add]
    have hpend : ∃ l, (call y z).pending = e.pending ++ l := by
      obtain ⟨l, hl⟩ := hframe.pending
      exact ⟨l, hl.trans (congrArg (· ++ l) ha.pending)⟩
    rcases next_lower hn with ⟨hy, hlower⟩ | ⟨rfl, rfl, herr, hok, hst⟩
    · have hinit : (call y z).handlerResult .initTxn = e.handlerResult .initTxn := by
        rw [hframe.handlerResult .initTxn hy.symm]
        · exact ha.handlerResult .initTxn (by simpa using hy)
        · exact initTxn_notMem
      obtain ⟨Y, hY, hlow⟩ := waitingWork_le (e := e) (z := call y z) op.height_pos
        (fun hs => next_aborting hn (hframe.status.symm.trans hs)) (fun hr => by rwa [← hinit])
        hpend
      rw [hold]
      apply lt_of_le_add (Y := y.height ::ₘ (H + Y))
      · rw [work, hstack]
        calc _ ≤ y.height ::ₘ (W + H) + (e.waitingWork + Y) := add_le_add_right hY _
          _ = _ := by
            simp only [← Multiset.singleton_add]
            abel
      · intro a hm
        rcases Multiset.mem_cons.mp hm with rfl | hm
        · exact hlower
        · rcases Multiset.mem_add.mp hm with hm | hm
          · exact (hH a hm).trans hlower
          · exact hlow a hm
    · -- the failure is spent
      have hst' : (call .initTxn z).status = e.status := hframe.status.trans hst
      have hok' : ((call .initTxn z).handlerResult .initTxn).isError = false := hok
      obtain ⟨l, hl⟩ := hpend
      have hold' : e.work = 2 ::ₘ (1 ::ₘ (W + ((if e.status = .aborting then {7} else 0) +
          Multiset.replicate e.pending.length 0))) := by
        rw [hold, waitingWork, if_pos herr]
        simp only [Op.height, ← Multiset.singleton_add]
        abel
      rw [hold']
      apply lt_of_le_add (Y := Multiset.replicate l.length 0)
      · rw [work, hstack, waitingWork, hst', hok', hl, List.length_append, Multiset.replicate_add]
        simp only [Op.height, H, children, Option.getD_none, List.map_nil, Multiset.coe_nil,
          Bool.false_eq_true, if_false, add_zero, ← Multiset.singleton_add]
        apply le_of_eq
        abel
      · intro a hm
        rw [Multiset.eq_of_mem_replicate hm]
        exact Nat.two_pos

omit [Services S] in
theorem complete_work {c : HandlerCall K} {r : Reply V op} (h : Completed op c r e e') :
    Multiset.IsDershowitzMannaLT e'.work
      (e.work + if op = .initTxn ∧ r.isError = true then {2} else 0) := by
  have hlen : e.pending.length = e'.pending.length + 1 := by
    have hpos := List.length_pos_of_mem h.mem
    rw [h.pending, List.length_erase_of_mem h.mem]
    omega
  have hinit : (if (e'.handlerResult .initTxn).isError then {2} else 0 : Multiset ℕ) ≤
      (if (e.handlerResult .initTxn).isError then {2} else 0) +
        if op = .initTxn ∧ r.isError = true then {2} else 0 := by
    by_cases hop : op = .initTxn
    · subst hop
      rw [h.self]
      cases hr : r.isError with
      | true => simp
      | false => exact Multiset.zero_le _
    · rw [h.other .initTxn (Ne.symm hop)]
      exact Multiset.le_add_right _ _
  have hold : e.work + (if op = .initTxn ∧ r.isError = true then {2} else 0) =
      0 ::ₘ (e.operationVector.work Op.height + ((if e.status = .aborting then {7} else 0) +
        ((if (e.handlerResult .initTxn).isError then {2} else 0) +
          if op = .initTxn ∧ r.isError = true then {2} else 0) +
        Multiset.replicate e'.pending.length 0)) := by
    rw [work, waitingWork, hlen, Multiset.replicate_succ, ← Multiset.singleton_add,
      ← Multiset.singleton_add]
    abel
  rw [hold]
  apply of_le _ (lt_cons_self 0)
  rw [work, waitingWork, h.operationVector, h.status]
  gcongr

theorem abort_work (e : TransactionExecution K V S) : e.abort.work =
    6 ::ₘ 0 ::ₘ ((if e.status = .aborting then {7} else 0) +
      (if (e.handlerResult .initTxn).isError then {2} else 0) +
        Multiset.replicate e.pending.length 0) := by
  have hv : e.abort.operationVector.work Op.height = {6} := rfl
  have hp : e.abort.pending.length = e.pending.length + 1 := List.length_append
  have hr : e.abort.handlerResult .initTxn = e.handlerResult .initTxn := rfl
  rw [work, waitingWork, hv, hp, hr, Multiset.replicate_succ]
  change {6} + ((if e.status = .aborting then {7} else 0) + _ + _) = _
  simp only [← Multiset.singleton_add]
  abel

theorem tidied_work (e : TransactionExecution K V S) :
    Multiset.IsDershowitzMannaLT e.tidied.work e.work ∨
      e.tidied = { e with operationVector := e.operationVector.trim } ∧ e.tidied.work = e.work := by
  unfold tidied
  split
  · next hv =>
    right
    have htrim : e.operationVector.trim = e.operationVector := by
      rw [hv]
      rfl
    rw [htrim]
    exact ⟨rfl, rfl⟩
  · unfold tidy
    split
    · next hs =>
      left
      let R : Multiset ℕ := (if (e.handlerResult .initTxn).isError then {2} else 0) +
        Multiset.replicate e.pending.length 0
      have hold : e.work = 7 ::ₘ (e.operationVector.work Op.height + R) := by
        rw [work, waitingWork, if_pos hs, ← Multiset.singleton_add]
        simp only [R]
        abel
      rw [hold]
      apply lt_of_le_add (Y := 6 ::ₘ 0 ::ₘ 0)
      · rw [abort_work]
        simp only [reduceCtorEq, if_false, zero_add]
        calc _ = (6 ::ₘ 0 ::ₘ 0 : Multiset ℕ) + R := by
              simp only [R, ← Multiset.singleton_add, add_zero, add_assoc]
          _ ≤ _ := by
            rw [add_comm]
            exact add_le_add_left (Multiset.le_add_left _ _) _
      · simp
    · right
      refine ⟨rfl, ?_⟩
      simp [work, waitingWork]

end

end TransactionExecution

end Fugue
