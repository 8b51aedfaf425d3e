import Fugue.BoundedProgress
import Fugue.SlotReuse

namespace Fugue

namespace TransactionExecution

open ExecutionState

variable {K V S : Type} [DecidableEq K] [Services S]
variable {reply : (op : Op) → HandlerCall K → Reply V op} {x : ExecutionState K V S}
variable {gaveUp : Prop} {s : Stage} {e e' z : TransactionExecution K V S} {i : ℕ} {op : Op}

theorem Pipe.sound (h : Pipe x gaveUp s e) : Sound e where
  entry _ hi := absurd (h.rank_of_slot hi) (Nat.lt_irrefl 0)
  waits _ _ _ _ _ _ hj := absurd (h.rank_of_slot hj) (Nat.lt_irrefl 0)
  aborting _ _ hj := absurd (h.rank_of_slot hj) (Nat.lt_irrefl 0)

section

variable (b : List (Event K V)) (x : ExecutionState K V S) (gaveUp : Prop)

def Paired (e e' : TransactionExecution K V S) : Prop :=
  (∃ s, Pipe x gaveUp s e) ∧ ∃ t, Agree True [] b t e e' ∧ Linked t e

end

namespace Paired

variable {b : List (Event K V)}

theorem visit (h : Paired b x gaveUp e e') {d : Bool} (hv : visit i e = .ok (z, d)) :
    ∃ z', TransactionExecution.visit i e' = .ok (z', d) ∧ Paired b x gaveUp z z' := by
  obtain ⟨⟨s, hp⟩, t, ha, hl⟩ := h
  obtain ⟨z', u, hz', -, hau, hlu⟩ := ha.visit hl hp.sound hv
  exact ⟨z', hz', hp.visit hv, u, hau, hlu⟩

theorem complete (h : Paired b x gaveUp e e') (r : Reply V op) :
    Paired b x gaveUp ((e.complete op r).getD e) ((e'.complete op r).getD e') := by
  obtain ⟨⟨s, hp⟩, t, ha, hl⟩ := h
  cases hc : e.complete op r with
  | some z =>
    obtain ⟨z', hz', haz, hlz⟩ := ha.complete hl hc
    obtain ⟨c, hcz⟩ := complete_cases hc
    rw [hz']
    exact ⟨⟨s, hp.complete hcz⟩, t, haz, hlz⟩
  | none =>
    have hc' : e'.complete op r = none := by
      unfold TransactionExecution.complete at hc ⊢
      rw [ha.pending]
      exact Option.map_eq_none_iff.mpr (Option.map_eq_none_iff.mp hc)
    rw [hc']
    exact ⟨⟨s, hp⟩, t, ha, hl⟩

theorem answer (h : Paired b x gaveUp e e') (l : List (Op × HandlerCall K)) :
    Paired b x gaveUp (answer reply l e) (answer reply l e') := by
  induction l generalizing e e' with
  | nil => exact h
  | cons p l ih => exact ih (h.complete (reply p.1 p.2))

theorem answerAll (h : Paired b x gaveUp e e') :
    Paired b x gaveUp (answerAll reply e) (answerAll reply e') := by
  obtain ⟨t, ha, -⟩ := h.2
  simp only [TransactionExecution.answerAll, ha.pending]
  exact h.answer _

theorem visitSync (h : Paired b x gaveUp e e') {d : Bool}
    (hv : visitSync reply i e = .ok (z, d)) :
    ∃ z', TransactionExecution.visitSync reply i e' = .ok (z', d) ∧ Paired b x gaveUp z z' := by
  unfold TransactionExecution.visitSync at hv ⊢
  cases hw : TransactionExecution.visit i e with
  | error msg =>
    rw [hw] at hv
    cases hv
  | ok p =>
    rw [hw] at hv
    cases hv
    obtain ⟨z', hz', hp⟩ := h.visit (d := p.2) hw
    rw [hz']
    exact ⟨_, rfl, hp.answerAll⟩

theorem visitAllSync {n : ℕ} (h : Paired b x gaveUp e e')
    (hv : visitAllSync reply n e = .ok z) :
    ∃ z', TransactionExecution.visitAllSync reply n e' = .ok z' ∧ Paired b x gaveUp z z' := by
  induction n generalizing e e' with
  | zero =>
    cases hv
    exact ⟨e', rfl, h⟩
  | succ n ih =>
    unfold TransactionExecution.visitAllSync at hv ⊢
    cases hw : TransactionExecution.visitSync reply n e with
    | error msg =>
      rw [hw] at hv
      cases hv
    | ok p =>
      obtain ⟨e₁, d⟩ := p
      obtain ⟨e₁', hw', hp⟩ := h.visitSync hw
      rw [hw] at hv
      rw [hw']
      cases d with
      | true =>
        cases hv
        exact ⟨e₁', rfl, hp⟩
      | false => exact ih hp hv

theorem moveForwardSync (h : Paired b x gaveUp e e') (hv : moveForwardSync reply e = .ok z) :
    ∃ z', TransactionExecution.moveForwardSync reply e' = .ok z' ∧ Paired b x gaveUp z z' := by
  have hstack : e'.operationVector = e.operationVector := by
    obtain ⟨t, ha, -⟩ := h.2
    exact ha.operationVector
  unfold TransactionExecution.moveForwardSync at hv ⊢
  rw [hstack]
  by_cases hne : e.operationVector = []
  · rw [if_pos hne] at hv ⊢
    cases hv
    exact ⟨e', rfl, h⟩
  · rw [if_neg hne] at hv ⊢
    cases hw : TransactionExecution.visitAllSync reply e.operationVector.length e with
    | error msg =>
      rw [hw] at hv
      cases hv
    | ok e₁ =>
      rw [hw] at hv
      cases hv
      obtain ⟨e₁', hw', hp⟩ := h.visitAllSync hw
      rw [hw']
      refine ⟨_, rfl, answerAll ?_⟩
      obtain ⟨⟨s, hpipe⟩, t, ha, hl⟩ := hp
      obtain ⟨u, -, hau, hlu⟩ := ha.tidy hl hpipe.sound fun hst => by
        have hs : s = .failing := by_contra fun hs => hpipe.status_ne_aborting hs hst
        subst hs
        exact hpipe.facts.2.2
      exact ⟨hpipe.tidy, u, hau, hlu⟩

theorem passes {n : ℕ} (h : Paired b x gaveUp e e') (hv : passes reply n e = .ok z) :
    ∃ z', TransactionExecution.passes reply n e' = .ok z' ∧ Paired b x gaveUp z z' := by
  induction n generalizing e e' with
  | zero =>
    cases hv
    exact ⟨e', rfl, h⟩
  | succ n ih =>
    unfold TransactionExecution.passes at hv ⊢
    cases hw : TransactionExecution.moveForwardSync reply e with
    | error msg =>
      rw [hw] at hv
      cases hv
    | ok e₁ =>
      obtain ⟨e₁', hw', hp⟩ := h.moveForwardSync hw
      rw [hw] at hv
      rw [hw']
      exact ih hp hv

end Paired

structure Waiting (e : TransactionExecution K V S) : Prop where
  operationVector : e.operationVector = []
  pending : e.pending = []
  status : e.status = .ongoing
  unfinished : e.isTransactionFinished = false
  keyed : Keyed e.toExecutionState

omit [DecidableEq K] [Services S] in
theorem Entries.keyed {log : List (Event K V)}
    (h : Entries log e.keyReadSet.popIndex e.toExecutionState) : Keyed e.toExecutionState where
  write i hi := by
    obtain ⟨k, j, hk, -⟩ := h.write i hi
    exact ⟨k, hk⟩
  read i hi := by
    obtain ⟨k, t, r, hk, -⟩ := h.read i hi
    exact ⟨k, hk⟩

theorem Alive.waiting (h : Alive e) (hv : e.operationVector = [])
    (hf : e.isTransactionFinished = false) : Waiting e := by
  have hset := h.settled hv hf
  refine ⟨hv, hset.pending, hset.status, hf, ?_⟩
  cases h with
  | serving h =>
    obtain ⟨-, n, hi⟩ := h.settled hv
    exact Entries.keyed (hi.size ▸ hi.opened.entries)
  | ending x gaveUp s entries h => exact absurd (hf.symm.trans (h.not_dispatch hv)) (by simp)

def unlogged (e : TransactionExecution K V S) : TransactionExecution K V S := { e with log := [] }

namespace Waiting

omit [DecidableEq K] [Services S] in
theorem settled (h : Waiting e) : Settled e.unlogged where
  operationVector := h.operationVector
  pending := h.pending
  status := h.status
  unfinished := h.unfinished
  ranked ev hev := by cases hev
  obeys x gaveUp pre op c post heq := by simp [unlogged] at heq
  handled := .refl _
  outcome := rfl

omit [DecidableEq K] [Services S] in
theorem agree (e : TransactionExecution K V S) :
    Agree True [] e.log ⟨.univ, .univ, .univ, .univ⟩ e.unlogged e where
  data := .refl _ _ _ _
  operationVector := rfl
  pending := rfl
  log := ⟨[], rfl, (List.append_nil _).symm⟩
  moveToNext _ _ := rfl
  hasNext _ _ _ := rfl
  finished _ _ _ := rfl
  handlerResult _ _ _ _ := rfl
  args op _ := by cases op <;> simp [Op.SameArgs, unlogged]

omit [DecidableEq K] [Services S] in
theorem linked (h : Waiting e) : Linked ⟨.univ, .univ, .univ, .univ⟩ e.unlogged where
  reset := subset_rfl
  stack _ _ _ := trivial
  current hne := absurd h.operationVector hne
  children _ _ _ _ _ _ := trivial
  pushed _ _ _ := trivial
  filled _ _ := .inl trivial

theorem ends (h : Waiting e) (hlaw : ∀ op c, Lawful op c (reply op c)) {r : OperationRequest K}
    {n : ℕ} (hl : Live reply e.toExecutionState gaveUp s (e.unlogged.dispatch r))
    (hb : s.bottom ≠ none) (hw : s.Within n (dispatchSync reply r e.unlogged)) :
    ∃ m ≤ n, ∃ e', passes reply m (dispatchSync reply r e) = .ok e' ∧ e'.operationVector = [] ∧
      e'.isTransactionFinished = true ∧ (e'.status = .committed ∨ e'.status = .aborted) := by
  obtain ⟨t, -, ha, hlt⟩ := (agree e).dispatch h.linked h.operationVector r
  have hpair : Paired e.log e.toExecutionState gaveUp (dispatchSync reply r e.unlogged)
      (dispatchSync reply r e) := Paired.answerAll ⟨⟨s, hl.pipe⟩, t, ha, hlt⟩
  obtain ⟨m, hm, z, hz, hnil, s', hs', hp⟩ := hl.answerAll.passes hlaw h.keyed hb hw
  obtain ⟨z', hz', -, u, hau, -⟩ := hpair.passes hz
  refine ⟨m, hm, z', hz', hau.operationVector.trans hnil, ?_, ?_⟩
  · rw [hau.data.isTransactionFinished]
    exact hp.finished.mpr hs'
  · rw [hau.data.status]
    rcases hs' with rfl | rfl
    · exact .inl hp.facts.1
    · exact .inr hp.facts.1

theorem commit (h : Waiting e) (hlaw : ∀ op c, Lawful op c (reply op c)) :
    ∃ n ≤ 7, ∃ e', passes reply n (dispatchSync reply .commit e) = .ok e' ∧
      e'.operationVector = [] ∧ e'.isTransactionFinished = true ∧
      (e'.status = .committed ∨ e'.status = .aborted) := by
  let z := ((({ e.unlogged with currentRequest := some .commit, requestFinished := false } :
    TransactionExecution K V S).resetResultRecord none).resetUpload).push .upload
  have hp := h.settled.dispatch_commit
  have hslot : z.operationVector.slot 0 = some .upload := by
    change (e.operationVector.pushBack Op.upload).slot 0 = _
    rw [h.operationVector]
    rfl
  have hl : Live reply e.toExecutionState False .upload (e.unlogged.dispatch .commit) := by
    refine ⟨hp, fun i op hi hop => ?_, (fun hs => by cases hs), fun op c r hr => ?_,
      fun p hbot => ?_⟩
    · obtain ⟨hm, -⟩ := (hp.stacked.occupied.held_of_slot hi).resolve_left hop
      right
      apply Family.waiting uploadFamily z _ hm
      intro j hj
      obtain ⟨k, hk⟩ := h.keyed.write j (List.mem_range.mp hj)
      have hk : z.keyWriteSet.key j = some k := hk
      simp [uploadFamily, hk]
    · obtain ⟨l, hl⟩ := dispatch_log .commit e.unlogged
      rw [hl] at hr
      exact absurd hr answered_issues
    · obtain rfl := Option.some.inj hbot
      exact calls_slot .upload z hslot
  exact h.ends hlaw hl (by simp [Stage.bottom]) (Nat.le_refl 7)

theorem abort (h : Waiting e) (hlaw : ∀ op c, Lawful op c (reply op c)) :
    ∃ n ≤ 3, ∃ e', passes reply n (dispatchSync reply .abort e) = .ok e' ∧
      e'.operationVector = [] ∧ e'.isTransactionFinished = true ∧
      (e'.status = .committed ∨ e'.status = .aborted) := by
  have hp := h.settled.dispatch_abort
  have hl : Live reply e.toExecutionState True .abort (e.unlogged.dispatch .abort) := by
    refine ⟨hp, fun i op hi hop => ?_, (fun hs => by cases hs), fun op c r hr => ?_,
      fun p hbot => ?_⟩
    · obtain ⟨hm, -⟩ := (hp.stacked.occupied.held_of_slot hi).resolve_left hop
      obtain rfl : op = .updateTxnStatusToAbort := hm
      exact .inr ⟨_, List.mem_append_right _ (List.mem_singleton.mpr rfl)⟩
    · obtain ⟨l, hl⟩ := dispatch_log .abort e.unlogged
      rw [hl] at hr
      exact absurd hr answered_issues
    · obtain rfl := Option.some.inj hbot
      rfl
  exact h.ends hlaw hl (by simp [Stage.bottom]) (Nat.le_refl 3)

end Waiting

section

variable {e₁ : TransactionExecution K V S} {y : Op}

theorem visitSync_leaves (hi : e.operationVector.slot i = some op) (hf : e.isFinished op = true)
    (hn : next op e = .ok (none, e₁)) (hp : e.pending = []) (hs : e₁.status ≠ .aborting) :
    visitSync reply i e = .ok (e₁.setSlot i none, false) := by
  have hpend : (e₁.setSlot i none).pending = [] := (next_advanced hn).pending.trans hp
  rw [visitSync, visit_leaves hi hf hn]
  simp only [Except.map, answerAll_of_nil hpend]
  rw [beq_eq_false_iff_ne.mpr hs]

theorem passes_one {n : ℕ} (hn : e.operationVector.length = n + 1)
    (hv : visitAllSync reply (n + 1) e = .ok z) (hp : z.pending = []) (hs : z.status ≠ .aborting)
    (ht : z.operationVector.trim = []) :
    ∃ z', passes reply 1 e = .ok z' ∧ z'.operationVector = [] := by
  have hne : e.operationVector ≠ [] := List.ne_nil_of_length_eq_add_one hn
  have htidy : z.tidy = { z with operationVector := z.operationVector.trim } := if_neg hs
  have hpend : z.tidy.pending = [] := by rw [htidy]; exact hp
  refine ⟨z.tidy, ?_, by rw [htidy]; exact ht⟩
  rw [passes, moveForwardSync, if_neg hne, hn, hv]
  simp only [Except.map, answerAll_of_nil hpend]
  rfl

theorem pass_alone (hv : e.operationVector = [some op]) (hp : e.pending = [])
    (hf : e.isFinished op = true) (hn : next op e = .ok (none, e₁))
    (hs : e₁.status ≠ .aborting) : ∃ z, passes reply 1 e = .ok z ∧ z.operationVector = [] := by
  have ha := next_advanced hn
  have hslot : e.operationVector.slot 0 = some op := by rw [hv]; rfl
  apply passes_one (n := 0) (z := e₁.setSlot 0 none) (congrArg List.length hv)
  · rw [visitAllSync, visitSync_leaves hslot hf hn hp hs]
    rfl
  · exact ha.pending.trans hp
  · exact hs
  · rw [setSlot, ha.operationVector, hv]
    rfl

theorem pass_nested {e₂ : TransactionExecution K V S} (hv : e.operationVector = [some op, some y])
    (hp : e.pending = []) (hf : e.isFinished y = true) (hn : next y e = .ok (none, e₁))
    (hs : e₁.status ≠ .aborting) (hf' : (e₁.setSlot 1 none).isFinished op = true)
    (hn' : next op (e₁.setSlot 1 none) = .ok (none, e₂)) (hs' : e₂.status ≠ .aborting) :
    ∃ z, passes reply 1 e = .ok z ∧ z.operationVector = [] := by
  have ha := next_advanced hn
  have ha' := next_advanced hn'
  have hslot : e.operationVector.slot 1 = some y := by rw [hv]; rfl
  have hstack : (e₁.setSlot 1 none).operationVector = [some op, none] := by
    rw [setSlot, ha.operationVector, hv]
    rfl
  have hslot' : (e₁.setSlot 1 none).operationVector.slot 0 = some op := by rw [hstack]; rfl
  have hp' : (e₁.setSlot 1 none).pending = [] := ha.pending.trans hp
  apply passes_one (n := 1) (z := e₂.setSlot 0 none) (congrArg List.length hv)
  · rw [visitAllSync, visitSync_leaves hslot hf hn hp hs]
    dsimp only
    rw [visitAllSync, visitSync_leaves hslot' hf' hn' hp' hs']
    rfl
  · exact ha'.pending.trans hp'
  · exact hs'
  · rw [setSlot, ha'.operationVector, hstack]
    rfl

end

theorem next_readOutside_ok (h : (e.handlerResult .readOutside).isError = false →
      ∃ v, pickVisibleVersion (e.handlerResult .readOutside).result = .ok v) :
    ∃ e₁, next .readOutside e = .ok (none, e₁) ∧ e₁.status = e.status := by
  have hres : (e.setFlags .readOutside ⟨true, true⟩).handlerResult = e.handlerResult := rfl
  simp only [next, nextImpl, hres]
  by_cases hr : (e.handlerResult .readOutside).isError = true
  · rw [if_pos hr]
    exact ⟨_, rfl, rfl⟩
  · rw [if_neg hr]
    obtain ⟨v, hv⟩ := h (Bool.eq_false_iff.mpr hr)
    have hread : ∃ e₁, (e.setFlags .readOutside ⟨true, true⟩).internalRead = .ok e₁ ∧
        e₁.status = e.status := by
      unfold internalRead
      rw [hres, hv]
      cases v with
      | none => exact ⟨_, rfl, rfl⟩
      | some v =>
        refine ⟨_, rfl, ?_⟩
        split
        · rfl
        · unfold setResultRecord
          split
          · rfl
          · split <;> rfl
          · rfl
    obtain ⟨e₁, he₁, hs⟩ := hread
    rw [he₁]
    exact ⟨_, rfl, hs⟩

theorem next_write_ok (hop : op = .insert ∨ op = .upsert ∨ op = .update ∨ op = .delete) :
    ∃ e₁, next op e = .ok (none, e₁) ∧ e₁.status = e.status := by
  rcases hop with rfl | rfl | rfl | rfl
  · refine ⟨_, rfl, ?_⟩
    repeat' split
    all_goals rfl
  · refine ⟨_, rfl, ?_⟩
    repeat' split
    all_goals rfl
  · exact ⟨_, rfl, rfl⟩
  · exact ⟨_, rfl, rfl⟩

theorem call_instant (hop : op = .update ∨ op = .delete) :
    (call op e).operationVector = e.operationVector ∧ (call op e).pending = e.pending ∧
      (call op e).status = e.status := by
  rcases hop with rfl | rfl
  · simp only [call, callLeaf, updateCallImpl]
    repeat' split
    all_goals exact ⟨rfl, rfl, rfl⟩
  · simp only [call, callLeaf, deleteCallImpl]
    repeat' split
    all_goals exact ⟨rfl, rfl, rfl⟩

section

variable {c : HandlerCall K}

theorem pass_read (hlaw : ∀ op c, Lawful op c (reply op c)) (hs : e.status = .ongoing)
    (hv : e.operationVector = [some .readOutside]) (hp : e.pending = [(.readOutside, c)]) :
    ∃ z, passes reply 1 (answerAll reply e) = .ok z ∧ z.operationVector = [] := by
  have ha : AnsweredAll reply e (answerAll reply e) := answer_spec reply rfl (by simp [hp])
  have hres := ha.answered .readOutside c (hp ▸ List.mem_cons_self)
  obtain ⟨e₁, hn, hst⟩ := next_readOutside_ok (e := answerAll reply e)
    (by rw [hres]; exact hlaw .readOutside c)
  refine pass_alone (ha.operationVector.trans hv) ha.pending (leafIsFinished_of_result hres) hn ?_
  rw [hst, (congrArg ExecutionState.status ha.data :), hs]
  simp

theorem pass_write (hlaw : ∀ op c, Lawful op c (reply op c)) (hop : op = .insert ∨ op = .upsert)
    (hs : e.status = .ongoing) (hv : e.operationVector = [some op, some .readOutside])
    (hp : e.pending = [(.readOutside, c)]) :
    ∃ z, passes reply 1 (answerAll reply e) = .ok z ∧ z.operationVector = [] := by
  have ha : AnsweredAll reply e (answerAll reply e) := answer_spec reply rfl (by simp [hp])
  have hres := ha.answered .readOutside c (hp ▸ List.mem_cons_self)
  have hstatus : (answerAll reply e).status = .ongoing :=
    (congrArg ExecutionState.status ha.data).trans hs
  obtain ⟨e₁, hn, hst⟩ := next_readOutside_ok (e := answerAll reply e)
    (by rw [hres]; exact hlaw .readOutside c)
  have hadv := next_advanced hn
  obtain ⟨e₂, hn', hst'⟩ := next_write_ok (e := e₁.setSlot 1 none)
    (hop.imp_right .inl)
  have hst'' : e₂.status = .ongoing := hst'.trans (hst.trans hstatus)
  have hread : (e₁.setSlot 1 none).isCascadeFinished .readOutside = true := by
    have hfl : e₁.flags .readOutside = ⟨true, false⟩ := by
      rw [hadv.flags, Function.update_self]
      rfl
    have hhr : e₁.handlerResult .readOutside = (answerAll reply e).handlerResult .readOutside :=
      hadv.handlerResult _ (by simp)
    simp [isCascadeFinished, leafIsFinished, setSlot, hfl, hhr, hres]
  refine pass_nested (ha.operationVector.trans hv) ha.pending (leafIsFinished_of_result hres) hn ?_
    ?_ hn' ?_
  · rw [hst, hstatus]
    simp
  · rcases hop with rfl | rfl <;> simp [isFinished, children, hread]
  · rw [hst'']
    simp

theorem pass_instant (hop : op = .update ∨ op = .delete) (hs : e.status = .ongoing)
    (hv : e.operationVector = [some op]) (hp : e.pending = []) :
    ∃ z, passes reply 1 (answerAll reply e) = .ok z ∧ z.operationVector = [] := by
  rw [answerAll_of_nil hp]
  obtain ⟨e₁, hn, hst⟩ := next_write_ok (e := e) (.inr (.inr hop))
  refine pass_alone hv hp ?_ hn ?_
  · rcases hop with rfl | rfl <;> rfl
  · rw [hst, hs]
    simp

theorem pass_init (hlaw : ∀ op c, Lawful op c (reply op c)) (hs : e.status = .ongoing)
    (hv : e.operationVector = [some .initTxn]) (hp : e.pending = [(.initTxn, c)]) :
    ∃ z, passes reply 1 (answerAll reply e) = .ok z ∧ z.operationVector = [] := by
  have ha : AnsweredAll reply e (answerAll reply e) := answer_spec reply rfl (by simp [hp])
  have hres := ha.answered .initTxn c (hp ▸ List.mem_cons_self)
  have hok : ((answerAll reply e).handlerResult .initTxn).isError = false := by
    rw [hres]
    exact hlaw .initTxn c
  have hn : ∃ e₁, next .initTxn (answerAll reply e) = .ok (none, e₁) ∧
      e₁.status = (answerAll reply e).status := by
    have hres' : ((answerAll reply e).setFlags .initTxn ⟨true, true⟩).handlerResult =
        (answerAll reply e).handlerResult := rfl
    simp only [next, nextImpl, hres', hok]
    exact ⟨_, rfl, rfl⟩
  obtain ⟨e₁, hn, hst⟩ := hn
  refine pass_alone (ha.operationVector.trans hv) ha.pending (leafIsFinished_of_result hres) hn ?_
  rw [hst, (congrArg ExecutionState.status ha.data :), hs]
  simp

end

theorem Waiting.serves (h : Waiting e) (hlaw : ∀ op c, Lawful op c (reply op c))
    {r : OperationRequest K} (hc : r ≠ .commit) (ha : r ≠ .abort)
    (hr : ∀ key record b, r ≠ .readDataStore key record b) :
    ∃ z, passes reply 1 (dispatchSync reply r e) = .ok z ∧ z.operationVector = [] := by
  have hstack : ∀ op, e.operationVector.pushBack op = [some op] := by
    intro op
    rw [h.operationVector]
    rfl
  have hcall : ∀ op (c : HandlerCall K), e.pending ++ [(op, c)] = [(op, c)] := by
    intro op c
    rw [h.pending]
    rfl
  cases r with
  | begin => exact pass_init hlaw h.status (hstack .initTxn) (hcall _ _)
  | read key record | readOutside key record =>
    exact pass_read hlaw h.status (hstack .readOutside) (hcall _ _)
  | insert key record =>
    exact pass_write hlaw (.inl rfl) h.status
      (congrArg (fun v => Slots.pushBack v Op.readOutside) (hstack .insert)) (hcall _ _)
  | upsert key record =>
    exact pass_write hlaw (.inr rfl) h.status
      (congrArg (fun v => Slots.pushBack v Op.readOutside) (hstack .upsert)) (hcall _ _)
  | update key record =>
    simp only [dispatchSync, dispatch, start]
    refine pass_instant (.inl rfl) ?_ ?_ ?_
    · exact (call_instant (.inl rfl)).2.2.trans h.status
    · exact (call_instant (.inl rfl)).1.trans (hstack .update)
    · exact (call_instant (.inl rfl)).2.1.trans h.pending
  | delete key =>
    simp only [dispatchSync, dispatch, start]
    refine pass_instant (.inr rfl) ?_ ?_ ?_
    · exact (call_instant (.inr rfl)).2.2.trans h.status
    · exact (call_instant (.inr rfl)).1.trans (hstack .delete)
    · exact (call_instant (.inr rfl)).2.1.trans h.pending
  | readDataStore key record b => exact absurd rfl (hr key record b)
  | commit => exact absurd rfl hc
  | abort => exact absurd rfl ha

/-- With a handler that answers during the call, and whose answers are lawful, at most seven calls
of `MoveForward` serve a request, and they end the transaction if it was a commit or an abort. -/
theorem bounded_progress (h : Waiting e) (hlaw : ∀ op c, Lawful op c (reply op c))
    (r : OperationRequest K) (hr : ∀ key record b, r ≠ .readDataStore key record b) :
    ∃ n ≤ 7, ∃ e', passes reply n (dispatchSync reply r e) = .ok e' ∧ e'.operationVector = [] ∧
      (r = .commit ∨ r = .abort → e'.isTransactionFinished = true ∧
        (e'.status = .committed ∨ e'.status = .aborted)) := by
  by_cases hc : r = .commit
  · subst hc
    obtain ⟨n, hn, e', hp, hv, hend⟩ := h.commit hlaw
    exact ⟨n, hn, e', hp, hv, fun _ => hend⟩
  · by_cases ha : r = .abort
    · subst ha
      obtain ⟨n, hn, e', hp, hv, hend⟩ := h.abort hlaw
      exact ⟨n, hn.trans (by simp), e', hp, hv, fun _ => hend⟩
    · obtain ⟨e', hp, hv⟩ := h.serves hlaw hc ha hr
      exact ⟨1, by simp, e', hp, hv, fun hca => absurd hca (not_or.mpr ⟨hc, ha⟩)⟩

def samplePrompt : (op : Op) → HandlerCall ℕ → Reply ℕ op
  | .updateReadEntryMaxCommitTs _, .updateMaxCommitTsAndReread _ _ ts =>
    ⟨false, { VersionEntry.blank none with
      version := 0, beginTs := 0, endTs := int64Max, maxCommitTs := ts }, []⟩
  | op, _ => sampleReply op

theorem samplePrompt_lawful (op : Op) (c : HandlerCall ℕ) : Lawful op c (samplePrompt op c) := by
  cases op with
  | updateReadEntryMaxCommitTs i =>
    cases c with
    | updateMaxCommitTsAndReread key version ts => exact fun _ _ => Int.le_refl ts
    | _ => trivial
  | readOutside => exact fun _ => ⟨_, rfl⟩
  | initTxn | updateTxnStatusToCommit | updateTxnStatusToAbort => rfl
  | postProcessingCommitEntryAfterCommit i | postProcessingDeleteEntryAfterAbort i => rfl
  | releaseReadCounterForEachEntry i => rfl
  | _ => trivial

theorem sampleExecution_waiting : Waiting sampleExecution where
  operationVector := rfl
  pending := rfl
  status := rfl
  unfinished := rfl
  keyed := by
    constructor
    · intro i hi
      have hi : i < 1 := hi
      obtain rfl : i = 0 := by omega
      exact ⟨_, rfl⟩
    · intro i hi
      have hi : i < 2 := hi
      obtain rfl | rfl : i = 0 ∨ i = 1 := by omega
      · exact ⟨_, rfl⟩
      · exact ⟨_, rfl⟩

theorem bounded_progress_sample : ∃ n ≤ 7, ∃ e',
    passes samplePrompt n (dispatchSync samplePrompt .commit sampleExecution) = .ok e' ∧
      e'.operationVector = [] ∧
      (OperationRequest.commit = OperationRequest.commit (K := ℕ) ∨
          OperationRequest.commit = OperationRequest.abort (K := ℕ) →
        e'.isTransactionFinished = true ∧ (e'.status = .committed ∨ e'.status = .aborted)) :=
  bounded_progress sampleExecution_waiting samplePrompt_lawful .commit fun _ _ _ h => by cases h

end TransactionExecution

end Fugue
