import Fugue.ResponsiveHandler

namespace Fugue

variable {K V S : Type}

namespace TransactionExecution

section

variable [DecidableEq K]

/-- What the operations assert of an answer. `NewTxn` may fail. -/
def Sane (op : Op) (c : HandlerCall K) (r : Reply V op) : Prop := op ≠ .initTxn → Lawful op c r

structure Trusted (e : TransactionExecution K V S) : Prop where
  answered : ∀ op c r, Event.answered op c r ∈ e.log → Sane op c r
  read : (e.handlerResult .readOutside).isFinished = true →
    (e.handlerResult .readOutside).isError = false →
    ∃ v, pickVisibleVersion (e.handlerResult .readOutside).result = .ok v

namespace Trusted

variable {e z : TransactionExecution K V S} {op : Op} {c : HandlerCall K}

omit [DecidableEq K] in
theorem grow (h : Trusted e) (hl : ∃ l, z.log = e.log ++ issues l)
    (hr : z.handlerResult .readOutside = e.handlerResult .readOutside ∨
      (z.handlerResult .readOutside).isFinished = false) : Trusted z := by
  obtain ⟨l, hl⟩ := hl
  constructor
  · intro op c r hm
    rw [hl] at hm
    rcases List.mem_append.mp hm with hm | hm
    · exact h.answered op c r hm
    · obtain ⟨p, -, hp⟩ := List.mem_map.mp hm
      cases hp
  · intro hf he
    rcases hr with hr | hr
    · rw [hr] at hf he ⊢
      exact h.read hf he
    · rw [hr] at hf
      cases hf

theorem complete {r : Reply V op} (h : Trusted e) (hc : Completed op c r e z) (hr : Sane op c r) :
    Trusted z := by
  constructor
  · intro y c' r' hm
    rw [hc.log] at hm
    rcases List.mem_append.mp hm with hm | hm
    · exact h.answered y c' r' hm
    · obtain ⟨⟩ := List.mem_singleton.mp hm
      exact hr
  · by_cases hop : op = .readOutside
    · subst hop
      rw [hc.self]
      intro _ he
      exact hr (by simp) he
    · rw [hc.other .readOutside (Ne.symm hop)]
      exact h.read

omit [DecidableEq K] in
theorem of_same (h : Trusted e) (hl : z.log = e.log) (hr : z.handlerResult = e.handlerResult) :
    Trusted z := by
  apply h.grow ⟨[], hl.trans (List.append_nil _).symm⟩
  rw [hr]
  exact .inl rfl

end Trusted

end

variable [DecidableEq K] [Services S] {e e' z : TransactionExecution K V S} {op y : Op}

theorem Trusted.visit {j : ℕ} {b : Bool} (h : Trusted e) (hv : visit j e = .ok (e', b)) :
    Trusted e' := by
  apply h.grow (visit_grows hv).1
  left
  rcases visit_cases hv with rfl | ⟨op, o, e₁, -, -, hn, ha, ⟨rfl, rfl⟩ | ⟨y, rfl, rfl⟩⟩
  · rfl
  · exact ha.handlerResult .readOutside (by simp)
  · have hy : y ≠ .readOutside ∧ y ≠ .insert ∧ y ≠ .upsert := by
      rcases next_rank hn with ⟨-, hrank⟩ | ⟨-, rfl⟩
      · refine ⟨?_, ?_, ?_⟩ <;> rintro rfl <;> exact absurd hrank (Nat.lt_irrefl 0)
      · simp
    rw [(call_callFrame y _).handlerResult .readOutside (Ne.symm hy.1)]
    · exact ha.handlerResult .readOutside (by simpa using hy.1)
    · cases y <;> simp_all [children]

theorem Trusted.tidied (h : Trusted e) : Trusted e.tidied := by
  unfold TransactionExecution.tidied tidy
  split
  · exact h
  · split
    · apply h.grow (abort_log { e with status := .aborted })
      left
      rfl
    · exact h.of_same rfl rfl

theorem Trusted.dispatch (h : Trusted e) (r : OperationRequest K) : Trusted (e.dispatch r) := by
  apply h.grow (dispatch_log r e)
  have hstart : ∀ op (w : TransactionExecution K V S),
      w.handlerResult .readOutside = e.handlerResult .readOutside →
      op ≠ .readOutside → op ≠ .insert → op ≠ .upsert →
      (start op w).handlerResult .readOutside = e.handlerResult .readOutside := by
    intro op w hw hread hinsert hupsert
    have hframe := call_callFrame op (w.push op)
    rw [← hw, start, hframe.handlerResult .readOutside (Ne.symm hread)]
    · rfl
    · cases op <;> simp_all [children]
  have hread : ∀ w : TransactionExecution K V S, (w.handlerResult .readOutside).isFinished = false →
      ((start .readOutside w).handlerResult .readOutside).isFinished = false := by
    intro w hw
    exact hw
  cases r with
  | read key record | readOutside key record =>
    right
    apply hread
    rfl
  | insert key record | upsert key record => exact .inr rfl
  | readDataStore key record needToRead =>
    left
    simp only [TransactionExecution.dispatch]
    split
    · apply hstart <;> first | rfl | simp
    · rfl
  | abort => exact .inl rfl
  | _ =>
    left
    apply hstart <;> first | rfl | simp

theorem Trusted.handled {handle : Handling K V S} (hh : Dispatches handle) (h : Trusted e)
    (r : OperationRequest K) : Trusted (handle r e) := by
  rcases hh r e with heq | ⟨k, record, b, result, -, heq⟩
  · rw [heq]
    exact h.dispatch r
  · rw [heq]
    exact h.of_same rfl rfl

theorem Trusted.serve {handle : Handling K V S} (hh : Dispatches handle) {t : TransactionTask K V S}
    (h : Trusted t.execution) : Trusted (t.serve handle).execution := by
  unfold TransactionTask.serve
  dsimp only
  split
  · rcases TransactionTask.next_cases handle { t with execution := t.execution.tidied } with
      hn | ⟨r, -, hn⟩
    · rw [hn]
      exact h.tidied
    · rw [hn]
      exact h.tidied.handled hh r.operation
  · exact h.tidied

theorem Alive.result (h : Alive e) {i : ℕ} (hi : e.operationVector.slot i = some op)
    (hop : 0 < op.rank) (hnone : e.children op = none) (hlog : op ≠ .writeToLog)
    (hf : e.isFinished op = true) : ∃ x gaveUp s, Pipe x gaveUp s e ∧ s.member e op ∧
      ∃ c r, Event.answered op c r ∈ e.log ∧ e.handlerResult op = ⟨r.result, true, r.isError, 0⟩ := by
  cases h with
  | serving h =>
    rw [h.rank_of_slot hi] at hop
    exact absurd hop (Nat.lt_irrefl 0)
  | ending x gaveUp s entries h =>
    have hleaf : e.leafIsFinished op = true := by
      unfold TransactionExecution.isFinished at hf
      rwa [hnone] at hf
    rcases h.stacked.occupied.held_of_slot hi with hpar | ⟨hm, -⟩
    · exfalso
      cases s <;> cases hpar <;> first | exact hlog rfl | cases hnone
    · exact ⟨x, gaveUp, s, h, hm, h.reply op hm hleaf hop⟩

theorem Trusted.isError (ht : Trusted e) (h : Alive e) {i : ℕ}
    (hi : e.operationVector.slot i = some op) (hf : e.isFinished op = true)
    (hop : 0 < op.rank) (hnone : e.children op = none) (hlog : op ≠ .writeToLog)
    (hlaw : ∀ (c : HandlerCall K) (r : Reply V op), Lawful op c r → r.isError = false) :
    (e.handlerResult op).isError = false := by
  obtain ⟨x, gaveUp, s, -, -, c, r, hr, hres⟩ := h.result hi hop hnone hlog hf
  rw [hres]
  apply hlaw c r
  apply ht.answered op c r hr
  rintro rfl
  exact absurd hop (Nat.lt_irrefl 0)

theorem Trusted.reread (ht : Trusted e) (h : Alive e) {i j : ℕ}
    (hi : e.operationVector.slot i = some (.updateReadEntryMaxCommitTs j))
    (hf : e.isFinished (.updateReadEntryMaxCommitTs j) = true) (m : String) :
    next (.updateReadEntryMaxCommitTs j) e ≠ .error m := by
  obtain ⟨x, gaveUp, s, hp, hm, c, r, hr, hres⟩ := h.result hi (by simp [Op.rank]) rfl (by simp) hf
  obtain rfl : s = .validate := by
    have hrank := Stage.rank_of_member hm
    cases s <;> first | rfl | exact hm.elim | cases hrank
  have hfacts : ValidateFacts x e := hp.facts
  obtain ⟨pre, hpre, -, ts, l, k, hts, -, -, rfl⟩ := hp.core.callOk (hp.core.issued_of_answered hr)
  have hts' := hp.core.timestamp_unique (hts.mono hpre) hfacts.timestamped
  have hlaw := ht.answered _ _ _ hr (by simp)
  rw [Lawful, hts'] at hlaw
  have hsame : (e.setFlags (.updateReadEntryMaxCommitTs j) ⟨true, true⟩).handlerResult =
      e.handlerResult := rfl
  simp only [TransactionExecution.next, nextImpl, updateReadEntryMaxCommitTsNext, hsame, hres]
  intro hm'
  split at hm'
  · cases hm'
  · next herr =>
    split at hm'
    · cases hm'
    · next hv =>
      have hle := hlaw (by simpa using herr) hv
      rw [if_neg] at hm'
      · split at hm'
        · cases hm'
        · split at hm' <;> cases hm'
      · exact Int.not_lt.mpr hle

/-- No operation throws on answers that are sane. -/
theorem Trusted.next_ok (ht : Trusted e) (h : Alive e) {i : ℕ}
    (hi : e.operationVector.slot i = some op) (hf : e.isFinished op = true) (m : String) :
    next op e ≠ .error m := by
  cases op with
  | readOutside =>
    have hsame : (e.setFlags .readOutside ⟨true, true⟩).handlerResult = e.handlerResult := rfl
    simp only [TransactionExecution.next, nextImpl, internalRead, hsame]
    split
    · simp
    · next herr =>
      obtain ⟨v, hv⟩ := ht.read hf (by simpa using herr)
      rw [hv]
      cases v <;> simp [Except.map]
  | updateReadEntryMaxCommitTs j => exact ht.reread h hi hf m
  | updateTxnStatusToCommit | updateTxnStatusToAbort | postProcessingCommitEntryAfterCommit j
  | postProcessingDeleteEntryAfterAbort j | releaseReadCounterForEachEntry j =>
    have herr := ht.isError h hi hf (by simp [Op.rank]) rfl (by simp) fun c r hr => hr
    simp only [TransactionExecution.next, nextImpl]
    rw [if_neg]
    · simp
    · exact Bool.eq_false_iff.mp herr
  | _ =>
    simp only [TransactionExecution.next, nextImpl]
    repeat' split
    all_goals simp

theorem Trusted.visit_ok (ht : Trusted e) (h : Alive e) (j : ℕ) (m : String) :
    TransactionExecution.visit j e ≠ .error m := by
  unfold TransactionExecution.visit
  split
  · simp
  · next op hi =>
    split
    · next hf =>
      have hok := ht.next_ok h hi hf
      split
      · next hn => exact absurd hn (hok _)
      · simp
      · simp
    · simp

end TransactionExecution

open TransactionExecution in
/-- The handler answers the calls that it holds, each of them once: `held s i op c` says that it
was given the call `c` of the slot `i` and has not answered it. -/
structure Honest [DecidableEq K] [Services S] [Handler K V S]
    (held : S → ℕ → Op → HandlerCall K → Prop) : Prop where
  called : ∀ (s : S) i op c j y c', held (Handler.call s i op c).1 j y c' →
    (held s j y c' ∨ j = i ∧ y = op ∧ c' = c) ∧ ¬ Answers (Handler.call s i op c) j y
  batch : ∀ (s : S) j y c', held (Handler.sendBatch s).1 j y c' →
    held s j y c' ∧ ¬ Answers (Handler.sendBatch s) j y
  answers : ∀ (s : S) i op c, ∀ d ∈ (Handler.call s i op c).2, ∃ c',
    (held s d.slot d.op c' ∨ d.slot = i ∧ d.op = op ∧ c' = c) ∧ Sane d.op c' d.reply
  batchAnswers : ∀ s : S, ∀ d ∈ (Handler.sendBatch s).2, ∃ c',
    held s d.slot d.op c' ∧ Sane d.op c' d.reply
  keeping : ∀ i op c, Stable fun s : S => ¬ held s i op c

end Fugue
