import Fugue.CommitTimestamps
import Mathlib.Order.Bounds.Basic
import Mathlib.Order.MinMax

namespace Fugue

variable {K V S : Type}

def uploadValues (log : List (Event K V)) : Set ℤ :=
  {v | ∃ i c r, Event.answered (.uploadVersionEntry i) c r ∈ log ∧ r.isError = false ∧ r.result = v}

theorem uploadValues_mono {log log' : List (Event K V)} (hl : log ⊆ log') :
    uploadValues log ⊆ uploadValues log' := by
  rintro v ⟨i, c, r, hr, hv⟩
  exact ⟨i, c, r, hl hr, hv⟩

namespace ExecutionState

end ExecutionState

namespace TransactionExecution

variable [DecidableEq K] {e e' e₁ : TransactionExecution K V S}

section

variable [Services S]

theorem call_maxCommitTs (op : Op) (e : TransactionExecution K V S) :
    (call op e).maxCommitTimestampOfWriters = e.maxCommitTimestampOfWriters := by
  rw [call_data]
  cases op with
  | update =>
    simp only [callData, updateCallImpl]
    repeat' split
    all_goals rfl
  | delete =>
    simp only [callData, deleteCallImpl]
    repeat' split
    all_goals rfl
  | writeToLog =>
    simp only [callData, writeToLogCallImpl]
    split <;> rfl
  | _ => rfl

theorem next_maxCommitTs {op : Op} {o : Option Op} (h : next op e = .ok (o, e₁)) :
    e₁.maxCommitTimestampOfWriters = e.maxCommitTimestampOfWriters ∨
      ∃ i, op = .uploadVersionEntry i ∧ (e.handlerResult (.uploadVersionEntry i)).isError = false ∧
        e₁.maxCommitTimestampOfWriters = max e.maxCommitTimestampOfWriters
          (e.handlerResult (.uploadVersionEntry i)).result := by
  have hrec : ∀ (z : TransactionExecution K V S) a,
      (z.setResultRecord a).maxCommitTimestampOfWriters = z.maxCommitTimestampOfWriters := by
    intro z a
    unfold setResultRecord
    split
    · rfl
    · split <;> rfl
    · rfl
  unfold next at h
  cases op with
  | readOutside =>
    left
    simp only [nextImpl] at h
    split at h
    · cases h
      rfl
    · cases hr : (e.setFlags .readOutside ⟨true, true⟩).internalRead with
      | error m =>
        rw [hr] at h
        cases h
      | ok z =>
        rw [hr] at h
        cases h
        unfold internalRead at hr
        split at hr
        · cases hr
        · cases hr
          split
          · rfl
          · exact hrec _ _
        · cases hr
          rfl
  | readDataStore =>
    left
    simp only [nextImpl, readDataStoreNext, noNext] at h
    cases h
    split
    · rfl
    · split
      · rfl
      · exact hrec _ _
  | insert =>
    left
    simp only [nextImpl, insertNext, noNext] at h
    cases h
    repeat' split
    all_goals rfl
  | upsert =>
    left
    simp only [nextImpl, upsertNext, noNext] at h
    cases h
    split <;> rfl
  | uploadVersionEntry i =>
    simp only [nextImpl, uploadVersionEntryNext] at h
    split at h
    · cases h
      exact .inl rfl
    · next he =>
      cases h
      exact .inr ⟨i, rfl, Bool.eq_false_iff.mpr he, rfl⟩
  | postProcessingCommitEntryAfterCommit i =>
    left
    simp only [nextImpl, clearReleaseOfWrite] at h
    split at h <;> cases h
    split <;> rfl
  | postProcessingDeleteEntryAfterAbort i =>
    left
    simp only [nextImpl, deleteEntryNext] at h
    split at h
    · cases h
    · split at h <;> cases h
      · split <;> rfl
      · rfl
  | _ =>
    left
    simp only [nextImpl, updateReadEntryMaxCommitTsNext, pushConflictNext] at h
    repeat' split at h
    all_goals cases h
    all_goals rfl

theorem dispatch_maxCommitTs (q : OperationRequest K) (e : TransactionExecution K V S) :
    (e.dispatch q).maxCommitTimestampOfWriters = e.maxCommitTimestampOfWriters := by
  have hs : ∀ op (z : TransactionExecution K V S),
      z.maxCommitTimestampOfWriters = e.maxCommitTimestampOfWriters →
        (start op z).maxCommitTimestampOfWriters = e.maxCommitTimestampOfWriters :=
    fun op z hz => (call_maxCommitTs op (z.push op)).trans hz
  cases q with
  | readDataStore key record needToRead =>
    simp only [dispatch]
    split
    · exact hs _ _ rfl
    · rfl
  | abort => rfl
  | _ =>
    simp only [dispatch]
    exact hs _ _ rfl

def Started (e : TransactionExecution K V S) : Prop :=
  Serving e ∨ ∃ x gaveUp s, Pipe x gaveUp s e

namespace Started

theorem of_alive (h : Alive e) : Started e := by
  cases h with
  | serving h => exact .inl h
  | ending x gaveUp s _ h => exact .inr ⟨x, gaveUp, s, h⟩

theorem step (h : Started e) {a : Action K V} (hs : TransactionExecution.step e a = some e') :
    Started e' := by
  rcases h with h | ⟨x, gaveUp, s, h⟩
  · exact of_alive ((Alive.serving h).step hs)
  · obtain ⟨s', hs'⟩ := h.step hs
    exact .inr ⟨x, gaveUp, s', hs'⟩

theorem reply (h : Started e) {j : ℕ} {op : Op} (hj : e.operationVector.slot j = some op)
    (hop : 0 < op.rank) (hp : ∀ s : Stage, s.parent ≠ some op) (hf : e.leafIsFinished op = true) :
    ∃ c r, Event.answered op c r ∈ e.log ∧ e.handlerResult op = ⟨r.result, true, r.isError, 0⟩ := by
  rcases h with h | ⟨x, gaveUp, s, h⟩
  · rw [h.rank_of_slot hj] at hop
    cases hop
  · rcases h.stacked.occupied.held_of_slot hj with hpar | ⟨hm, -⟩
    · exact absurd hpar (hp s)
    · exact h.reply op hm hf hop

end Started

end

structure Collected (e : TransactionExecution K V S) : Prop where
  le : -1 ≤ e.maxCommitTimestampOfWriters
  mem : e.maxCommitTimestampOfWriters = -1 ∨ e.maxCommitTimestampOfWriters ∈ uploadValues e.log

namespace Collected

omit [DecidableEq K] in
theorem of_eq (h : Collected e)
    (hm : e'.maxCommitTimestampOfWriters = e.maxCommitTimestampOfWriters) (hl : e.log ⊆ e'.log) :
    Collected e' := by
  constructor
  · rw [hm]
    exact h.le
  · rw [hm]
    exact h.mem.imp_right fun hold => uploadValues_mono hl hold

variable [Services S]

theorem visit (h : Collected e) (ha : Started e) {j : ℕ} {b : Bool}
    (hv : TransactionExecution.visit j e = .ok (e', b)) (hl : e.log ⊆ e'.log) : Collected e' := by
  have hstep : ∀ {op o} {e₁ : TransactionExecution K V S}, e.operationVector.slot j = some op →
      e.isFinished op = true → TransactionExecution.next op e = .ok (o, e₁) → Advanced op e o e₁ →
      Collected e₁ := by
    intro op o e₁ hj hf hn hadv
    have hlog : e.log ⊆ e₁.log := by
      rw [hadv.log]
      exact List.Subset.refl _
    rcases next_maxCommitTs hn with hm | ⟨i, rfl, he, hm⟩
    · exact h.of_eq hm hlog
    · obtain ⟨c, r, hr, hres⟩ := ha.reply hj Nat.one_pos (fun s => by cases s <;> simp [Stage.parent]) hf
      rw [hres] at he hm
      have hmem : (r.result : ℤ) ∈ uploadValues e₁.log := ⟨i, c, r, hadv.log.symm ▸ hr, he, rfl⟩
      constructor
      · rw [hm]
        exact le_max_of_le_left h.le
      · rcases max_choice e.maxCommitTimestampOfWriters r.result with hmax | hmax
        · rw [hm, hmax]
          exact h.mem.imp_right fun hold => uploadValues_mono hlog hold
        · rw [hm, hmax]
          exact .inr hmem
  rcases visit_cases hv with rfl | ⟨op, o, e₁, hj, hf, hn, hadv, ⟨-, rfl⟩ | ⟨y, -, rfl⟩⟩
  · exact h
  · exact (hstep hj hf hn hadv).of_eq rfl (List.Subset.refl _)
  · exact (hstep hj hf hn hadv).of_eq (call_maxCommitTs y _) (hadv.log ▸ hl)

theorem step (h : Collected e) (ha : Started e) {a : Action K V}
    (hs : TransactionExecution.step e a = some e') : Collected e' := by
  have hl := step_subset hs
  cases a with
  | dispatch q =>
    simp only [TransactionExecution.step] at hs
    split at hs
    · cases hs
      exact h.of_eq (dispatch_maxCommitTs q e) hl
    · cases hs
  | complete op reply =>
    obtain ⟨c, hc⟩ := complete_cases hs
    exact h.of_eq hc.maxCommitTimestampOfWriters hl
  | visit j =>
    simp only [TransactionExecution.step] at hs
    cases hv : TransactionExecution.visit j e with
    | error m =>
      rw [hv] at hs
      cases hs
    | ok p =>
      rw [hv] at hs
      cases hs
      exact h.visit (b := p.2) ha hv hl
  | tidy =>
    simp only [TransactionExecution.step] at hs
    split at hs
    · cases hs
    · cases hs
      apply h.of_eq _ hl
      unfold tidy
      split <;> rfl

theorem run (h : Collected e) (ha : Started e) {as : List (Action K V)}
    (hr : Fugue.run TransactionExecution.step e as = some e') : Started e' ∧ Collected e' :=
  run_invariant (I := fun z => Started z ∧ Collected z)
    (fun _ _ _ hi hs => ⟨hi.1.step hs, hi.2.step hi.1 hs⟩) ⟨ha, h⟩ hr

end Collected

section

variable [Services S]

theorem Started.proposed (h : Started e) {pre : List (Event K V)} {id ts : ℤ}
    (hl : e.log = pre ++ [.issued .setCommitTs (.setCommitTimestamp id ts)]) :
    ∀ v ∈ uploadValues pre, v < ts := by
  rcases h with h | ⟨x, gaveUp, s, h⟩
  · obtain ⟨n, ho⟩ := h.opened
    have hmem : Event.issued .setCommitTs (.setCommitTimestamp id ts) ∈ e.log := by simp [hl]
    cases ho.ranked _ hmem
  · obtain ⟨-, ts', ⟨hup, -⟩, hc⟩ := h.core.obeys pre _ _ [] hl
    cases hc
    rintro v ⟨i, c, r, hr, he, rfl⟩
    exact hup i c r hr he

end

end TransactionExecution

end Fugue
