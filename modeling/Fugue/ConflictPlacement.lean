import Fugue.CommitDecision

namespace Fugue

variable {K V S : Type}

/-- The answers that a reader gets for its `i`-th entry when a writer that committed with the
timestamp `w` commits its version after the re-read, in `before`, or ahead of it, in `after`. -/
structure Placements (i : ℕ) (w : ℤ) (before after : (op : Op) → Reply V op) : Prop where
  other : ∀ op, op ≠ .updateReadEntryMaxCommitTs i →
    op ≠ .pushConflictTxnCommitTsLowerBound i → after op = before op
  locked : (before (.updateReadEntryMaxCommitTs i)).isError = false ∧
    (before (.updateReadEntryMaxCommitTs i)).result.version ≠ VersionEntry.kDefaultVersion ∧
    (before (.updateReadEntryMaxCommitTs i)).result.endTs = VersionEntry.kMaxTimeStamp ∧
    (before (.updateReadEntryMaxCommitTs i)).result.txId ≠ VersionEntry.kEmptyTxId
  pushed : (before (.pushConflictTxnCommitTsLowerBound i)).isError = false ∧
    (before (.pushConflictTxnCommitTsLowerBound i)).result.status = .committed ∧
    (before (.pushConflictTxnCommitTsLowerBound i)).result.commitTs = w
  replaced : (after (.updateReadEntryMaxCommitTs i)).isError = false ∧
    (after (.updateReadEntryMaxCommitTs i)).result.version ≠ VersionEntry.kDefaultVersion ∧
    (after (.updateReadEntryMaxCommitTs i)).result.endTs = w ∧
    (after (.updateReadEntryMaxCommitTs i)).result.txId = VersionEntry.kEmptyTxId

def PassesElsewhere (x : ExecutionState K V S) (resp : (op : Op) → Reply V op) (i : ℕ) : Prop :=
  (∀ j < x.keyWriteSet.popIndex, (resp (.uploadVersionEntry j)).isError = false) ∧
    (resp .setCommitTs).isError = false ∧ (0 : ℤ) ≤ (resp .setCommitTs).result ∧
    ∀ j < x.unupdated.length, j ≠ i → Passes (resp .setCommitTs).result
      (resp (.updateReadEntryMaxCommitTs j)) (resp (.pushConflictTxnCommitTsLowerBound j))

section

variable {x : ExecutionState K V S} {resp : (op : Op) → Reply V op} {i : ℕ}

theorem decision_iff (hi : i < x.unupdated.length) : Decision x resp ↔
    PassesElsewhere x resp i ∧ Passes (resp .setCommitTs).result
      (resp (.updateReadEntryMaxCommitTs i)) (resp (.pushConflictTxnCommitTsLowerBound i)) := by
  constructor
  · rintro ⟨hup, he, hpos, hpass⟩
    exact ⟨⟨hup, he, hpos, fun j hj _ => hpass j hj⟩, hpass i hi⟩
  · rintro ⟨⟨hup, he, hpos, hpass⟩, hself⟩
    refine ⟨hup, he, hpos, fun j hj => ?_⟩
    by_cases hji : j = i
    · rw [hji]
      exact hself
    · exact hpass j hj hji

end

namespace Placements

variable {i : ℕ} {w : ℤ} {before after : (op : Op) → Reply V op}

theorem elsewhere (h : Placements i w before after) (x : ExecutionState K V S) :
    PassesElsewhere x after i ↔ PassesElsewhere x before i := by
  have hts : after .setCommitTs = before .setCommitTs := h.other _ (by simp) (by simp)
  have hpass : ∀ j, j ≠ i →
      after (.updateReadEntryMaxCommitTs j) = before (.updateReadEntryMaxCommitTs j) ∧
      after (.pushConflictTxnCommitTsLowerBound j) = before (.pushConflictTxnCommitTsLowerBound j) := by
    intro j hj
    exact ⟨h.other _ (by simpa using hj) (by simp), h.other _ (by simp) (by simpa using hj)⟩
  unfold PassesElsewhere
  rw [hts]
  refine and_congr ?_ (and_congr Iff.rfl (and_congr Iff.rfl ?_))
  · refine forall_congr' fun j => forall_congr' fun _ => ?_
    rw [h.other (.uploadVersionEntry j) (by simp) (by simp)]
  · refine forall_congr' fun j => forall_congr' fun _ => forall_congr' fun hj => ?_
    rw [(hpass j hj).1, (hpass j hj).2]

theorem passes_before (h : Placements i w before after) {c : ℤ} (hc : c ≤ int64Max) :
    Passes c (before (.updateReadEntryMaxCommitTs i))
      (before (.pushConflictTxnCommitTsLowerBound i)) ↔ c < w := by
  obtain ⟨hre, hrv, hend, hid⟩ := h.locked
  obtain ⟨hpe, hps, hpw⟩ := h.pushed
  have hread : Reread c (before (.updateReadEntryMaxCommitTs i)).isError
      (before (.updateReadEntryMaxCommitTs i)).result := ⟨hre, hrv, hend ▸ hc⟩
  unfold Passes TxnEntry.Conflicts
  rw [hps, hpw]
  constructor
  · rintro ⟨-, hp⟩
    obtain ⟨-, hconf⟩ := hp.resolve_left hid
    by_contra hlt
    exact hconf (.inl ⟨rfl, Int.not_lt.mp hlt⟩)
  · intro hlt
    refine ⟨hread, .inr ⟨hpe, ?_⟩⟩
    rintro (⟨-, hle⟩ | ⟨hs, -⟩)
    · exact absurd hlt (Int.not_lt.mpr hle)
    · cases hs

theorem passes_after (h : Placements i w before after) {c : ℤ} :
    Passes c (after (.updateReadEntryMaxCommitTs i))
      (after (.pushConflictTxnCommitTsLowerBound i)) ↔ c ≤ w := by
  obtain ⟨hre, hrv, hend, hid⟩ := h.replaced
  constructor
  · rintro ⟨⟨-, -, hle⟩, -⟩
    exact hend ▸ hle
  · intro hle
    exact ⟨⟨hre, hrv, hend.symm ▸ hle⟩, .inl hid⟩

end Placements

namespace TransactionExecution

variable [DecidableEq K] [Services S] {e x y : TransactionExecution K V S}

/-- Both placements decide alike if and only if the reader's timestamp is not the writer's, or
something else keeps the reader from its commit. -/
theorem placement_decides_alike {i : ℕ} {w : ℤ} {before after : (op : Op) → Reply V op}
    {as bs : List (Action K V)} (he : BeforeCommit e) (hi : i < e.unupdated.length)
    (hpl : Placements i w before after) (hc : (before .setCommitTs).result ≤ int64Max)
    (ha : Answers before as) (hx : run step (e.dispatch .commit) as = some x)
    (hxf : x.isTransactionFinished = true) (hb : Answers after bs)
    (hy : run step (e.dispatch .commit) bs = some y) (hyf : y.isTransactionFinished = true) :
    (x.status = .committed ↔ y.status = .committed) ↔
      (before .setCommitTs).result ≠ w ∨ ¬ PassesElsewhere e.toExecutionState before i := by
  obtain ⟨⟨s, hp⟩, hans⟩ := he.run ha hx
  obtain ⟨⟨s', hp'⟩, hans'⟩ := he.run hb hy
  have hts : after .setCommitTs = before .setCommitTs := hpl.other _ (by simp) (by simp)
  rw [(hp.decided hans hxf).1, (hp'.decided hans' hyf).1, decision_iff hi, decision_iff hi,
    hpl.elsewhere, hts, hpl.passes_before hc, hpl.passes_after]
  by_cases hels : PassesElsewhere e.toExecutionState before i
  · simp only [hels, true_and, not_true_eq_false, or_false, ne_eq]
    constructor
    · intro hiff heq
      rw [heq] at hiff
      exact Int.lt_irrefl w (hiff.mpr (Int.le_refl w))
    · intro hne
      exact ⟨Int.le_of_lt, fun hle => Int.lt_iff_le_and_ne.mpr ⟨hle, hne⟩⟩
  · simp [hels]

def samplePlaced (w : ℤ) (locked : Bool) : (op : Op) → Reply ℕ op
  | .updateReadEntryMaxCommitTs 0 => ⟨false, { VersionEntry.blank none with
      version := 0, txId := if locked then 9 else VersionEntry.kEmptyTxId, beginTs := 0,
      endTs := if locked then int64Max else w, maxCommitTs := 6 }, []⟩
  | .pushConflictTxnCommitTsLowerBound 0 => ⟨false, ⟨9, .committed, w, 7⟩, []⟩
  | op => sampleReply op

theorem placements_samplePlaced (w : ℤ) :
    Placements 0 w (samplePlaced w true) (samplePlaced w false) where
  other op hr _ := by
    cases op with
    | updateReadEntryMaxCommitTs j =>
      cases j with
      | zero => exact absurd rfl hr
      | succ j => rfl
    | pushConflictTxnCommitTsLowerBound j => cases j <;> rfl
    | _ => rfl
  locked := by simp [samplePlaced, VersionEntry.kDefaultVersion, VersionEntry.kMaxTimeStamp,
    VersionEntry.kEmptyTxId]
  pushed := ⟨rfl, rfl, rfl⟩
  replaced := by simp [samplePlaced, VersionEntry.kDefaultVersion]

def sampleValidation (w : ℤ) (locked : Bool) : List (Action ℕ ℕ) :=
  let answer := fun op => Action.complete op (samplePlaced w locked op)
  [answer (.uploadVersionEntry 0), .visit 1, .visit 0, .tidy, answer .setCommitTs, .visit 0,
    answer (.updateReadEntryMaxCommitTs 0), .visit 1] ++
  (if locked then [answer (.pushConflictTxnCommitTsLowerBound 0), .visit 1] else []) ++
  [.visit 0, .tidy]

def sampleOutcome (committed : Bool) : List (Action ℕ ℕ) :=
  if committed then
    [.visit 0, sampleAnswer .updateTxnStatusToCommit, .visit 0,
      sampleAnswer (.postProcessingCommitEntryAfterCommit 0), .visit 1, .visit 0, .tidy]
  else
    [sampleAnswer .updateTxnStatusToAbort, .visit 0,
      sampleAnswer (.postProcessingDeleteEntryAfterAbort 0), .visit 1, .visit 0,
      sampleAnswer (.releaseReadCounterForEachEntry 0), .visit 2, .visit 0, .tidy]

theorem answers_samplePlaced (w : ℤ) (locked : Bool) :
    Answers (samplePlaced w locked) (sampleValidation w locked ++ sampleOutcome true) := by
  intro op r h
  cases locked <;>
    simp only [sampleValidation, sampleOutcome, sampleAnswer, List.mem_append, List.mem_cons,
      if_true, if_false, Bool.false_eq_true, reduceCtorEq, List.not_mem_nil, or_false,
      false_or] at h
  all_goals repeat' rcases h with h | h
  all_goals rfl

theorem placement_decides_alike_sample : ∃ x y : TransactionExecution ℕ ℕ LocalServices,
    run step (sampleExecution.dispatch .commit) (sampleValidation 9 true ++ sampleOutcome true) =
      some x ∧ x.status = .committed ∧
    run step (sampleExecution.dispatch .commit) (sampleValidation 9 false ++ sampleOutcome true) =
      some y ∧ y.status = .committed := by
  have hx : (run step (sampleExecution.dispatch .commit) (sampleValidation 9 true ++
      sampleOutcome true)).map (fun e => (e.isTransactionFinished, e.status)) =
        some (true, .committed) := by
    decide +kernel
  have hy : (run step (sampleExecution.dispatch .commit) (sampleValidation 9 false ++
      sampleOutcome true)).map (fun e => e.isTransactionFinished) = some true := by
    decide +kernel
  obtain ⟨x, hx, hxv⟩ := Option.map_eq_some_iff.mp hx
  obtain ⟨y, hy, hyf⟩ := Option.map_eq_some_iff.mp hy
  obtain ⟨hxf, hxs⟩ := Prod.mk.inj hxv
  have halike := placement_decides_alike (i := 0) ⟨rfl, rfl, rfl, rfl, rfl⟩ (by decide +kernel)
    (placements_samplePlaced 9) (by decide) (answers_samplePlaced 9 true) hx hxf
    (answers_samplePlaced 9 false) hy hyf
  exact ⟨x, y, hx, hxs, hy, (halike.mpr (.inl (by decide))).mp hxs⟩

/-- At the writer's own timestamp the reader commits in one placement only. -/
theorem placement_decides_alike_tie : ∃ x y : TransactionExecution ℕ ℕ LocalServices,
    (samplePlaced 6 true .setCommitTs).result = (6 : ℤ) ∧
    run step (sampleExecution.dispatch .commit) (sampleValidation 6 true ++ sampleOutcome false) =
      some x ∧ x.isTransactionFinished = true ∧ x.status = .aborted ∧
    run step (sampleExecution.dispatch .commit) (sampleValidation 6 false ++ sampleOutcome true) =
      some y ∧ y.isTransactionFinished = true ∧ y.status = .committed := by
  have hx : (run step (sampleExecution.dispatch .commit) (sampleValidation 6 true ++
      sampleOutcome false)).map (fun e => (e.isTransactionFinished, e.status)) =
        some (true, .aborted) := by
    decide +kernel
  have hy : (run step (sampleExecution.dispatch .commit) (sampleValidation 6 false ++
      sampleOutcome true)).map (fun e => (e.isTransactionFinished, e.status)) =
        some (true, .committed) := by
    decide +kernel
  obtain ⟨x, hx, hxv⟩ := Option.map_eq_some_iff.mp hx
  obtain ⟨y, hy, hyv⟩ := Option.map_eq_some_iff.mp hy
  exact ⟨x, y, rfl, hx, (Prod.mk.inj hxv).1, (Prod.mk.inj hxv).2, hy, (Prod.mk.inj hyv).1,
    (Prod.mk.inj hyv).2⟩

end TransactionExecution

end Fugue
