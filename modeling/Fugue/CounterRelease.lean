import Fugue.ReadCounters

namespace Fugue

namespace TransactionExecution

open ExecutionState

variable {K V S : Type}

def Due (x : ExecutionState K V S) (e : TransactionExecution K V S) : Stage → Prop
  | .commit => ∀ w < x.keyWriteSet.popIndex,
      ∃ i < e.args.commitIndex.length, e.args.commitEntry i = w
  | .release => ∀ j < x.keyReadSet.popIndex, (e.keyReadSet.entry j).needRelease = true →
      ∃ i < e.args.releaseIndex.length, e.args.releaseEntry i = j
  | .committed | .aborted => ∀ j < x.keyReadSet.popIndex,
      (e.keyReadSet.entry j).needRelease = false
  | _ => True

structure Accounted (x : ExecutionState K V S) (s : Stage) (gone : List ℕ)
    (e : TransactionExecution K V S) : Prop where
  counted : Counted x gone e
  moved : s ≠ .validate → ∀ l c, Event.issued (.updateReadEntryMaxCommitTs l) c ∈ e.log →
    (e.flags (.updateReadEntryMaxCommitTs l)).moveToNext = true
  uncommitted : s = .failing ∨ 7 ≤ s.rank → ∀ ev ∈ e.log, ev.op.rank ≠ 6
  due : Due x e s

section

variable {x : ExecutionState K V S} {s s' : Stage} {gone : List ℕ} {gaveUp : Prop} {n : ℕ}
variable {e e' e₁ : TransactionExecution K V S} {i : ℕ} {op y : Op}

structure Calls (member : Op → Prop) (e e' : TransactionExecution K V S) : Prop where
  log : ∃ l, e'.log = e.log ++ issues l ∧ ∀ op c, (op, c) ∈ l → member op
  flags : ∀ op, ¬ member op → e'.flags op = e.flags op
  keyReadSet : e'.keyReadSet = e.keyReadSet
  counterOf : ∀ op, ¬ member op → e'.counterOf op = e.counterOf op

theorem Calls.moved {member : Op → Prop} (h : Calls member e e')
    (hm : ∀ l, ¬ member (.updateReadEntryMaxCommitTs l))
    (hmoved : ∀ l c, Event.issued (.updateReadEntryMaxCommitTs l) c ∈ e.log →
      (e.flags (.updateReadEntryMaxCommitTs l)).moveToNext = true) (l : ℕ) (c : HandlerCall K)
    (hi : Event.issued (.updateReadEntryMaxCommitTs l) c ∈ e'.log) :
    (e'.flags (.updateReadEntryMaxCommitTs l)).moveToNext = true := by
  obtain ⟨calls, hl, hcalls⟩ := h.log
  rw [hl] at hi
  rcases List.mem_append.mp hi with hi | hi
  · rw [h.flags _ (hm l)]
    exact hmoved l c hi
  · exact absurd (hcalls _ c (mem_issues.mp hi)) (hm l)

theorem Calls.rank {member : Op → Prop} {m : ℕ} (h : Calls member e e')
    (hm : ∀ op, member op → op.rank ≠ m) (hr : ∀ ev ∈ e.log, ev.op.rank ≠ m) :
    ∀ ev ∈ e'.log, ev.op.rank ≠ m := by
  intro ev hev
  obtain ⟨calls, hl, hcalls⟩ := h.log
  rw [hl] at hev
  rcases List.mem_append.mp hev with hev | hev
  · exact hr ev hev
  · obtain ⟨p, hp, rfl⟩ := List.mem_map.mp hev
    exact hm _ (hcalls p.1 p.2 hp)

theorem Calls.counted (h : Calls (· = y) e e') (hz : Counted x gone e)
    (hc : ∀ op c (r : Reply V op), Event.answered op c r ∈ e.log → Event.issued op c ∈ e.log)
    (hy : e.counterOf y = none) (hy' : e'.counterOf y = none) : Counted x gone e' := by
  obtain ⟨l, hl, hcalls⟩ := h.log
  have hne : ∀ op, e.counterOf op ≠ none → op ≠ y := by
    rintro op hop rfl
    exact hop hy
  apply hz.grow_other hc hl h.keyReadSet
  · intro op
    by_cases hop : op = y
    · rw [hop, hy, hy']
    · exact h.counterOf op hop
  · exact fun op hop => h.flags op (hne op hop)
  · intro op c hmem
    rw [hcalls op c hmem]
    exact hy

variable [DecidableEq K] [Services S]

omit [DecidableEq K] [Services S] in
theorem calls_issueCall (y : Op) (e : TransactionExecution K V S) :
    Calls (· = y) e ((e.setMoveToNext y false).issueCall y) := by
  rw [issueCall_eq]
  refine ⟨⟨_, rfl, ?_⟩, ?_, rfl, fun op _ => counterOf_of_args rfl rfl op⟩
  · intro op c hmem
    obtain ⟨c', -, hc'⟩ := Option.map_eq_some_iff.mp (Option.mem_toList.mp hmem)
    exact (Prod.mk.inj hc').1.symm
  · exact fun op hop => Function.update_of_ne hop _ _

theorem calls_setCommitTs (e : TransactionExecution K V S) :
    Calls (· = .setCommitTs) e (call .setCommitTs e) := by
  let z := (e.setMoveToNext .setCommitTs false).resetTime
  change Calls (· = .setCommitTs) e ((z.setCommitTs z.proposedCommitTs).issueCall .setCommitTs)
  rw [issueCall_eq]
  refine ⟨⟨_, rfl, ?_⟩, ?_, rfl, fun op _ => counterOf_of_args rfl rfl op⟩
  · intro op c hmem
    obtain ⟨c', -, hc'⟩ := Option.map_eq_some_iff.mp (Option.mem_toList.mp hmem)
    exact (Prod.mk.inj hc').1.symm
  · exact fun op hop => Function.update_of_ne hop _ _

theorem calls_writeToLog (e : TransactionExecution K V S) :
    Calls (· = .writeToLog) e (call .writeToLog e) := by
  have hcall : call .writeToLog e = (e.setMoveToNext .writeToLog false).setHandlerResult .writeToLog
      { e.handlerResult .writeToLog with isFinished := true } := by
    change (e.setMoveToNext .writeToLog false).writeToLogCallImpl = _
    rw [writeToLogCallImpl, if_pos (by simp [enableLog_eq])]
    rfl
  rw [hcall]
  refine ⟨⟨[], (List.append_nil _).symm, by simp⟩, ?_, rfl, fun op _ => counterOf_of_args rfl rfl op⟩
  exact fun op hop => Function.update_of_ne hop _ _

theorem Family.calls_call (F : Family K V S) (hF : F.SetsOwn) (e : TransactionExecution K V S) :
    Calls (fun op => op = F.parent ∨ ∃ i, op = F.child i) e (call F.parent e) := by
  have hi := invokeAll_invoked F (F.index e.args) (e.setMoveToNext F.parent false)
  rw [← F.call_parent] at hi
  refine ⟨⟨_, hi.log, ?_⟩, ?_, (congrArg ExecutionState.keyReadSet hi.data :), ?_⟩
  · intro op c hop
    obtain ⟨i, index, -, hopi, -⟩ := mem_calls.mp hop
    exact .inr ⟨i, hopi⟩
  · intro op hop
    rw [hi.flags_other op fun i _ hopi => hop (.inr ⟨i, hopi⟩)]
    exact Function.update_of_ne (fun h => hop (.inl h)) _ _
  · exact fun op hop => F.call_counterOf hF e fun i hopi => hop (.inr ⟨i, hopi⟩)

/-- The marks that would let an abort clear a live entry are never set. -/
theorem Pipe.unmarked (h : Pipe x gaveUp s e) {log : List (Event K V)}
    (entries : Entries log x.keyReadSet.popIndex x) {j : ℕ} (hj : j < e.keyReadSet.popIndex) :
    (e.keyReadSet.entry j).needPostProcessing = false := by
  have hsame : (e.keyReadSet.entry j).needPostProcessing =
      (x.keyReadSet.entry j).needPostProcessing :=
    (congrArg ReadSetEntry.needPostProcessing (h.core.sets.read j) :)
  rw [hsame]
  exact (entries.owed j (h.core.sets.readSize ▸ hj)).2

theorem Pipe.advanced_core (h : Pipe x gaveUp s e) {o : Option Op} (ha : Advanced op e o e₁)
    (ho : ∀ z, o = some z → s.rank < z.rank)
    (hs : SameSets e.toExecutionState e₁.toExecutionState) :
    Core x gaveUp s.rank (e₁.setSlot i o) := by
  refine h.core.advance ha.log ha.pending hs fun z c r hr _ => ha.handlerResult z ?_
  intro hz
  have h1 := h.core.ranked _ hr
  have h2 := ho z hz
  exact absurd h1 (Nat.not_le_of_lt h2)

namespace Accounted

variable {log : List (Event K V)} {o : Option Op}

theorem next_other (hA : Accounted x s gone e) (h : Pipe x gaveUp s e)
    (entries : Entries log x.keyReadSet.popIndex x) (hop : 0 < op.rank)
    (hnone : e.counterOf op = none) (hn : next op e = .ok (o, e₁)) :
    Counted x gone (e₁.setSlot i o) :=
  hA.counted.next h.core hop (fun _ => h.unmarked entries) (fun hc => absurd hnone hc) hn

theorem leave (hA : Accounted x s gone e) (h : Pipe x gaveUp s e)
    (entries : Entries log x.keyReadSet.popIndex x) (hm : s.member e op)
    (hf : e.leafIsFinished op = true)
    (hargs : s = .commit ∨ s = .release → e₁.args = e.args)
    (hdone : s ≠ .committed ∧ s ≠ .aborted) (hn : next op e = .ok (none, e₁)) :
    Accounted x s gone (e₁.setSlot i none) := by
  have hrank : op.rank = s.rank := Stage.rank_of_member hm
  have hop : 0 < op.rank := by
    rw [hrank]
    cases s <;> simp [Stage.rank]
  have ha := next_advanced hn
  have hc := next_counting hop (fun _ => h.unmarked entries) hn
  constructor
  · exact hA.counted.next h.core hop (fun _ => h.unmarked entries) (fun _ => h.reply op hm hf hop) hn
  · intro hs l c hl
    have hflag : (e₁.setSlot i none).flags = Function.update e.flags op ⟨true, false⟩ := ha.flags
    rw [hflag]
    by_cases hlo : .updateReadEntryMaxCommitTs l = op
    · rw [hlo, Function.update_self]
    · rw [Function.update_of_ne hlo]
      exact hA.moved hs l c (ha.log ▸ hl)
  · intro hs ev hev
    exact hA.uncommitted hs ev (ha.log ▸ hev)
  · have hdue := hA.due
    cases s with
    | commit =>
      intro w hw
      change ∃ i < e₁.args.commitIndex.length, e₁.args.commitEntry i = w
      rw [hargs (.inl rfl)]
      exact hdue w hw
    | release =>
      intro j hj hneed
      change ∃ i < e₁.args.releaseIndex.length, e₁.args.releaseEntry i = j
      rw [hargs (.inr rfl)]
      apply hdue j hj
      have hneed : (e₁.keyReadSet.entry j).needRelease = true := hneed
      rw [hc.needRelease j (h.core.sets.readSize.symm ▸ hj)] at hneed
      split at hneed
      · cases hneed
      · exact hneed
    | committed => exact absurd rfl hdone.1
    | aborted => exact absurd rfl hdone.2
    | _ => trivial

omit [DecidableEq K] [Services S] in
theorem proceed {member : Op → Prop} {z : TransactionExecution K V S}
    (hmoved : ∀ l c, Event.issued (.updateReadEntryMaxCommitTs l) c ∈ z.log →
      (z.flags (.updateReadEntryMaxCommitTs l)).moveToNext = true)
    (hcalls : Calls member z e') (hm : ∀ l, ¬ member (.updateReadEntryMaxCommitTs l))
    (hrank : s' = .failing ∨ 7 ≤ s'.rank → (∀ ev ∈ z.log, ev.op.rank ≠ 6) ∧
      ∀ op, member op → op.rank ≠ 6)
    (hcount : Counted x gone e') (hdue : Due x e' s') : Accounted x s' gone e' where
  counted := hcount
  moved _ := hcalls.moved hm hmoved
  uncommitted hs := hcalls.rank (hrank hs).2 (hrank hs).1
  due := hdue

omit [DecidableEq K] [Services S] in
theorem moved_next {z : TransactionExecution K V S} (ha : Advanced op e o e₁)
    (hz : z = e₁.setSlot i o)
    (hmoved : ∀ l c, Event.issued (.updateReadEntryMaxCommitTs l) c ∈ e.log →
      (e.flags (.updateReadEntryMaxCommitTs l)).moveToNext = true) (l : ℕ) (c : HandlerCall K)
    (hl : Event.issued (.updateReadEntryMaxCommitTs l) c ∈ z.log) :
    (z.flags (.updateReadEntryMaxCommitTs l)).moveToNext = true := by
  have hflag : z.flags = Function.update e.flags op ⟨true, o.isSome⟩ := hz ▸ ha.flags
  have hlog : z.log = e.log := hz ▸ ha.log
  rw [hflag]
  by_cases hlo : .updateReadEntryMaxCommitTs l = op
  · rw [hlo, Function.update_self]
  · rw [Function.update_of_ne hlo]
    exact hmoved l c (hlog ▸ hl)

theorem fail (hA : Accounted x s gone e) (h : Pipe x gaveUp s e)
    (entries : Entries log x.keyReadSet.popIndex x) (hop : 0 < op.rank)
    (hnone : e.counterOf op = none) (hs : s.rank ≤ 3)
    (hmoved : ∀ l c, Event.issued (.updateReadEntryMaxCommitTs l) c ∈ e.log →
      (e.flags (.updateReadEntryMaxCommitTs l)).moveToNext = true)
    (hn : next op e = .ok (none, e₁)) : Accounted x .failing gone (e₁.setSlot i none) where
  counted := hA.next_other h entries hop hnone hn
  moved _ := moved_next (next_advanced hn) rfl hmoved
  uncommitted _ ev hev := by
    have hr := h.core.ranked ev ((next_advanced hn).log ▸ hev)
    omega
  due := trivial

theorem single (hA : Accounted x s gone e) (h : Pipe x gaveUp s e)
    (entries : Entries log x.keyReadSet.popIndex x) (hop : 0 < op.rank)
    (hnone : e.counterOf op = none)
    (hmoved : ∀ l c, Event.issued (.updateReadEntryMaxCommitTs l) c ∈ e.log →
      (e.flags (.updateReadEntryMaxCommitTs l)).moveToNext = true)
    (hn : next op e = .ok (some y, e₁))
    (hcalls : Calls (· = y) (e₁.setSlot i (some y)) (call y (e₁.setSlot i (some y))))
    (hy : ∀ z : TransactionExecution K V S, z.counterOf y = none)
    (hs : s' = .timestamp ∨ s' = .log ∨ s' = .status) :
    Accounted x s' gone (call y (e₁.setSlot i (some y))) := by
  have ha := next_advanced hn
  apply proceed (moved_next ha rfl hmoved) hcalls
  · rintro l rfl
    cases hy e
  · intro hs'
    rcases hs with rfl | rfl | rfl <;> simp [Stage.rank] at hs'
  · apply hcalls.counted (hA.next_other h entries hop hnone hn) _ (hy _) (hy _)
    intro z c r hr
    exact (congrArg (Event.issued z c ∈ ·) ha.log).mpr (h.core.issued_of_answered (ha.log ▸ hr))
  · rcases hs with rfl | rfl | rfl <;> trivial

theorem moved_early (h : Pipe x gaveUp s e) (hs : s.rank < 3) (l : ℕ) (c : HandlerCall K)
    (hl : Event.issued (.updateReadEntryMaxCommitTs l) c ∈ e.log) :
    (e.flags (.updateReadEntryMaxCommitTs l)).moveToNext = true := by
  have hr : 3 ≤ s.rank := h.core.ranked _ hl
  omega

theorem moved_validated (hA : Accounted x .validate gone e) (h : Pipe x gaveUp .validate e)
    (hf : e.isFinished .validate = true) (l : ℕ) (c : HandlerCall K)
    (hl : Event.issued (.updateReadEntryMaxCommitTs l) c ∈ e.log) :
    (e.flags (.updateReadEntryMaxCommitTs l)).moveToNext = true := by
  have hfacts : ValidateFacts x e := h.facts
  have hlt : l < e.args.validateIndex.length := by
    rw [hfacts.index]
    exact (List.getElem?_eq_some_iff.mp (hA.counted.reread l c hl)).1
  have hc : e.isCascadeFinished (.updateReadEntryMaxCommitTs l) = true :=
    validateFamily.isFinished_parent.mp hf l hlt
  simp only [isCascadeFinished, Bool.and_eq_true] at hc
  exact hc.1.2

theorem visit_upload (hA : Accounted x .upload gone e) (h : Pipe x gaveUp .upload e)
    (entries : Entries log x.keyReadSet.popIndex x) (hn : next .upload e = .ok (o, e₁)) :
    (o = none → Accounted x .failing gone (e₁.setSlot i none)) ∧
      ∀ y, o = some y → Accounted x .timestamp gone (call y (e₁.setSlot i (some y))) := by
  have hmoved := moved_early h (by decide)
  constructor
  · rintro rfl
    exact hA.fail h entries (by decide) rfl (by decide) hmoved hn
  · rintro y rfl
    have hy : y = .setCommitTs := by
      simp only [TransactionExecution.next, nextImpl] at hn
      split at hn <;> cases hn
      rfl
    subst hy
    exact hA.single h entries (by decide) rfl hmoved hn (calls_setCommitTs _) (fun _ => rfl)
      (.inl rfl)

theorem visit_timestamp (hA : Accounted x .timestamp gone e) (h : Pipe x gaveUp .timestamp e)
    (entries : Entries log x.keyReadSet.popIndex x) (hn : next .setCommitTs e = .ok (o, e₁)) :
    (o = none → Accounted x .failing gone (e₁.setSlot i none)) ∧
      ∀ y, o = some y → Accounted x .validate gone (call y (e₁.setSlot i (some y))) := by
  have hmoved := moved_early h (by decide)
  have ha := next_advanced hn
  constructor
  · rintro rfl
    exact hA.fail h entries (by decide) rfl (by decide) hmoved hn
  · rintro y rfl
    have hz := hA.next_other (i := i) h entries (by decide) rfl hn
    simp only [TransactionExecution.next, nextImpl] at hn
    split at hn <;> cases hn
    have hcore := h.advanced_core (i := i) ha (by simp [Op.rank, Stage.rank]) (.of_eq rfl rfl rfl)
    refine ⟨hz.validate hcore (by decide) ?_, fun hs => absurd rfl hs, ?_, trivial⟩
    · exact h.core.sets.unupdated
    · intro hs
      simp [Stage.rank] at hs

theorem visit_validate (hA : Accounted x .validate gone e) (h : Pipe x gaveUp .validate e)
    (entries : Entries log x.keyReadSet.popIndex x) (hf : e.isFinished .validate = true)
    (hn : next .validate e = .ok (o, e₁)) :
    (o = none → Accounted x .failing gone (e₁.setSlot i none)) ∧
      ∀ y, o = some y → Accounted x .log gone (call y (e₁.setSlot i (some y))) := by
  have hmoved := moved_validated hA h hf
  constructor
  · rintro rfl
    exact hA.fail h entries (by decide) rfl (by decide) hmoved hn
  · rintro y rfl
    have hy : y = .writeToLog := by
      simp only [TransactionExecution.next, nextImpl] at hn
      split at hn <;> cases hn
      rfl
    subst hy
    exact hA.single h entries (by decide) rfl hmoved hn (calls_writeToLog _) (fun _ => rfl)
      (.inr (.inl rfl))

theorem visit_reread (hA : Accounted x .validate gone e) (h : Pipe x gaveUp .validate e)
    (entries : Entries log x.keyReadSet.popIndex x) (hm : Stage.validate.member e op)
    (hf : e.leafIsFinished op = true) (hn : next op e = .ok (o, e₁)) :
    (o = none → Accounted x .validate gone (e₁.setSlot i none)) ∧
      ∀ y, o = some y → Accounted x .validate gone (call y (e₁.setSlot i (some y))) := by
  have hrank : op.rank = 3 := Stage.rank_of_member hm
  constructor
  · rintro rfl
    exact hA.leave h entries hm hf (by simp) (by simp) hn
  · rintro y rfl
    have ha := next_advanced hn
    obtain ⟨c, r, -, hres⟩ := h.reply op hm hf (by omega)
    obtain ⟨j, rfl⟩ : ∃ j, y = .pushConflictTxnCommitTsLowerBound j := by
      rcases hm with ⟨j, -, rfl⟩ | ⟨j, -, rfl, -⟩
      · obtain ⟨-, -, -, -, -, ⟨ho, -⟩ | ⟨-, -, ⟨ho, -⟩ | ⟨ho, -⟩⟩⟩ := next_reread hres hn
        · cases ho
        · cases ho
        · exact ⟨j, Option.some.inj ho⟩
      · obtain ⟨ho, -⟩ := next_push hres hn
        cases ho
    have hz := hA.counted.next (i := i) h.core (by omega) (fun _ => h.unmarked entries)
      (fun _ => h.reply op hm hf (by omega)) hn
    have hcalls := calls_issueCall (.pushConflictTxnCommitTsLowerBound j)
      (e₁.setSlot i (some (.pushConflictTxnCommitTsLowerBound j)))
    refine ⟨hcalls.counted hz ?_ rfl rfl, fun hs => absurd rfl hs, ?_, trivial⟩
    · intro z c r hr
      exact (congrArg (Event.issued z c ∈ ·) ha.log).mpr (h.core.issued_of_answered (ha.log ▸ hr))
    · intro hs
      simp [Stage.rank] at hs

theorem visit_log (hA : Accounted x .log gone e) (h : Pipe x gaveUp .log e)
    (entries : Entries log x.keyReadSet.popIndex x) (hn : next .writeToLog e = .ok (some y, e₁)) :
    Accounted x .status gone (call y (e₁.setSlot i (some y))) := by
  obtain rfl : y = .updateTxnStatusToCommit := by
    cases hn
    rfl
  exact hA.single h entries (by decide) rfl (hA.moved (by simp)) hn (calls_issueCall _ _)
    (fun _ => rfl) (.inr (.inr rfl))

theorem due_commit (hidx : e.args.commitIndex = e.postProcessIndex)
    (hall : ∀ w < x.keyWriteSet.popIndex, w ∈ e.postProcessIndex) :
    Due x (call .postProcessingAfterCommit e) .commit := by
  have hi : Invoked commitFamily e.args.commitIndex
      (e.setMoveToNext .postProcessingAfterCommit false) (call .postProcessingAfterCommit e) :=
    invokeAll_invoked commitFamily _ _
  have hlen : (call .postProcessingAfterCommit e).args.commitIndex.length =
      e.args.commitIndex.length := congrArg List.length hi.index
  intro w hw
  obtain ⟨j, hj⟩ := List.mem_iff_getElem?.mp (hall w hw)
  rw [← hidx] at hj
  have hlt := (List.getElem?_eq_some_iff.mp hj).1
  exact ⟨j, hlen ▸ hlt, hi.entry j w hj⟩

theorem due_release (hsize : e.keyReadSet.popIndex = x.keyReadSet.popIndex)
    (hidx : e.args.releaseIndex = (List.range e.keyReadSet.popIndex).filter
      fun i => (e.keyReadSet.entry i).needRelease) :
    Due x (call .releaseReadCounter e) .release := by
  have hi : Invoked releaseFamily e.args.releaseIndex
      (e.setMoveToNext .releaseReadCounter false) (call .releaseReadCounter e) :=
    invokeAll_invoked releaseFamily _ _
  have hlen : (call .releaseReadCounter e).args.releaseIndex.length =
      e.args.releaseIndex.length := congrArg List.length hi.index
  have hset : (call .releaseReadCounter e).keyReadSet = e.keyReadSet :=
    (congrArg ExecutionState.keyReadSet hi.data :)
  intro j hj hneed
  rw [hset] at hneed
  have hmem : j ∈ e.args.releaseIndex := by
    rw [hidx, List.mem_filter, List.mem_range, hsize]
    exact ⟨hj, hneed⟩
  obtain ⟨l, hl⟩ := List.mem_iff_getElem?.mp hmem
  have hlt := (List.getElem?_eq_some_iff.mp hl).1
  exact ⟨l, hlen ▸ hlt, hi.entry l j hl⟩

theorem visit_status (hA : Accounted x .status gone e) (h : Pipe x gaveUp .status e)
    (entries : Entries log x.keyReadSet.popIndex x) (hd : UploadsDiffer e.log)
    (hn : next .updateTxnStatusToCommit e = .ok (some y, e₁)) :
    Accounted x .commit gone (call y (e₁.setSlot i (some y))) := by
  have ha := next_advanced hn
  have hz := hA.next_other (i := i) h entries (by decide) rfl hn
  obtain ⟨-, hv, -⟩ := h.facts
  simp only [TransactionExecution.next, nextImpl] at hn
  split at hn <;> cases hn
  have hcore := h.advanced_core (i := i) ha (by simp [Op.rank, Stage.rank]) (.of_eq rfl rfl rfl)
  apply proceed (moved_next ha rfl (hA.moved (by simp)))
  · exact commitFamily.calls_call commit_setsOwn _
  · intro l hl
    rcases hl with hl | ⟨j, hl⟩ <;> cases hl
  · intro hs
    simp [Stage.rank] at hs
  · exact hz.commit hcore (by decide) entries hv.uploaded hd rfl
  · refine due_commit rfl fun w hw => mem_postProcessIndex.mpr ?_
    exact ⟨h.core.sets.writeSize.symm ▸ hw,
      (h.posted (by simp) w hw).mpr (.inr (hv.uploaded w hw))⟩

theorem moved_children {F : Family K V S} (h : Pipe x gaveUp s e)
    (hm : ∀ j < (F.index e.args).length, s.member e (F.child j))
    (hcascade : ∀ j, e.isCascadeFinished (F.child j) =
      (e.leafIsFinished (F.child j) && (e.flags (F.child j)).moveToNext))
    (hf : e.isFinished F.parent = true) (j : ℕ) (hj : j < (F.index e.args).length) :
    (∃ c r, Event.answered (F.child j) c r ∈ e.log) ∧
      (e.flags (F.child j)).moveToNext = true := by
  have hc := F.isFinished_parent.mp hf j hj
  rw [hcascade, Bool.and_eq_true] at hc
  exact ⟨h.stacked.finished_answered _ (hm j hj) hc.1, hc.2⟩

theorem visit_commit (hA : Accounted x .commit gone e) (h : Pipe x gaveUp .commit e)
    (entries : Entries log x.keyReadSet.popIndex x)
    (hf : e.isFinished .postProcessingAfterCommit = true)
    (hn : next .postProcessingAfterCommit e = .ok (none, e₁)) :
    Accounted x .committed gone (e₁.setSlot i none) := by
  have ha := next_advanced hn
  have hz := hA.next_other (i := i) h entries (by decide) rfl hn
  obtain ⟨-, hv, -⟩ := h.facts
  refine ⟨hz, fun _ => moved_next ha rfl (hA.moved (by simp)), ?_, ?_⟩
  · intro hs
    simp [Stage.rank] at hs
  cases hn
  intro j hj
  change (e.keyReadSet.entry j).needRelease = false
  rw [hA.counted.cleared j hj]
  have hsize := h.core.sets.readSize
  cases hu : (x.keyReadSet.entry j).isUpdated with
  | false =>
    -- an entry that was only read was accepted by its re-read
    have hmem : j ∈ x.unupdated := by
      simp [ExecutionState.unupdated, hj, hu]
    obtain ⟨l, hl⟩ := List.mem_iff_getElem?.mp hmem
    obtain ⟨c, r, hans, hread, -⟩ := hv.accepted l (List.getElem?_eq_some_iff.mp hl).1
    have hi := h.core.issued_of_answered hans
    refine ⟨_, c, r, hans, hA.moved (by simp) l c hi, ?_⟩
    rw [hread.1]
    exact (hA.counted.reread l c hi).symm.trans hl
  | true =>
    obtain ⟨w, hw, hread⟩ := entries.updated j hj hu
    obtain ⟨l, hl, hlw⟩ := hA.due w hw
    obtain ⟨⟨c, r, hans⟩, hmv⟩ := moved_children (F := commitFamily) h
      (fun l hl => ⟨l, hl, rfl⟩) (fun _ => rfl) hf l hl
    refine ⟨_, c, r, hans, hmv, ?_⟩
    change (e.keyWriteSet.entry (e.args.commitEntry l)).readEntry = some j
    rw [hlw, ← hread]
    exact (congrArg WriteSetEntry.readEntry (h.core.sets.write w) :)

theorem visit_abort (hA : Accounted x .abort gone e) (h : Pipe x gaveUp .abort e)
    (entries : Entries log x.keyReadSet.popIndex x)
    (hn : next .updateTxnStatusToAbort e = .ok (some y, e₁)) :
    Accounted x .delete gone (call y (e₁.setSlot i (some y))) := by
  have ha := next_advanced hn
  have hz := hA.next_other (i := i) h entries (by decide) rfl hn
  have hun := hA.uncommitted (.inr (by decide))
  simp only [TransactionExecution.next, nextImpl] at hn
  split at hn <;> cases hn
  have hcore := h.advanced_core (i := i) ha (by simp [Op.rank, Stage.rank]) (.of_eq rfl rfl rfl)
  apply proceed (moved_next ha rfl (hA.moved (by simp)))
  · exact deleteFamily.calls_call delete_setsOwn _
  · intro l hl
    rcases hl with hl | ⟨j, hl⟩ <;> cases hl
  · refine fun _ => ⟨fun ev hev => hun ev (ha.log ▸ hev), ?_⟩
    rintro z (rfl | ⟨j, rfl⟩) <;> simp [deleteFamily, Op.rank]
  · exact hz.delete hcore (by decide)
  · trivial

theorem visit_delete (hA : Accounted x .delete gone e) (h : Pipe x gaveUp .delete e)
    (entries : Entries log x.keyReadSet.popIndex x)
    (hn : next .postProcessingAfterAbort e = .ok (some y, e₁)) :
    Accounted x .release gone (call y (e₁.setSlot i (some y))) := by
  have ha := next_advanced hn
  have hz := hA.next_other (i := i) h entries (by decide) rfl hn
  have hun := hA.uncommitted (.inr (by decide))
  have hmoved := moved_next (i := i) ha rfl (hA.moved (by simp))
  have hsize := h.core.sets.readSize
  have hans : ∀ l c, Event.issued (.updateReadEntryMaxCommitTs l) c ∈ e.log →
      ∃ r, Event.answered (.updateReadEntryMaxCommitTs l) c r ∈ e.log := by
    intro l c hl
    refine (h.core.answered_or_pending hl).resolve_right fun hp => ?_
    have hr := Stage.rank_of_member (h.stacked.pending_member _ hp).1
    cases hr
  cases hn
  have hcore := h.advanced_core (i := i) ha (by simp [Op.rank, Stage.rank]) (.of_eq rfl rfl rfl)
  apply proceed hmoved
  · exact releaseFamily.calls_call release_setsOwn _
  · intro l hl
    rcases hl with hl | ⟨j, hl⟩ <;> cases hl
  · refine fun _ => ⟨fun ev hev => hun ev (ha.log ▸ hev), ?_⟩
    rintro z (rfl | ⟨j, rfl⟩) <;> simp [releaseFamily, Op.rank]
  · exact hz.release hcore (by decide) (fun l c hl => ⟨hans l c hl, hmoved l c hl⟩)
      (fun ev hev => hun ev hev) rfl
  · exact due_release hsize rfl

theorem visit_release (hA : Accounted x .release gone e) (h : Pipe x gaveUp .release e)
    (entries : Entries log x.keyReadSet.popIndex x)
    (hf : e.isFinished .releaseReadCounter = true)
    (hn : next .releaseReadCounter e = .ok (none, e₁)) :
    Accounted x .aborted gone (e₁.setSlot i none) := by
  have ha := next_advanced hn
  have hz := hA.next_other (i := i) h entries (by decide) rfl hn
  have hun := hA.uncommitted (.inr (by decide))
  refine ⟨hz, fun _ => moved_next ha rfl (hA.moved (by simp)), ?_, ?_⟩
  · exact fun _ ev hev => hun ev (ha.log ▸ hev)
  cases hn
  intro j hj
  change (e.keyReadSet.entry j).needRelease = false
  by_contra hneed
  obtain ⟨l, hl, hlj⟩ := hA.due j hj (by simpa using hneed)
  obtain ⟨⟨c, r, hans⟩, hmv⟩ := moved_children (F := releaseFamily) h
    (fun l hl => ⟨l, hl, rfl⟩) (fun _ => rfl) hf l hl
  exact hneed ((hA.counted.cleared j hj).mpr ⟨_, c, r, hans, hmv, congrArg some hlj⟩)

theorem commit_args {j : ℕ} (hn : next (.postProcessingCommitEntryAfterCommit j) e = .ok (o, e₁)) :
    e₁.args = e.args := by
  simp only [TransactionExecution.next, nextImpl] at hn
  split at hn <;> cases hn
  exact (sameSets_clearReleaseOfWrite _).2.2.2.2.2

theorem release_args {j : ℕ} (hn : next (.releaseReadCounterForEachEntry j) e = .ok (o, e₁)) :
    e₁.args = e.args := by
  simp only [TransactionExecution.next, nextImpl] at hn
  split at hn <;> cases hn
  rfl

theorem abort (hcount : Counted x gone e)
    (hc : ∀ op c (r : Reply V op), Event.answered op c r ∈ e.log → Event.issued op c ∈ e.log)
    (hmoved : ∀ l c, Event.issued (.updateReadEntryMaxCommitTs l) c ∈ e.log →
      (e.flags (.updateReadEntryMaxCommitTs l)).moveToNext = true)
    (hun : ∀ ev ∈ e.log, ev.op.rank ≠ 6) : Accounted x .abort gone e.abort := by
  let z := ({ e with operationVector := [], result := Result.reset none } |>.resetResult
    .updateTxnStatusToAbort |>.push .updateTxnStatusToAbort : TransactionExecution K V S)
  have hz : Counted x gone z := ⟨hcount.gone, hcount.cleared, hcount.reread, hcount.distinct⟩
  have hcalls : Calls (· = .updateTxnStatusToAbort) z e.abort := calls_issueCall _ z
  apply proceed (z := z) hmoved hcalls
  · intro l hl
    cases hl
  · refine fun _ => ⟨hun, ?_⟩
    rintro op rfl
    decide
  · exact hcalls.counted hz hc rfl rfl
  · trivial

theorem visit (hA : Accounted x s gone e) (h : Pipe x gaveUp s e)
    (entries : Entries log x.keyReadSet.popIndex x) (hd : UploadsDiffer e.log) {b : Bool}
    (hv : visit i e = .ok (e', b)) : ∃ s', Pipe x gaveUp s' e' ∧ Accounted x s' gone e' := by
  rcases visit_cases hv with rfl | ⟨op, o, e₁, hi, hf, hn, -, hcase⟩
  · exact ⟨s, h, hA⟩
  have leaves : ∀ {s'}, o = none ∧ Pipe x gaveUp s' (e₁.setSlot i none) →
      (o = none → Accounted x s' gone (e₁.setSlot i none)) →
      ∃ s', Pipe x gaveUp s' e' ∧ Accounted x s' gone e' := by
    rintro s' ⟨rfl, hp⟩ ha
    rcases hcase with ⟨-, rfl⟩ | ⟨y, hy, -⟩
    · exact ⟨s', hp, ha rfl⟩
    · cases hy
  have continues : ∀ {s'}, (∃ y, o = some y ∧ Pipe x gaveUp s' (call y (e₁.setSlot i (some y)))) →
      (∀ y, o = some y → Accounted x s' gone (call y (e₁.setSlot i (some y)))) →
      ∃ s', Pipe x gaveUp s' e' ∧ Accounted x s' gone e' := by
    rintro s' ⟨y, rfl, hp⟩ ha
    rcases hcase with ⟨hy, -⟩ | ⟨z, hz, rfl⟩
    · cases hy
    · obtain rfl := Option.some.inj hz
      exact ⟨s', hp, ha y rfl⟩
  have hheld := h.stacked.occupied.held_of_slot hi
  cases s with
  | upload =>
    rcases hheld with hp | ⟨hm, hmv⟩
    · obtain rfl := Option.some.inj hp
      have ha := hA.visit_upload (i := i) h entries hn
      exact (h.upload_finished hi hf hn).elim (leaves · ha.1) (continues · ha.2)
    · obtain ⟨j, hj, rfl⟩ := id hm
      have hfacts : UploadFacts x e := h.facts
      have hj' : j < x.keyWriteSet.popIndex := by
        rw [← hfacts.size]
        simpa [uploadFamily] using hj
      have hp := h.leave_upload hj' hi hmv hf hn
      exact leaves hp fun ho => hA.leave h entries hm hf (by simp) (by simp) (ho ▸ hn)
  | timestamp =>
    rcases hheld with hp | ⟨rfl, -⟩
    · cases hp
    · have ha := hA.visit_timestamp (i := i) h entries hn
      exact (h.timestamp_finished hi hf hn).elim (leaves · ha.1) (continues · ha.2)
  | validate =>
    rcases hheld with hp | ⟨hm, hmv⟩
    · obtain rfl := Option.some.inj hp
      have ha := hA.visit_validate (i := i) h entries hf hn
      exact (h.validate_finished hi hf hn).elim (leaves · ha.1) (continues · ha.2)
    · obtain ⟨j, hj, rfl⟩ | ⟨j, hj, rfl, hlock⟩ := id hm
      · have ha := hA.visit_reread (i := i) h entries hm hf hn
        exact (h.leave_reread hj hi hmv hf hn).elim (leaves · ha.1) (continues · ha.2)
      · have ha := hA.visit_reread (i := i) h entries hm hf hn
        exact leaves (h.leave_push hj hlock hi hf hn) ha.1
  | log =>
    rcases hheld with hp | ⟨hm, -⟩
    · obtain rfl := Option.some.inj hp
      exact continues (h.log_finished hi hn) fun y ho => hA.visit_log h entries (ho ▸ hn)
    · exact hm.elim
  | status =>
    rcases hheld with hp | ⟨rfl, -⟩
    · cases hp
    · exact continues (h.status_finished hi hf hn) fun y ho =>
        hA.visit_status h entries hd (ho ▸ hn)
  | commit =>
    rcases hheld with hp | ⟨hm, -⟩
    · obtain rfl := Option.some.inj hp
      exact leaves (h.commit_finished hi hf hn) fun ho => hA.visit_commit h entries hf (ho ▸ hn)
    · obtain ⟨j, hj, rfl⟩ := id hm
      refine leaves (h.leave_commit hj hi hf hn) fun ho => ?_
      refine hA.leave h entries hm hf (fun _ => ?_) (by simp) (ho ▸ hn)
      exact commit_args hn
  | committed | failing | aborted =>
    rcases hheld with hp | ⟨hm, -⟩
    · cases hp
    · exact hm.elim
  | abort =>
    rcases hheld with hp | ⟨rfl, -⟩
    · cases hp
    · exact continues (h.abort_finished hi hf hn) fun y ho => hA.visit_abort h entries (ho ▸ hn)
  | delete =>
    rcases hheld with hp | ⟨hm, -⟩
    · obtain rfl := Option.some.inj hp
      exact continues (h.delete_finished hi hf hn) fun y ho => hA.visit_delete h entries (ho ▸ hn)
    · obtain ⟨j, hj, rfl⟩ := id hm
      exact leaves (h.leave_delete hj hi hf hn) fun ho =>
        hA.leave h entries hm hf (by simp) (by simp) (ho ▸ hn)
  | release =>
    rcases hheld with hp | ⟨hm, -⟩
    · obtain rfl := Option.some.inj hp
      exact leaves (h.release_finished hi hf hn) fun ho => hA.visit_release h entries hf (ho ▸ hn)
    · obtain ⟨j, hj, rfl⟩ := id hm
      refine leaves (h.leave_release hj hi hf hn) fun ho => ?_
      refine hA.leave h entries hm hf (fun _ => ?_) (by simp) (ho ▸ hn)
      exact release_args hn

theorem unmoved (h : Pipe x gaveUp s e) {c : HandlerCall K}
    (hp : (op, c) ∈ e.pending) : (e.flags op).moveToNext = false := by
  obtain ⟨hm, hf⟩ := h.stacked.pending_member _ hp
  by_contra hmv
  have := h.stacked.moved_finished op hm (by simpa using hmv)
  rw [hf] at this
  cases this

theorem complete (hA : Accounted x s gone e) (h : Pipe x gaveUp s e) {c : HandlerCall K}
    {r : Reply V op} (hc : Completed op c r e e') :
    Accounted x s (gone ++ (e.released (.complete op r)).toList) e' := by
  have hissued : ∀ ev ∈ e'.log, ∃ c', Event.issued ev.op c' ∈ e.log := by
    intro ev hev
    rw [hc.log] at hev
    rcases List.mem_append.mp hev with hev | hev
    · cases ev with
      | issued op c => exact ⟨c, hev⟩
      | answered op c r => exact ⟨c, h.core.issued_of_answered hev⟩
    · obtain rfl := List.mem_singleton.mp hev
      exact ⟨c, h.core.issued_of_pending hc.mem⟩
  constructor
  · exact hA.counted.complete hc (unmoved h hc.mem)
  · intro hs l c' hl
    obtain ⟨c', hl⟩ := hissued _ hl
    rw [hc.flags]
    exact hA.moved hs l c' hl
  · intro hs ev hev
    obtain ⟨c', hl⟩ := hissued ev hev
    exact (hA.uncommitted hs (.issued ev.op c') hl :)
  · have hdue := hA.due
    cases s with
    | commit =>
      intro w hw
      rw [hc.args]
      exact hdue w hw
    | release =>
      intro j hj
      rw [hc.args, hc.keyReadSet]
      exact hdue j hj
    | committed | aborted =>
      intro j hj
      rw [hc.keyReadSet]
      exact hdue j hj
    | _ => trivial

theorem tidy (hA : Accounted x s gone e) (h : Pipe x gaveUp s e) :
    ∃ s', Pipe x gaveUp s' e.tidy ∧ Accounted x s' gone e.tidy := by
  by_cases hs : s = .failing
  · subst hs
    refine ⟨.abort, h.tidy_failing, ?_⟩
    unfold TransactionExecution.tidy
    rw [if_pos h.facts.1]
    have hun := hA.uncommitted (.inl rfl)
    exact abort ⟨hA.counted.gone, hA.counted.cleared, hA.counted.reread, hA.counted.distinct⟩
      (fun _ _ _ => h.core.issued_of_answered) (hA.moved (by simp)) hun
  · refine ⟨s, h.tidy_other hs, ?_⟩
    unfold TransactionExecution.tidy
    rw [if_neg (h.status_ne_aborting hs)]
    have hdue := hA.due
    refine ⟨⟨hA.counted.gone, hA.counted.cleared, hA.counted.reread, hA.counted.distinct⟩,
      hA.moved, hA.uncommitted, ?_⟩
    cases s <;> exact hdue

theorem step (hA : Accounted x s gone e) (h : Pipe x gaveUp s e)
    (entries : Entries log x.keyReadSet.popIndex x) (hd : UploadsDiffer e.log) {a : Action K V}
    (hs : step e a = some e') : ∃ s', Pipe x gaveUp s' e' ∧
      Accounted x s' (gone ++ (e.released a).toList) e' := by
  cases a with
  | dispatch r =>
    simp only [TransactionExecution.step] at hs
    split at hs
    · next hd => exact absurd (h.not_dispatch hd.1) (by simp [hd.2])
    · cases hs
  | complete op reply =>
    obtain ⟨c, hc⟩ := complete_cases hs
    exact ⟨s, h.complete hc, hA.complete h hc⟩
  | visit i =>
    rw [show (e.released (.visit i : Action K V)).toList = [] from rfl, List.append_nil]
    simp only [TransactionExecution.step] at hs
    cases hv : TransactionExecution.visit i e with
    | error m => rw [hv] at hs; cases hs
    | ok p =>
      rw [hv] at hs
      cases hs
      exact hA.visit h entries hd (b := p.2) hv
  | tidy =>
    rw [show (e.released (.tidy : Action K V)).toList = [] from rfl, List.append_nil]
    simp only [TransactionExecution.step] at hs
    split at hs
    · cases hs
    · cases hs
      exact hA.tidy h

end Accounted

end

section

variable [DecidableEq K] [Services S] {x : ExecutionState K V S} {gone : List ℕ}
variable {e e' : TransactionExecution K V S} {op : Op}

def releases : TransactionExecution K V S → List (Action K V) → List ℕ
  | _, [] => []
  | e, a :: as => (e.released a).toList ++
    match step e a with
    | some e' => releases e' as
    | none => []

def uploadedBy : HandlerCall K → Event K V → Bool
  | .uploadVersion k v, .answered _ (.uploadVersion k' v') r =>
    decide (k' = k) && decide (v'.version = v.version) && !r.isError
  | _, _ => false

/-- The store refuses to upload a version that the transaction has uploaded already. -/
def UploadsOnce (e : TransactionExecution K V S) : Action K V → Prop
  | .complete op reply => ∀ p ∈ e.pending, p.1 = op →
      (∃ ev ∈ e.log, uploadedBy p.2 ev = true) → reply.isError = true
  | _ => True

instance (e : TransactionExecution K V S) : DecidablePred (UploadsOnce e)
  | .complete op reply => inferInstanceAs (Decidable (∀ p ∈ e.pending, p.1 = op →
      (∃ ev ∈ e.log, uploadedBy p.2 ev = true) → reply.isError = true))
  | .dispatch _ | .visit _ | .tidy => .isTrue trivial

theorem UploadsDiffer.step (hd : UploadsDiffer e.log) {a : Action K V} (ha : UploadsOnce e a)
    (hs : step e a = some e') : UploadsDiffer e'.log := by
  obtain ⟨new, hnew, hans⟩ := step_log hs
  cases a with
  | complete op reply =>
    obtain ⟨c, hc⟩ := complete_cases hs
    have hlog : ∀ {op' c'} {r' : Reply V op'}, Event.answered op' c' r' ∈ e'.log →
        Event.answered op' c' r' ∈ e.log ∨ Event.answered op' c' r' = .answered op c reply := by
      intro op' c' r' hr
      rw [hc.log] at hr
      exact (List.mem_append.mp hr).imp_right List.mem_singleton.mp
    -- an answer without an error is not the second one for its version
    have hfresh : ∀ {op' op'' k v v'} {r' : Reply V op'} {r'' : Reply V op''},
        Event.answered op' (.uploadVersion k v') r' ∈ e.log → r'.isError = false →
        Event.answered op'' (.uploadVersion k v) r'' = .answered op c reply →
        r''.isError = false → v'.version = v.version → False := by
      intro op' op'' k v v' r' r'' hr he heq he' hver
      injection heq with h1 h2 h3
      subst h1
      obtain rfl := eq_of_heq h3
      have hmem := hc.mem
      rw [← h2] at hmem
      have hup : uploadedBy (.uploadVersion k v) (Event.answered op' (.uploadVersion k v') r') =
          true := by simp [uploadedBy, hver, he]
      rw [ha _ hmem rfl ⟨_, hr, hup⟩] at he'
      cases he'
    intro op₁ op₂ k v v' r r' hr he hr' he' hver
    rcases hlog hr with hr | hr <;> rcases hlog hr' with hr' | hr'
    · exact hd op₁ op₂ k v v' r r' hr he hr' he' hver
    · exact (hfresh hr he hr' he' hver).elim
    · exact (hfresh hr' he' hr he hver.symm).elim
    · injection hr with h1
      injection hr' with h2
      rw [h1, h2]
  | _ =>
    have hold : ∀ {op c} {r : Reply V op}, Event.answered op c r ∈ e'.log →
        Event.answered op c r ∈ e.log := by
      intro op c r hr
      rw [hnew] at hr
      refine (List.mem_append.mp hr).resolve_right fun hr => ?_
      cases hans op c r hr
    intro op₁ op₂ k v v' r r' hr he hr' he' hver
    exact hd op₁ op₂ k v v' r r' (hold hr) he (hold hr') he' hver

theorem Serving.not_released (h : Serving e) {a : Action K V}
    (hs : TransactionExecution.step e a = some e') :
    e.released a = none := by
  cases a with
  | complete op reply =>
    obtain ⟨n, ho⟩ := h.opened
    obtain ⟨c, hc⟩ := complete_cases hs
    have hi : Event.issued op c ∈ e.log :=
      mem_issuedCalls.mp (ho.handled.mem_iff.mpr (List.mem_append_right _ hc.mem))
    have hrank : op.rank = 0 := ho.ranked _ hi
    rw [Option.eq_none_iff_forall_ne_some]
    intro j hj
    have := rank_of_counterOf (counterOf_of_givesBack hj)
    omega
  | _ => rfl

namespace Settled

omit [DecidableEq K] [Services S]

theorem counted (h : Settled e)
    (howed : ∀ j < e.keyReadSet.popIndex, (e.keyReadSet.entry j).needRelease = true) :
    Counted e.toExecutionState [] e := by
  have hnone : ∀ {op c}, Event.issued op c ∈ e.log → e.counterOf op = none := by
    intro op c hi
    have hrank : op.rank = 0 := h.ranked _ hi
    rw [Option.eq_none_iff_forall_ne_some]
    intro j hj
    have := rank_of_counterOf hj
    omega
  have hans : ∀ {op c} {r : Reply V op}, Event.answered op c r ∈ e.log →
      ∀ j, e.givesBack op r.isError ≠ some j := by
    intro op c r hr j hj
    have hc := hnone ((h.core True).issued_of_answered hr)
    rw [counterOf_of_givesBack hj] at hc
    cases hc
  constructor
  · rw [List.filterMap_eq_nil_iff]
    intro ev hev
    cases ev with
    | issued op c => rfl
    | answered op c r => exact Option.eq_none_iff_forall_ne_some.mpr (hans hev)
  · intro j hj
    rw [howed j hj]
    constructor
    · intro hf
      cases hf
    · rintro ⟨op, c, r, hr, -, hg⟩
      exact absurd hg (hans hr j)
  · intro i c hi
    cases hnone hi
  · intro op op' c c' j hi _ hj
    rw [hnone hi] at hj
    cases hj

end Settled

theorem Settled.account_commit (h : Settled e)
    (howed : ∀ j < e.keyReadSet.popIndex, (e.keyReadSet.entry j).needRelease = true) :
    Accounted e.toExecutionState .upload [] (e.dispatch .commit) := by
  let z := ((({ e with currentRequest := some .commit, requestFinished := false } :
    TransactionExecution K V S).resetResultRecord none).resetUpload).push .upload
  have hc := h.counted howed
  have hz : Counted e.toExecutionState [] z := ⟨hc.gone, hc.cleared, hc.reread, hc.distinct⟩
  have hcore : Core e.toExecutionState False 0 z :=
    (h.core False).advance rfl rfl (.of_eq rfl rfl rfl) fun _ _ _ _ _ => rfl
  have hcalls : Calls _ z (e.dispatch .commit) := uploadFamily.calls_call upload_setsOwn z
  refine ⟨hz.upload hcore, fun _ => hcalls.moved ?_ ?_, ?_, trivial⟩
  · intro l hl
    rcases hl with hl | ⟨j, hl⟩ <;> cases hl
  · intro l c hl
    cases h.ranked _ hl
  · intro hs
    simp [Stage.rank] at hs

theorem Settled.account_abort (h : Settled e)
    (howed : ∀ j < e.keyReadSet.popIndex, (e.keyReadSet.entry j).needRelease = true) :
    Accounted e.toExecutionState .abort [] (e.dispatch .abort) := by
  let z := ({ e with currentRequest := some .abort, requestFinished := false } :
    TransactionExecution K V S)
  have hc := h.counted howed
  have hz : Counted e.toExecutionState [] z := ⟨hc.gone, hc.cleared, hc.reread, hc.distinct⟩
  refine Accounted.abort hz ?_ ?_ ?_
  · exact fun _ _ _ => (h.core True).issued_of_answered
  · intro l c hl
    cases h.ranked _ hl
  · intro ev hev
    rw [h.ranked ev hev]
    decide

inductive Audited (gone : List ℕ) (e : TransactionExecution K V S) : Prop
  | serving (h : Serving e) (none : gone = [])
  | ending (x : ExecutionState K V S) (gaveUp : Prop) (s : Stage)
      (entries : Entries e.log x.keyReadSet.popIndex x) (h : Pipe x gaveUp s e)
      (accounted : Accounted x s gone e)

namespace Audited

theorem dispatch {r : OperationRequest K} (h : Serving e) (hv : e.operationVector = []) :
    Audited [] (e.dispatch r) := by
  obtain ⟨hset, n, hi⟩ := h.settled hv
  obtain ⟨l, hl⟩ := dispatch_log r e
  have hold : Entries e.log e.keyReadSet.popIndex e.toExecutionState := hi.size ▸ hi.opened.entries
  have hent : Entries (e.dispatch r).log e.keyReadSet.popIndex e.toExecutionState := by
    rw [hl]
    exact hold.mono (List.subset_append_left _ _)
  have howed : ∀ j < e.keyReadSet.popIndex, (e.keyReadSet.entry j).needRelease = true :=
    fun j hj => (hold.owed j hj).1
  by_cases hc : r = .commit
  · subst hc
    exact .ending _ False .upload hent hset.dispatch_commit (hset.account_commit howed)
  · by_cases ha : r = .abort
    · subst ha
      exact .ending _ True .abort hent hset.dispatch_abort (hset.account_abort howed)
    · exact .serving (.dispatch hi hc ha) rfl

theorem step (h : Audited gone e) (hd : UploadsDiffer e.log) {a : Action K V}
    (hs : step e a = some e') : Audited (gone ++ (e.released a).toList) e' := by
  cases h with
  | ending x gaveUp s entries h accounted =>
    obtain ⟨s', hp, ha⟩ := accounted.step h entries hd hs
    exact .ending x gaveUp s' (entries.mono (step_subset hs)) hp ha
  | serving h hg =>
    have hnone : gone ++ (e.released a).toList = [] := by
      rw [hg, h.not_released hs]
      rfl
    rw [hnone]
    cases a with
    | dispatch r =>
      simp only [TransactionExecution.step] at hs
      split at hs
      · next hv =>
        cases hs
        exact dispatch h hv.1
      · cases hs
    | _ => exact .serving (h.step (fun r => by simp) hs) rfl

theorem run {as : List (Action K V)} (h : Audited gone e) (hd : UploadsDiffer e.log)
    (hok : Along TransactionExecution.step UploadsOnce e as)
    (hr : Fugue.run TransactionExecution.step e as = some e') :
    Audited (gone ++ releases e as) e' := by
  induction as generalizing gone e with
  | nil =>
    obtain rfl := Option.some.inj hr
    rw [releases, List.append_nil]
    exact h
  | cons a as ih =>
    obtain ⟨t, ht, hr⟩ := run_cons.mp hr
    have hnext := ih (h.step hd ht) (hd.step hok.1 ht) (hok.2 t ht) hr
    rw [releases, ht, ← List.append_assoc]
    exact hnext

end Audited

def answeredOp : Event K V → Option Op
  | .issued .. => none
  | .answered op _ _ => if 0 < op.rank then some op else none

omit [DecidableEq K] [Services S] in
theorem Core.answered_once {gaveUp : Prop} {n : ℕ} (h : Core x gaveUp n e) :
    (e.log.filterMap answeredOp).Nodup := by
  have heq : e.log.filterMap answeredOp =
      ((answeredCalls e.log).map Prod.fst).filter fun op => decide (0 < op.rank) := by
    rw [answeredCalls, List.map_filterMap, List.filter_filterMap]
    congr 1
    funext ev
    cases ev with
    | issued op c => rfl
    | answered op c r =>
      by_cases hop : 0 < op.rank <;> simp [answeredOp, hop, Option.filter]
  have hperm := (h.handled.map Prod.fst).filter fun op => decide (0 < op.rank)
  have honce := hperm.nodup_iff.mp (show List.Nodup _ from h.once)
  rw [List.map_append, List.filter_append] at honce
  rw [heq]
  exact honce.of_append_left

omit [DecidableEq K] [Services S] in
theorem Counted.nodup {gaveUp : Prop} {n : ℕ} (h : Counted x gone e) (hc : Core x gaveUp n e) :
    gone.Nodup := by
  have honce := List.pairwise_filterMap.mp hc.answered_once
  rw [← h.gone]
  apply List.pairwise_filterMap.mpr
  apply List.pairwise_iff_forall_sublist.mpr
  intro ev ev' hsub
  have hpair := List.pairwise_iff_forall_sublist.mp honce hsub
  have hev : ev ∈ e.log := hsub.subset (by simp)
  have hev' : ev' ∈ e.log := hsub.subset (by simp)
  rintro j hj j' hj' rfl
  cases ev with
  | issued op c => cases hj
  | answered op c r =>
    cases ev' with
    | issued op' c' => cases hj'
    | answered op' c' r' =>
      have hr := rank_of_counterOf (counterOf_of_givesBack hj)
      have hr' := rank_of_counterOf (counterOf_of_givesBack hj')
      have hne : op ≠ op' := hpair op (if_pos (by omega)) op' (if_pos (by omega))
      have hfail : ∀ {op : Op} {c : HandlerCall K} {r : Reply V op},
          Event.answered op c r ∈ e.log → e.givesBack op r.isError = some j →
          ¬ RereadFailed e.log op := by
        rintro _ c r hr hg ⟨i, c', r', rfl, hr', he⟩
        have hsame := (hc.reply_unique (by simp [Op.rank]) hr hr').2
        rw [hsame, he] at hg
        cases hg
      rcases h.distinct op op' c c' j (hc.issued_of_answered hev) (hc.issued_of_answered hev')
        (counterOf_of_givesBack hj) (counterOf_of_givesBack hj') with hop | hop | hop
      · exact hne hop
      · exact hfail hev hj hop
      · exact hfail hev' hj' hop

/-- Every read counter is given back exactly once by the time the transaction is finished, however
it ended. -/
theorem counters_released {as : List (Action K V)} (hv : e.operationVector = [])
    (hp : e.pending = []) (hok : Along step UploadsOnce e.reset as)
    (hr : run step e.reset as = some e') (hf : e'.isTransactionFinished = true) :
    ∀ j < e'.keyReadSet.popIndex, (releases e.reset as).count j = 1 ∧
      (e'.keyReadSet.entry j).needRelease = false := by
  have hstart : Audited [] e.reset := .serving (.reset hv hp) rfl
  have hdiffer : UploadsDiffer e.reset.log := by
    intro op op' k v v' r r' hans
    cases hans
  cases hstart.run hdiffer hok hr with
  | serving h _ => exact absurd (h.unfinished.symm.trans hf) (by simp)
  | ending x gaveUp s entries h accounted =>
    rw [List.nil_append] at accounted
    intro j hj
    have hj' : j < x.keyReadSet.popIndex := h.core.sets.readSize ▸ hj
    have hclear : (e'.keyReadSet.entry j).needRelease = false := by
      have hdue := accounted.due
      rcases h.finished.mp hf with rfl | rfl
      · exact hdue j hj'
      · exact hdue j hj'
    refine ⟨?_, hclear⟩
    obtain ⟨op, c, r, hans, -, hg⟩ := (accounted.counted.cleared j hj').mp hclear
    apply List.count_eq_one_of_mem (accounted.counted.nodup h.core)
    rw [← accounted.counted.gone]
    exact List.mem_filterMap.mpr ⟨_, hans, hg⟩

end

def halfValidated : List (Action ℕ ℕ) :=
  [.dispatch .begin, sampleAnswer .initTxn, .visit 0, .tidy,
    .dispatch (.read ⟨"t", 1⟩ none), sampleAnswer .readOutside, .visit 0, .tidy,
    .dispatch (.read ⟨"t", 2⟩ none), sampleAnswer .readOutside, .visit 0, .tidy,
    .dispatch (.upsert ⟨"t", 3⟩ (some 7)), sampleAnswer .readOutside, .visit 1, .visit 0, .tidy,
    .dispatch .commit, sampleAnswer (.uploadVersionEntry 0), .visit 1, .visit 0,
    sampleAnswer .setCommitTs, .visit 0, sampleAnswer (.updateReadEntryMaxCommitTs 0),
    .complete (.updateReadEntryMaxCommitTs 1) ⟨true, .blank none, []⟩, .visit 3, .visit 2,
    .visit 0, .tidy, sampleAnswer .updateTxnStatusToAbort, .visit 0,
    sampleAnswer (.postProcessingDeleteEntryAfterAbort 0), .visit 1, .visit 0,
    sampleAnswer (.releaseReadCounterForEachEntry 0),
    sampleAnswer (.releaseReadCounterForEachEntry 1), .visit 3, .visit 2, .visit 0, .tidy]

theorem counters_released_sample : ∃ e, run step sampleExecution.reset halfValidated = some e ∧
    e.status = .aborted ∧ e.keyReadSet.popIndex = 3 ∧
    ∀ j < 3, (releases sampleExecution.reset halfValidated).count j = 1 := by
  have h : (run step sampleExecution.reset halfValidated).map (fun e =>
      (e.isTransactionFinished, e.status, e.keyReadSet.popIndex)) =
        some (true, .aborted, 3) := by decide +kernel
  have hok : Along step UploadsOnce sampleExecution.reset halfValidated := by decide +kernel
  obtain ⟨e, hr, he⟩ := Option.map_eq_some_iff.mp h
  obtain ⟨hfin, he⟩ := Prod.mk.inj he
  obtain ⟨hst, hsize⟩ := Prod.mk.inj he
  have hrel := counters_released rfl rfl hok hr hfin
  exact ⟨e, hr, hst, hsize, fun j hj => (hrel j (hsize ▸ hj)).1⟩

end TransactionExecution

end Fugue
