import Fugue.LiveState
import Fugue.RequestPhase

namespace Fugue

open ExecutionState

namespace TransactionExecution

variable {K V S : Type} [DecidableEq K]

namespace Agree

variable {m : Prop} {b b' : List (Event K V)} {s : Live}
variable {e e' z : TransactionExecution K V S} {op : Op}

theorem updateCallImpl (h : Agree m b b' s e e') (hop : .update ∈ s.reset)
    (hc : e.currentRequest ≠ none) (hs : Set.Iio e.keyReadSet.popIndex ⊆ s.reads) :
    ∃ t, s.Le t ∧ Agree m b b' t e.updateCallImpl e'.updateCallImpl := by
  obtain ⟨hkey, hrec⟩ := h.args .update hop
  have hfind : e'.findInReadSet e'.args.writeKey = e.findInReadSet e.args.writeKey := by
    rw [hkey]
    exact h.data.findInReadSet hs _
  unfold TransactionExecution.updateCallImpl
  rw [hfind]
  cases hi : e.findInReadSet e.args.writeKey with
  | none => exact ⟨s, .refl s, h.notify hc fun r => { r with isError := true }⟩
  | some i =>
    have hi : i ∈ s.reads := hs (Pool.find_eq_some hi).1
    simp only [(h.data.read hi).1, hrec]
    split
    · exact ⟨s, .refl s, h.notify hc fun r => { r with isError := true }⟩
    · obtain ⟨t, ht, -, -, -, hw⟩ := h.write hi hc hkey false e.args.writeRecord
      exact ⟨t, ht, hw⟩

theorem deleteCallImpl (h : Agree m b b' s e e') (hop : .delete ∈ s.reset)
    (hc : e.currentRequest ≠ none) (hs : Set.Iio e.keyReadSet.popIndex ⊆ s.reads) :
    ∃ t, s.Le t ∧ Agree m b b' t e.deleteCallImpl e'.deleteCallImpl := by
  obtain ⟨hkey, -⟩ := h.args .delete hop
  have herr : Agree m b b' s e.setResultError e'.setResultError :=
    h.notify hc fun r => { r with isError := true }
  have hread : e'.findInReadSet e'.args.writeKey = e.findInReadSet e.args.writeKey := by
    rw [hkey]
    exact h.data.findInReadSet hs _
  have hwrite : e'.findInWriteSet e'.args.writeKey = e.findInWriteSet e.args.writeKey := by
    rw [hkey]
    exact h.data.findInWriteSet _
  unfold TransactionExecution.deleteCallImpl
  rw [hread, hwrite]
  cases hw : e.findInWriteSet e.args.writeKey with
  | some i =>
    have hi : i ∈ s.writes := h.data.written (Pool.find_eq_some hw).1
    simp only [(h.data.write hi).1]
    split
    · exact ⟨s, .refl s, herr⟩
    · have hd : Agree m b b' s { e with keyWriteSet := e.keyWriteSet.setDeleted i }
          { e' with keyWriteSet := e'.keyWriteSet.setDeleted i } :=
        h.modifyWrite i _ fun _ => rfl
      exact ⟨s, .refl s, hd.notify hc id⟩
  | none =>
    cases hr : e.findInReadSet e.args.writeKey with
    | none => exact ⟨s, .refl s, herr⟩
    | some i =>
      have hi : i ∈ s.reads := hs (Pool.find_eq_some hr).1
      simp only [(h.data.read hi).1]
      split
      · exact ⟨s, .refl s, herr⟩
      · obtain ⟨t, ht, -, -, -, hw⟩ := h.write hi hc hkey true none
        exact ⟨t, ht, hw⟩

variable [Services S]

omit [Services S] in
theorem proposedCommitTs (h : Agree m b b' s e e')
    (hs : Set.Iio e.keyReadSet.popIndex ⊆ s.reads) :
    e'.proposedCommitTs = e.proposedCommitTs := by
  unfold TransactionExecution.proposedCommitTs
  rw [h.data.keyReadSet.popIndex, h.data.maxCommitTimestampOfWriters, h.data.commitTimestampLocal]
  apply List.foldl_ext
  intro ts i hi
  obtain ⟨hent, hkey⟩ := h.data.read (hs (List.mem_range.mp hi))
  have hfind : e'.findInWriteSet = e.findInWriteSet := funext h.data.findInWriteSet
  rw [hent, hkey, hfind]

omit [DecidableEq K] in
theorem resetTime (h : Agree m b b' s e e') : Agree m b b' s e.resetTime e'.resetTime := by
  apply h.sameData
  refine { h.data with services := ?_, txnEntry := ?_, commitTimestampLocal := ?_ } <;>
    simp only [h.data.services, h.data.txnEntry]

omit [DecidableEq K] in
theorem setCommitTs (h : Agree m b b' s e e') (candidate : ℤ) :
    Agree m b b' s (e.setCommitTs candidate) (e'.setCommitTs candidate) := by
  apply h.sameData
  refine { h.data with services := ?_, commitTimestamp := rfl }
  simp only [h.data.services]

theorem callLeaf (h : Agree m b b' s e e') (hop : op ∈ s.reset) (hc : e.currentRequest ≠ none)
    (hs : op = .setCommitTs ∨ op = .update ∨ op = .delete →
      Set.Iio e.keyReadSet.popIndex ⊆ s.reads) :
    ∃ t, s.Le t ∧ op ∈ t.called ∧ Agree m b b' t (callLeaf op e) (callLeaf op e') := by
  have hm := h.setMoveToNext op
  have ht : s.Le (s.addCalled op) := s.le_addCalled _
  have hmem : op ∈ insert op s.called := Set.mem_insert _ _
  cases op with
  | setCommitTs =>
    refine ⟨_, ht, hmem, ?_⟩
    have hz := hm.resetTime
    have hp := hz.proposedCommitTs (hs (.inl rfl))
    have hset := hz.setCommitTs
      ((e.setMoveToNext .setCommitTs false).resetTime.proposedCommitTs)
    simp only [TransactionExecution.callLeaf, setCommitTsCallImpl, hp]
    exact hset.issueCall hop
  | writeToLog =>
    simp only [TransactionExecution.callLeaf, writeToLogCallImpl, hm.data.keyWriteSet.popIndex]
    split
    · refine ⟨_, ht.trans (Live.le_addReset _ .writeToLog), hmem, ?_⟩
      apply hm.setHandlerResult
      · simp [TransactionExecution.setHandlerResult, leafIsFinished]
      · intro hw
        cases hw
      · trivial
    · refine ⟨_, ht, hmem, ?_⟩
      rw [hm.data.txnEntry, hm.data.commitTimestamp]
      apply issue
      exact hm.sameData { hm.data with txnEntry := rfl, commitTimestamp := rfl }
  | update =>
    obtain ⟨t, hle, hu⟩ := hm.updateCallImpl hop hc (hs (.inr (.inl rfl)))
    exact ⟨t, ht.trans hle, hle.called hmem, hu⟩
  | delete =>
    obtain ⟨t, hle, hu⟩ := hm.deleteCallImpl hop hc (hs (.inr (.inr rfl)))
    exact ⟨t, ht.trans hle, hle.called hmem, hu⟩
  | _ => exact ⟨_, ht, hmem, hm.issueCall hop⟩

structure Calls (op : Op) (s t : Live) (z : TransactionExecution K V S) : Prop where
  le : s.Le t
  called : op ∈ t.called
  children : ∀ ops, z.children op = some ops → ∀ y ∈ ops, y ∈ t.called ∧ y ∈ t.reset

theorem invokeAll (F : Family K V S) (h : Agree m b b' s e e') {l : List ℕ}
    (hr : ∀ t (z z' : TransactionExecution K V S) i, s.Le t → ∀ j ∈ l, Agree m b b' t z z' →
      Agree m b b' (t.addReset (F.child i)) (F.reset z i j) (F.reset z' i j)) :
    ∃ t, s.Le t ∧ (∀ i < l.length, F.child i ∈ t.called ∧ F.child i ∈ t.reset) ∧
      Agree m b b' t (e.invokeAll F.reset F.child l) (e'.invokeAll F.reset F.child l) := by
  induction l using List.reverseRecOn with
  | nil => exact ⟨s, .refl s, by simp, h⟩
  | append_singleton l j ih =>
    obtain ⟨t, ht, hmem, ha⟩ := ih fun t z z' i ht j' hj' =>
      hr t z z' i ht j' (List.mem_append_left _ hj')
    have hres := hr t _ _ l.length ht j (by simp) ha
    have hcall := (hres.push (F.child l.length)).setMoveToNext (F.child l.length)
    have hiss := hcall.issueCall (Set.mem_insert _ _)
    rw [← F.call_child, ← F.call_child] at hiss
    have hle : t.Le ((t.addReset (F.child l.length)).addCalled (F.child l.length)) :=
      (t.le_addReset _).trans (Live.le_addCalled _ _)
    refine ⟨_, ht.trans hle, ?_, ?_⟩
    · intro i hi
      rw [List.length_append, List.length_singleton] at hi
      rcases Nat.lt_succ_iff_lt_or_eq.mp hi with hi | rfl
      · exact ⟨hle.called (hmem i hi).1, hle.reset (hmem i hi).2⟩
      · exact ⟨Set.mem_insert _ _, Set.mem_insert _ _⟩
    · simpa [TransactionExecution.invokeAll, invoke, List.zipIdx_append] using hiss

theorem call_family (F : Family K V S) (h : Agree m b b' s e e')
    (hidx : F.index e'.args = F.index e.args)
    (hr : ∀ t (z z' : TransactionExecution K V S) i, s.Le t → ∀ j ∈ F.index e.args,
      Agree m b b' t z z' →
      Agree m b b' (t.addReset (F.child i)) (F.reset z i j) (F.reset z' i j)) :
    ∃ t, Calls F.parent s t (TransactionExecution.call F.parent e) ∧
      Agree m b b' t (TransactionExecution.call F.parent e)
        (TransactionExecution.call F.parent e') := by
  have hle := s.le_addCalled F.parent
  obtain ⟨t, ht, hmem, ha⟩ := (h.setMoveToNext F.parent).invokeAll F (l := F.index e.args)
    fun t z z' i ht => hr t z z' i (hle.trans ht)
  have hinv := invokeAll_invoked F (F.index e.args) (e.setMoveToNext F.parent false)
  rw [F.call_parent, F.call_parent, hidx]
  refine ⟨t, ⟨hle.trans ht, ht.called (Set.mem_insert _ _), ?_⟩, ha⟩
  intro ops hops y hy
  rw [F.children_parent, hinv.index] at hops
  obtain rfl := Option.some.inj hops
  obtain ⟨i, hi, rfl⟩ := List.mem_map.mp hy
  exact hmem i (List.mem_range.mp hi)

theorem call_read (h : Agree m b b' s e e') (hop : op ∈ s.reset)
    (ho : op = .insert ∨ op = .upsert) :
    ∃ t, Calls op s t (TransactionExecution.call op e) ∧
      Agree m b b' t (TransactionExecution.call op e) (TransactionExecution.call op e') := by
  have hkey : e'.args.writeKey = e.args.writeKey := by
    have ha := h.args op hop
    rcases ho with rfl | rfl <;> exact ha.1
  have hres := (h.setMoveToNext op).resetReadOutside e.args.writeKey
  have hcall := (hres.push .readOutside).setMoveToNext .readOutside
  have hiss := hcall.issueCall (Set.mem_insert _ _)
  have hle := (s.le_addCalled op).trans (((s.addCalled op).le_addReset .readOutside).trans
    (Live.le_addCalled _ .readOutside))
  have hchildren : ∀ z : TransactionExecution K V S, z.children op = some [.readOutside] := by
    rcases ho with rfl | rfl <;> exact fun _ => rfl
  refine ⟨_, ⟨hle, ?_, ?_⟩, ?_⟩
  · exact .inr (Set.mem_insert _ _)
  · intro ops hops y hy
    rw [hchildren] at hops
    obtain rfl := Option.some.inj hops
    obtain rfl := List.mem_singleton.mp hy
    exact ⟨Set.mem_insert _ _, Set.mem_insert _ _⟩
  · rcases ho with rfl | rfl <;> simp only [TransactionExecution.call, hkey] <;> exact hiss

theorem call (h : Agree m b b' s e e') (hop : op ∈ s.reset) (hc : e.currentRequest ≠ none)
    (hs : op = .setCommitTs ∨ op = .update ∨ op = .delete →
      Set.Iio e.keyReadSet.popIndex ⊆ s.reads) :
    ∃ t, Calls op s t (TransactionExecution.call op e) ∧
      Agree m b b' t (TransactionExecution.call op e) (TransactionExecution.call op e') := by
  have ha := h.args op hop
  have hleaf : (∀ z : TransactionExecution K V S, TransactionExecution.call op z =
        TransactionExecution.callLeaf op z ∧ z.children op = none) →
      ∃ t, Calls op s t (TransactionExecution.call op e) ∧
        Agree m b b' t (TransactionExecution.call op e) (TransactionExecution.call op e') := by
    intro hleaf
    obtain ⟨t, hle, hmem, hl⟩ := h.callLeaf hop hc hs
    rw [(hleaf e).1, (hleaf e').1]
    refine ⟨t, ⟨hle, hmem, fun ops hops => ?_⟩, hl⟩
    rw [(hleaf _).2] at hops
    cases hops
  cases op with
  | upload =>
    refine h.call_family uploadFamily (congrArg List.range ha.1) ?_
    exact fun t z z' i ht j hj hz => hz.resetUploadVersionEntry i (ht.writes (ha.2 j hj))
  | validate =>
    refine h.call_family validateFamily ha.1 ?_
    exact fun t z z' i ht j hj hz => hz.resetUpdateReadEntryMaxCommitTs i (ht.reads (ha.2 j hj))
  | postProcessingAfterCommit =>
    refine h.call_family commitFamily ha.1 ?_
    exact fun t z z' i ht j hj hz => hz.resetPostProcessingCommitEntry i (ht.writes (ha.2 j hj))
  | postProcessingAfterAbort =>
    refine h.call_family deleteFamily ha.1 ?_
    exact fun t z z' i ht j hj hz => hz.resetPostProcessingDeleteEntry i (ht.writes (ha.2 j hj))
  | releaseReadCounter =>
    refine h.call_family releaseFamily ha.1 ?_
    exact fun t z z' i ht j hj hz =>
      hz.resetReleaseReadCounterForEachEntry i (ht.reads (ha.2 j hj))
  | insert => exact h.call_read hop (.inl rfl)
  | upsert => exact h.call_read hop (.inr rfl)
  | _ => exact hleaf fun _ => ⟨rfl, rfl⟩

section

variable (m : Prop) (b b' : List (Event K V))

def Follows (op : Op) (s : Live) (e' : TransactionExecution K V S) (o : Option Op)
    (z : TransactionExecution K V S) : Prop :=
  ∃ z' t, nextImpl op e' = .ok (o, z') ∧ s.Le t ∧ (∀ y, o = some y → y ∈ t.reset) ∧
    Agree m b b' t z z'

end

variable {t : Live} {z' : TransactionExecution K V S} {y : Op} {o : Option Op}

theorem leave (h : Agree m b b' t z z') (hop : op ∈ s.called) (ht : s.Le t)
    (hn : nextImpl op e' = .ok (noNext op z')) :
    Follows m b b' op s e' none (z.setHasNext op false) :=
  ⟨_, t, hn, ht, (fun _ hy => by cases hy), h.setHasNext (ht.called hop) false⟩

theorem leave_status (h : Agree m b b' s z z') (hop : op ∈ s.called) (st : TxnStatus)
    (hn : nextImpl op e' = .ok (noNext op { z' with status := st })) :
    Follows m b b' op s e' none
      (TransactionExecution.setHasNext { z with status := st } op false) := by
  have hs : Agree m b b' s { z with status := st } { z' with status := st } :=
    h.sameData { h.data with status := rfl }
  exact hs.leave hop (.refl s) hn

theorem leave_prepareAbort (h : Agree m b b' s z z') (hop : op ∈ s.called)
    (hn : nextImpl op e' = .ok (prepareAbort op z')) :
    Follows m b b' op s e' none (prepareAbort op z).2 :=
  h.leave_status hop .waitForAborting hn

theorem enter (h : Agree m b b' t z z') (ht : s.Le t) (hy : y ∈ t.reset)
    (hn : nextImpl op e' = .ok (some y, z')) : Follows m b b' op s e' (some y) z := by
  refine ⟨z', t, hn, ht, fun w hw => ?_, h⟩
  obtain rfl := Option.some.inj hw
  exact hy

omit [DecidableEq K] [Services S] in
theorem internalRead (h : Agree m b b' s e e') (hop : .readOutside ∈ s.reset)
    (hres : e'.handlerResult .readOutside = e.handlerResult .readOutside)
    (hc : e.currentRequest ≠ none)
    (hi : e.args.readOutsideEntry ∈ s.reads ∨ e.args.readOutsideEntry < e.keyReadSet.popIndex)
    (hn : e.internalRead = .ok z) :
    ∃ z', e'.internalRead = .ok z' ∧ Agree m b b' (s.addRead e.args.readOutsideEntry) z z' ∧
      z.keyReadSet.popIndex = e.keyReadSet.popIndex := by
  obtain ⟨hkey, hent⟩ := h.args .readOutside hop
  have hfill := fun entry => h.fillReadSet hi e.args.readOutsideKey entry
  unfold TransactionExecution.internalRead at hn ⊢
  rw [hres, hkey, hent]
  split at hn
  · cases hn
  · next v hv =>
    cases hn
    refine ⟨_, rfl, ?_⟩
    split
    · exact ⟨(hfill _).notify hc fun r => { r with isDeleted := true }, rfl⟩
    · refine ⟨(hfill _).setResultRecord hc _, ?_⟩
      rw [(setResultRecord_frame v.readRecord).2.2.2.2.1]
      rfl
  · cases hn
    exact ⟨_, rfl, (hfill _).notify hc fun r => { r with isNull := true }, rfl⟩

theorem next_readOutside (h : Agree m b b' s e e') (hop : .readOutside ∈ s.reset)
    (hcall : .readOutside ∈ s.called) (hf : e.leafIsFinished .readOutside = true)
    (hc : e.currentRequest ≠ none)
    (hi : e.args.readOutsideEntry ∈ s.reads ∨ e.args.readOutsideEntry < e.keyReadSet.popIndex)
    (hn : nextImpl .readOutside e = .ok (o, z)) :
    ∃ z' t, nextImpl .readOutside e' = .ok (o, z') ∧ s.Le t ∧ Agree m b b' t z z' ∧ o = none ∧
      (z.keyReadSet.popIndex = e.keyReadSet.popIndex - 1 ∨
        z.keyReadSet.popIndex = e.keyReadSet.popIndex ∧ e.args.readOutsideEntry ∈ t.reads) := by
  have hres := h.handlerResult .readOutside hop rfl hf
  simp only [nextImpl] at hn ⊢
  rw [hres]
  split at hn
  · next he =>
    cases hn
    rw [if_pos he]
    have hr : Agree m b b' s e.releaseReadSet e'.releaseReadSet :=
      h.sameData { h.data with keyReadSet := h.data.keyReadSet.release }
    have herr := hr.notify hc fun r => { r with isError := true }
    exact ⟨_, s, rfl, .refl s, herr.setHasNext hcall false, rfl, .inl rfl⟩
  · next he =>
    rw [if_neg he]
    cases hr : e.internalRead with
    | error msg =>
      rw [hr] at hn
      cases hn
    | ok w =>
      rw [hr] at hn
      cases hn
      obtain ⟨w', hw', ha, hsize⟩ := h.internalRead hop hres hc hi hr
      rw [hw']
      refine ⟨_, _, rfl, s.le_addRead _, ha.setHasNext hcall false, rfl, .inr ⟨hsize, ?_⟩⟩
      exact Set.mem_insert _ _

theorem write_found (h : Agree m b b' s e e') (hop : op ∈ s.reset) (hcall : op ∈ s.called)
    (ho : op = .insert ∨ op = .upsert) (hc : e.currentRequest ≠ none)
    (hs : Set.Iio e.keyReadSet.popIndex ⊆ s.reads) (hn : nextImpl op e = .ok (o, z)) :
    Follows m b b' op s e' o z := by
  obtain ⟨hkey, hrec⟩ : e'.args.writeKey = e.args.writeKey ∧
      e'.args.writeRecord = e.args.writeRecord := by
    have ha := h.args op hop
    rcases ho with rfl | rfl <;> exact ha
  have herr : Agree m b b' s e.setResultError e'.setResultError :=
    h.notify hc fun r => { r with isError := true }
  have hfind : e'.findInReadSet e'.args.writeKey = e.findInReadSet e.args.writeKey := by
    rw [hkey]
    exact h.data.findInReadSet hs _
  cases hr : e.findInReadSet e.args.writeKey with
  | none =>
    rcases ho with rfl | rfl
    · simp only [nextImpl, insertNext, hr] at hn
      cases hn
      apply herr.leave hcall (.refl s)
      simp only [nextImpl, insertNext, hfind, hr]
    · simp only [nextImpl, upsertNext, hr] at hn
      cases hn
      apply h.leave hcall (.refl s)
      simp only [nextImpl, upsertNext, hfind, hr]
  | some i =>
    have hi : i ∈ s.reads := hs (Pool.find_eq_some hr).1
    have hent := (h.data.read hi).1
    obtain ⟨t, ht, -, -, -, hw⟩ := h.write hi hc hkey false e.args.writeRecord
    rcases ho with rfl | rfl
    · simp only [nextImpl, insertNext, hr] at hn
      cases hn
      split
      · next hd =>
        apply hw.leave hcall ht
        simp only [nextImpl, insertNext, hfind, hr, hent, hrec, hd, if_true]
      · next hd =>
        apply herr.leave hcall (.refl s)
        simp only [nextImpl, insertNext, hfind, hr, hent, if_neg hd]
    · simp only [nextImpl, upsertNext, hr] at hn
      cases hn
      apply hw.leave hcall ht
      simp only [nextImpl, upsertNext, hfind, hr, hrec]

theorem next_reread (h : Agree m b b' s e e') {i : ℕ}
    (hop : .updateReadEntryMaxCommitTs i ∈ s.reset) (hcall : .updateReadEntryMaxCommitTs i ∈ s.called)
    (hf : e.leafIsFinished (.updateReadEntryMaxCommitTs i) = true)
    (hn : nextImpl (.updateReadEntryMaxCommitTs i) e = .ok (o, z)) :
    Follows m b b' (.updateReadEntryMaxCommitTs i) s e' o z := by
  have hres := h.handlerResult _ hop rfl hf
  have hclear := h.clearRelease (e.args.rereadEntry i)
  have hts : (e'.clearRelease (e.args.rereadEntry i)).commitTimestamp =
      (e.clearRelease (e.args.rereadEntry i)).commitTimestamp := h.data.commitTimestamp
  have hent := (h.args _ hop).1
  simp only [nextImpl, updateReadEntryMaxCommitTsNext] at hn
  split at hn
  · next he =>
    cases hn
    apply h.leave_prepareAbort hcall
    simp only [nextImpl, updateReadEntryMaxCommitTsNext, hres, if_pos he]
  next he =>
  split at hn
  · next hv =>
    cases hn
    apply hclear.leave_prepareAbort hcall
    simp only [nextImpl, updateReadEntryMaxCommitTsNext, hres, hent, if_neg he, if_pos hv]
  next hv =>
  split at hn
  · cases hn
  next hmax =>
  split at hn
  · next hend =>
    cases hn
    apply hclear.leave_prepareAbort hcall
    simp only [nextImpl, updateReadEntryMaxCommitTsNext, hres, hent, hts, if_neg he, if_neg hv,
      if_neg hmax, if_pos hend]
  next hend =>
  split at hn
  · next hid =>
    cases hn
    apply (hclear.resetPushConflict i _).enter (s.le_addReset _) (Set.mem_insert _ _)
    simp only [nextImpl, updateReadEntryMaxCommitTsNext, hres, hent, hts, if_neg he, if_neg hv,
      if_neg hmax, if_neg hend, if_pos hid]
  · next hid =>
    cases hn
    apply hclear.leave hcall (.refl s)
    simp only [nextImpl, updateReadEntryMaxCommitTsNext, hres, hent, hts, if_neg he, if_neg hv,
      if_neg hmax, if_neg hend, if_neg hid]

theorem nextImpl (h : Agree m b b' s e e') (hop : op ∈ s.reset) (hcall : op ∈ s.called)
    (hf : op.waits = true → e.leafIsFinished op = true) (hc : e.currentRequest ≠ none)
    (hne : op ≠ .readOutside) (hs : Set.Iio e.keyReadSet.popIndex ⊆ s.reads)
    (hn : nextImpl op e = .ok (o, z)) : Follows m b b' op s e' o z := by
  have hres : op.waits = true → e'.handlerResult op = e.handlerResult op :=
    fun hw => h.handlerResult op hop hw (hf hw)
  have ha := h.args op hop
  cases op with
  | readOutside => exact absurd rfl hne
  | upload =>
    simp only [TransactionExecution.nextImpl] at hn
    split at hn
    · next hw =>
      cases hn
      exact h.leave_status hcall _ (if_pos (h.data.status.trans hw))
    · next hw =>
      cases hn
      have hr := h.resetResult (show Op.waits .setCommitTs = true from rfl) (by simp) trivial
      exact hr.enter (s.le_addReset _) (Set.mem_insert _ _) (if_neg (h.data.status ▸ hw))
  | uploadVersionEntry i =>
    have hres := hres rfl
    simp only [TransactionExecution.nextImpl, uploadVersionEntryNext] at hn
    split at hn
    · next he =>
      cases hn
      apply h.leave_prepareAbort hcall
      simp only [TransactionExecution.nextImpl, uploadVersionEntryNext, hres, if_pos he]
    · next he =>
      cases hn
      have hpost : Agree m b b' s
          { e with keyWriteSet := e.keyWriteSet.setPostProcessing (e.args.uploadEntry i) }
          { e' with keyWriteSet := e'.keyWriteSet.setPostProcessing (e.args.uploadEntry i) } :=
        h.modifyWrite _ _ fun _ => rfl
      have hset := hpost.setMaxCommitTsOfWriters (e.handlerResult (.uploadVersionEntry i)).result
      apply hset.leave hcall (.refl s)
      simp only [TransactionExecution.nextImpl, uploadVersionEntryNext, hres, if_neg he, ha.1]
  | setCommitTs =>
    have hres := hres rfl
    simp only [TransactionExecution.nextImpl] at hn
    split at hn
    · next he =>
      cases hn
      apply h.leave_status hcall
      simp only [TransactionExecution.nextImpl, hres, if_pos he]
      rfl
    · next he =>
      cases hn
      apply ((h.setCommitTs _).resetValidate hs).enter (s.le_addReset _) (Set.mem_insert _ _)
      simp only [TransactionExecution.nextImpl, hres, if_neg he]
  | validate =>
    simp only [TransactionExecution.nextImpl] at hn
    split at hn
    · next hw =>
      cases hn
      exact h.leave_status hcall _ (if_pos (h.data.status.trans hw))
    · next hw =>
      cases hn
      have hlog : Agree m b b' (s.addReset .writeToLog)
          (e.setHandlerResult .writeToLog { e.handlerResult .writeToLog with isFinished := false })
          (e'.setHandlerResult .writeToLog
            { e'.handlerResult .writeToLog with isFinished := false }) := by
        apply h.setHandlerResult
        · simp [TransactionExecution.setHandlerResult, leafIsFinished]
        · intro hw
          cases hw
        · trivial
      exact hlog.enter (s.le_addReset _) (Set.mem_insert _ _) (if_neg (h.data.status ▸ hw))
  | updateReadEntryMaxCommitTs i => exact h.next_reread hop hcall (hf rfl) hn
  | pushConflictTxnCommitTsLowerBound i =>
    have hres := hres rfl
    simp only [TransactionExecution.nextImpl, pushConflictNext] at hn
    split at hn
    · next he =>
      cases hn
      apply h.leave_prepareAbort hcall
      simp only [TransactionExecution.nextImpl, pushConflictNext, hres, if_pos he]
    · next he =>
      split at hn
      · next hw =>
        cases hn
        apply h.leave_prepareAbort hcall
        simp only [TransactionExecution.nextImpl, pushConflictNext, hres, if_neg he,
          h.data.commitTimestamp, if_pos hw]
      · next hw =>
        cases hn
        apply h.leave hcall (.refl s)
        simp only [TransactionExecution.nextImpl, pushConflictNext, hres, if_neg he,
          h.data.commitTimestamp, if_neg hw]
  | writeToLog =>
    cases hn
    exact (h.resetResult (show Op.waits .updateTxnStatusToCommit = true from rfl) (by simp) trivial).enter
      (s.le_addReset _) (Set.mem_insert _ _) rfl
  | updateTxnStatusToCommit =>
    have hres := hres rfl
    simp only [TransactionExecution.nextImpl] at hn
    split at hn
    · cases hn
    · next he =>
      cases hn
      have hst := h.notify hc fun r => { r with status := .committed }
      apply hst.resetPostProcessingAfterCommit.enter (s.le_addReset _) (Set.mem_insert _ _)
      simp only [TransactionExecution.nextImpl, hres, if_neg he]
      rfl
  | postProcessingAfterCommit =>
    cases hn
    have hst : Agree m b b' s { e with status := .committed, isTransactionFinished := true }
        { e' with status := .committed, isTransactionFinished := true } :=
      h.sameData { h.data with status := rfl, isTransactionFinished := rfl }
    exact hst.leave hcall (.refl s) rfl
  | postProcessingCommitEntryAfterCommit i =>
    have hres := hres rfl
    have hent := (h.data.write ha.2).1
    simp only [TransactionExecution.nextImpl] at hn
    split at hn
    · cases hn
    · next he =>
      cases hn
      have hclear : Agree m b b' s (e.clearReleaseOfWrite (e.args.commitEntry i))
          (e'.clearReleaseOfWrite (e.args.commitEntry i)) := by
        unfold clearReleaseOfWrite
        rw [hent]
        split
        · exact h.clearRelease _
        · exact h
      apply hclear.leave hcall (.refl s)
      simp only [TransactionExecution.nextImpl, hres, if_neg he, ha.1]
  | postProcessingAfterAbort =>
    cases hn
    exact (h.resetReleaseReadCounter hs).enter (s.le_addReset _) (Set.mem_insert _ _) rfl
  | postProcessingDeleteEntryAfterAbort i =>
    have hres := hres rfl
    have hent := (h.data.write ha.2).1
    simp only [TransactionExecution.nextImpl] at hn
    split at hn
    · cases hn
    · next he =>
      simp only [deleteEntryNext] at hn
      split at hn
      · next j hj =>
        cases hn
        have hread := (h.data.read (h.data.readEntry _ ha.2 j hj)).1
        have hj' : (e'.keyWriteSet.entry (e.args.deleteEntry i)).readEntry = some j := hent ▸ hj
        split
        · next hneed =>
          apply (h.clearRelease j).leave hcall (.refl s)
          simp only [TransactionExecution.nextImpl, hres, if_neg he, deleteEntryNext, ha.1, hj',
            hread, if_pos hneed]
        · next hneed =>
          apply h.leave hcall (.refl s)
          simp only [TransactionExecution.nextImpl, hres, if_neg he, deleteEntryNext, ha.1, hj',
            hread, if_neg hneed]
      · next hj =>
        cases hn
        apply h.leave hcall (.refl s)
        simp only [TransactionExecution.nextImpl, hres, if_neg he, deleteEntryNext, ha.1, hent, hj]
  | releaseReadCounter =>
    cases hn
    have hst : Agree m b b' s { e with status := .aborted, isTransactionFinished := true }
        { e' with status := .aborted, isTransactionFinished := true } :=
      h.sameData { h.data with status := rfl, isTransactionFinished := rfl }
    exact hst.leave hcall (.refl s) rfl
  | releaseReadCounterForEachEntry i =>
    have hres := hres rfl
    simp only [TransactionExecution.nextImpl] at hn
    split at hn
    · cases hn
    · next he =>
      cases hn
      apply (h.clearRelease _).leave hcall (.refl s)
      simp only [TransactionExecution.nextImpl, hres, if_neg he, ha.1]
  | updateTxnStatusToAbort =>
    have hres := hres rfl
    simp only [TransactionExecution.nextImpl] at hn
    split at hn
    · cases hn
    · next he =>
      cases hn
      have hst := h.notify hc fun r => { r with status := .aborted }
      apply hst.resetPostProcessingAfterAbort.enter (s.le_addReset _) (Set.mem_insert _ _)
      simp only [TransactionExecution.nextImpl, hres, if_neg he]
      rfl
  | insert => exact h.write_found hop hcall (.inl rfl) hc hs hn
  | upsert => exact h.write_found hop hcall (.inr rfl) hc hs hn
  | update | delete =>
    cases hn
    exact h.leave hcall (.refl s) rfl
  | initTxn =>
    have hres := hres rfl
    simp only [TransactionExecution.nextImpl] at hn
    split at hn
    · next he =>
      cases hn
      have hid : Agree m b b' s e.resetTxnIDAndTime e'.resetTxnIDAndTime := by
        apply h.sameData
        refine { h.data with services := ?_, txnId := ?_, txnEntry := ?_,
                             commitTimestampLocal := ?_ } <;> simp only [h.data.services]
      apply (hid.resetResult (show Op.waits .initTxn = true from rfl) (by simp) trivial).enter (s.le_addReset _)
        (Set.mem_insert _ _)
      simp only [TransactionExecution.nextImpl, hres, if_pos he]
    · next he =>
      cases hn
      have hid : Agree m b b' s { e with txnId := e.txnEntry.txId }
          { e' with txnId := e'.txnEntry.txId } :=
        h.sameData { h.data with txnId := by rw [h.data.txnEntry] }
      apply (hid.notify hc id).leave hcall (.refl s)
      simp only [TransactionExecution.nextImpl, hres, if_neg he]
      rfl
  | readDataStore =>
    have hres := hres rfl
    simp only [TransactionExecution.nextImpl, readDataStoreNext] at hn
    cases hn
    split
    · next he =>
      apply (h.notify hc fun r => { r with isError := true }).leave hcall (.refl s)
      simp only [TransactionExecution.nextImpl, readDataStoreNext, hres, if_pos he]
      rfl
    · next he =>
      split
      · next hr =>
        apply (h.notify hc fun r => { r with isNull := true }).leave hcall (.refl s)
        simp only [TransactionExecution.nextImpl, readDataStoreNext, hres, if_neg he, hr]
        rfl
      · next a hr =>
        apply (h.setResultRecord hc (some a)).leave hcall (.refl s)
        simp only [TransactionExecution.nextImpl, readDataStoreNext, hres, if_neg he, hr]

end Agree

end TransactionExecution

end Fugue
