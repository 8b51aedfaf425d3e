import Fugue.MoveForward
import Mathlib.Data.List.Nodup

namespace Fugue
namespace TransactionExecution

variable {K V S : Type}

def Quiet (e e' : TransactionExecution K V S) : Prop :=
  e' = { e with toExecutionState := e'.toExecutionState, args := e'.args }

theorem quiet_setResultRecord (e : TransactionExecution K V S) (record : Option Addr) :
    Quiet e (e.setResultRecord record) := by
  unfold setResultRecord
  split
  · rfl
  · split <;> rfl
  · rfl

theorem quiet_clearReleaseOfWrite (e : TransactionExecution K V S) (i : ℕ) :
    Quiet e (e.clearReleaseOfWrite i) := by
  unfold clearReleaseOfWrite
  split <;> rfl

theorem quiet_internalRead {e e' : TransactionExecution K V S} (h : e.internalRead = .ok e') :
    Quiet e e' := by
  unfold internalRead at h
  split at h
  · cases h
  · cases h
    split
    · rfl
    · exact quiet_setResultRecord (e.fillReadSet _ _ _) _
  · cases h
    rfl

structure Advanced (op : Op) (e : TransactionExecution K V S) (o : Option Op)
    (e' : TransactionExecution K V S) : Prop where
  operationVector : e'.operationVector = e.operationVector
  pending : e'.pending = e.pending
  log : e'.log = e.log
  flags : e'.flags = Function.update e.flags op ⟨true, o.isSome⟩
  handlerResult : ∀ x, o ≠ some x → e'.handlerResult x = e.handlerResult x

theorem advanced_none {op : Op} {e e' : TransactionExecution K V S}
    (h : Quiet (e.setFlags op ⟨true, true⟩) e') : Advanced op e none (e'.setHasNext op false) := by
  rw [h]
  refine ⟨rfl, rfl, rfl, ?_, fun x _ => rfl⟩
  simp [setHasNext, setFlags]

theorem advanced_some {op op' : Op} {e e' : TransactionExecution K V S}
    {r : HandlerResult op'.Result} (h : Quiet (e.setFlags op ⟨true, true⟩) e') :
    Advanced op e (some op') (e'.setHandlerResult op' r) := by
  rw [h]
  refine ⟨rfl, rfl, rfl, rfl, fun x hx => ?_⟩
  exact Function.update_of_ne (fun hx' => hx (congrArg some hx'.symm)) _ _

theorem advanced_composite {op op' : Op} {e e' : TransactionExecution K V S}
    (h : Quiet (e.setFlags op ⟨true, true⟩) e') : Advanced op e (some op') e' := by
  rw [h]
  exact ⟨rfl, rfl, rfl, rfl, fun x _ => rfl⟩

theorem leafIsFinished_of_result {e : TransactionExecution K V S} {op : Op} {r : op.Result}
    {b : Bool} (h : e.handlerResult op = ⟨r, true, b, 0⟩) : e.leafIsFinished op = true := by
  cases op <;> simp [leafIsFinished, h]

theorem leafIsFinished_congr {e e' : TransactionExecution K V S} {x : Op}
    (h : e'.handlerResult x = e.handlerResult x) : e'.leafIsFinished x = e.leafIsFinished x := by
  cases x <;> simp only [leafIsFinished, h]

/-- The operations on the stack and the calls in flight while `parent` waits for its members. -/
structure Stacked (parent : Option Op) (member : Op → Prop) (e : TransactionExecution K V S) :
    Prop where
  parent_not_member : ∀ x, parent = some x → ¬ member x
  occupied : e.operationVector.Occupied fun x =>
    parent = some x ∨ member x ∧ (e.flags x).moveToNext = false
  pending_member : ∀ p ∈ e.pending, member p.1 ∧ e.leafIsFinished p.1 = false
  pending_nodup : (e.pending.map Prod.fst).Nodup
  moved_finished : ∀ x, member x → (e.flags x).moveToNext = true → e.leafIsFinished x = true
  finished_answered : ∀ x, member x → e.leafIsFinished x = true →
    ∃ c r, Event.answered x c r ∈ e.log

structure Alone (o : Option Op) (e : TransactionExecution K V S) : Prop where
  occupied : e.operationVector.Occupied fun x => o = some x
  pending : e.pending = []

namespace Stacked

variable {parent : Option Op} {member : Op → Prop} {e e' : TransactionExecution K V S}

theorem congr (h : Stacked parent member e) {member' : Op → Prop}
    (hm : ∀ x, member x ↔ member' x) : Stacked parent member' e := by
  obtain rfl : member = member' := funext fun x => propext (hm x)
  exact h

theorem leave (h : Stacked parent member e) {i : ℕ} {x : Op}
    (hi : e.operationVector.slot i = some x) (hm : member x) (hf : e.leafIsFinished x = true)
    (ha : Advanced x e none e') : Stacked parent member (e'.setSlot i none) := by
  have hres : ∀ y, e'.handlerResult y = e.handlerResult y := fun y => ha.handlerResult y (by simp)
  have hfin : ∀ y, (e'.setSlot i none).leafIsFinished y = e.leafIsFinished y :=
    fun y => leafIsFinished_congr (hres y)
  refine ⟨h.parent_not_member, ?_, ?_, ?_, ?_, ?_⟩
  · simp only [setSlot, ha.operationVector, ha.flags]
    refine (h.occupied.empty hi).congr fun y => ?_
    by_cases hy : y = x
    · subst hy
      have := h.parent_not_member y
      simp only [ne_eq, not_true_eq_false, and_false, Function.update_self, Bool.true_eq_false,
        or_false, false_iff]
      exact fun hp => this hp hm
    · simp [hy]
  · intro p hp
    rw [hfin]
    exact h.pending_member p (ha.pending ▸ hp)
  · simp only [setSlot, ha.pending]
    exact h.pending_nodup
  · intro y hy hmv
    rw [hfin]
    by_cases hyx : y = x
    · exact hyx ▸ hf
    · refine h.moved_finished y hy ?_
      simpa [setSlot, ha.flags, hyx] using hmv
  · intro y hy hfy
    obtain ⟨c, r, hr⟩ := h.finished_answered y hy ((hfin y).symm.trans hfy)
    exact ⟨c, r, by simpa [setSlot, ha.log] using hr⟩

theorem replace (h : Stacked parent member e) {i : ℕ} {x y : Op} {c : HandlerCall K}
    (hi : e.operationVector.slot i = some x) (hm : member x) (hf : e.leafIsFinished x = true)
    (ha : Advanced x e (some y) e') (hfy : e'.leafIsFinished y = false)
    (hp : parent ≠ some y) (hy : member y → y = x) :
    Stacked parent (fun z => z = y ∨ member z)
      (((e'.setSlot i (some y)).setMoveToNext y false).issue y c) := by
  have hfin : ∀ z, z ≠ y → e'.leafIsFinished z = e.leafIsFinished z :=
    fun z hz => leafIsFinished_congr (ha.handlerResult z (by simpa using Ne.symm hz))
  have hpend : ∀ p ∈ e.pending, p.1 ≠ y := by
    intro p hp hpy
    obtain ⟨h1, h2⟩ := h.pending_member p hp
    rw [hpy] at h1 h2
    rw [hy h1, hf] at h2
    cases h2
  refine ⟨?_, ?_, ?_, ?_, ?_, ?_⟩
  · rintro z hz (rfl | hz')
    · exact hp hz
    · exact h.parent_not_member z hz hz'
  · simp only [issue, setMoveToNext, setFlags, setSlot, ha.operationVector, ha.flags]
    refine (h.occupied.replace hi ?_).congr fun z => ?_
    · rintro (hpy | ⟨hmy, -⟩)
      · exact absurd hpy hp
      · exact hy hmy
    · by_cases hzy : z = y
      · subst hzy; simp
      · by_cases hzx : z = x
        · subst hzx
          simp only [hzy, ne_eq, not_true_eq_false, and_false, or_self, false_or, false_iff]
          rintro (hpz | ⟨-, hmv⟩)
          · exact h.parent_not_member z hpz hm
          · simp [hzy] at hmv
        · simp [hzy, hzx]
  · intro p hp
    rcases List.mem_append.mp hp with hp | hp
    · have hpe : p ∈ e.pending := by simpa [setMoveToNext, setFlags, setSlot, ha.pending] using hp
      obtain ⟨h1, h2⟩ := h.pending_member p hpe
      exact ⟨.inr h1, (hfin _ (hpend p hpe)).trans h2⟩
    · obtain rfl := List.mem_singleton.mp hp
      exact ⟨.inl rfl, hfy⟩
  · simp only [issue, setMoveToNext, setFlags, setSlot, ha.pending, List.map_append, List.map_cons,
      List.map_nil]
    refine List.Nodup.append h.pending_nodup (List.nodup_singleton y) ?_
    intro z hz hz'
    obtain rfl := List.mem_singleton.mp hz'
    obtain ⟨p, hpe, hpz⟩ := List.mem_map.mp hz
    exact hpend p hpe hpz
  · intro z hz hmv
    by_cases hzy : z = y
    · subst hzy
      simp [issue, setMoveToNext, setFlags] at hmv
    · refine (hfin z hzy).trans ?_
      by_cases hzx : z = x
      · exact hzx ▸ hf
      · refine h.moved_finished z (hz.resolve_left hzy) ?_
        simpa [issue, setMoveToNext, setFlags, setSlot, ha.flags, hzx, hzy] using hmv
  · intro z hz hfz
    by_cases hzy : z = y
    · subst hzy
      exact absurd (hfy.symm.trans hfz) (by simp)
    · obtain ⟨c', r, hr⟩ := h.finished_answered z (hz.resolve_left hzy) ((hfin z hzy).symm.trans hfz)
      exact ⟨c', r, List.mem_append_left _ (ha.log.symm ▸ hr)⟩

theorem settle (h : Stacked parent member e) {i : ℕ} {x : Op} {o : Option Op}
    (hi : e.operationVector.slot i = some x) (hp : ∀ y, parent = some y → y = x)
    (hm : ∀ y, member y → y = x ∧ e.leafIsFinished x = true ∨ (e.flags y).moveToNext = true)
    (ha : Advanced x e o e') : Alone o (e'.setSlot i o) := by
  have hheld : ∀ z, (parent = some z ∨ member z ∧ (e.flags z).moveToNext = false) → z = x := by
    rintro z (hz | ⟨hz, hmv⟩)
    · exact hp z hz
    · rcases hm z hz with ⟨hzx, -⟩ | hmv'
      · exact hzx
      · rw [hmv'] at hmv; cases hmv
  constructor
  · simp only [setSlot, ha.operationVector]
    cases o with
    | none =>
      refine (h.occupied.empty hi).congr fun z => ?_
      simp only [reduceCtorEq, iff_false, not_and, not_not]
      exact hheld z
    | some y =>
      by_cases hyx : y = x
      · subst hyx
        refine (h.occupied.replace hi fun _ => rfl).congr fun z => ?_
        simp only [Option.some_inj, ne_eq]
        exact ⟨fun hz => (hz.elim id fun hz => hheld z hz.1).symm, fun hz => .inl hz.symm⟩
      · refine (h.occupied.replace hi fun hy => hheld y hy).congr fun z => ?_
        simp only [Option.some_inj, ne_eq]
        refine ⟨fun hz => (hz.elim id fun hz => absurd (hheld z hz.1) hz.2).symm, fun hz => .inl hz.symm⟩
  · simp only [setSlot, ha.pending]
    refine List.eq_nil_iff_forall_not_mem.mpr fun p hp => ?_
    obtain ⟨h1, h2⟩ := h.pending_member p hp
    rcases hm _ h1 with ⟨hpx, hfx⟩ | hmv
    · rw [hpx, hfx] at h2; cases h2
    · rw [h.moved_finished _ h1 hmv] at h2; cases h2

theorem of_alone (h : Alone none e) (hm : ∀ z, ¬ member z) :
    Stacked none member e where
  parent_not_member := by simp
  occupied := h.occupied.congr fun z => by simp [hm z]
  pending_member := by simp [h.pending]
  pending_nodup := by simp [h.pending]
  moved_finished z hz := absurd hz (hm z)
  finished_answered z hz := absurd hz (hm z)

theorem of_parent {y : Op} (h : Alone (some y) e) (hm : ∀ z, ¬ member z) :
    Stacked (some y) member e where
  parent_not_member z _ := hm z
  occupied := h.occupied.congr fun z => by simp [hm z]
  pending_member := by simp [h.pending]
  pending_nodup := by simp [h.pending]
  moved_finished z hz := absurd hz (hm z)
  finished_answered z hz := absurd hz (hm z)

end Stacked

variable [DecidableEq K]

structure Completed (op : Op) (c : HandlerCall K) (reply : Reply V op)
    (e e' : TransactionExecution K V S) : Prop where
  mem : (op, c) ∈ e.pending
  data : e'.toExecutionState = { e.toExecutionState with memory := e'.memory }
  operationVector : e'.operationVector = e.operationVector
  flags : e'.flags = e.flags
  args : e'.args = e.args
  pending : e'.pending = e.pending.erase (op, c)
  log : e'.log = e.log ++ [.answered op c reply]
  self : e'.handlerResult op = ⟨reply.result, true, reply.isError, 0⟩
  other : ∀ x, x ≠ op → e'.handlerResult x = e.handlerResult x

namespace Completed

variable {e e' : TransactionExecution K V S} {op : Op} {c : HandlerCall K} {r : Reply V op}

theorem status (h : Completed op c r e e') : e'.status = e.status :=
  (congrArg ExecutionState.status h.data :)

theorem txnId (h : Completed op c r e e') : e'.txnId = e.txnId :=
  (congrArg ExecutionState.txnId h.data :)

theorem keyWriteSet (h : Completed op c r e e') : e'.keyWriteSet = e.keyWriteSet :=
  (congrArg ExecutionState.keyWriteSet h.data :)

theorem keyReadSet (h : Completed op c r e e') : e'.keyReadSet = e.keyReadSet :=
  (congrArg ExecutionState.keyReadSet h.data :)

theorem commitTimestamp (h : Completed op c r e e') : e'.commitTimestamp = e.commitTimestamp :=
  (congrArg ExecutionState.commitTimestamp h.data :)

theorem maxCommitTimestampOfWriters (h : Completed op c r e e') :
    e'.maxCommitTimestampOfWriters = e.maxCommitTimestampOfWriters :=
  (congrArg ExecutionState.maxCommitTimestampOfWriters h.data :)

theorem isTransactionFinished (h : Completed op c r e e') :
    e'.isTransactionFinished = e.isTransactionFinished :=
  (congrArg ExecutionState.isTransactionFinished h.data :)

theorem log_subset (h : Completed op c r e e') : e.log ⊆ e'.log := by
  rw [h.log]
  exact List.subset_append_left _ _

end Completed

theorem complete_cases {op : Op} {reply : Reply V op} {e e' : TransactionExecution K V S}
    (h : e.complete op reply = some e') : ∃ c, Completed op c reply e e' := by
  unfold complete at h
  obtain ⟨⟨op', c⟩, hp, rfl⟩ := Option.map_eq_some_iff.mp h
  have hop : op' = op := by simpa using List.find?_some hp
  subst hop
  exact ⟨c, List.mem_of_find?_eq_some hp, rfl, rfl, rfl, rfl, rfl, rfl,
    Function.update_self _ _ _, fun x hx => Function.update_of_ne hx _ _⟩

theorem Stacked.complete {parent : Option Op} {member : Op → Prop}
    {e e' : TransactionExecution K V S} (h : Stacked parent member e) {op : Op} {reply : Reply V op} {c : HandlerCall K}
    (hc : Completed op c reply e e') : Stacked parent member e' := by
  obtain ⟨hop, hf⟩ := h.pending_member _ hc.mem
  have hself : e'.leafIsFinished op = true := leafIsFinished_of_result hc.self
  have hother : ∀ x, x ≠ op → e'.leafIsFinished x = e.leafIsFinished x :=
    fun x hx => leafIsFinished_congr (hc.other x hx)
  have hmem : ∀ p ∈ e'.pending, p ∈ e.pending ∧ p.1 ≠ op := by
    intro p hp
    rw [hc.pending] at hp
    have hp' := List.mem_of_mem_erase hp
    refine ⟨hp', fun hpo => ?_⟩
    have hpe : p = (op, c) := List.inj_on_of_nodup_map h.pending_nodup hp' hc.mem hpo
    exact (List.Nodup.of_map _ h.pending_nodup).not_mem_erase (hpe ▸ hp)
  refine ⟨h.parent_not_member, ?_, ?_, ?_, ?_, ?_⟩
  · rw [hc.operationVector, hc.flags]
    exact h.occupied
  · intro p hp
    obtain ⟨hp', hne⟩ := hmem p hp
    rw [hother _ hne]
    exact h.pending_member p hp'
  · rw [hc.pending]
    exact h.pending_nodup.sublist (List.erase_sublist.map _)
  · intro x hx hmv
    rw [hc.flags] at hmv
    by_cases hxo : x = op
    · exact hxo ▸ hself
    · exact (hother x hxo).trans (h.moved_finished x hx hmv)
  · intro x hx hfx
    rw [hc.log]
    by_cases hxo : x = op
    · subst hxo; exact ⟨c, reply, by simp⟩
    · obtain ⟨c', r, hr⟩ := h.finished_answered x hx ((hother x hxo).symm.trans hfx)
      exact ⟨c', r, List.mem_append_left _ hr⟩

variable [Services S]

theorem next_advanced {op : Op} {e e' : TransactionExecution K V S} {o : Option Op}
    (h : next op e = .ok (o, e')) : Advanced op e o e' := by
  unfold next at h
  cases op with
  | readOutside =>
    simp only [nextImpl] at h
    split at h
    · cases h; exact advanced_none rfl
    · cases hr : (e.setFlags .readOutside ⟨true, true⟩).internalRead with
      | error m => rw [hr] at h; cases h
      | ok e1 => rw [hr] at h; cases h; exact advanced_none (quiet_internalRead hr)
  | upload =>
    simp only [nextImpl] at h
    split at h <;> cases h
    · exact advanced_none rfl
    · exact advanced_some rfl
  | uploadVersionEntry i =>
    simp only [nextImpl, uploadVersionEntryNext] at h
    split at h <;> cases h <;> exact advanced_none rfl
  | setCommitTs =>
    simp only [nextImpl] at h
    split at h <;> cases h
    · exact advanced_none rfl
    · exact advanced_composite rfl
  | validate =>
    simp only [nextImpl] at h
    split at h <;> cases h
    · exact advanced_none rfl
    · exact advanced_some rfl
  | updateReadEntryMaxCommitTs i =>
    simp only [nextImpl, updateReadEntryMaxCommitTsNext] at h
    repeat' split at h
    all_goals cases h
    all_goals first | exact advanced_none rfl | exact advanced_some rfl
  | pushConflictTxnCommitTsLowerBound i =>
    simp only [nextImpl, pushConflictNext] at h
    repeat' split at h
    all_goals cases h; exact advanced_none rfl
  | writeToLog => cases h; exact advanced_some rfl
  | updateTxnStatusToCommit =>
    simp only [nextImpl] at h
    split at h <;> cases h
    exact advanced_composite rfl
  | postProcessingAfterCommit => cases h; exact advanced_none rfl
  | postProcessingCommitEntryAfterCommit i =>
    simp only [nextImpl] at h
    split at h <;> cases h
    exact advanced_none (quiet_clearReleaseOfWrite _ _)
  | postProcessingAfterAbort => cases h; exact advanced_composite rfl
  | postProcessingDeleteEntryAfterAbort i =>
    simp only [nextImpl, deleteEntryNext] at h
    repeat' split at h
    all_goals cases h
    all_goals exact advanced_none rfl
  | releaseReadCounter => cases h; exact advanced_none rfl
  | releaseReadCounterForEachEntry i =>
    simp only [nextImpl] at h
    split at h <;> cases h
    exact advanced_none rfl
  | updateTxnStatusToAbort =>
    simp only [nextImpl] at h
    split at h <;> cases h
    exact advanced_composite rfl
  | insert =>
    simp only [nextImpl, insertNext] at h
    cases h
    refine advanced_none ?_
    repeat' split
    all_goals rfl
  | upsert =>
    simp only [nextImpl, upsertNext] at h
    cases h
    refine advanced_none ?_
    split <;> rfl
  | update => cases h; exact advanced_none rfl
  | delete => cases h; exact advanced_none rfl
  | initTxn =>
    simp only [nextImpl] at h
    split at h <;> cases h
    · exact advanced_some rfl
    · exact advanced_none rfl
  | readDataStore =>
    simp only [nextImpl, readDataStoreNext] at h
    cases h
    refine advanced_none ?_
    split
    · rfl
    · split
      · rfl
      · exact quiet_setResultRecord _ _

theorem visit_cases {e e' : TransactionExecution K V S} {i : ℕ} {b : Bool}
    (h : visit i e = .ok (e', b)) : e' = e ∨ ∃ op o e1, e.operationVector.slot i = some op ∧
      e.isFinished op = true ∧ next op e = .ok (o, e1) ∧ Advanced op e o e1 ∧
      (o = none ∧ e' = e1.setSlot i none ∨
        ∃ op', o = some op' ∧ e' = call op' (e1.setSlot i (some op'))) := by
  unfold visit at h
  split at h
  · cases h; exact .inl rfl
  · next op hop =>
    split at h
    · next hf =>
      split at h
      · cases h
      · next op' e1 hn =>
        cases h
        exact .inr ⟨op, some op', e1, hop, hf, hn, next_advanced hn, .inr ⟨op', rfl, rfl⟩⟩
      · next e1 hn =>
        cases h
        exact .inr ⟨op, none, e1, hop, hf, hn, next_advanced hn, .inl ⟨rfl, rfl⟩⟩
    · cases h; exact .inl rfl

end TransactionExecution

end Fugue
