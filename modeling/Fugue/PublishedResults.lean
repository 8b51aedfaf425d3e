import Fugue.OperationFlight
import Fugue.RequestNotification
import Fugue.SlotReuse

namespace Fugue

open TransactionExecution

variable {K V S : Type}

/-- What a client reads of a result besides the record. -/
structure Verdict where
  isDeleted : Bool
  isNull : Bool
  isError : Bool
  status : TxnStatus
  deriving DecidableEq

def Result.verdict (r : Result) : Verdict := ⟨r.isDeleted, r.isNull, r.isError, r.status⟩

namespace TransactionExecution

variable [DecidableEq K] [Services S] {e e' e₁ : TransactionExecution K V S}

structure Silent (x y : ExecutionState K V S) : Prop where
  result : y.result = x.result
  finished : y.requestFinished = x.requestFinished

theorem call_silent {y : Op} (hu : y ≠ .update) (hd : y ≠ .delete)
    (e : TransactionExecution K V S) :
    Silent e.toExecutionState (call y e).toExecutionState := by
  rw [call_data]
  cases y with
  | update => exact absurd rfl hu
  | delete => exact absurd rfl hd
  | writeToLog =>
    simp only [callData, writeToLogCallImpl]
    split <;> exact ⟨rfl, rfl⟩
  | _ => exact ⟨rfl, rfl⟩

theorem next_notifies {op : Op} {o : Option Op} (hop : op.notifies = true)
    (h : next op e = .ok (o, e₁)) :
    (e₁.requestFinished = true ∧ e₁.status = e.status ∧ ∀ y, o = some y → y.notifies = false) ∨
      Silent e.toExecutionState e₁.toExecutionState := by
  unfold next at h
  cases op with
  | readOutside =>
    left
    simp only [nextImpl] at h
    split at h
    · cases h
      exact ⟨rfl, rfl, fun y hy => by cases hy⟩
    · cases hr : (e.setFlags .readOutside ⟨true, true⟩).internalRead with
      | error m =>
        rw [hr] at h
        cases h
      | ok z =>
        rw [hr] at h
        cases h
        exact ⟨(internalRead_told hr).1, (internalRead_sets hr).1, fun y hy => by cases hy⟩
  | readDataStore =>
    left
    simp only [nextImpl, readDataStoreNext, noNext] at h
    cases h
    refine ⟨?_, ?_, fun y hy => by cases hy⟩
    · split
      · rfl
      · split
        · rfl
        · exact (setResultRecord_told _).1
    · split
      · rfl
      · split
        · rfl
        · exact (setResultRecord_frame _).2.2.1
  | initTxn =>
    simp only [nextImpl] at h
    split at h <;> cases h
    · exact .inr ⟨rfl, rfl⟩
    · exact .inl ⟨rfl, rfl, fun y hy => by cases hy⟩
  | updateTxnStatusToCommit =>
    simp only [nextImpl] at h
    split at h <;> cases h
    exact .inl ⟨rfl, rfl, fun y hy => by cases hy; rfl⟩
  | updateTxnStatusToAbort =>
    simp only [nextImpl] at h
    split at h <;> cases h
    exact .inl ⟨rfl, rfl, fun y hy => by cases hy; rfl⟩
  | upload | setCommitTs | validate | writeToLog =>
    right
    simp only [nextImpl] at h
    repeat' split at h
    all_goals cases h
    all_goals exact ⟨rfl, rfl⟩
  | _ => cases hop

theorem next_silent {op : Op} {o : Option Op} (hop : op.notifies = false)
    (hi : op ≠ .insert ∧ op ≠ .upsert) (h : next op e = .ok (o, e₁)) :
    Silent e.toExecutionState e₁.toExecutionState ∧ (e₁.status = .aborting → e.status = .aborting) ∧
      ∀ y, o = some y → y.notifies = false := by
  unfold next at h
  cases op with
  | insert | upsert => simp at hi
  | readOutside | upload | setCommitTs | validate | writeToLog | updateTxnStatusToCommit
  | updateTxnStatusToAbort | initTxn | readDataStore => cases hop
  | postProcessingCommitEntryAfterCommit i =>
    simp only [nextImpl, clearReleaseOfWrite] at h
    split at h <;> cases h
    refine ⟨?_, ?_, fun y hy => by cases hy⟩
    · split <;> exact ⟨rfl, rfl⟩
    · split <;> exact id
  | postProcessingDeleteEntryAfterAbort i =>
    simp only [nextImpl, deleteEntryNext] at h
    split at h
    · cases h
    · split at h <;> cases h
      · refine ⟨?_, ?_, fun y hy => by cases hy⟩
        · split <;> exact ⟨rfl, rfl⟩
        · split <;> exact id
      · exact ⟨⟨rfl, rfl⟩, id, fun y hy => by cases hy⟩
  | updateReadEntryMaxCommitTs i =>
    simp only [nextImpl, updateReadEntryMaxCommitTsNext] at h
    repeat' split at h
    all_goals cases h
    all_goals refine ⟨⟨rfl, rfl⟩, ?_, fun y hy => by cases hy <;> rfl⟩
    all_goals first | exact id | exact fun ha => by cases ha
  | _ =>
    simp only [nextImpl, uploadVersionEntryNext, pushConflictNext] at h
    repeat' split at h
    all_goals cases h
    all_goals refine ⟨⟨rfl, rfl⟩, ?_, fun y hy => by cases hy <;> rfl⟩
    all_goals first | exact id | exact fun ha => by cases ha

omit [DecidableEq K] [Services S] in
theorem setResultRecord_verdict (record : Option Addr) :
    (e.setResultRecord record).result.verdict = e.result.verdict := by
  unfold setResultRecord
  split
  · rfl
  · split <;> rfl
  · rfl

theorem next_readOutside {o : Option Op} (h : next .readOutside e = .ok (o, e₁)) :
    o = none ∧ e₁.handlerResult .readOutside = e.handlerResult .readOutside ∧
      e₁.result.isError = (e.result.isError || (e.handlerResult .readOutside).isError) := by
  have ha := next_advanced h
  unfold next at h
  simp only [nextImpl] at h
  split at h
  · next he =>
    cases h
    have he : (e.handlerResult .readOutside).isError = true := he
    exact ⟨rfl, rfl, by simp [setHasNext, setFlags, setResultError, setResult, he]⟩
  · next he =>
    have he : (e.handlerResult .readOutside).isError = false := Bool.eq_false_iff.mpr he
    cases hr : (e.setFlags .readOutside ⟨true, true⟩).internalRead with
    | error m =>
      rw [hr] at h
      cases h
    | ok z =>
      rw [hr] at h
      cases h
      refine ⟨rfl, ha.handlerResult _ (by simp), ?_⟩
      rw [he, Bool.or_false]
      unfold internalRead at hr
      split at hr
      · cases hr
      · cases hr
        split
        · rfl
        · exact (congrArg Verdict.isError (setResultRecord_verdict _) :)
      · cases hr
        rfl

def findsDeleted (e : TransactionExecution K V S) : Bool :=
  match e.findInReadSet e.args.writeKey with
  | some i => (e.keyReadSet.entry i).isDeleted
  | none => false

theorem next_insert {o : Option Op} (h : next .insert e = .ok (o, e₁)) :
    o = none ∧ e₁.status = e.status ∧ e₁.requestFinished = true ∧
      e₁.result = if e.findsDeleted then e.result else { e.result with isError := true } := by
  simp only [next, nextImpl, insertNext, noNext] at h
  cases h
  have hf : (e.setFlags .insert ⟨true, true⟩).findInReadSet
      (e.setFlags .insert ⟨true, true⟩).args.writeKey = e.findInReadSet e.args.writeKey := rfl
  unfold findsDeleted
  rw [hf]
  cases e.findInReadSet e.args.writeKey with
  | none => exact ⟨rfl, rfl, rfl, rfl⟩
  | some j =>
    dsimp only
    by_cases hd : (e.keyReadSet.entry j).isDeleted = true
    · have hd' : ((e.setFlags .insert ⟨true, true⟩).keyReadSet.entry j).isDeleted = true := hd
      rw [if_pos hd, if_pos hd']
      exact ⟨rfl, rfl, rfl, rfl⟩
    · have hd' : ¬ ((e.setFlags .insert ⟨true, true⟩).keyReadSet.entry j).isDeleted = true := hd
      rw [if_neg hd, if_neg hd']
      exact ⟨rfl, rfl, rfl, rfl⟩

theorem next_upsert {o : Option Op} (h : next .upsert e = .ok (o, e₁)) :
    o = none ∧ e₁.status = e.status ∧ e₁.result = e.result := by
  simp only [next, nextImpl, upsertNext, noNext] at h
  cases h
  split <;> exact ⟨rfl, rfl, rfl⟩

theorem Alive.writing (h : Alive e) {i : ℕ} {op : Op} (hop : op = .insert ∨ op = .upsert)
    (hi : e.operationVector.slot i = some op) : Stacked (some op) (· = .readOutside) e := by
  have hrank : op.rank = 0 := by rcases hop with rfl | rfl <;> rfl
  cases h with
  | ending x gaveUp s _ h =>
    have hpos := h.rank_of_slot hi
    rw [hrank] at hpos
    cases hpos
  | serving h =>
    cases h with
    | idle n h size stacked =>
      rcases stacked.occupied.held_of_slot hi with hp | ⟨hm, -⟩
      · cases hp
      · exact hm.elim
    | single n h size op' hop' stacked =>
      rcases stacked.occupied.held_of_slot hi with hp | ⟨rfl, -⟩
      · cases hp
      · rcases hop with rfl | rfl <;> simp at hop'
    | reading n h parent hp stacked =>
      rcases stacked.occupied.held_of_slot hi with hpar | ⟨rfl, -⟩
      · exact hpar ▸ stacked
      · simp at hop
    | returned n h size op' hop' stacked =>
      rcases stacked.occupied.held_of_slot hi with hpar | ⟨rfl, -⟩
      · exact hpar ▸ stacked
      · simp at hop
    | instant n h size op' hop' stacked =>
      rcases stacked.occupied.held_of_slot hi with hpar | ⟨hm, -⟩
      · cases hpar
        rcases hop with rfl | rfl <;> simp at hop'
      · exact hm.elim

def Stage.notifier : Stage → Op
  | .upload => .upload
  | .timestamp => .setCommitTs
  | .validate => .validate
  | .log => .writeToLog
  | .status => .updateTxnStatusToCommit
  | _ => .updateTxnStatusToAbort

theorem Alive.one_notifies (h : Alive e) {i j : ℕ} {op y : Op}
    (hi : e.operationVector.slot i = some op) (hj : e.operationVector.slot j = some y)
    (hop : op.notifies = true) (hy : y.notifies = true) : i = j := by
  have hone : ∀ {parent member} (w : Op), Stacked parent member e →
      (∀ x, parent = some x ∨ member x → x.notifies = true → x = w) → i = j := by
    intro parent member w hst hw
    have heq : ∀ {l x}, e.operationVector.slot l = some x → x.notifies = true → x = w :=
      fun hl hx => hw _ ((hst.occupied.held_of_slot hl).imp_right And.left) hx
    rw [heq hi hop] at hi
    rw [heq hj hy] at hj
    exact h.unique i j w hi hj
  cases h with
  | serving h =>
    cases h with
    | idle n h size stacked =>
      refine hone .upload stacked ?_
      rintro x (hp | hm) -
      · cases hp
      · exact hm.elim
    | single n h size w hw stacked =>
      refine hone w stacked ?_
      rintro x (hp | hm) -
      · cases hp
      · exact hm
    | reading n h parent hp stacked =>
      refine hone .readOutside stacked ?_
      rintro x (hpar | hm) hx
      · rcases hp with rfl | rfl | rfl <;> cases hpar <;> cases hx
      · exact hm
    | returned n h size w hw stacked =>
      refine hone .readOutside stacked ?_
      rintro x (hpar | hm) hx
      · rcases hw with rfl | rfl <;> cases hpar <;> cases hx
      · exact hm
    | instant n h size w hw stacked =>
      refine hone .upload stacked ?_
      rintro x (hpar | hm) hx
      · rcases hw with rfl | rfl <;> cases hpar <;> cases hx
      · exact hm.elim
  | ending x gaveUp s _ h =>
    refine hone s.notifier h.stacked ?_
    rintro x (hp | hm) hx
    · cases s <;> cases hp <;> first | rfl | cases hx
    · cases s with
      | timestamp | status | abort => exact hm
      | log | committed | failing | aborted => exact hm.elim
      | upload | commit | delete | release =>
        obtain ⟨l, -, rfl⟩ := hm
        cases hx
      | validate => obtain ⟨l, -, rfl⟩ | ⟨l, -, rfl, -⟩ := hm <;> cases hx

/-- The result while a transaction runs. It is fresh until the request is notified; from then on
no operation is left that notifies. -/
structure Published (e : TransactionExecution K V S) : Prop where
  current : e.currentRequest = none → e.operationVector = []
  fresh : e.currentRequest ≠ none → e.requestFinished = false →
    e.result = Result.reset e.result.record
  quiet : e.requestFinished = true → e.status ≠ .aborting ∧
    ∀ i op, e.operationVector.slot i = some op → op.notifies = false
  failed : ∀ i, e.operationVector.slot i = some .insert → (e.flags .readOutside).moveToNext = true →
    e.result.isError = (e.handlerResult .readOutside).isError

namespace Published

omit [DecidableEq K] in
theorem reset (hv : e.operationVector = []) : Published e.reset := by
  have hv : e.reset.operationVector = [] := hv
  refine ⟨fun _ => hv, fun hc => absurd rfl hc, fun _ => ⟨fun hs => (by cases hs), ?_⟩, ?_⟩
  · intro i op hi
    rw [hv] at hi
    simp at hi
  · intro i hi
    rw [hv] at hi
    simp at hi

omit [DecidableEq K] [Services S] in
theorem currentRequest_ne (h : Published e) {i : ℕ} {op : Op}
    (hi : e.operationVector.slot i = some op) : e.currentRequest ≠ none := by
  intro hc
  rw [h.current hc] at hi
  simp at hi

omit [DecidableEq K] [Services S] in
theorem unfinished (h : Published e) {i : ℕ} {op : Op} (hi : e.operationVector.slot i = some op)
    (hop : op.notifies = true) : e.requestFinished = false := by
  cases hf : e.requestFinished with
  | false => rfl
  | true =>
    rw [(h.quiet hf).2 i op hi] at hop
    cases hop

theorem next (h : Published e) (ha : Alive e) {i : ℕ} {op : Op} {o : Option Op}
    (hi : e.operationVector.slot i = some op) (hf : e.isFinished op = true)
    (hn : TransactionExecution.next op e = .ok (o, e₁)) : Published (e₁.setSlot i o) := by
  have hadv := next_advanced hn
  have hcur := h.currentRequest_ne hi
  obtain ⟨hcar, -⟩ := next_told hn
  have hlt : i < e₁.operationVector.length := by
    rw [hadv.operationVector]
    exact Slots.lt_length_of_slot hi
  have hslot : ∀ j, (e₁.setSlot i o).operationVector.slot j =
      if j = i then o else e.operationVector.slot j := by
    intro j
    rw [setSlot, Slots.slot_setSlot _ _ _ _ hlt, hadv.operationVector]
  have hst : e.status ≠ .aborting := by
    intro hs
    rw [ha.slot_of_aborting hs i] at hi
    cases hi
  have hnew : op.notifies = true ∨ (op = .insert ∨ op = .upsert) ∨
      op.notifies = false ∧ op ≠ .insert ∧ op ≠ .upsert := by
    cases op <;> simp [Op.notifies]
  refine ⟨fun hc => absurd (hcar.current.symm.trans hc) hcur, fun _ hfin => ?_, fun hfin => ?_, ?_⟩
  · have hfin' : e.requestFinished = false := by
      cases hx : e.requestFinished with
      | false => rfl
      | true => exact (hcar.finished hx).symm.trans hfin
    have hfresh := h.fresh hcur hfin'
    have hsame : e₁.result = e.result := by
      rcases hnew with hop | (rfl | rfl) | ⟨hop, hw⟩
      · rcases next_notifies hop hn with ⟨htold, -, -⟩ | hsil
        · rw [show e₁.requestFinished = false from hfin] at htold
          cases htold
        · exact hsil.result
      · obtain ⟨-, -, htold, -⟩ := next_insert hn
        rw [show e₁.requestFinished = false from hfin] at htold
        cases htold
      · exact (next_upsert hn).2.2
      · exact (next_silent hop hw hn).1.result
    change e₁.result = Result.reset e₁.result.record
    rw [hsame]
    exact hfresh
  · have hfin : e₁.requestFinished = true := hfin
    change e₁.status ≠ _ ∧ _
    rcases hnew with hop | hop | ⟨hop, hw⟩
    · rcases next_notifies hop hn with ⟨-, hs, hy⟩ | hsil
      · refine ⟨hs.symm ▸ hst, fun j y hj => ?_⟩
        rw [hslot] at hj
        split at hj
        · exact hy y hj
        · next hji =>
          by_contra hnot
          exact hji (ha.one_notifies hj hi (Bool.eq_true_of_not_eq_false hnot) hop)
      · rw [hsil.finished, h.unfinished hi hop] at hfin
        cases hfin
    · have hstack := ha.writing hop hi
      have hnone : o = none ∧ e₁.status = e.status := by
        rcases hop with rfl | rfl
        · exact ⟨(next_insert hn).1, (next_insert hn).2.1⟩
        · exact ⟨(next_upsert hn).1, (next_upsert hn).2.1⟩
      refine ⟨hnone.2.symm ▸ hst, fun j y hj => ?_⟩
      rw [hslot, hnone.1] at hj
      split at hj
      · cases hj
      · rcases hstack.occupied.held_of_slot hj with hp | ⟨rfl, -⟩
        · obtain rfl := Option.some.inj hp
          rcases hop with rfl | rfl <;> rfl
        · exact (ha.sound.waits i op hi hf (by rintro rfl; simp at hop) j hj).elim
    · obtain ⟨hsil, hs, hy⟩ := next_silent hop hw hn
      obtain ⟨-, hq⟩ := h.quiet (hsil.finished.symm.trans hfin)
      refine ⟨fun hab => hst (hs hab), fun j y hj => ?_⟩
      rw [hslot] at hj
      split at hj
      · exact hy y hj
      · exact hq j y hj
  · intro j hj hm
    rw [hslot] at hj
    split at hj
    · obtain rfl := hj
      exact absurd rfl (next_successor hn).1.1
    · next hji =>
      have hstack := ha.writing (.inl rfl) hj
      rcases hstack.occupied.held_of_slot hi with hp | ⟨rfl, -⟩
      · obtain rfl := Option.some.inj hp
        exact absurd (ha.unique j i _ hj hi) hji
      · obtain ⟨-, hres, herr⟩ := next_readOutside hn
        have hfresh := h.fresh hcur (h.unfinished hi rfl)
        change e₁.result.isError = (e₁.handlerResult .readOutside).isError
        rw [herr, hres, hfresh]
        rfl

theorem call (h : Published e) {y : Op}
    (hy : y ≠ .insert ∧ y ≠ .upsert ∧ y ≠ .update ∧ y ≠ .delete)
    (hins : ∀ j, e.operationVector.slot j ≠ some .insert)
    (hc : e.currentRequest ≠ none) : Published (TransactionExecution.call y e) := by
  have hsil := call_silent hy.2.2.1 hy.2.2.2 e
  obtain ⟨hcar, hs⟩ := call_told y e
  have hslot : ∀ j x, (TransactionExecution.call y e).operationVector.slot j = some x →
      e.operationVector.slot j = some x ∨ x.notifies = false ∧ x ≠ .insert := by
    intro j x hj
    rw [call_stack] at hj
    apply (Slots.of_slot_append hj).imp_right
    intro hx
    cases y with
    | insert => exact absurd rfl hy.1
    | upsert => exact absurd rfl hy.2.1
    | upload | validate | postProcessingAfterCommit | postProcessingAfterAbort
    | releaseReadCounter =>
      simp only [children, Option.getD_some, List.mem_map, Option.some.injEq,
        exists_eq_right] at hx
      obtain ⟨i, -, rfl⟩ := hx
      exact ⟨rfl, by simp⟩
    | _ => simp [children] at hx
  refine ⟨fun hn => absurd (hcar.current.symm.trans hn) hc, fun _ hf => ?_, fun hf => ?_, ?_⟩
  · rw [hsil.result]
    exact h.fresh hc (hsil.finished.symm.trans hf)
  · obtain ⟨hst, hq⟩ := h.quiet (hsil.finished.symm.trans hf)
    exact ⟨hs.symm ▸ hst, fun j x hj => (hslot j x hj).elim (hq j x) And.left⟩
  · intro j hj
    rcases hslot j _ hj with hj | ⟨-, hne⟩
    · exact absurd hj (hins j)
    · exact absurd rfl hne

theorem visit (h : Published e) (ha : Alive e) {i : ℕ} {b : Bool}
    (hv : TransactionExecution.visit i e = .ok (e', b)) : Published e' := by
  rcases visit_cases hv with rfl | ⟨op, o, e₁, hi, hf, hn, hadv, ⟨rfl, rfl⟩ | ⟨y, rfl, rfl⟩⟩
  · exact h
  · exact h.next ha hi hf hn
  · have hz := h.next ha hi hf hn
    have hlt : i < e₁.operationVector.length := by
      rw [hadv.operationVector]
      exact Slots.lt_length_of_slot hi
    have hsucc := (next_successor hn).1
    have hzi : (e₁.setSlot i (some y)).operationVector.slot i = some y := by
      rw [setSlot, Slots.slot_setSlot _ _ _ _ hlt, if_pos rfl]
    apply hz.call hsucc _ (hz.currentRequest_ne hzi)
    intro j hj
    rw [setSlot, Slots.slot_setSlot _ _ _ _ hlt, hadv.operationVector] at hj
    split at hj
    · exact hsucc.1 (Option.some.inj hj)
    · -- an insert waits only for its read, which has no successor
      have hstack := ha.writing (.inl rfl) hj
      rcases hstack.occupied.held_of_slot hi with hp | ⟨rfl, -⟩
      · obtain rfl := Option.some.inj hp
        cases (next_insert hn).1
      · cases (next_readOutside hn).1

theorem complete (h : Published e) (ha : Alive e) {op : Op} {c : HandlerCall K} {r : Reply V op}
    (hc : Completed op c r e e') : Published e' := by
  have hdata := hc.data
  have hcur : e'.currentRequest = e.currentRequest := by rw [hdata]
  have hfin : e'.requestFinished = e.requestFinished := by rw [hdata]
  have hres : e'.result = e.result := by rw [hdata]
  refine ⟨fun hn => ?_, fun hn hf => ?_, fun hf => ?_, fun i hi hm => ?_⟩
  · rw [hc.operationVector]
    exact h.current (hcur.symm.trans hn)
  · rw [hres]
    exact h.fresh (hcur ▸ hn) (hfin.symm.trans hf)
  · rw [hc.status, hc.operationVector]
    exact h.quiet (hfin.symm.trans hf)
  · rw [hc.operationVector] at hi
    rw [hc.flags] at hm
    have hstack := ha.writing (.inl rfl) hi
    obtain ⟨hop, hleaf⟩ := hstack.pending_member _ hc.mem
    dsimp only at hop hleaf
    subst hop
    rw [hstack.moved_finished _ rfl hm] at hleaf
    cases hleaf

theorem abort (hc : e.currentRequest ≠ none) (hf : e.requestFinished = false) :
    Published e.abort := by
  have hslot : ∀ i op, e.abort.operationVector.slot i = some op → op = .updateTxnStatusToAbort := by
    intro i op hi
    have hv : e.abort.operationVector = Slots.pushBack [] .updateTxnStatusToAbort := rfl
    rw [hv, Slots.slot_pushBack] at hi
    split at hi
    · exact (Option.some.inj hi).symm
    · simp at hi
  refine ⟨fun hn => absurd hn hc, fun _ _ => rfl, fun hx => ?_, fun i hi => ?_⟩
  · have hx : e.requestFinished = true := hx
    rw [hf] at hx
    cases hx
  · cases hslot i _ hi

theorem tidy (h : Published e) (hv : e.operationVector ≠ []) : Published e.tidy := by
  have hc : e.currentRequest ≠ none := fun hc => hv (h.current hc)
  unfold TransactionExecution.tidy
  split
  · next hs =>
    refine abort (e := { e with status := .aborted }) hc ?_
    change e.requestFinished = false
    cases hf : e.requestFinished with
    | false => rfl
    | true => exact absurd hs (h.quiet hf).1
  · have hslot : ∀ i, e.operationVector.trim.slot i = e.operationVector.slot i :=
      Slots.slot_trim e.operationVector
    refine ⟨fun hn => absurd hn hc, h.fresh, fun hf => ?_, fun i hi => ?_⟩
    · obtain ⟨hs, hq⟩ := h.quiet hf
      exact ⟨hs, fun i op hi => hq i op ((hslot i).symm.trans hi)⟩
    · exact h.failed i ((hslot i).symm.trans hi)

theorem start {op : Op} (hu : op ≠ .update) (hd : op ≠ .delete) (hv : e.operationVector = [])
    (hc : e.currentRequest ≠ none) (hf : e.requestFinished = false)
    (hr : e.result = Result.reset e.result.record) :
    Published (TransactionExecution.start op e) := by
  have hsil : Silent e.toExecutionState (TransactionExecution.start op e).toExecutionState :=
    call_silent hu hd (e.push op)
  have hcur := (call_told op (e.push op)).1.current
  refine ⟨fun hn => absurd (hcur.symm.trans hn) hc, fun _ _ => ?_, fun hx => ?_, fun i hi hm => ?_⟩
  · rw [hsil.result]
    exact hr
  · rw [hsil.finished, hf] at hx
    cases hx
  · exfalso
    have hop : op = .insert := by
      rcases slot_start hv hi with rfl | hi
      · rfl
      · cases op <;> simp [children] at hi
    subst hop
    have hmv : ((TransactionExecution.start .insert e).flags .readOutside).moveToNext = false :=
      issue_moveToNext (((e.push .insert).setMoveToNext .insert false).resetReadOutside
        e.args.writeKey |>.push .readOutside) .readOutside
        (.getVersionList e.args.writeKey e.commitTimestampLocal)
    rw [hmv] at hm
    cases hm

omit [DecidableEq K] [Services S] in
theorem instant (op : Op) (hop : op.notifies = false) (hne : op ≠ .insert)
    (hv : e.operationVector = [some op] ∨ e.operationVector = [])
    (hc : e.currentRequest ≠ none) (hf : e.requestFinished = true) (hs : e.status ≠ .aborting) :
    Published e := by
  have hslot : ∀ i y, e.operationVector.slot i = some y → y = op := by
    intro i y hi
    rcases hv with hv | hv <;> rw [hv] at hi
    · rw [show ([some op] : Slots Op) = Slots.pushBack [] op from rfl, Slots.slot_pushBack] at hi
      split at hi
      · exact (Option.some.inj hi).symm
      · simp at hi
    · simp at hi
  refine ⟨fun hn => absurd hn hc, fun _ hx => ?_, fun _ => ⟨hs, fun i y hi => ?_⟩, fun i hi => ?_⟩
  · rw [hf] at hx
    cases hx
  · rw [hslot i y hi]
    exact hop
  · exact absurd (hslot i _ hi).symm hne

theorem dispatch (r : OperationRequest K) (hs : e.status ≠ .aborting)
    (hv : e.operationVector = []) : Published (e.dispatch r) := by
  have hwrite : ∀ {op} (z : TransactionExecution K V S), op = .update ∨ op = .delete →
      z.operationVector = [] → z.currentRequest ≠ none → z.status ≠ .aborting →
      (TransactionExecution.start op z).requestFinished = true →
      Published (TransactionExecution.start op z) := by
    intro op z hop hz hc hst hf
    obtain ⟨hcar, hst'⟩ := call_told op (z.push op)
    refine instant op ?_ ?_ (.inl ?_) ?_ hf ?_
    · rcases hop with rfl | rfl <;> rfl
    · rcases hop with rfl | rfl <;> simp
    · rw [start_stack, hz]
      rcases hop with rfl | rfl <;> rfl
    · exact fun hn => hc (hcar.current.symm.trans hn)
    · exact fun ha => hst (hst'.symm.trans ha)
  cases r with
  | «begin» | insert key record | upsert key record | read key record | readOutside key record
  | commit => exact start (by simp) (by simp) hv (Option.some_ne_none _) rfl rfl
  | update key record =>
    refine hwrite _ (.inl rfl) hv (Option.some_ne_none _) hs ?_
    simp only [TransactionExecution.start, TransactionExecution.call, callLeaf, updateCallImpl]
    repeat' split
    all_goals rfl
  | delete key =>
    refine hwrite _ (.inr rfl) hv (Option.some_ne_none _) hs ?_
    simp only [TransactionExecution.start, TransactionExecution.call, callLeaf, deleteCallImpl]
    repeat' split
    all_goals rfl
  | readDataStore key record needToRead =>
    cases needToRead with
    | true =>
      change Published (TransactionExecution.start .readDataStore _)
      exact start (by simp) (by simp) hv (Option.some_ne_none _) rfl rfl
    | false => exact instant .update rfl (by simp) (.inr hv) (Option.some_ne_none _) rfl hs
  | abort => exact abort (Option.some_ne_none _) rfl

theorem step (h : Published e) (ha : Alive e) {a : Action K V}
    (hs : TransactionExecution.step e a = some e') : Published e' := by
  cases a with
  | dispatch r =>
    simp only [TransactionExecution.step] at hs
    split at hs
    · next hd =>
      cases hs
      have hset := ha.settled hd.1 hd.2
      exact dispatch r (by rw [hset.status]; simp) hd.1
    · cases hs
  | complete op reply =>
    obtain ⟨c, hc⟩ := complete_cases hs
    exact h.complete ha hc
  | visit i =>
    simp only [TransactionExecution.step] at hs
    cases hv : TransactionExecution.visit i e with
    | error m =>
      rw [hv] at hs
      cases hs
    | ok p =>
      rw [hv] at hs
      cases hs
      exact h.visit (b := p.2) ha hv
  | tidy =>
    simp only [TransactionExecution.step] at hs
    split at hs
    · cases hs
    · next hv =>
      cases hs
      exact h.tidy hv

end Published

theorem Answering.step (h : Answering e) (ha : Alive e) {a : Action K V}
    (hs : TransactionExecution.step e a = some e') : Answering e' := by
  cases a with
  | dispatch r =>
    simp only [TransactionExecution.step] at hs
    split at hs
    · cases hs
      exact Answering.dispatch r e
    · cases hs
  | complete op reply =>
    obtain ⟨c, hc⟩ := complete_cases hs
    exact h.complete hc
  | visit i =>
    simp only [TransactionExecution.step] at hs
    cases hv : TransactionExecution.visit i e with
    | error m =>
      rw [hv] at hs
      cases hs
    | ok p =>
      rw [hv] at hs
      cases hs
      exact h.visit (b := p.2) ha hv
  | tidy =>
    simp only [TransactionExecution.step] at hs
    split at hs
    · cases hs
    · next hv =>
      cases hs
      have ht := h.tidied
      rw [TransactionExecution.tidied, if_neg hv] at ht
      exact ht

/-- An insert that is about to be left finds its key deleted, unless its read failed. -/
def InsertsNew (e : TransactionExecution K V S) (a : Action K V) : Prop :=
  ∀ i, a = .visit i → e.operationVector.slot i = some .insert → e.isFinished .insert = true →
    (e.handlerResult .readOutside).isError = true ∨ e.findsDeleted = true

instance (e : TransactionExecution K V S) : (a : Action K V) → Decidable (InsertsNew e a)
  | .visit i =>
    decidable_of_iff (e.operationVector.slot i = some .insert → e.isFinished .insert = true →
      (e.handlerResult .readOutside).isError = true ∨ e.findsDeleted = true)
      ⟨fun h _ hj => (by cases hj; exact h), fun h => h i rfl⟩
  | .dispatch _ | .complete _ _ | .tidy => .isTrue fun _ hj => by cases hj

namespace Published

/-- Once the request was notified the verdict stays unless an insert finds its key. -/
theorem visit_keeps (h : Published e) (hf : e.requestFinished = true) {i : ℕ}
    {b : Bool} (hv : TransactionExecution.visit i e = .ok (e', b)) :
    e'.result.verdict = e.result.verdict ↔ InsertsNew e (.visit i : Action K V) := by
  unfold TransactionExecution.visit at hv
  split at hv
  · next hslot =>
    cases hv
    refine iff_of_true rfl fun j hj hi => ?_
    cases hj
    rw [hslot] at hi
    cases hi
  · next op hslot =>
    split at hv
    · next hfin =>
      by_cases hop : op = .insert
      · subst hop
        have hmoved : (e.flags .readOutside).moveToNext = true := by
          simp [isFinished, children, isCascadeFinished] at hfin
          exact hfin.2
        have hnew : InsertsNew e (.visit i : Action K V) ↔
            (e.handlerResult .readOutside).isError = true ∨ e.findsDeleted = true := by
          constructor
          · exact fun hi => hi i rfl hslot hfin
          · exact fun hi _ _ _ _ => hi
        have herr := h.failed i hslot hmoved
        rw [hnew, ← herr]
        split at hv
        · cases hv
        · next y e₁ hn => cases (next_insert hn).1
        · next e₁ hn =>
          cases hv
          obtain ⟨-, -, -, hres⟩ := next_insert hn
          change e₁.result.verdict = _ ↔ _
          rw [hres]
          cases e.findsDeleted with
          | true => exact iff_of_true rfl (.inr rfl)
          | false =>
            constructor
            · exact fun hverd => .inl (congrArg Verdict.isError hverd).symm
            · rintro (he | he)
              · simp [Result.verdict, he]
              · cases he
      · have hnot := (h.quiet hf).2 i op hslot
        have hnew : InsertsNew e (.visit i : Action K V) := by
          intro j hj hi
          cases hj
          rw [hslot] at hi
          exact absurd (Option.some.inj hi) hop
        refine iff_of_true ?_ hnew
        have hres : ∀ {o e₁}, TransactionExecution.next op e = .ok (o, e₁) →
            e₁.result = e.result := by
          intro o e₁ hn
          by_cases hu : op = .upsert
          · subst hu
            exact (next_upsert hn).2.2
          · exact (next_silent hnot ⟨hop, hu⟩ hn).1.result
        split at hv
        · cases hv
        · next y e₁ hn =>
          cases hv
          have hsucc := (next_successor hn).1
          have hsil := call_silent hsucc.2.2.1 hsucc.2.2.2 (e₁.setSlot i (some y))
          rw [hsil.result]
          exact congrArg Result.verdict (hres hn :)
        · next e₁ hn =>
          cases hv
          exact congrArg Result.verdict (hres hn :)
    · next hfin =>
      cases hv
      refine iff_of_true rfl fun j hj hi hfin' => ?_
      cases hj
      obtain rfl := Option.some.inj (hslot.symm.trans hi)
      exact absurd hfin' hfin

theorem keeps (h : Published e) (hf : e.requestFinished = true) {a : Action K V}
    (hd : ∀ r, a ≠ .dispatch r) (hs : TransactionExecution.step e a = some e') :
    e'.requestFinished = true ∧ (e'.result.verdict = e.result.verdict ↔ InsertsNew e a) := by
  cases a with
  | dispatch r => exact absurd rfl (hd r)
  | complete op reply =>
    obtain ⟨c, hc⟩ := complete_cases hs
    have hdata := hc.data
    refine ⟨by rw [hdata]; exact hf, iff_of_true (by rw [hdata]) ?_⟩
    exact fun i hi => by cases hi
  | visit i =>
    simp only [TransactionExecution.step] at hs
    cases hv : TransactionExecution.visit i e with
    | error m =>
      rw [hv] at hs
      cases hs
    | ok p =>
      rw [hv] at hs
      cases hs
      refine ⟨?_, h.visit_keeps (b := p.2) hf hv⟩
      rcases visit_cases (b := p.2) hv with heq | ⟨op, o, e₁, -, -, hn, -, ⟨-, heq⟩ | ⟨y, -, heq⟩⟩
      · rw [heq]
        exact hf
      · rw [heq]
        exact (next_told hn).1.finished hf
      · rw [heq]
        exact (call_told y _).1.finished ((next_told hn).1.finished hf)
  | tidy =>
    simp only [TransactionExecution.step] at hs
    split at hs
    · cases hs
    · cases hs
      unfold TransactionExecution.tidy
      rw [if_neg (h.quiet hf).1]
      exact ⟨hf, iff_of_true rfl fun i hi => by cases hi⟩

end Published

theorem Answering.inserting (h : Answering e) (ha : Alive e) (hp : Published e) {i : ℕ}
    (hi : e.operationVector.slot i = some .insert) (hf : e.isFinished .insert = true) :
    e.requestFinished = true := by
  rcases h with hc | hfin | hs | ⟨j, op, hj, hop⟩
  · exact absurd hc (hp.currentRequest_ne hi)
  · exact hfin
  · rw [ha.slot_of_aborting hs i] at hi
    cases hi
  · exfalso
    rcases (ha.writing (.inl rfl) hi).occupied.held_of_slot hj with hpar | ⟨rfl, -⟩
    · obtain rfl := Option.some.inj hpar
      cases hop
    · exact ha.sound.waits i .insert hi hf (by simp) j hj

theorem Published.run {e₀ : TransactionExecution K V S} {as : List (Action K V)}
    (hv : e₀.operationVector = []) (hp : e₀.pending = [])
    (hr : Fugue.run TransactionExecution.step e₀.reset as = some e) :
    Alive e ∧ Published e ∧ Answering e := by
  apply run_invariant (I := fun z => Alive z ∧ Published z ∧ Answering z) _ _ hr
  · rintro z a z' ⟨h1, h2, h3⟩ hs
    exact ⟨h1.step hs, h2.step h1 hs, h3.step h1 hs⟩
  · exact ⟨.reset hv hp, .reset hv, .inl rfl⟩

/-- A published result is final if and only if every insert whose read did not fail finds an entry
of its key that is deleted. -/
theorem published_final {e₀ : TransactionExecution K V S} {as : List (Action K V)}
    (hv : e₀.operationVector = []) (hp : e₀.pending = []) (hr : run step e₀.reset as = some e) :
    (∀ pre mid post y z, as = pre ++ mid ++ post → (∀ r, Action.dispatch r ∉ mid) →
      run step e₀.reset pre = some y → run step y mid = some z → y.requestFinished = true →
        z.result.verdict = y.result.verdict) ↔ Along step InsertsNew e₀.reset as := by
  constructor
  · intro hfinal
    rw [along_iff_split]
    rintro pre a post y rfl hy i rfl hslot hfin
    obtain ⟨ha, hpub, hans⟩ := Published.run hv hp hy
    have htold := hans.inserting ha hpub hslot hfin
    obtain ⟨y', hy', hrest⟩ := run_append.mp hr
    obtain rfl := Option.some.inj (hy.symm.trans hy')
    obtain ⟨z, hz, -⟩ := run_cons.mp hrest
    have hsame := hfinal pre [.visit i] post y z (by simp) (by simp) hy
      (run_cons.mpr ⟨z, hz, rfl⟩) htold
    exact (hpub.keeps htold (by simp) hz).2.mp hsame i rfl hslot hfin
  · rintro hal pre mid post y z rfl hmid hy hz htold
    have hsplit := along_iff_split.mp hal
    have hal' : Along step (fun s a => InsertsNew s a ∧ ∀ r, a ≠ .dispatch r) y mid := by
      rw [along_iff_split]
      rintro pre' a post' t rfl ht
      refine ⟨hsplit (pre ++ pre') a (post' ++ post) t (by simp) (run_append.mpr ⟨y, hy, ht⟩), ?_⟩
      rintro r rfl
      exact hmid r (by simp)
    obtain ⟨ha, hpub, -⟩ := Published.run hv hp hy
    have hend := run_invariant_along (I := fun t => Alive t ∧ Published t ∧
      t.requestFinished = true ∧ t.result.verdict = y.result.verdict) ?_ hal'
      ⟨ha, hpub, htold, rfl⟩ hz
    · exact hend.2.2.2
    · rintro t a t' ⟨hnew, hnd⟩ ⟨h1, h2, h3, h4⟩ hs
      obtain ⟨hf, hkeep⟩ := h2.keeps h3 hnd hs
      exact ⟨h1.step hs, h2.step h1 hs, hf, (hkeep.mpr hnew).trans h4⟩

def sampleInsert (v : VersionEntry) : List (Action ℕ ℕ) :=
  [.dispatch .begin, sampleAnswer .initTxn, .visit 0, .tidy, .dispatch (.insert ⟨"t", 1⟩ (some 7)),
    .complete .readOutside ⟨false, (v, .blank none), []⟩, .visit 1]

def samplePseudo : VersionEntry :=
  { VersionEntry.blank none with version := 0, beginTs := 0, endTs := int64Max }

def sampleLive : VersionEntry :=
  { VersionEntry.blank (some 3) with version := 0, beginTs := 0, endTs := int64Max,
                                     isDeleted := false }

/-- The client is told of a success first, and of an error after it. -/
theorem published_final_insert : ∃ y z : TransactionExecution ℕ ℕ LocalServices,
    run step sampleExecution.reset (sampleInsert sampleLive) = some y ∧
    run step y [.visit 0] = some z ∧ y.requestFinished = true ∧
    y.result.verdict = ⟨false, false, false, .ongoing⟩ ∧
    z.result.verdict = ⟨false, false, true, .ongoing⟩ := by
  have h : (run step sampleExecution.reset (sampleInsert sampleLive)).bind (fun y =>
      (run step y [.visit 0]).map fun z =>
        (y.requestFinished, y.result.verdict, z.result.verdict)) =
      some (true, ⟨false, false, false, .ongoing⟩, ⟨false, false, true, .ongoing⟩) := by
    decide +kernel
  obtain ⟨y, hy, h⟩ := Option.bind_eq_some_iff.mp h
  obtain ⟨z, hz, h⟩ := Option.map_eq_some_iff.mp h
  simp only [Prod.mk.injEq] at h
  exact ⟨y, z, hy, hz, h.1, h.2.1, h.2.2⟩

theorem published_final_sample : ∃ y z : TransactionExecution ℕ ℕ LocalServices,
    run step sampleExecution.reset (sampleInsert samplePseudo) = some y ∧
    run step y [.visit 0] = some z ∧ y.requestFinished = true ∧
    z.keyWriteSet.popIndex = 1 ∧ z.result.verdict = y.result.verdict := by
  have h : (run step sampleExecution.reset (sampleInsert samplePseudo)).bind (fun y =>
      (run step y [.visit 0]).map fun z => (y.requestFinished, z.keyWriteSet.popIndex)) =
      some (true, 1) := by
    decide +kernel
  have hok : Along step InsertsNew sampleExecution.reset
      (sampleInsert samplePseudo ++ [.visit 0]) := by
    decide +kernel
  obtain ⟨y, hy, h⟩ := Option.bind_eq_some_iff.mp h
  obtain ⟨z, hz, h⟩ := Option.map_eq_some_iff.mp h
  simp only [Prod.mk.injEq] at h
  refine ⟨y, z, hy, hz, h.1, h.2, ?_⟩
  exact (published_final rfl rfl (run_append.mpr ⟨y, hy, hz⟩)).mpr hok (sampleInsert samplePseudo)
    [.visit 0] [] y z (by simp) (by simp) hy hz h.1

end TransactionExecution

end Fugue
