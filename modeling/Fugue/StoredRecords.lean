import Fugue.WriteRequests

namespace Fugue

variable {K V S : Type}

def OperationRequest.buffer : OperationRequest K → Option Addr
  | .insert _ record => record
  | .upsert _ record => record
  | .read _ record => record
  | .readOutside _ record => record
  | .readDataStore _ record _ => record
  | _ => none

/-- The operations that may copy a payload into the record of the current request. -/
def Op.isRead : Op → Bool
  | .readOutside => true
  | .readDataStore => true
  | _ => false

structure KeyWriteSetEntryPool.Keeps (k : SetKey K) (a : Addr) (i : ℕ)
    (p : KeyWriteSetEntryPool K) : Prop where
  lt : i < p.popIndex
  key : p.key i = some k
  record : (p.entry i).record = some a

namespace KeyWriteSetEntryPool.Keeps

variable {p : KeyWriteSetEntryPool K} {k : SetKey K} {a : Addr} {i : ℕ}

theorem setPostProcessing (h : Keeps k a i p) (j : ℕ) : Keeps k a i (p.setPostProcessing j) where
  lt := h.lt
  key := (key_setPostProcessing i j).trans h.key
  record := by
    rw [← h.record]
    exact Pool.get_modify_field (fun o : KeyWriteSetEntry K => o.entry.record) _ _ _ _ fun _ => rfl

theorem setDeleted (h : Keeps k a i p) {j : ℕ} (hj : p.key j ≠ some k) :
    Keeps k a i (p.setDeleted j) where
  lt := h.lt
  key := (key_setDeleted i j).trans h.key
  record := by
    have hne : i ≠ j := by
      rintro rfl
      exact hj h.key
    rw [← h.record]
    exact congrArg (fun o : KeyWriteSetEntry K => o.entry.record) (Pool.get_modify_ne p _ hne)

theorem adds {k' : SetKey K} {q : KeyWriteSetEntryPool K} (h : Keeps k a i p) (hq : p.Adds k' q) :
    Keeps k a i q := by
  obtain ⟨version, isDeleted, record, readEntry, rfl⟩ := hq
  have hget : (p.newWriteSetEntry k' version isDeleted record readEntry false).get i = p.get i :=
    (Pool.get_modify_ne _ _ (Nat.ne_of_lt h.lt)).trans (Pool.get_new p i)
  constructor
  · rw [popIndex_newWriteSetEntry]
    exact Nat.lt_succ_of_lt h.lt
  · exact (congrArg KeyWriteSetEntry.key hget).trans h.key
  · exact (congrArg (fun o : KeyWriteSetEntry K => o.entry.record) hget).trans h.record

end KeyWriteSetEntryPool.Keeps

namespace TransactionExecution

variable [DecidableEq K] [Services S] {e e' e₁ : TransactionExecution K V S}

theorem next_memory {op : Op} {o : Option Op} (hop : op.isRead = false)
    (h : next op e = .ok (o, e₁)) :
    e₁.memory = e.memory ∧ e₁.result.record = e.result.record := by
  unfold next at h
  cases op with
  | readOutside | readDataStore => cases hop
  | insert =>
    simp only [nextImpl, insertNext, noNext] at h
    cases h
    repeat' split
    all_goals exact ⟨rfl, rfl⟩
  | upsert =>
    simp only [nextImpl, upsertNext, noNext] at h
    cases h
    split <;> exact ⟨rfl, rfl⟩
  | postProcessingCommitEntryAfterCommit i =>
    simp only [nextImpl, clearReleaseOfWrite] at h
    split at h <;> cases h
    split <;> exact ⟨rfl, rfl⟩
  | postProcessingDeleteEntryAfterAbort i =>
    simp only [nextImpl, deleteEntryNext] at h
    split at h
    · cases h
    · split at h <;> cases h
      · split <;> exact ⟨rfl, rfl⟩
      · exact ⟨rfl, rfl⟩
  | _ =>
    simp only [nextImpl, uploadVersionEntryNext, updateReadEntryMaxCommitTsNext,
      pushConflictNext] at h
    repeat' split at h
    all_goals cases h
    all_goals exact ⟨rfl, rfl⟩

theorem call_memory (op : Op) (e : TransactionExecution K V S) :
    (call op e).memory = e.memory ∧ (call op e).result.record = e.result.record := by
  rw [call_data]
  cases op with
  | update =>
    simp only [callData, updateCallImpl]
    repeat' split
    all_goals exact ⟨rfl, rfl⟩
  | delete =>
    simp only [callData, deleteCallImpl]
    repeat' split
    all_goals exact ⟨rfl, rfl⟩
  | writeToLog =>
    simp only [callData, writeToLogCallImpl]
    split <;> exact ⟨rfl, rfl⟩
  | _ => exact ⟨rfl, rfl⟩

omit [DecidableEq K] [Services S] in
theorem setResultRecord_memory_ne {a : Addr} (ha : e.result.record ≠ some a)
    (record : Option Addr) : (e.setResultRecord record).memory a = e.memory a := by
  unfold setResultRecord
  split
  · rfl
  · next dst src hdst =>
    split
    · rfl
    · apply Function.update_of_ne
      rintro rfl
      exact ha hdst
  · rfl

omit [DecidableEq K] [Services S] in
theorem internalRead_memory_ne {a : Addr} (ha : e.result.record ≠ some a)
    (h : e.internalRead = .ok e') : e'.memory a = e.memory a := by
  unfold internalRead at h
  split at h
  · cases h
  · cases h
    split
    · rfl
    · exact setResultRecord_memory_ne (e := e.fillReadSet _ _ _) ha _
  · cases h
    rfl

theorem next_memory_ne {op : Op} {o : Option Op} {a : Addr} (ha : e.result.record ≠ some a)
    (h : next op e = .ok (o, e₁)) : e₁.memory a = e.memory a := by
  by_cases hop : op.isRead = true
  · unfold next at h
    cases op with
    | readOutside =>
      simp only [nextImpl] at h
      split at h
      · cases h
        rfl
      · cases hr : (e.setFlags .readOutside ⟨true, true⟩).internalRead with
        | error m =>
          rw [hr] at h
          cases h
        | ok z =>
          rw [hr] at h
          cases h
          have hz : z.memory a = e.memory a :=
            internalRead_memory_ne (e := e.setFlags .readOutside ⟨true, true⟩) ha hr
          exact hz
    | readDataStore =>
      simp only [nextImpl, readDataStoreNext, noNext] at h
      cases h
      split
      · rfl
      · split
        · rfl
        · exact setResultRecord_memory_ne (e := e.setFlags .readDataStore ⟨true, true⟩) ha _
    | _ => cases hop
  · rw [(next_memory (by simpa using hop) h).1]

theorem dispatch_memory (q : OperationRequest K) (e : TransactionExecution K V S) :
    (e.dispatch q).memory = e.memory ∧ (e.dispatch q).result.record = q.buffer := by
  have hs : ∀ op (z : TransactionExecution K V S), z.memory = e.memory →
      z.result.record = q.buffer →
      (start op z).memory = e.memory ∧ (start op z).result.record = q.buffer := by
    intro op z hm hr
    obtain ⟨hm', hr'⟩ := call_memory op (z.push op)
    exact ⟨hm'.trans hm, hr'.trans hr⟩
  cases q with
  | readDataStore key record needToRead =>
    simp only [dispatch]
    split
    · exact hs _ _ rfl rfl
    · exact ⟨rfl, rfl⟩
  | abort => exact ⟨rfl, rfl⟩
  | _ =>
    simp only [dispatch]
    exact hs _ _ rfl rfl

theorem dispatch_keyWriteSet_cases (q : OperationRequest K) (e : TransactionExecution K V S) :
    (e.dispatch q).keyWriteSet = e.keyWriteSet ∨
      (∃ k version isDeleted record i, (e.dispatch q).keyWriteSet =
          e.keyWriteSet.newWriteSetEntry k version isDeleted record (some i) false ∧
        (q = .update k record ∧ isDeleted = false ∨
          q = .delete k ∧ isDeleted = true ∧ record = none)) ∨
      ∃ k i, q = .delete k ∧ e.findInWriteSet k = some i ∧
        (e.dispatch q).keyWriteSet = e.keyWriteSet.setDeleted i := by
  have hs : ∀ op (z : TransactionExecution K V S), op ≠ .update → op ≠ .delete →
      z.keyWriteSet = e.keyWriteSet → (start op z).keyWriteSet = e.keyWriteSet :=
    fun op z hu hd hz => (call_keyWriteSet hu hd _).trans hz
  cases q with
  | update key record =>
    let z := ((({ e with currentRequest := some (.update key record), requestFinished := false } :
      TransactionExecution K V S).resetResultRecord none |>.resetWrite key record).push
        .update).setMoveToNext .update false
    have hk : (e.dispatch (.update key record)).keyWriteSet = z.written .update :=
      updateCallImpl_written z
    rw [hk]
    unfold written
    cases z.target .update with
    | none => exact .inl rfl
    | some i => exact .inr (.inl ⟨key, _, false, record, i, rfl, .inl ⟨rfl, rfl⟩⟩)
  | delete key =>
    let z := ((({ e with currentRequest := some (.delete key), requestFinished := false } :
      TransactionExecution K V S).resetResultRecord none |>.resetWrite key none).push
        .delete).setMoveToNext .delete false
    rcases deleteCallImpl_keyWriteSet z with ⟨j, hj, hset⟩ | hsame | ⟨-, i, hi⟩
    · exact .inr (.inr ⟨key, j, rfl, hj, hset⟩)
    · exact .inl hsame
    · exact .inr (.inl ⟨key, _, true, none, i, hi, .inr ⟨rfl, rfl, rfl⟩⟩)
  | readDataStore key record needToRead =>
    left
    cases needToRead with
    | true => exact hs .readDataStore _ (by simp) (by simp) rfl
    | false => rfl
  | abort => exact .inl rfl
  | _ =>
    left
    simp only [dispatch]
    exact hs _ _ (by simp) (by simp) rfl

section

omit [DecidableEq K] [Services S]

theorem Serving.read_alone (h : Serving e) {i j : ℕ} {op y : Op}
    (hi : e.operationVector.slot i = some op) (hj : e.operationVector.slot j = some y)
    (ho : op.isRead = true) (hy : y.isRead = true) : i = j := by
  have hone : ∀ {parent : Option Op} {z : Op},
      (∀ p, parent = some p → p.isRead = false) → Stacked parent (· = z) e → i = j := by
    intro parent z hp hst
    have heq : ∀ {l : ℕ} {w : Op}, e.operationVector.slot l = some w → w.isRead = true → w = z := by
      intro l w hl hw
      rcases hst.occupied.held_of_slot hl with hpar | ⟨hm, -⟩
      · rw [hp w hpar] at hw
        cases hw
      · exact hm
    apply hst.occupied.unique i j z
    · rw [hi, heq hi ho]
    · rw [hj, heq hj hy]
  cases h with
  | idle n h size stacked =>
    rcases stacked.occupied.held_of_slot hi with hp | ⟨hm, -⟩
    · cases hp
    · exact hm.elim
  | single n h size op' hop stacked => exact hone (fun p hp => by cases hp) stacked
  | reading n h parent hp stacked =>
    refine hone (fun p hpar => ?_) stacked
    rcases hp with rfl | rfl | rfl <;> cases hpar <;> rfl
  | returned n h size op' hop stacked =>
    refine hone (fun p hpar => ?_) stacked
    rcases hop with rfl | rfl <;> cases hpar <;> rfl
  | instant n h size op' hop stacked =>
    rcases stacked.occupied.held_of_slot hi with hpar | ⟨hm, -⟩
    · obtain rfl := Option.some.inj hpar
      rcases hop with rfl | rfl <;> cases ho
    · exact hm.elim

end

theorem isRead_of_rank {op : Op} (h : 0 < op.rank) : op.isRead = false := by
  cases op <;> first | rfl | cases h

structure Guarded (key : SetKey K) (a : Addr) (i : ℕ) (v : V) (e : TransactionExecution K V S) :
    Prop where
  alive : Alive e
  memory : e.memory a = v
  entry : e.keyWriteSet.Keeps key a i
  read : ∀ j op, e.operationVector.slot j = some op → op.isRead = true → e.result.record ≠ some a

/-- A step that gives the record `a` to no other request and does not delete the key. -/
def Spares (key : SetKey K) (a : Addr) : Action K V → Prop
  | .dispatch q => q.buffer ≠ some a ∧ q ≠ .delete key
  | .complete _ reply => ∀ c ∈ reply.copies, c.1 ≠ a
  | _ => True

namespace Guarded

variable {key : SetKey K} {a : Addr} {i : ℕ} {v : V}

theorem dispatch (h : Guarded key a i v e) {q : OperationRequest K}
    (hq : Spares (V := V) key a (.dispatch q)) (hs : step e (.dispatch q) = some e') :
    Guarded key a i v e' := by
  have halive := h.alive.step hs
  simp only [TransactionExecution.step] at hs
  split at hs
  · cases hs
    obtain ⟨hm, hr⟩ := dispatch_memory q e
    refine ⟨halive, ?_, ?_, ?_⟩
    · rw [hm, h.memory]
    · rcases dispatch_keyWriteSet_cases q e with hset | ⟨k, version, isDeleted, record, l, hadd, -⟩ |
        ⟨k, l, rfl, hl, hset⟩
      · rw [hset]
        exact h.entry
      · exact h.entry.adds ⟨version, isDeleted, record, some l, hadd⟩
      · rw [hset]
        apply h.entry.setDeleted
        have hk : e.keyWriteSet.key l = some k := of_decide_eq_true (Pool.find_eq_some hl).2.1
        rw [hk]
        rintro ⟨⟩
        exact hq.2 rfl
    · intro j op _ _
      rw [hr]
      exact hq.1
  · cases hs

theorem complete (h : Guarded key a i v e) {op : Op} {reply : Reply V op}
    (hq : Spares key a (.complete op reply)) (hs : e.complete op reply = some e') :
    Guarded key a i v e' := by
  obtain ⟨c, hc⟩ := complete_cases hs
  have hcopies : ∀ (l : List (Addr × V)) (m : Addr → V), (∀ p ∈ l, p.1 ≠ a) →
      (l.foldl (fun m (p : Addr × V) => Function.update m p.1 p.2) m) a = m a := by
    intro l
    induction l with
    | nil => exact fun m _ => rfl
    | cons p l ih =>
      intro m hl
      rw [List.foldl_cons, ih _ fun q hq => hl q (List.mem_cons_of_mem _ hq)]
      exact Function.update_of_ne (Ne.symm (hl p List.mem_cons_self)) _ _
  refine ⟨h.alive.step (a := .complete op reply) hs, ?_, ?_, ?_⟩
  · unfold TransactionExecution.complete at hs
    obtain ⟨p, -, rfl⟩ := Option.map_eq_some_iff.mp hs
    exact (hcopies reply.copies e.memory hq).trans h.memory
  · rw [hc.keyWriteSet]
    exact h.entry
  · intro j y hj hy
    rw [hc.operationVector] at hj
    rw [show e'.result = e.result from (congrArg ExecutionState.result hc.data :)]
    exact h.read j y hj hy

theorem next_keeps {op : Op} {o : Option Op} (h : e.keyWriteSet.Keeps key a i)
    (hn : next op e = .ok (o, e₁)) : e₁.keyWriteSet.Keeps key a i := by
  rcases next_keyWriteSet hn with hw | ⟨j, hw⟩ <;> rw [hw]
  · split
    · rcases written_cases e op with ⟨-, hadd⟩ | ⟨-, hsame⟩
      · exact h.adds hadd
      · rw [hsame]
        exact h
    · exact h
  · exact h.setPostProcessing j

theorem visit (h : Guarded key a i v e) {j : ℕ} {b : Bool}
    (hv : TransactionExecution.visit j e = .ok (e', b)) : Guarded key a i v e' := by
  have halive : Alive e' := h.alive.step (a := .visit j) (by
    simp [TransactionExecution.step, hv, Except.map, Except.toOption])
  rcases visit_cases hv with rfl | ⟨op, o, e₁, hj, hf, hn, ha, hcase⟩
  · exact h
  have hmem : e₁.memory a = v := by
    rw [← h.memory]
    by_cases hop : op.isRead = true
    · exact next_memory_ne (h.read j op hj hop) hn
    · rw [(next_memory (by simpa using hop) hn).1]
  have hkeep := next_keeps h.entry hn
  -- the slots that are left as they were
  have hslot : ∀ o' l x, (e₁.setSlot j o').operationVector.slot l = some x →
      l = j ∧ o' = some x ∨ l ≠ j ∧ e.operationVector.slot l = some x := by
    intro o' l x hl
    change (Slots.setSlot e₁.operationVector j o').slot l = some x at hl
    rw [ha.operationVector, Slots.slot_setSlot _ _ _ _ (Slots.lt_length_of_slot hj)] at hl
    split at hl
    · next hlj => exact .inl ⟨hlj, hl⟩
    · next hlj => exact .inr ⟨hlj, hl⟩
  have hrecord : ∀ l x, l ≠ j → e.operationVector.slot l = some x → x.isRead = true →
      e₁.result.record ≠ some a := by
    intro l x hlj hl hx
    by_cases hop : op.isRead = true
    · cases h.alive with
      | serving hs => exact absurd (hs.read_alone hl hj hx hop) hlj
      | ending _ _ _ _ hp =>
        rw [isRead_of_rank (hp.rank_of_slot hj)] at hop
        cases hop
    · rw [(next_memory (by simpa using hop) hn).2]
      exact h.read l x hl hx
  rcases hcase with ⟨rfl, rfl⟩ | ⟨y, rfl, rfl⟩
  · refine ⟨halive, hmem, hkeep, ?_⟩
    intro l x hl hx
    rcases hslot none l x hl with ⟨-, hy⟩ | ⟨hlj, hl⟩
    · cases hy
    · exact hrecord l x hlj hl hx
  · obtain ⟨hu, hd⟩ := next_some hn
    obtain ⟨hm, hr⟩ := call_memory y (e₁.setSlot j (some y))
    refine ⟨halive, ?_, ?_, ?_⟩
    · rw [hm]
      exact hmem
    · rw [call_keyWriteSet hu hd]
      exact hkeep
    · intro l x hl hx
      rw [hr]
      rcases next_rank hn with ⟨hop, -⟩ | ⟨-, rfl⟩
      · -- no read is on the stack of a commit or abort request
        exfalso
        cases h.alive with
        | serving hs =>
          rw [hs.rank_of_slot hj] at hop
          cases hop
        | ending x₀ gaveUp s entries hp =>
          obtain ⟨s', hs'⟩ := hp.visit hv
          rw [isRead_of_rank (hs'.rank_of_slot hl)] at hx
          cases hx
      · have hcall : (call .initTxn (e₁.setSlot j (some .initTxn))).operationVector =
            (e₁.setSlot j (some .initTxn)).operationVector := rfl
        rw [hcall] at hl
        rcases hslot _ l x hl with ⟨-, hy⟩ | ⟨hlj, hl⟩
        · obtain rfl := Option.some.inj hy
          cases hx
        · exact hrecord l x hlj hl hx

theorem tidy (h : Guarded key a i v e) (hne : e.operationVector ≠ []) :
    Guarded key a i v e.tidy := by
  have halive : Alive e.tidy := h.alive.step (a := .tidy) (by
    simp [TransactionExecution.step, hne])
  unfold TransactionExecution.tidy at halive ⊢
  split
  · next hst =>
    rw [if_pos hst] at halive
    refine ⟨halive, h.memory, h.entry, ?_⟩
    intro l x _ _ hr
    cases hr
  · next hst =>
    rw [if_neg hst] at halive
    refine ⟨halive, h.memory, h.entry, ?_⟩
    intro l x hl hx
    exact h.read l x (by simpa using hl) hx

theorem run (h : Guarded key a i v e) {as : List (Action K V)}
    (hsp : ∀ b ∈ as, Spares key a b) (hr : Fugue.run step e as = some e') :
    Guarded key a i v e' := by
  apply run_invariant_of_mem _ h hr
  intro z b z' hb hz hs
  cases b with
  | dispatch q => exact hz.dispatch (hsp _ hb) hs
  | complete op reply => exact hz.complete (hsp _ hb) hs
  | visit j =>
    simp only [TransactionExecution.step] at hs
    cases hv : TransactionExecution.visit j z with
    | error m =>
      rw [hv] at hs
      cases hs
    | ok p =>
      rw [hv] at hs
      cases hs
      exact hz.visit (b := p.2) hv
  | tidy =>
    simp only [TransactionExecution.step] at hs
    split at hs
    · cases hs
    · next hne =>
      cases hs
      exact hz.tidy hne

end Guarded

theorem map_some_filterMap {α β : Type} {f : α → Option β} {l : List α}
    (h : ∀ x ∈ l, (f x).isSome = true) : (l.filterMap f).map some = l.map f := by
  induction l with
  | nil => rfl
  | cons x l ih =>
    obtain ⟨y, hy⟩ := Option.isSome_iff_exists.mp (h x List.mem_cons_self)
    rw [List.filterMap_cons_some hy, List.map_cons, List.map_cons, hy,
      ih fun z hz => h z (List.mem_cons_of_mem _ hz)]

theorem Alive.commit_call (h : Alive e) {i : ℕ} {c : HandlerCall K}
    (hc : (callsOf HandlerCall.isCommitVersion e.log)[i]? = some c) :
    ∃ k, e.keyWriteSet.key i = some k ∧ c = commitCall e.toExecutionState e.commitTimestamp i k := by
  rw [callsOf_eq fun c hc => by cases c <;> simp_all [HandlerCall.isCommitVersion,
    HandlerCall.isOutcome]] at hc
  cases h with
  | serving h =>
    obtain ⟨n, ho⟩ := h.opened
    rw [ho.outcome] at hc
    simp at hc
  | ending x gaveUp s entries h =>
    rw [h.outcome] at hc
    have hcommit : Validated x e → s ≠ .upload →
        (e.postProcessIndex.filterMap ((commitFamily : Family K V S).request
          e.toExecutionState))[i]? = some c →
        ∃ k, e.keyWriteSet.key i = some k ∧
          c = commitCall e.toExecutionState e.commitTimestamp i k := by
      intro hval hs hc
      have hindex : e.postProcessIndex = List.range e.keyWriteSet.popIndex := by
        apply List.filter_eq_self.mpr
        intro j hj
        have hj : j < x.keyWriteSet.popIndex := h.core.sets.writeSize ▸ List.mem_range.mp hj
        exact (h.posted hs j hj).mpr (.inr (hval.uploaded j hj))
      have hall : ∀ j ∈ e.postProcessIndex,
          ((commitFamily : Family K V S).request e.toExecutionState j).isSome = true := by
        intro j hj
        rw [hindex, List.mem_range, h.core.sets.writeSize] at hj
        obtain ⟨k, l, hk, -⟩ := entries.write j hj
        rw [← h.core.sets.writeKey] at hk
        simp [commitFamily, hk]
      have hget := congrArg (·[i]?) (map_some_filterMap hall)
      simp only [List.getElem?_map, hc, Option.map_some] at hget
      obtain ⟨j, hj, hreq⟩ := Option.map_eq_some_iff.mp hget.symm
      rw [hindex] at hj
      obtain ⟨hlt, heq⟩ := List.getElem?_eq_some_iff.mp hj
      rw [List.getElem_range] at heq
      subst heq
      obtain ⟨k, hk, rfl⟩ := Option.map_eq_some_iff.mp hreq
      exact ⟨k, hk, rfl⟩
    cases s <;> simp only [TransactionExecution.outcome] at hc
    case commit | committed =>
      rw [List.filter_cons_of_neg (by simp [HandlerCall.isCommitVersion]),
        filter_requests fun j c hc => (commit_request hc).2.1] at hc
      exact hcommit h.facts.2.1 (by simp) hc
    case delete | release | aborted =>
      rw [List.filter_cons_of_neg (by simp [HandlerCall.isCommitVersion]),
        filter_requests fun j c hc => (delete_request hc).2.1] at hc
      simp at hc
    all_goals simp [HandlerCall.isCommitVersion] at hc

/-- The write-set entry `i` for `key` has the record `a` with the value `v`, and the `CommitVersion`
call for the entry passes that record. -/
def Stores (key : SetKey K) (a : Addr) (v : V) (i : ℕ) (e : TransactionExecution K V S) : Prop :=
  e.memory a = v ∧ e.keyWriteSet.Keeps key a i ∧
    ∀ c, (callsOf HandlerCall.isCommitVersion e.log)[i]? = some c →
      c = commitCall e.toExecutionState e.commitTimestamp i key

theorem Guarded.stores {key : SetKey K} {a : Addr} {i : ℕ} {v : V} (h : Guarded key a i v e) :
    Stores key a v i e := by
  refine ⟨h.memory, h.entry, fun c hc => ?_⟩
  obtain ⟨k, hk, rfl⟩ := h.alive.commit_call hc
  rw [h.entry.key] at hk
  obtain rfl := Option.some.inj hk
  rfl

def KeepsValue (memory : Addr → V) (a : Addr) (r : Reply V .readOutside) : Prop :=
  stored (delivered memory r) a r = memory a

/-- An insert or upsert stores the record that it was given if and only if the answer to its read
leaves the record's value as it was. -/
theorem stores_given_record {e₀ : TransactionExecution K V S} {as bs : List (Action K V)}
    (hv : e₀.operationVector = []) (hp : e₀.pending = []) (hr : Fugue.run step e₀.reset as = some e)
    (hi : e.operationVector = []) (hu : e.isTransactionFinished = false) {key : SetKey K}
    {a : Addr} {r : OperationRequest K}
    (hq : r = .insert key (some a) ∨ r = .upsert key (some a)) (reply : Reply V .readOutside)
    (hd : ∀ q, .dispatch q ∉ bs) (hb : ∀ q, .complete .readOutside q ∈ bs → q = reply)
    (hr' : Fugue.run step (e.dispatch r) bs = some e') (hi' : e'.operationVector = [])
    (he : e'.result.isError = false) :
    (∀ cs z, (∀ b ∈ cs, Spares key a b) → Fugue.run step e' cs = some z →
      Stores key a (e.memory a) e.keyWriteSet.popIndex z) ↔ KeepsValue e.memory a reply := by
  have halive := (Alive.reset hv hp).run hr
  have hset := halive.settled hi hu
  have hk : r.writeKey = some key ∧ r.record = some a ∧
      (writeOp r = .insert ∨ writeOp r = .upsert) := by
    rcases hq with rfl | rfl <;> simp [OperationRequest.writeKey, OperationRequest.record, writeOp]
  obtain ⟨hk, hrec, hop⟩ := hk
  obtain ⟨hout, -, -, hmem⟩ := write_request_outcome hi hset.pending hset.status hk hd hb hr' hi'
  have hval := hmem hop a hrec
  have hguard : e'.memory a = e.memory a →
      Guarded key a e.keyWriteSet.popIndex (e.memory a) e' := by
    intro hm
    refine ⟨?_, hm, ?_, ?_⟩
    · have hs : step e (.dispatch r) = some (e.dispatch r) := by
        simp [TransactionExecution.step, hi, hu]
      exact (halive.step hs).run hr'
    · rw [hrec] at hout
      cases hout with
      | refused hfound error =>
        rw [he] at error
        cases error
      | added version isDeleted j error writeSet =>
        have hlt : e.keyWriteSet.popIndex < e.keyWriteSet.new.popIndex := by
          rw [Pool.popIndex_new]
          exact Nat.lt_succ_self _
        rw [writeSet]
        refine ⟨hlt, KeyWriteSetEntryPool.key_newWriteSetEntry_self, ?_⟩
        exact congrArg (fun o : KeyWriteSetEntry K => o.entry.record)
          (Pool.get_modify_self e.keyWriteSet.new _ hlt)
      | removed i hfound hnone => cases hnone
    · intro j op hj
      rw [hi'] at hj
      simp at hj
  constructor
  · intro h
    have hsame := (h [] e' (by simp) rfl).1
    rw [KeepsValue, ← hval, hsame]
  · intro hkeep cs z hsp hz
    exact ((hguard (hval.trans hkeep)).run hsp hz).stores

def copyReply : Reply ℕ .readOutside :=
  ⟨false, ({ VersionEntry.blank (some 7) with
    version := 1, beginTs := 1, endTs := int64Max, isDeleted := false }, .blank (some 7)), [(7, 9)]⟩

def beginOnly : List (Action ℕ ℕ) := [.dispatch .begin, sampleAnswer .initTxn, .visit 0, .tidy]

/-- An upsert of a key with a live version stores the payload of that version. -/
theorem upsert_stores_payload : ∃ e e', Fugue.run step sampleExecution.reset beginOnly = some e ∧
    Fugue.run step (e.dispatch (.upsert ⟨"t", 1⟩ (some 7))) (endUpsert copyReply) = some e' ∧
    e'.operationVector = [] ∧ e'.result.isError = false ∧
    ¬ Stores ⟨"t", 1⟩ 7 (e.memory 7) e.keyWriteSet.popIndex e' := by
  have h : ((Fugue.run step sampleExecution.reset beginOnly).bind fun e =>
      (Fugue.run step (e.dispatch (.upsert ⟨"t", 1⟩ (some 7))) (endUpsert copyReply)).map fun e' =>
        (e.memory 7, e'.memory 7, e'.operationVector, e'.result.isError)) =
      some (0, 9, [], false) := by decide +kernel
  obtain ⟨e, hr, h⟩ := Option.bind_eq_some_iff.mp h
  obtain ⟨e', hr', h⟩ := Option.map_eq_some_iff.mp h
  obtain ⟨hm, h⟩ := Prod.mk.inj h
  obtain ⟨hm', h⟩ := Prod.mk.inj h
  obtain ⟨hv, he⟩ := Prod.mk.inj h
  refine ⟨e, e', hr, hr', hv, he, fun hstores => ?_⟩
  have hsame := hstores.1
  rw [hm, hm'] at hsame
  cases hsame

theorem stores_given_record_sample : ∃ e e',
    Fugue.run step sampleExecution.reset beginOnly = some e ∧
    Fugue.run step (e.dispatch (.upsert ⟨"t", 1⟩ (some 7)))
      (endUpsert (sampleReply .readOutside)) = some e' ∧
    Stores ⟨"t", 1⟩ 7 (e.memory 7) e.keyWriteSet.popIndex e' := by
  have h : ((Fugue.run step sampleExecution.reset beginOnly).bind fun e =>
      (Fugue.run step (e.dispatch (.upsert ⟨"t", 1⟩ (some 7)))
        (endUpsert (sampleReply .readOutside))).map fun e' =>
          decide (e.operationVector = [] ∧ e.isTransactionFinished = false ∧
            e'.operationVector = [] ∧ e'.result.isError = false)) = some true := by decide +kernel
  obtain ⟨e, hr, h⟩ := Option.bind_eq_some_iff.mp h
  obtain ⟨e', hr', h⟩ := Option.map_eq_some_iff.mp h
  obtain ⟨hi, hu, hi', he⟩ := of_decide_eq_true h
  refine ⟨e, e', hr, hr', ?_⟩
  apply (stores_given_record rfl rfl hr hi hu (.inr rfl) (sampleReply .readOutside) _ _ hr' hi'
    he).mpr _ [] e' (by simp) rfl
  · simp [endUpsert]
  · intro q hq
    simp only [endUpsert, List.mem_cons, reduceCtorEq, List.not_mem_nil, or_false] at hq
    cases hq
    rfl
  · rfl

end TransactionExecution

end Fugue
