import Fugue.CommitDecision

namespace Fugue

variable {K V S : Type}

def KeyWriteSetEntryPool.UniqueKeys (p : KeyWriteSetEntryPool K) : Prop :=
  ∀ i < p.popIndex, ∀ j < p.popIndex, p.key i = p.key j → i = j

namespace KeyWriteSetEntryPool

instance [DecidableEq K] (p : KeyWriteSetEntryPool K) : Decidable p.UniqueKeys :=
  inferInstanceAs (Decidable (∀ i < p.popIndex, ∀ j < p.popIndex, p.key i = p.key j → i = j))

variable {p p' : KeyWriteSetEntryPool K}

theorem UniqueKeys.congr (hs : p'.popIndex = p.popIndex) (hk : ∀ i, p'.key i = p.key i) :
    p'.UniqueKeys ↔ p.UniqueKeys := by
  simp only [UniqueKeys, hs, hk]

theorem key_setPostProcessing (i j : ℕ) : (p.setPostProcessing j).key i = p.key i :=
  Pool.get_modify_field KeyWriteSetEntry.key _ _ _ _ fun _ => rfl

theorem key_setDeleted (i j : ℕ) : (p.setDeleted j).key i = p.key i :=
  Pool.get_modify_field KeyWriteSetEntry.key _ _ _ _ fun _ => rfl

variable {k : SetKey K} {version : ℤ} {isDeleted : Bool} {record : Option Addr}
  {readEntry : Option ℕ} {b : Bool}

theorem popIndex_newWriteSetEntry :
    (p.newWriteSetEntry k version isDeleted record readEntry b).popIndex = p.popIndex + 1 :=
  Pool.popIndex_new p

theorem key_newWriteSetEntry {i : ℕ} (hi : i < p.popIndex) :
    (p.newWriteSetEntry k version isDeleted record readEntry b).key i = p.key i :=
  congrArg KeyWriteSetEntry.key ((Pool.get_modify_ne _ _ (Nat.ne_of_lt hi)).trans (Pool.get_new p i))

theorem key_newWriteSetEntry_self :
    (p.newWriteSetEntry k version isDeleted record readEntry b).key p.popIndex = some k :=
  congrArg KeyWriteSetEntry.key
    (Pool.get_modify_self _ _ (by rw [Pool.popIndex_new]; exact Nat.lt_succ_self _))

theorem UniqueKeys.new_iff [DecidableEq K] (h : p.UniqueKeys) :
    (p.newWriteSetEntry k version isDeleted record readEntry b).UniqueKeys ↔
      p.findInWriteSet k = none := by
  rw [findInWriteSet, Pool.find_eq_none]
  constructor
  · intro hu j hj
    have hne : j ≠ p.popIndex := Nat.ne_of_lt hj
    refine decide_eq_false fun hk => hne (hu j ?_ p.popIndex ?_ ?_)
    · rw [popIndex_newWriteSetEntry]
      exact Nat.lt_succ_of_lt hj
    · rw [popIndex_newWriteSetEntry]
      exact Nat.lt_succ_self _
    · rw [key_newWriteSetEntry hj, key_newWriteSetEntry_self]
      exact hk
  · intro hn i hi j hj hij
    have hne : ∀ l < p.popIndex, p.key l ≠ some k := fun l hl hk => by
      have := hn l hl
      simp only [decide_eq_false_iff_not] at this
      exact this hk
    rw [popIndex_newWriteSetEntry] at hi hj
    rcases Nat.lt_succ_iff_lt_or_eq.mp hi with hi | rfl <;>
      rcases Nat.lt_succ_iff_lt_or_eq.mp hj with hj | rfl
    · rw [key_newWriteSetEntry hi, key_newWriteSetEntry hj] at hij
      exact h i hi j hj hij
    · rw [key_newWriteSetEntry hi, key_newWriteSetEntry_self] at hij
      exact absurd hij (hne i hi)
    · rw [key_newWriteSetEntry hj, key_newWriteSetEntry_self] at hij
      exact absurd hij.symm (hne j hj)
    · rfl

end KeyWriteSetEntryPool

def KeyWriteSetEntryPool.SameKeys (p q : KeyWriteSetEntryPool K) : Prop :=
  q.popIndex = p.popIndex ∧ ∀ i, q.key i = p.key i

def KeyWriteSetEntryPool.Adds (p : KeyWriteSetEntryPool K) (k : SetKey K)
    (q : KeyWriteSetEntryPool K) : Prop :=
  ∃ version isDeleted record readEntry,
    q = p.newWriteSetEntry k version isDeleted record readEntry false

def HandlerCall.uploadKey : HandlerCall K → Option (SetKey K)
  | .uploadVersion k _ => some k
  | _ => none

def uploadKeys (log : List (Event K V)) : List (SetKey K) :=
  (issuedCalls log).filterMap fun p => p.2.uploadKey

theorem CallOk.upload {x : ExecutionState K V S} {log : List (Event K V)} {gaveUp : Prop} {op : Op}
    {c : HandlerCall K} (h : CallOk x log gaveUp op c) {k : SetKey K} (hk : c.uploadKey = some k) :
    ∃ i < x.keyWriteSet.popIndex, op = .uploadVersionEntry i ∧ x.keyWriteSet.key i = some k := by
  cases c <;> simp only [HandlerCall.uploadKey, reduceCtorEq] at hk
  obtain rfl := Option.some.inj hk
  cases op <;> simp only [CallOk, uploadCall, commitCall, deleteCall, reduceCtorEq, and_false,
    exists_false, HandlerCall.uploadVersion.injEq, Op.uploadVersionEntry.injEq] at h ⊢
  obtain ⟨hi, k, hk, rfl, -⟩ := h
  exact ⟨_, hi, rfl, hk⟩

namespace TransactionExecution

variable [DecidableEq K] {e e' : TransactionExecution K V S}

/-- The read-set entry for which an insert, upsert or update adds a write-set entry. -/
def target (e : TransactionExecution K V S) : Op → Option ℕ
  | .insert => (e.findInReadSet e.args.writeKey).filter fun i => (e.keyReadSet.entry i).isDeleted
  | .upsert => e.findInReadSet e.args.writeKey
  | .update => (e.findInReadSet e.args.writeKey).filter fun i =>
      !((e.keyReadSet.entry i).isDeleted && 0 < (e.keyReadSet.entry i).version)
  | _ => none

def written (e : TransactionExecution K V S) (op : Op) : KeyWriteSetEntryPool K :=
  match e.target op with
  | some i => e.keyWriteSet.newWriteSetEntry e.args.writeKey ((e.keyReadSet.entry i).version + 1)
      false e.args.writeRecord (some i) false
  | none => e.keyWriteSet

theorem insertNext_written (e : TransactionExecution K V S) :
    (insertNext e).2.keyWriteSet = e.written .insert := by
  unfold insertNext written target noNext
  cases e.findInReadSet e.args.writeKey with
  | none => rfl
  | some i => cases hd : (e.keyReadSet.entry i).isDeleted <;> simp only [Option.filter_some, hd] <;> rfl

theorem upsertNext_written (e : TransactionExecution K V S) :
    (upsertNext e).2.keyWriteSet = e.written .upsert := by
  unfold upsertNext written target noNext
  cases e.findInReadSet e.args.writeKey <;> rfl

theorem updateCallImpl_written (e : TransactionExecution K V S) :
    e.updateCallImpl.keyWriteSet = e.written .update := by
  unfold updateCallImpl written target
  cases e.findInReadSet e.args.writeKey with
  | none => rfl
  | some i =>
    by_cases hd : (e.keyReadSet.entry i).isDeleted = true ∧ 0 < (e.keyReadSet.entry i).version
    · simp only [Option.filter_some, hd.1, hd.2, decide_true, Bool.and_self, Bool.not_true]
      rfl
    · have hb : ((e.keyReadSet.entry i).isDeleted &&
          decide (0 < (e.keyReadSet.entry i).version)) = false := by simpa using hd
      simp only [gt_iff_lt, if_neg hd, Option.filter_some, hb, Bool.not_false]
      rfl

theorem deleteCallImpl_keyWriteSet (e : TransactionExecution K V S) :
    (∃ j, e.findInWriteSet e.args.writeKey = some j ∧
        e.deleteCallImpl.keyWriteSet = e.keyWriteSet.setDeleted j) ∨
      e.deleteCallImpl.keyWriteSet = e.keyWriteSet ∨
      e.findInWriteSet e.args.writeKey = none ∧ ∃ i, e.deleteCallImpl.keyWriteSet =
        e.keyWriteSet.newWriteSetEntry e.args.writeKey ((e.keyReadSet.entry i).version + 1) true
          none (some i) false := by
  unfold deleteCallImpl
  split
  · next i hi =>
    split
    · exact .inr (.inl rfl)
    · exact .inl ⟨i, hi, rfl⟩
  · next i hw _ =>
    split
    · exact .inr (.inl rfl)
    · exact .inr (.inr ⟨hw, i, rfl⟩)
  · exact .inr (.inl rfl)

variable [Services S]

/-- The key for which a step adds a write-set entry without looking for one that is there: an
insert or upsert does so when its read has returned, and an update when it is requested. -/
def writes (e : TransactionExecution K V S) : Action K V → Option (SetKey K)
  | .dispatch (.update key record) =>
    if ((e.resetWrite key record).target .update).isSome then some key else none
  | .visit i =>
    match e.operationVector.slot i with
    | some op =>
      if (op = .insert ∨ op = .upsert) ∧ e.isFinished op ∧ (e.target op).isSome then
        some e.args.writeKey
      else none
    | none => none
  | _ => none

theorem next_keyWriteSet {op : Op} {o : Option Op} {e₁ : TransactionExecution K V S}
    (h : next op e = .ok (o, e₁)) :
    (e₁.keyWriteSet = if op = .insert ∨ op = .upsert then e.written op else e.keyWriteSet) ∨
      ∃ j, e₁.keyWriteSet = e.keyWriteSet.setPostProcessing j := by
  have hrec : ∀ (z : TransactionExecution K V S) a, (z.setResultRecord a).keyWriteSet =
      z.keyWriteSet := fun z a => (setResultRecord_frame (e := z) a).2.2.2.2.2.1
  unfold next at h
  cases op with
  | insert => cases h; exact .inl (insertNext_written (e.setFlags .insert ⟨true, true⟩))
  | upsert => cases h; exact .inl (upsertNext_written (e.setFlags .upsert ⟨true, true⟩))
  | uploadVersionEntry i =>
    simp only [nextImpl, uploadVersionEntryNext] at h
    split at h <;> cases h
    · exact .inl rfl
    · exact .inr ⟨_, rfl⟩
  | readOutside =>
    simp only [nextImpl] at h
    split at h
    · cases h; exact .inl rfl
    · cases hr : (e.setFlags .readOutside ⟨true, true⟩).internalRead with
      | error m => rw [hr] at h; cases h
      | ok z =>
        rw [hr] at h
        cases h
        exact .inl (internalRead_sets hr).2.2
  | readDataStore =>
    simp only [nextImpl, readDataStoreNext] at h
    cases h
    refine .inl ?_
    split
    · rfl
    · split
      · rfl
      · exact hrec _ _
  | postProcessingCommitEntryAfterCommit i =>
    simp only [nextImpl] at h
    split at h <;> cases h
    refine .inl ?_
    unfold clearReleaseOfWrite
    split <;> rfl
  | _ =>
    simp only [nextImpl, updateReadEntryMaxCommitTsNext, pushConflictNext, deleteEntryNext] at h
    refine .inl ?_
    repeat' split at h
    all_goals cases h
    all_goals rfl

/-- Only the operations of a commit or abort request make room for another one; a `NewTxn` that
failed is issued again. -/
theorem next_rank {op y : Op} {e₁ : TransactionExecution K V S}
    (h : next op e = .ok (some y, e₁)) :
    0 < op.rank ∧ 0 < y.rank ∨ op = .initTxn ∧ y = .initTxn := by
  unfold next at h
  cases op <;> simp only [nextImpl, uploadVersionEntryNext, updateReadEntryMaxCommitTsNext,
    pushConflictNext, deleteEntryNext, readDataStoreNext, insertNext, upsertNext] at h
  case readOutside =>
    split at h
    · cases h
    · cases hr : (e.setFlags .readOutside ⟨true, true⟩).internalRead <;> rw [hr] at h <;> cases h
  all_goals repeat' split at h
  all_goals cases h
  all_goals simp [Op.rank]

theorem next_some {op y : Op} {e₁ : TransactionExecution K V S}
    (h : next op e = .ok (some y, e₁)) : y ≠ .update ∧ y ≠ .delete := by
  rcases next_rank h with ⟨-, hy⟩ | ⟨-, rfl⟩
  · constructor <;> rintro rfl <;> cases hy
  · simp

theorem call_keyWriteSet {op : Op} (hu : op ≠ .update) (hd : op ≠ .delete)
    (e : TransactionExecution K V S) : (call op e).keyWriteSet = e.keyWriteSet := by
  rw [call_data]
  cases op with
  | update => exact absurd rfl hu
  | delete => exact absurd rfl hd
  | writeToLog =>
    simp only [callData, writeToLogCallImpl]
    split <;> rfl
  | _ => rfl

omit [Services S] in
theorem written_cases (e : TransactionExecution K V S) (op : Op) :
    (e.target op).isSome = true ∧ e.keyWriteSet.Adds e.args.writeKey (e.written op) ∨
      (e.target op).isSome = false ∧ e.written op = e.keyWriteSet := by
  unfold written
  cases e.target op with
  | none => exact .inr ⟨rfl, rfl⟩
  | some i => exact .inl ⟨rfl, _, _, _, _, rfl⟩

theorem visit_keyWriteSet {i : ℕ} {b : Bool} (h : visit i e = .ok (e', b)) :
    (∃ k, e.writes (.visit i) = some k ∧ e.keyWriteSet.Adds k e'.keyWriteSet) ∨
      e.writes (.visit i) = none ∧ e.keyWriteSet.SameKeys e'.keyWriteSet := by
  have hrefl : e.keyWriteSet.SameKeys e.keyWriteSet := ⟨rfl, fun _ => rfl⟩
  unfold visit at h
  split at h
  · next hslot =>
    cases h
    exact .inr ⟨by simp [writes, hslot], hrefl⟩
  · next op hslot =>
    split at h
    · next hf =>
      have hw : e.writes (.visit i) = if op = .insert ∨ op = .upsert then
          if (e.target op).isSome then some e.args.writeKey else none else none := by
        by_cases hop : op = .insert ∨ op = .upsert <;> simp [writes, hslot, hf, hop]
      have hk : ∀ o e₁, next op e = .ok (o, e₁) → e'.keyWriteSet = e₁.keyWriteSet →
          (∃ k, e.writes (.visit i) = some k ∧ e.keyWriteSet.Adds k e'.keyWriteSet) ∨
            e.writes (.visit i) = none ∧ e.keyWriteSet.SameKeys e'.keyWriteSet := by
        intro o e₁ hn hk
        rw [hw, hk]
        by_cases hop : op = .insert ∨ op = .upsert
        · rw [if_pos hop]
          have hwr : e₁.keyWriteSet = e.written op := by
            rcases hop with rfl | rfl <;> cases hn
            · exact insertNext_written (e.setFlags .insert ⟨true, true⟩)
            · exact upsertNext_written (e.setFlags .upsert ⟨true, true⟩)
          rw [hwr]
          rcases written_cases e op with ⟨ht, hadd⟩ | ⟨ht, hsame⟩
          · exact .inl ⟨_, if_pos ht, hadd⟩
          · rw [hsame]
            exact .inr ⟨if_neg (by simp [ht]), hrefl⟩
        · rw [if_neg hop]
          refine .inr ⟨rfl, ?_⟩
          rcases next_keyWriteSet hn with hs | ⟨j, hj⟩
          · rw [hs, if_neg hop]
            exact hrefl
          · rw [hj]
            exact ⟨rfl, fun l => KeyWriteSetEntryPool.key_setPostProcessing l j⟩
      split at h
      · cases h
      · next y e₁ hn =>
        cases h
        obtain ⟨hu, hd⟩ := next_some hn
        exact hk _ _ hn (call_keyWriteSet hu hd _)
      · next e₁ hn =>
        cases h
        exact hk _ _ hn rfl
    · next hf =>
      cases h
      exact .inr ⟨by simp [writes, hslot, hf], hrefl⟩

theorem dispatch_keyWriteSet (r : OperationRequest K) (e : TransactionExecution K V S) :
    (∃ k, (e.writes (.dispatch r) = some k ∨
        e.writes (.dispatch r) = none ∧ e.findInWriteSet k = none) ∧
      e.keyWriteSet.Adds k (e.dispatch r).keyWriteSet) ∨
      e.writes (.dispatch r) = none ∧ e.keyWriteSet.SameKeys (e.dispatch r).keyWriteSet := by
  have hsame : ∀ op (z : TransactionExecution K V S), op ≠ .update → op ≠ .delete →
      z.keyWriteSet = e.keyWriteSet → e.keyWriteSet.SameKeys (start op z).keyWriteSet := by
    intro op z hu hd hz
    have hk : (start op z).keyWriteSet = e.keyWriteSet := (call_keyWriteSet hu hd _).trans hz
    exact ⟨by rw [hk], fun i => by rw [hk]⟩
  cases r with
  | update key record =>
    let z := ((({ e with currentRequest := some (.update key record), requestFinished := false } :
      TransactionExecution K V S).resetResultRecord none |>.resetWrite key record).push
        .update).setMoveToNext .update false
    have hk : (e.dispatch (.update key record)).keyWriteSet = z.written .update :=
      updateCallImpl_written z
    have hw : e.writes (.dispatch (.update key record)) =
        if (z.target .update).isSome then some key else none := rfl
    rw [hk, hw]
    rcases written_cases z .update with ⟨ht, hadd⟩ | ⟨ht, hsame⟩
    · exact .inl ⟨key, .inl (if_pos ht), hadd⟩
    · refine .inr ⟨if_neg (by simp [ht]), ?_⟩
      rw [hsame]
      exact ⟨rfl, fun _ => rfl⟩
  | delete key =>
    let z := ((({ e with currentRequest := some (.delete key), requestFinished := false } :
      TransactionExecution K V S).resetResultRecord none |>.resetWrite key none).push
        .delete).setMoveToNext .delete false
    rcases deleteCallImpl_keyWriteSet z with ⟨j, -, hj⟩ | hsame | ⟨hf, i, hi⟩
    · refine .inr ⟨rfl, (congrArg Pool.popIndex hj :), fun l => ?_⟩
      exact (congrArg (KeyWriteSetEntryPool.key · l) hj).trans
        (KeyWriteSetEntryPool.key_setDeleted l j)
    · exact .inr ⟨rfl, (congrArg Pool.popIndex hsame :),
        fun l => congrArg (KeyWriteSetEntryPool.key · l) hsame⟩
    · exact .inl ⟨key, .inr ⟨rfl, hf⟩, _, _, _, _, hi⟩
  | abort => exact .inr ⟨rfl, rfl, fun _ => rfl⟩
  | readDataStore key record needToRead =>
    refine .inr ⟨rfl, ?_⟩
    cases needToRead with
    | true => exact hsame .readDataStore _ (by simp) (by simp) rfl
    | false => exact ⟨rfl, fun _ => rfl⟩
  | _ =>
    refine .inr ⟨rfl, ?_⟩
    simp only [dispatch]
    exact hsame _ _ (by simp) (by simp) rfl

theorem step_keyWriteSet {a : Action K V} (h : step e a = some e') :
    (∃ k, (e.writes a = some k ∨ e.writes a = none ∧ e.findInWriteSet k = none) ∧
      e.keyWriteSet.Adds k e'.keyWriteSet) ∨
      e.writes a = none ∧ e.keyWriteSet.SameKeys e'.keyWriteSet := by
  cases a with
  | dispatch r =>
    simp only [step] at h
    split at h
    · cases h
      exact dispatch_keyWriteSet r e
    · cases h
  | complete op reply =>
    obtain ⟨c, hc⟩ := complete_cases h
    rw [hc.keyWriteSet]
    exact .inr ⟨rfl, rfl, fun _ => rfl⟩
  | visit i =>
    simp only [step] at h
    cases hv : TransactionExecution.visit i e with
    | error m => rw [hv] at h; cases h
    | ok p =>
      rw [hv] at h
      cases h
      rcases visit_keyWriteSet (b := p.2) hv with ⟨k, hk, hadd⟩ | hsame
      · exact .inl ⟨k, .inl hk, hadd⟩
      · exact .inr hsame
  | tidy =>
    simp only [step] at h
    split at h
    · cases h
    · cases h
      refine .inr ⟨rfl, ?_⟩
      unfold tidy
      split <;> exact ⟨rfl, fun _ => rfl⟩

/-- A step keeps the keys of the write set distinct unless it adds an entry for a key that has one. -/
theorem step_uniqueKeys {a : Action K V} (hu : e.keyWriteSet.UniqueKeys)
    (h : step e a = some e') : e'.keyWriteSet.UniqueKeys ↔
      ∀ k, e.writes a = some k → e.findInWriteSet k = none := by
  rcases step_keyWriteSet h with ⟨k, hk, version, isDeleted, record, readEntry, hq⟩ | ⟨hw, hs⟩
  · rw [hq, hu.new_iff]
    rcases hk with hk | ⟨hk, hf⟩
    · simp [hk, findInWriteSet]
    · simp only [hk, reduceCtorEq, false_implies, implies_true, iff_true]
      exact hf
  · rw [KeyWriteSetEntryPool.UniqueKeys.congr hs.1 hs.2, hw]
    simp [hu]

theorem Alive.uploadKeys_nodup (h : Alive e) (hu : e.keyWriteSet.UniqueKeys) :
    (uploadKeys e.log).Nodup := by
  rw [uploadKeys, List.Nodup, List.pairwise_filterMap]
  cases h with
  | serving h =>
    obtain ⟨n, ho⟩ := h.opened
    have hnone : ∀ p ∈ issuedCalls e.log, ∀ k, p.2.uploadKey ≠ some k := by
      intro p hp k hk
      obtain ⟨pre, post, hl⟩ := List.append_of_mem (mem_issuedCalls.mp hp)
      obtain ⟨i, -, hop, -⟩ := (ho.obeys e.toExecutionState True pre p.1 p.2 post hl).upload hk
      have hr : p.1.rank = 0 := ho.ranked _ (mem_issuedCalls.mp hp)
      rw [hop] at hr
      cases hr
    exact List.pairwise_of_forall_mem_list fun p hp q _ k hk => absurd hk (hnone p hp k)
  | ending x gaveUp s entries h =>
    have honce := h.core.once
    rw [Once, List.Nodup, List.pairwise_filter, List.pairwise_map] at honce
    refine honce.imp_of_mem fun {p q} hp hq hpq k hk k' hk' hkk => ?_
    obtain ⟨pre, -, hok⟩ := h.core.callOk (mem_issuedCalls.mp hp)
    obtain ⟨pre', -, hok'⟩ := h.core.callOk (mem_issuedCalls.mp hq)
    obtain ⟨i, hi, hop, hki⟩ := hok.upload hk
    obtain ⟨j, hj, hop', hkj⟩ := hok'.upload hk'
    have hsets := h.core.sets
    have hij : i = j := by
      refine hu i (hsets.writeSize ▸ hi) j (hsets.writeSize ▸ hj) ?_
      rw [hsets.writeKey, hsets.writeKey, hki, hkj, hkk]
    refine hpq ?_ ?_ (by rw [hop, hop', hij]) <;> simp [hop, hop', Op.rank]

/-- When the write set keeps at most one entry for each key. -/
theorem one_write_per_key {e₀ : TransactionExecution K V S} {as : List (Action K V)}
    (hv : e₀.operationVector = []) (hp : e₀.pending = []) (hr : run step e₀.reset as = some e) :
    (∀ pre post z, as = pre ++ post → run step e₀.reset pre = some z →
      z.keyWriteSet.UniqueKeys ∧ (uploadKeys z.log).Nodup) ↔
      Along step (fun z a => ∀ k, z.writes a = some k → z.findInWriteSet k = none) e₀.reset as := by
  have hstart : e₀.reset.keyWriteSet.UniqueKeys := fun i hi => absurd hi (Nat.not_lt_zero i)
  rw [along_iff (I := fun z => z.keyWriteSet.UniqueKeys) (fun z a z' hu hs => step_uniqueKeys hu hs)
    hstart hr]
  constructor
  · exact fun h pre post z heq hz => (h pre post z heq hz).1
  · intro h pre post z heq hz
    have hu := h pre post z heq hz
    exact ⟨hu, ((Alive.reset hv hp).run hz).uploadKeys_nodup hu⟩

def upsertTwice : List (Action ℕ ℕ) :=
  let upsert : List (Action ℕ ℕ) := [.dispatch (.upsert ⟨"t", 1⟩ (some 7)),
    sampleAnswer .readOutside, .visit 1, .visit 0, .tidy]
  [.dispatch .begin, sampleAnswer .initTxn, .visit 0, .tidy] ++ upsert ++ upsert ++
    [.dispatch .commit]

theorem upsertTwice_uploads : ∃ e, run step sampleExecution.reset upsertTwice = some e ∧
    ¬ e.keyWriteSet.UniqueKeys ∧ ¬ (uploadKeys e.log).Nodup := by
  have h : (run step sampleExecution.reset upsertTwice).map (fun e =>
      (decide e.keyWriteSet.UniqueKeys, decide (uploadKeys e.log).Nodup)) =
        some (false, false) := by decide +kernel
  obtain ⟨e, hr, he⟩ := Option.map_eq_some_iff.mp h
  obtain ⟨hu, hn⟩ := Prod.mk.inj he
  exact ⟨e, hr, of_decide_eq_false hu, of_decide_eq_false hn⟩

theorem one_write_per_key_sample : ¬ Along step (fun z a => ∀ k, z.writes a = some k →
    z.findInWriteSet k = none) sampleExecution.reset upsertTwice := by
  have h : (run step sampleExecution.reset upsertTwice).map (fun e =>
      decide e.keyWriteSet.UniqueKeys) = some false := by decide +kernel
  obtain ⟨e, hr, hu⟩ := Option.map_eq_some_iff.mp h
  intro hal
  have hall := (one_write_per_key rfl rfl hr).mpr hal
  exact of_decide_eq_false hu (hall upsertTwice [] e (List.append_nil _).symm hr).1

/-- Every live entry of the read set was read by this transaction, and the write set points to just
those that are updated. -/
structure SetsLinked (e : TransactionExecution K V S) : Prop where
  read : ∀ j < e.keyReadSet.popIndex, ∃ k t r, e.keyReadSet.key j = some k ∧
    Event.answered .readOutside (.getVersionList k t) r ∈ e.log ∧ r.isError = false ∧
    Seen r.result (e.keyReadSet.entry j)
  write : ∀ i < e.keyWriteSet.popIndex, ∃ k j, e.keyWriteSet.key i = some k ∧
    (e.keyWriteSet.entry i).readEntry = some j ∧ j < e.keyReadSet.popIndex ∧
    e.keyReadSet.key j = some k ∧ (e.keyReadSet.entry j).isUpdated = true ∧
    (e.keyReadSet.entry j).version = (e.keyWriteSet.entry i).version - 1
  updated : ∀ j < e.keyReadSet.popIndex, (e.keyReadSet.entry j).isUpdated = true →
    ∃ i < e.keyWriteSet.popIndex, (e.keyWriteSet.entry i).readEntry = some j

omit [DecidableEq K] [Services S] in
theorem Entries.linked {x : ExecutionState K V S}
    (h : Entries e.log x.keyReadSet.popIndex x) (hs : x.SameSets e.toExecutionState) :
    SetsLinked e where
  read j hj := by
    obtain ⟨k, t, r, hk, hr, he, hseen⟩ := h.read j (hs.readSize ▸ hj)
    refine ⟨k, t, r, (hs.readKey j).trans hk, hr, he, ?_⟩
    have hend : (e.keyReadSet.entry j).endTs = (x.keyReadSet.entry j).endTs :=
      (congrArg ReadSetEntry.endTs (hs.read j) :)
    have hdel : (e.keyReadSet.entry j).isDeleted = (x.keyReadSet.entry j).isDeleted :=
      (congrArg ReadSetEntry.isDeleted (hs.read j) :)
    unfold Seen at hseen ⊢
    rw [hs.readVersion, hs.beginTs, hend, hdel]
    exact hseen
  write i hi := by
    obtain ⟨k, j, hk, hj, hlt, hkj, hv, hu⟩ := h.write i (hs.writeSize ▸ hi)
    have hread : (e.keyWriteSet.entry i).readEntry = (x.keyWriteSet.entry i).readEntry :=
      (congrArg WriteSetEntry.readEntry (hs.write i) :)
    refine ⟨k, j, (hs.writeKey i).trans hk, hread.trans hj, hs.readSize ▸ hlt,
      (hs.readKey j).trans hkj, (hs.isUpdated j).trans hu, ?_⟩
    rw [hs.version, hs.readVersion, hv]
    omega
  updated j hj hu := by
    obtain ⟨i, hi, hr⟩ := h.updated j (hs.readSize ▸ hj) ((hs.isUpdated j).symm.trans hu)
    have hread : (e.keyWriteSet.entry i).readEntry = (x.keyWriteSet.entry i).readEntry :=
      (congrArg WriteSetEntry.readEntry (hs.write i) :)
    exact ⟨i, hs.writeSize.symm ▸ hi, hread.trans hr⟩

theorem Alive.linked (h : Alive e) (hv : e.operationVector = []) : SetsLinked e := by
  cases h with
  | serving h =>
    obtain ⟨-, n, hi⟩ := h.settled hv
    exact Entries.linked (hi.size ▸ hi.opened.entries) (.refl _)
  | ending x gaveUp s entries h => exact Entries.linked entries h.core.sets

/-- Between the requests of a transaction, whatever the answers to its reads were, the read set and
the write set are linked. -/
theorem sets_linked {e₀ : TransactionExecution K V S} {as : List (Action K V)}
    (hv : e₀.operationVector = []) (hp : e₀.pending = []) (hr : run step e₀.reset as = some e)
    (hidle : e.operationVector = []) : SetsLinked e :=
  ((Alive.reset hv hp).run hr).linked hidle

def sampleReads : List (Action ℕ ℕ) :=
  [.dispatch (.read ⟨"t", 1⟩ none), sampleAnswer .readOutside, .visit 0, .tidy,
    .dispatch (.read ⟨"t", 2⟩ none),
    .complete .readOutside { sampleReply .readOutside with isError := true }, .visit 0, .tidy,
    .dispatch (.upsert ⟨"t", 1⟩ (some 7)), sampleAnswer .readOutside, .visit 1, .visit 0, .tidy]

theorem sets_linked_sample : ∃ e, run step sampleExecution.reset sampleReads = some e ∧
    (e.keyReadSet.popIndex, e.keyWriteSet.popIndex) = (2, 1) ∧ SetsLinked e := by
  have h : (run step sampleExecution.reset sampleReads).map (fun e =>
      (e.operationVector, e.keyReadSet.popIndex, e.keyWriteSet.popIndex)) =
        some ([], (2, 1)) := by decide +kernel
  obtain ⟨e, hr, he⟩ := Option.map_eq_some_iff.mp h
  obtain ⟨hidle, hsize⟩ := Prod.mk.inj he
  exact ⟨e, hr, hsize, sets_linked rfl rfl hr hidle⟩

end TransactionExecution

end Fugue
