import Fugue.CommitDecision

/-! Whether the validation of a transaction takes its own uploaded versions for those of a
conflicting writer. The store performs the calls of the transaction one at a time, while other
transactions upload versions and resolve them. -/

namespace Fugue

variable {K V S : Type}

structure DirtyVersion (K : Type) where
  key : SetKey K
  version : ℤ
  txId : ℤ
  deriving DecidableEq

/-- The version has an owner of a dirty successor as `tx_id_`, or none. -/
def Owns (dirty : List (DirtyVersion K)) (key : SetKey K) (version txId : ℤ) : Prop :=
  ⟨key, version + 1, txId⟩ ∈ dirty ∨
    (∀ d ∈ dirty, d.key = key → d.version ≠ version + 1) ∧ txId = VersionEntry.kEmptyTxId

instance [DecidableEq K] (dirty : List (DirtyVersion K)) (key : SetKey K) (version txId : ℤ) :
    Decidable (Owns dirty key version txId) := by
  unfold Owns
  infer_instance

def Reply.owner {op : Op} (r : Reply V op) : Option ℤ :=
  match op, r with
  | .updateReadEntryMaxCommitTs _, r => if r.isError then none else some r.result.txId
  | _, _ => none

def HandlerCall.reread : HandlerCall K → Option (SetKey K × ℤ)
  | .updateMaxCommitTsAndReread key version _ => some (key, version)
  | _ => none

/-- What the store may answer: only the owner that a re-read reports is prescribed. -/
def Answer (dirty : List (DirtyVersion K)) {op : Op} (c : HandlerCall K) (r : Reply V op) : Prop :=
  ∀ v ∈ c.reread, ∀ txId ∈ r.owner, Owns dirty v.1 v.2 txId

instance [DecidableEq K] (dirty : List (DirtyVersion K)) {op : Op} (c : HandlerCall K)
    (r : Reply V op) : Decidable (Answer dirty c r) := by
  unfold Answer
  infer_instance

def afterCall [DecidableEq K] (dirty : List (DirtyVersion K)) (isError : Bool) :
    HandlerCall K → List (DirtyVersion K)
  | .uploadVersion key v => if isError then dirty else ⟨key, v.version, v.txId⟩ :: dirty
  | .commitVersion key version .. => dirty.filter fun d => d.key ≠ key ∨ d.version ≠ version
  | .deleteVersion key version => dirty.filter fun d => d.key ≠ key ∨ d.version ≠ version
  | _ => dirty

/-- One transaction and the store. `performed` holds the answers that are still on their way. -/
structure Contended (K V S : Type) where
  execution : TransactionExecution K V S
  dirty : List (DirtyVersion K)
  performed : List (Event K V)

/-- The execution takes a step of its own; the store performs one of its calls; the answer of a
performed call arrives; another transaction uploads a version or resolves one. -/
inductive ContendedAction (K V : Type)
  | own (a : TransactionExecution.Action K V)
  | perform (op : Op) (reply : Reply V op)
  | deliver (i : ℕ)
  | upload (d : DirtyVersion K)
  | resolve (d : DirtyVersion K)

namespace Contended

open TransactionExecution

variable [DecidableEq K] [Services S]

def isComplete : Action K V → Bool
  | .complete .. => true
  | _ => false

/-- No two transactions have the same id. -/
def step (s : Contended K V S) : ContendedAction K V → Option (Contended K V S)
  | .own a =>
    if isComplete a then none
    else (TransactionExecution.step s.execution a).bind fun e =>
      if e.txnId = s.execution.txnId ∨ ∀ d ∈ s.dirty, d.txId ≠ e.txnId then
        some { s with execution := e }
      else none
  | .perform op reply =>
    (s.execution.pending.find? fun p => p.1 = op).bind fun p =>
      if Answer s.dirty p.2 reply ∧ ∀ ev ∈ s.performed, ev.op ≠ op then
        some { s with
          dirty := afterCall s.dirty reply.isError p.2
          performed := s.performed ++ [.answered op p.2 reply] }
      else none
  | .deliver i =>
    match s.performed[i]? with
    | some (.answered op _ reply) =>
      (s.execution.complete op reply).map fun e =>
        { s with execution := e, performed := s.performed.eraseIdx i }
    | _ => none
  | .upload d =>
    if d.txId = s.execution.txnId then none else some { s with dirty := d :: s.dirty }
  | .resolve d => some { s with dirty := s.dirty.erase d }

/-- `Commit` finds a read-set entry that is not marked as updated although a write-set entry
replaces the version that it read. -/
def StaleRead (x : ExecutionState K V S) : Prop :=
  ∃ i < x.keyReadSet.popIndex, (x.keyReadSet.entry i).isUpdated = false ∧
    ∃ j < x.keyWriteSet.popIndex, x.keyReadSet.key i = x.keyWriteSet.key j ∧
      (x.keyWriteSet.entry j).version = (x.keyReadSet.entry i).version + 1

instance (x : ExecutionState K V S) : Decidable (StaleRead x) := by
  unfold StaleRead
  infer_instance

def CommitsUpdated (s : Contended K V S) : ContendedAction K V → Prop
  | .own (.dispatch .commit) => ¬ StaleRead s.execution.toExecutionState
  | .own (.dispatch .abort) => False
  | _ => True

instance (s : Contended K V S) (a : ContendedAction K V) : Decidable (CommitsUpdated s a) := by
  unfold CommitsUpdated
  split <;> infer_instance

def PushesItself (e : TransactionExecution K V S) : Prop :=
  ∃ i t, Event.issued (.pushConflictTxnCommitTsLowerBound i) (.updateCommitLowerBound e.txnId t) ∈
    e.log

section

omit [DecidableEq K] [Services S]

theorem CallOk.uploadVersion {x : ExecutionState K V S} {log : List (Event K V)} {gaveUp : Prop}
    {op : Op} {key : SetKey K} {v : VersionEntry} (h : CallOk x log gaveUp op (.uploadVersion key v)) :
    ∃ i < x.keyWriteSet.popIndex, x.keyWriteSet.key i = some key ∧
      v.version = (x.keyWriteSet.entry i).version := by
  cases op with
  | uploadVersionEntry i =>
    obtain ⟨hi, k, hk, hc⟩ := h
    obtain ⟨rfl, rfl⟩ := HandlerCall.uploadVersion.inj hc
    exact ⟨i, hi, hk, rfl⟩
  | _ => simp [CallOk, commitCall, deleteCall] at h

end

variable {s s' : Contended K V S} {a : ContendedAction K V}

def Phase (e : TransactionExecution K V S) : Prop :=
  Serving e ∨ ∃ x stage, Pipe x False stage e ∧ ¬ StaleRead x

structure Guarded (s : Contended K V S) : Prop where
  phase : Phase s.execution
  performed : ∀ op c r, Event.answered op c r ∈ s.performed → Event.issued op c ∈ s.execution.log
  dirty : ∀ d ∈ s.dirty, d.txId = s.execution.txnId →
    ∃ op v, Event.issued op (.uploadVersion d.key v) ∈ s.execution.log ∧ v.version = d.version
  rereads : ∀ j key version ts r,
    (Event.answered (.updateReadEntryMaxCommitTs j) (.updateMaxCommitTsAndReread key version ts) r ∈
        s.execution.log ++ s.performed) →
    r.isError = false → r.result.txId = s.execution.txnId →
    r.result.txId ≠ VersionEntry.kEmptyTxId →
    ∃ op v, Event.issued op (.uploadVersion key v) ∈ s.execution.log ∧ v.version = version + 1

namespace Phase

variable {e e' : TransactionExecution K V S}

theorem issued_of_pending (h : Phase e) {op : Op} {c : HandlerCall K} (hp : (op, c) ∈ e.pending) :
    Event.issued op c ∈ e.log := by
  rcases h with h | ⟨x, stage, h, -⟩
  · obtain ⟨n, ho⟩ := h.opened
    exact mem_issuedCalls.mp (ho.handled.mem_iff.mpr (List.mem_append_right _ hp))
  · exact h.core.issued_of_pending hp

theorem issued_of_answered (h : Phase e) {op : Op} {c : HandlerCall K} {r : Reply V op}
    (hr : Event.answered op c r ∈ e.log) : Event.issued op c ∈ e.log := by
  rcases h with h | ⟨x, stage, h, -⟩
  · obtain ⟨n, ho⟩ := h.opened
    refine mem_issuedCalls.mp (ho.handled.mem_iff.mpr (List.mem_append_left _ ?_))
    exact mem_answeredCalls.mpr ⟨r, hr⟩
  · exact h.core.issued_of_answered hr

theorem txnId (h : Phase e) {op : Op} {c : HandlerCall K} (hi : Event.issued op c ∈ e.log)
    (hop : 0 < op.rank) {a : Action K V} (hs : TransactionExecution.step e a = some e') :
    e'.txnId = e.txnId := by
  rcases h with h | ⟨x, stage, h, -⟩
  · obtain ⟨n, ho⟩ := h.opened
    exact absurd hop (by rw [show op.rank = 0 from ho.ranked _ hi]; decide)
  · obtain ⟨stage', h'⟩ := h.step hs
    exact h'.core.sets.txnId.trans h.core.sets.txnId.symm

theorem unique (h : Phase e) {op : Op} (hop : 0 < op.rank) {c c' : HandlerCall K}
    (hc : Event.issued op c ∈ e.log) (hc' : Event.issued op c' ∈ e.log) : c = c' := by
  rcases h with h | ⟨x, stage, h, -⟩
  · obtain ⟨n, ho⟩ := h.opened
    exact absurd hop (by rw [show op.rank = 0 from ho.ranked _ hc]; decide)
  · exact h.core.once.unique hop hc hc'

theorem step (h : Phase e) {a : Action K V} (hcommit : a = .dispatch .commit →
      ¬ StaleRead e.toExecutionState) (habort : a ≠ .dispatch .abort)
    (hs : TransactionExecution.step e a = some e') : Phase e' := by
  rcases h with h | ⟨x, stage, h, hx⟩
  · cases a with
    | dispatch r =>
      simp only [TransactionExecution.step] at hs
      split at hs
      · next hd =>
        cases hs
        obtain ⟨hset, n, hidle⟩ := h.settled hd.1
        by_cases hr : r = .commit
        · subst hr
          exact Or.inr ⟨_, _, hset.dispatch_commit, hcommit rfl⟩
        · have hra : r ≠ .abort := fun hra => habort (congrArg Action.dispatch hra)
          exact Or.inl (.dispatch hidle hr hra)
      · cases hs
    | complete op reply => exact Or.inl (h.step (fun r => by simp) hs)
    | visit i => exact Or.inl (h.step (fun r => by simp) hs)
    | tidy => exact Or.inl (h.step (fun r => by simp) hs)
  · obtain ⟨stage', h'⟩ := h.step hs
    exact Or.inr ⟨x, stage', h', hx⟩

theorem not_pushesItself (h : Phase e)
    (hrereads : ∀ j key version ts r, Event.answered (.updateReadEntryMaxCommitTs j)
        (.updateMaxCommitTsAndReread key version ts) r ∈ e.log →
      r.isError = false → r.result.txId = e.txnId → r.result.txId ≠ VersionEntry.kEmptyTxId →
      ∃ op v, Event.issued op (.uploadVersion key v) ∈ e.log ∧ v.version = version + 1) :
    ¬ PushesItself e := by
  rintro ⟨j, t, hpush⟩
  rcases h with h | ⟨x, stage, h, hx⟩
  · obtain ⟨n, ho⟩ := h.opened
    have hrank := ho.ranked _ hpush
    simp [Event.op, Op.rank] at hrank
  · obtain ⟨pre, hpre, ts, c, r, -, hanswered, hreread, hother, hcall⟩ := h.core.callOk hpush
    have hown : e.txnId = r.result.txId := (HandlerCall.updateCommitLowerBound.inj hcall).1
    have hissued := h.core.issued_of_answered (hpre hanswered)
    obtain ⟨pre', -, -, ts', i, k, -, hi, hkey, rfl⟩ := h.core.callOk hissued
    obtain ⟨op, v, hupload, hversion⟩ :=
      hrereads j _ _ _ r (hpre hanswered) hreread.1 hown.symm hother
    obtain ⟨pre'', -, hok⟩ := h.core.callOk hupload
    obtain ⟨l, hl, hkey', hversion'⟩ := CallOk.uploadVersion hok
    have hmem := List.mem_of_getElem? hi
    obtain ⟨hrange, hupdated⟩ := List.mem_filter.mp hmem
    refine hx ⟨i, List.mem_range.mp hrange, by simpa using hupdated, l, hl, ?_, ?_⟩
    · rw [hkey, hkey']
    · rw [← hversion', hversion]

end Phase

namespace Guarded

theorem own {b : Action K V} (h : Guarded s) (hok : CommitsUpdated s (.own b))
    (hs : s.step (.own b) = some s') : Guarded s' := by
  simp only [Contended.step] at hs
  split at hs
  · cases hs
  next hcomplete =>
  obtain ⟨e, he, hs⟩ := Option.bind_eq_some_iff.mp hs
  split at hs
  · next hid =>
    cases hs
    have hphase : Phase e := by
      refine h.phase.step (fun hb => ?_) (fun hb => ?_) he
      · subst hb
        exact hok
      · subst hb
        exact hok
    obtain ⟨new, hlog, hnew⟩ := step_log he
    have hsub : s.execution.log ⊆ e.log := hlog ▸ List.subset_append_left _ _
    refine ⟨hphase, fun op c r hr => hsub (h.performed op c r hr), fun d hd hown => ?_, ?_⟩
    · have hsame : e.txnId = s.execution.txnId :=
        hid.resolve_right fun hall => hall d hd hown
      obtain ⟨op, v, hv, hversion⟩ := h.dirty d hd (hown.trans hsame)
      exact ⟨op, v, hsub hv, hversion⟩
    · intro j key version ts r hr herror hown hother
      have hold : Event.answered (.updateReadEntryMaxCommitTs j)
          (.updateMaxCommitTsAndReread key version ts) r ∈ s.execution.log ++ s.performed := by
        rcases List.mem_append.mp hr with hr | hr
        · rw [hlog] at hr
          rcases List.mem_append.mp hr with hr | hr
          · exact List.mem_append_left _ hr
          · have hb := hnew _ _ _ hr
            rw [hb] at hcomplete
            exact absurd rfl hcomplete
        · exact List.mem_append_right _ hr
      have hissued : Event.issued (.updateReadEntryMaxCommitTs j)
          (.updateMaxCommitTsAndReread key version ts) ∈ s.execution.log := by
        rcases List.mem_append.mp hold with hr | hr
        · exact h.phase.issued_of_answered hr
        · exact h.performed _ _ _ hr
      have hsame := h.phase.txnId hissued (Nat.succ_pos _) he
      obtain ⟨op, v, hv, hversion⟩ :=
        h.rereads j key version ts r hold herror (hown.trans hsame) hother
      exact ⟨op, v, hsub hv, hversion⟩
  · cases hs

theorem perform {op : Op} {reply : Reply V op} (h : Guarded s)
    (hs : s.step (.perform op reply) = some s') : Guarded s' := by
  simp only [Contended.step] at hs
  obtain ⟨⟨op', c⟩, hp, hs⟩ := Option.bind_eq_some_iff.mp hs
  obtain rfl : op' = op := by simpa using List.find?_some hp
  have hissued := h.phase.issued_of_pending (List.mem_of_find?_eq_some hp)
  split at hs
  · next hanswer =>
    cases hs
    refine ⟨h.phase, fun op₂ c₂ r hr => ?_, fun d hd hown => ?_, ?_⟩
    · rcases List.mem_append.mp hr with hr | hr
      · exact h.performed op₂ c₂ r hr
      · cases List.mem_singleton.mp hr
        exact hissued
    · cases c with
      | uploadVersion key v =>
        simp only [afterCall] at hd
        split at hd
        · exact h.dirty d hd hown
        · rcases List.mem_cons.mp hd with rfl | hd
          · exact ⟨_, v, hissued, rfl⟩
          · exact h.dirty d hd hown
      | commitVersion => exact h.dirty d (List.mem_of_mem_filter hd) hown
      | deleteVersion => exact h.dirty d (List.mem_of_mem_filter hd) hown
      | _ => exact h.dirty d hd hown
    · intro j key version ts r hr herror hown hother
      rw [← List.append_assoc] at hr
      rcases List.mem_append.mp hr with hr | hr
      · exact h.rereads j key version ts r hr herror hown hother
      · cases List.mem_singleton.mp hr
        have howner : r.result.txId ∈ r.owner := by simp [Reply.owner, herror]
        rcases hanswer.1 (key, version) rfl _ howner with hd | ⟨-, hnone⟩
        · exact h.dirty _ hd hown
        · exact absurd hnone hother
  · cases hs

theorem deliver {i : ℕ} (h : Guarded s) (hs : s.step (.deliver i) = some s') : Guarded s' := by
  simp only [Contended.step] at hs
  split at hs
  · next op c reply hi =>
    obtain ⟨e, he, rfl⟩ := Option.map_eq_some_iff.mp hs
    obtain ⟨c', hc⟩ := complete_cases he
    have hperformed := List.mem_of_getElem? hi
    have hissued := h.performed op c reply hperformed
    have hissued' := h.phase.issued_of_pending hc.mem
    have hsub : s.execution.log ⊆ e.log := hc.log ▸ List.subset_append_left _ _
    have hid : e.txnId = s.execution.txnId := (congrArg ExecutionState.txnId hc.data :)
    have hphase : Phase e := by
      refine h.phase.step (a := .complete op reply) ?_ ?_ he
      · nofun
      · nofun
    refine ⟨hphase, fun op₂ c₂ r hr => ?_, fun d hd hown => ?_, ?_⟩
    · exact hsub (h.performed op₂ c₂ r (List.mem_of_mem_eraseIdx hr))
    · obtain ⟨op₂, v, hv, hversion⟩ := h.dirty d hd (hown.trans hid)
      exact ⟨op₂, v, hsub hv, hversion⟩
    · intro j key version ts r hr herror hown hother
      have hold : Event.answered (.updateReadEntryMaxCommitTs j)
          (.updateMaxCommitTsAndReread key version ts) r ∈ s.execution.log ++ s.performed := by
        rcases List.mem_append.mp hr with hr | hr
        · rw [hc.log] at hr
          rcases List.mem_append.mp hr with hr | hr
          · exact List.mem_append_left _ hr
          · cases List.mem_singleton.mp hr
            -- The call that is answered is the one that was performed.
            have hrank : 0 < (Op.updateReadEntryMaxCommitTs j).rank := Nat.succ_pos _
            obtain rfl := h.phase.unique hrank hissued hissued'
            exact List.mem_append_right _ hperformed
        · exact List.mem_append_right _ (List.mem_of_mem_eraseIdx hr)
      obtain ⟨op₂, v, hv, hversion⟩ :=
        h.rereads j key version ts r hold herror (hown.trans hid) hother
      exact ⟨op₂, v, hsub hv, hversion⟩
  · cases hs

theorem step (h : Guarded s) (hok : CommitsUpdated s a) (hs : s.step a = some s') :
    Guarded s' := by
  cases a with
  | own b => exact h.own hok hs
  | perform op reply => exact h.perform hs
  | deliver i => exact h.deliver hs
  | upload d =>
    simp only [Contended.step] at hs
    split at hs
    · cases hs
    · next hd =>
      cases hs
      refine ⟨h.phase, h.performed, ?_, h.rereads⟩
      exact List.forall_mem_cons.mpr ⟨fun hown => absurd hown hd, h.dirty⟩
  | resolve d =>
    cases hs
    exact ⟨h.phase, h.performed, fun d' hd => h.dirty d' (List.mem_of_mem_erase hd), h.rereads⟩

theorem not_pushesItself (h : Guarded s) : ¬ PushesItself s.execution :=
  h.phase.not_pushesItself fun j key version ts r hr =>
    h.rereads j key version ts r (List.mem_append_left _ hr)

theorem reset {e : TransactionExecution K V S} {dirty : List (DirtyVersion K)}
    (hv : e.operationVector = []) (hp : e.pending = [])
    (hid : ∀ d ∈ dirty, d.txId ≠ e.reset.txnId) : Guarded ⟨e.reset, dirty, []⟩ := by
  have hserving : Serving e.reset := .reset hv hp
  have hlog : e.reset.log = [] := rfl
  refine ⟨Or.inl hserving, fun op c r hr => absurd hr List.not_mem_nil,
    fun d hd hown => absurd hown (hid d hd), fun j key version ts r hr => ?_⟩
  rw [hlog] at hr
  exact absurd hr List.not_mem_nil

end Guarded

/-- In every run in which the transaction commits without a stale read, it never pushes its own
lower bound. -/
theorem never_pushesItself {e : TransactionExecution K V S} {dirty : List (DirtyVersion K)}
    {as : List (ContendedAction K V)} (hv : e.operationVector = []) (hp : e.pending = [])
    (hid : ∀ d ∈ dirty, d.txId ≠ e.reset.txnId)
    (hok : Along Contended.step CommitsUpdated ⟨e.reset, dirty, []⟩ as)
    (hr : run Contended.step ⟨e.reset, dirty, []⟩ as = some s) : ¬ PushesItself s.execution :=
  (run_invariant_along (fun _ _ _ hok hi hs => hi.step hok hs) hok (Guarded.reset hv hp hid)
    hr).not_pushesItself

section

def sampleCall (op : Op) (reply : Reply ℕ op) : List (ContendedAction ℕ ℕ) :=
  [.perform op reply, .deliver 0]

def sampleRead (k : ℕ) : List (ContendedAction ℕ ℕ) :=
  .own (.dispatch (.read ⟨"t", k⟩ none)) :: sampleCall .readOutside (sampleReply .readOutside) ++
    [.own (.visit 0), .own .tidy]

def sampleUpdate (txId : ℤ) : List (ContendedAction ℕ ℕ) :=
  [.own (.dispatch (.update ⟨"t", 1⟩ (some 7))), .own (.visit 0), .own .tidy,
      .upload ⟨⟨"t", 2⟩, 1, 9⟩, .own (.dispatch .commit)] ++
    sampleCall (.uploadVersionEntry 0) (sampleReply (.uploadVersionEntry 0)) ++
    [.own (.visit 1), .own (.visit 0), .own .tidy] ++
    sampleCall .setCommitTs (sampleReply .setCommitTs) ++ .own (.visit 0) ::
    sampleCall (.updateReadEntryMaxCommitTs 0) ⟨false, { VersionEntry.blank none with
      version := 0, txId := txId, beginTs := 0, endTs := int64Max, maxCommitTs := 6 }, []⟩ ++
    [.own (.visit 1)]

def sampleStart : Contended ℕ ℕ LocalServices := ⟨sampleExecution.reset, [], []⟩

def pushes (txId : ℤ) : Event ℕ ℕ → Bool
  | .issued (.pushConflictTxnCommitTsLowerBound _) (.updateCommitLowerBound id _) => id == txId
  | _ => false

theorem never_pushesItself_sample :
    ∃ s, run Contended.step sampleStart (sampleRead 1 ++ sampleRead 2 ++ sampleUpdate 9) = some s ∧
      s.execution.log.any (pushes 9) = true ∧ ¬ PushesItself s.execution := by
  have h : (run Contended.step sampleStart (sampleRead 1 ++ sampleRead 2 ++ sampleUpdate 9)).map
      (fun s => s.execution.log.any (pushes 9)) = some true := by decide +kernel
  obtain ⟨s, hr, hs⟩ := Option.map_eq_some_iff.mp h
  have hok : Along Contended.step CommitsUpdated sampleStart
      (sampleRead 1 ++ sampleRead 2 ++ sampleUpdate 9) := by decide +kernel
  exact ⟨s, hr, hs, never_pushesItself rfl rfl (fun _ hd => absurd hd List.not_mem_nil) hok hr⟩

/-- A key is read twice and updated: the update marks the newer read-set entry only, and the older
one is validated against the transaction's own version. -/
theorem pushesItself_sample :
    ∃ s, run Contended.step sampleStart (sampleRead 1 ++ sampleRead 1 ++ sampleUpdate 1) = some s ∧
      PushesItself s.execution := by
  have h : (run Contended.step sampleStart (sampleRead 1 ++ sampleRead 1 ++ sampleUpdate 1)).map
      (fun s => (s.execution.txnId, s.execution.log.any (pushes 1))) = some (1, true) := by
    decide +kernel
  obtain ⟨s, hr, hs⟩ := Option.map_eq_some_iff.mp h
  obtain ⟨hid, hany⟩ := Prod.mk.inj hs
  obtain ⟨ev, hev, hpush⟩ := List.any_eq_true.mp hany
  refine ⟨s, hr, ?_⟩
  unfold pushes at hpush
  split at hpush
  · next i id t =>
    rw [beq_iff_eq.mp hpush, ← hid] at hev
    exact ⟨i, t, hev⟩
  · cases hpush

end

end Contended

end Fugue
