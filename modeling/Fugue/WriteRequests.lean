import Fugue.OwnReads

namespace Fugue

variable {K V S : Type}

/-- `q` differs from `p` in one entry, which is for the key `k` and is new or modified. -/
def KeyWriteSetEntryPool.ChangesOne (p : KeyWriteSetEntryPool K) (k : SetKey K)
    (q : KeyWriteSetEntryPool K) : Prop :=
  ∃ i < q.popIndex, q.key i = some k ∧
    (∀ j < q.popIndex, j ≠ i → j < p.popIndex ∧ q.get j = p.get j) ∧
    (q.popIndex = p.popIndex + 1 ∨
      q.popIndex = p.popIndex ∧ p.key i = some k ∧ q.entry i ≠ p.entry i)

namespace KeyWriteSetEntryPool

variable {p : KeyWriteSetEntryPool K} {k : SetKey K}

theorem changesOne_new (version : ℤ) (isDeleted : Bool) (record : Option Addr)
    (readEntry : Option ℕ) (b : Bool) :
    p.ChangesOne k (p.newWriteSetEntry k version isDeleted record readEntry b) := by
  refine ⟨p.popIndex, ?_, key_newWriteSetEntry_self, ?_, .inl popIndex_newWriteSetEntry⟩
  · rw [popIndex_newWriteSetEntry]
    omega
  · intro j hj hne
    rw [popIndex_newWriteSetEntry] at hj
    exact ⟨by omega, (Pool.get_modify_ne _ _ hne).trans (Pool.get_new p j)⟩

theorem changesOne_setDeleted {i : ℕ} (hi : i < p.popIndex) (hk : p.key i = some k)
    (hd : (p.entry i).isDeleted = false) : p.ChangesOne k (p.setDeleted i) := by
  refine ⟨i, hi, (key_setDeleted i i).trans hk, ?_, .inr ⟨rfl, hk, ?_⟩⟩
  · intro j hj hne
    exact ⟨hj, Pool.get_modify_ne _ _ hne⟩
  · intro heq
    have hself : ((p.setDeleted i).entry i).isDeleted = true :=
      congrArg (fun o : KeyWriteSetEntry K => o.entry.isDeleted) (Pool.get_modify_self p _ hi)
    rw [heq, hd] at hself
    cases hself

theorem newWriteSetEntry_ne (version : ℤ) (isDeleted : Bool) (record : Option Addr)
    (readEntry : Option ℕ) (b : Bool) :
    p.newWriteSetEntry k version isDeleted record readEntry b ≠ p := by
  intro heq
  have hsize := congrArg Pool.popIndex heq
  rw [popIndex_newWriteSetEntry] at hsize
  omega

end KeyWriteSetEntryPool

namespace KeyReadSetEntryPool

variable [DecidableEq K] {p : KeyReadSetEntryPool K} {k : SetKey K}

theorem findInReadSet_fill (entry : ReadSetEntry) :
    (p.newReadSetEntry.fill p.popIndex k entry).findInReadSet k = some p.popIndex := by
  have hlt : p.popIndex < p.new.popIndex := by
    rw [Pool.popIndex_new]
    exact Nat.lt_succ_self _
  have hself : (p.newReadSetEntry.fill p.popIndex k entry).get p.popIndex = ⟨some k, entry⟩ :=
    Pool.get_modify_self p.new _ hlt
  have hsize : (p.newReadSetEntry.fill p.popIndex k entry).popIndex = p.popIndex + 1 :=
    Pool.popIndex_new p
  unfold findInReadSet Pool.find
  rw [hsize, Pool.findBelow, hself]
  simp

theorem findInReadSet_release :
    findInReadSet p.newReadSetEntry.release k = p.findInReadSet k := by
  have hsize : p.newReadSetEntry.release.popIndex = p.popIndex := by
    rw [Pool.popIndex_release, newReadSetEntry, Pool.popIndex_new]
    rfl
  unfold findInReadSet Pool.find
  rw [hsize]
  apply Pool.findBelow_congr
  intro j _
  rw [Pool.get_release, newReadSetEntry, Pool.get_new]

omit [DecidableEq K] in
theorem entry_release (i : ℕ) : entry p.newReadSetEntry.release i = p.entry i :=
  congrArg KeyReadSetEntry.entry (Pool.get_new p i)

end KeyReadSetEntryPool

namespace TransactionExecution

variable [DecidableEq K] {e e' e₀ z : TransactionExecution K V S} {key : SetKey K}

def NoneUpdated (e₀ e : TransactionExecution K V S) : Prop :=
  ∀ i < e.keyReadSet.popIndex, (e.keyReadSet.entry i).isUpdated = true →
    i < e₀.keyReadSet.popIndex ∧ (e₀.keyReadSet.entry i).isUpdated = true

/-- A request to write `key` changed nothing if it failed, and one entry for the key otherwise. -/
def WritesCleanly (key : SetKey K) (e₀ e : TransactionExecution K V S) : Prop :=
  (e.result.isError = true → e.keyWriteSet = e₀.keyWriteSet ∧ NoneUpdated e₀ e) ∧
    (e.result.isError = false → e₀.keyWriteSet.ChangesOne key e.keyWriteSet)

/-- The read inside an insert or upsert fails, and an earlier read of the key can be found. -/
def FailedReadFinds (e₀ : TransactionExecution K V S) (r : OperationRequest K)
    (reply : Reply V .readOutside) : Prop :=
  reply.isError = true ∧
    match r with
    | .insert key _ =>
      ∃ i, e₀.findInReadSet key = some i ∧ (e₀.keyReadSet.entry i).isDeleted = true
    | .upsert key _ => ∃ i, e₀.findInReadSet key = some i
    | _ => False

/-- How a request to write `key` ends; `found` tells that its read failed but was not missed. -/
inductive WriteOutcome (e₀ : TransactionExecution K V S) (key : SetKey K) (record : Option Addr)
    (found : Prop) (e : TransactionExecution K V S) : Prop
  | refused (hfound : ¬ found) (error : e.result.isError = true)
      (writeSet : e.keyWriteSet = e₀.keyWriteSet) (flags : NoneUpdated e₀ e)
  | added (version : ℤ) (isDeleted : Bool) (j : ℕ) (error : e.result.isError = true ↔ found)
      (writeSet : e.keyWriteSet =
        e₀.keyWriteSet.newWriteSetEntry key version isDeleted record (some j) false)
  | removed (i : ℕ) (hfound : ¬ found) (hr : record = none) (hi : e₀.findInWriteSet key = some i)
      (live : (e₀.keyWriteSet.entry i).isDeleted = false) (error : e.result.isError = false)
      (writeSet : e.keyWriteSet = e₀.keyWriteSet.setDeleted i)

theorem WriteOutcome.cleanly_iff {record : Option Addr} {found : Prop}
    (h : WriteOutcome e₀ key record found e) : WritesCleanly key e₀ e ↔ ¬ found := by
  cases h with
  | refused hfound error writeSet flags =>
    refine iff_of_true ⟨fun _ => ⟨writeSet, flags⟩, fun he => ?_⟩ hfound
    rw [error] at he
    cases he
  | added version isDeleted j error writeSet =>
    rw [← error]
    constructor
    · rintro ⟨hclean, -⟩ he
      have hsame := (hclean he).1
      rw [writeSet] at hsame
      exact KeyWriteSetEntryPool.newWriteSetEntry_ne _ _ _ _ _ hsame
    · intro hne
      refine ⟨fun he => absurd he hne, fun _ => ?_⟩
      rw [writeSet]
      exact KeyWriteSetEntryPool.changesOne_new _ _ _ _ _
  | removed i hfound _ hi live error writeSet =>
    refine iff_of_true ⟨fun he => ?_, fun _ => ?_⟩ hfound
    · rw [error] at he
      cases he
    · obtain ⟨hlt, hkey, -⟩ := Pool.find_eq_some hi
      rw [writeSet]
      exact KeyWriteSetEntryPool.changesOne_setDeleted hlt (of_decide_eq_true hkey) live

section

variable {record : Option Addr} {found : Prop}

theorem WriteOutcome.congr (h : WriteOutcome e₀ key record found e)
    (hd : e'.toExecutionState = e.toExecutionState) : WriteOutcome e₀ key record found e' := by
  have hr : e'.result = e.result := congrArg ExecutionState.result hd
  have hk : e'.keyReadSet = e.keyReadSet := congrArg ExecutionState.keyReadSet hd
  have hw : e'.keyWriteSet = e.keyWriteSet := congrArg ExecutionState.keyWriteSet hd
  cases h with
  | refused hfound error writeSet flags =>
    refine .refused hfound (hr ▸ error) (hw.trans writeSet) ?_
    rw [NoneUpdated, hk]
    exact flags
  | added version isDeleted j error writeSet =>
    exact .added version isDeleted j (hr ▸ error) (hw.trans writeSet)
  | removed i hfound hnone hi live error writeSet =>
    exact .removed i hfound hnone hi live (hr ▸ error) (hw.trans writeSet)

theorem WriteOutcome.write (hw : z.keyWriteSet = e₀.keyWriteSet) (hk : z.args.writeKey = key)
    (error : z.result.isError = true ↔ found) (j : ℕ) (isDeleted : Bool) :
    WriteOutcome e₀ key record found (z.write j isDeleted record) := by
  refine .added ((z.keyReadSet.entry j).version + 1) isDeleted j error ?_
  rw [← hw, ← hk]
  rfl

theorem WriteOutcome.refuse (hw : z.keyWriteSet = e₀.keyWriteSet) (hflags : NoneUpdated e₀ z)
    (hfound : ¬ found) : WriteOutcome e₀ key record found z.setResultError :=
  .refused hfound rfl hw hflags

theorem WriteOutcome.insert (hw : z.keyWriteSet = e₀.keyWriteSet) (hflags : NoneUpdated e₀ z)
    (hk : z.args.writeKey = key) (hr : z.args.writeRecord = record)
    (hfound : found ↔ z.result.isError = true ∧ (z.target .insert).isSome = true) :
    WriteOutcome e₀ key record found (insertNext z).2 := by
  unfold target at hfound
  unfold insertNext
  cases hf : z.findInReadSet z.args.writeKey with
  | none =>
    refine (WriteOutcome.refuse hw hflags ?_).congr rfl
    simp [hfound, hf]
  | some j =>
    simp only
    by_cases hd : (z.keyReadSet.entry j).isDeleted = true
    · rw [if_pos hd, hr]
      refine (WriteOutcome.write hw hk ?_ j false).congr rfl
      simp [hfound, hf, hd]
    · rw [if_neg hd]
      refine (WriteOutcome.refuse hw hflags ?_).congr rfl
      simp [hfound, hf, hd]

theorem WriteOutcome.upsert (hw : z.keyWriteSet = e₀.keyWriteSet) (hflags : NoneUpdated e₀ z)
    (hk : z.args.writeKey = key) (hr : z.args.writeRecord = record)
    (hfound : found ↔ z.result.isError = true ∧ (z.target .upsert).isSome = true)
    (hread : z.target .upsert = none → z.result.isError = true) :
    WriteOutcome e₀ key record found (upsertNext z).2 := by
  unfold target at hfound hread
  unfold upsertNext
  cases hf : z.findInReadSet z.args.writeKey with
  | none =>
    refine .refused ?_ (hread hf) hw hflags
    simp [hfound, hf]
  | some j =>
    simp only
    rw [hr]
    refine (WriteOutcome.write hw hk ?_ j false).congr rfl
    simp [hfound, hf]

theorem WriteOutcome.update (hw : z.keyWriteSet = e₀.keyWriteSet) (hflags : NoneUpdated e₀ z)
    (hk : z.args.writeKey = key) (hr : z.args.writeRecord = record)
    (he : z.result.isError = false) (hfound : ¬ found) :
    WriteOutcome e₀ key record found z.updateCallImpl := by
  unfold updateCallImpl
  split
  · next j hj =>
    split
    · exact .refuse hw hflags hfound
    · rw [hr]
      apply WriteOutcome.write hw hk
      simp [he, hfound]
  · exact .refuse hw hflags hfound

theorem WriteOutcome.delete (hw : z.keyWriteSet = e₀.keyWriteSet) (hflags : NoneUpdated e₀ z)
    (hk : z.args.writeKey = key) (he : z.result.isError = false) (hfound : ¬ found) :
    WriteOutcome e₀ key none found z.deleteCallImpl := by
  unfold deleteCallImpl
  split
  · next i hi =>
    split
    · exact .refuse hw hflags hfound
    · next hd =>
      apply WriteOutcome.removed i hfound rfl
      · rw [← hk, findInWriteSet, ← hw]
        exact hi
      · rw [← hw]
        simpa using hd
      · exact he
      · rw [← hw]
        rfl
  · next j hw' hj =>
    split
    · exact .refuse hw hflags hfound
    · apply WriteOutcome.write hw hk
      simp [he, hfound]
  · exact .refuse hw hflags hfound

end

def stored (memory : Addr → V) (a : Addr) (r : Reply V .readOutside) : V :=
  if r.isError then memory a
  else match pickVisibleVersion r.result with
    | .ok (some v) => if v.isDeleted then memory a else memory (v.readRecord.getD a)
    | _ => memory a

section

omit [DecidableEq K]

theorem setResultRecord_memory {a : Addr} (ha : e.result.record = some a)
    (record : Option Addr) :
    (e.setResultRecord record).memory a = e.memory (record.getD a) ∧
      (e.setResultRecord record).result = e.result := by
  unfold setResultRecord
  rw [ha]
  cases record with
  | none => exact ⟨rfl, rfl⟩
  | some src =>
    simp only [Option.getD_some]
    split
    · next h => exact ⟨congrArg e.memory h, rfl⟩
    · exact ⟨Function.update_self _ _ _, rfl⟩

theorem setResultRecord_isError (record : Option Addr) :
    (e.setResultRecord record).result.isError = e.result.isError := by
  unfold setResultRecord
  split
  · rfl
  · split <;> rfl
  · rfl

theorem internalRead_frame {r : Reply V .readOutside}
    (hh : (e.handlerResult .readOutside).result = r.result) (he : r.isError = false)
    (h : e.internalRead = .ok e') :
    (∃ entry : ReadSetEntry, entry.isUpdated = false ∧ e'.keyReadSet =
      e.keyReadSet.fill e.args.readOutsideEntry e.args.readOutsideKey entry) ∧
    e'.result.isError = e.result.isError ∧
    ∀ a, e.result.record = some a → e'.memory a = stored e.memory a r := by
  unfold internalRead at h
  rw [hh] at h
  simp only [stored, he, Bool.false_eq_true, if_false]
  cases hp : pickVisibleVersion r.result with
  | error m =>
    simp only [hp] at h
    cases h
  | ok o =>
    cases o with
    | none =>
      simp only [hp] at h
      cases h
      exact ⟨⟨_, rfl, rfl⟩, rfl, fun a _ => rfl⟩
    | some v =>
      simp only [hp] at h
      cases h
      simp only
      split
      · exact ⟨⟨_, rfl, rfl⟩, rfl, fun a _ => rfl⟩
      · let y := e.fillReadSet e.args.readOutsideEntry e.args.readOutsideKey
          (.reset v.version v.txId v.beginTs v.endTs v.isDeleted v.readRecord)
        have hy := setResultRecord_frame (e := y) v.readRecord
        refine ⟨⟨_, rfl, hy.2.2.2.2.1⟩, setResultRecord_isError (e := y) v.readRecord, ?_⟩
        intro a ha
        exact (setResultRecord_memory (e := y) ha v.readRecord).1

end

structure Prepared (e₀ : TransactionExecution K V S) (key : SetKey K) (record : Option Addr)
    (e : TransactionExecution K V S) : Prop where
  status : e.status = .ongoing
  writeKey : e.args.writeKey = key
  writeRecord : e.args.writeRecord = record
  readKey : e.args.readOutsideKey = key
  readEntry : e.args.readOutsideEntry = e₀.keyReadSet.popIndex
  readSet : e.keyReadSet = e₀.keyReadSet.newReadSetEntry
  writeSet : e.keyWriteSet = e₀.keyWriteSet
  result : e.result = Result.reset record

omit [DecidableEq K] in
theorem Prepared.congr {record : Option Addr} (h : Prepared e₀ key record e)
    (hd : e'.toExecutionState = { e.toExecutionState with memory := e'.memory })
    (ha : e'.args = e.args) : Prepared e₀ key record e' where
  status := (congrArg ExecutionState.status hd).trans h.status
  writeKey := ha ▸ h.writeKey
  writeRecord := ha ▸ h.writeRecord
  readKey := ha ▸ h.readKey
  readEntry := ha ▸ h.readEntry
  readSet := (congrArg ExecutionState.keyReadSet hd).trans h.readSet
  writeSet := (congrArg ExecutionState.keyWriteSet hd).trans h.writeSet
  result := (congrArg ExecutionState.result hd).trans h.result

inductive WriteStage (e₀ : TransactionExecution K V S) (op : Op) (key : SetKey K)
    (record : Option Addr) (reply : Reply V .readOutside) (found : Prop)
    (e : TransactionExecution K V S) : Prop
  | waiting (c : HandlerCall K) (hop : op = .insert ∨ op = .upsert)
      (prepared : Prepared e₀ key record e) (moved : (e.flags .readOutside).moveToNext = false)
      (stack : e.operationVector = [some op, some .readOutside])
      (pending : e.pending = [(.readOutside, c)])
      (unfinished : e.leafIsFinished .readOutside = false) (memory : e.memory = e₀.memory)
  | answered (hop : op = .insert ∨ op = .upsert) (prepared : Prepared e₀ key record e)
      (moved : (e.flags .readOutside).moveToNext = false)
      (stack : e.operationVector = [some op, some .readOutside]) (pending : e.pending = [])
      (handlerResult : e.handlerResult .readOutside = ⟨reply.result, true, reply.isError, 0⟩)
      (memory : e.memory = delivered e₀.memory reply)
  | returned (hop : op = .insert ∨ op = .upsert)
      (stack : e.operationVector = [some op, none] ∨ e.operationVector = [some op])
      (status : e.status = .ongoing) (pending : e.pending = [])
      (writeKey : e.args.writeKey = key) (writeRecord : e.args.writeRecord = record)
      (writeSet : e.keyWriteSet = e₀.keyWriteSet) (flags : NoneUpdated e₀ e)
      (hfound : found ↔ e.result.isError = true ∧ (e.target op).isSome = true)
      (hread : e.findInReadSet key = none → e.result.isError = true)
      (memory : ∀ a, record = some a → e.memory a = stored (delivered e₀.memory reply) a reply)
  | done (stack : ∀ i y, e.operationVector.slot i = some y → y = .update ∨ y = .delete)
      (status : e.status = .ongoing) (pending : e.pending = [])
      (outcome : WriteOutcome e₀ key record found e)
      (memory : op = .insert ∨ op = .upsert →
        ∀ a, record = some a → e.memory a = stored (delivered e₀.memory reply) a reply)

namespace WriteStage

variable {op : Op} {record : Option Addr} {reply : Reply V .readOutside} {found : Prop}

theorem complete (h : WriteStage e₀ op key record reply found e) {op' : Op} {r : Reply V op'}
    (hr : ∀ q, Action.complete (K := K) op' r = .complete .readOutside q → q = reply)
    (hc : e.complete op' r = some e') : WriteStage e₀ op key record reply found e' := by
  obtain ⟨c, hcomp⟩ := complete_cases hc
  have hempty : e.pending ≠ [] := List.ne_nil_of_mem hcomp.mem
  cases h with
  | waiting c' hop prepared moved stack pending unfinished memory =>
    have hmem := hcomp.mem
    rw [pending] at hmem
    obtain ⟨rfl, rfl⟩ := Prod.mk.inj (List.mem_singleton.mp hmem)
    obtain rfl := hr r rfl
    apply WriteStage.answered hop (prepared.congr hcomp.data hcomp.args)
    · rw [hcomp.flags, moved]
    · exact hcomp.operationVector.trans stack
    · rw [hcomp.pending, pending, List.erase_cons_head]
    · exact hcomp.self
    · unfold TransactionExecution.complete at hc
      rw [pending] at hc
      simp only [List.find?_cons, decide_true, Option.map_some, Option.some.injEq] at hc
      rw [← hc]
      simp only [delivered, ← memory]
      rfl
  | answered hop prepared moved stack pending => exact absurd pending hempty
  | returned hop stack status pending => exact absurd pending hempty
  | done stack status pending => exact absurd pending hempty

theorem tidy [Services S] (h : WriteStage e₀ op key record reply found e) :
    WriteStage e₀ op key record reply found e.tidy := by
  have hs : e.status = .ongoing := by
    cases h with
    | waiting _ _ prepared | answered _ prepared => exact prepared.status
    | returned _ _ status | done _ status => exact status
  unfold TransactionExecution.tidy
  rw [if_neg (by simp [hs])]
  have ht : ∀ l, e.operationVector = l → Slots.trim e.operationVector = Slots.trim l :=
    fun l hl => by rw [hl]
  cases h with
  | waiting c hop prepared moved stack pending unfinished memory =>
    exact .waiting c hop (prepared.congr rfl rfl) moved (ht _ stack) pending unfinished memory
  | answered hop prepared moved stack pending handlerResult memory =>
    exact .answered hop (prepared.congr rfl rfl) moved (ht _ stack) pending handlerResult memory
  | returned hop stack status pending writeKey writeRecord writeSet flags hfound hread memory =>
    exact .returned hop (.inr (stack.elim (ht _) (ht _))) status pending writeKey writeRecord
      writeSet flags hfound hread memory
  | done stack status pending outcome memory =>
    refine .done ?_ status pending (outcome.congr rfl) memory
    intro i y hi
    exact stack i y (by simpa using hi)

theorem read_failed (prepared : Prepared e₀ key record e) (hop : op = .insert ∨ op = .upsert)
    (hfound : found ↔ reply.isError = true ∧ ((e₀.resetWrite key record).target op).isSome = true)
    (he : reply.isError = true) (hm : e.memory = delivered e₀.memory reply)
    (hp : e.pending = []) (hz : z = ((e.releaseReadSet.setResultError).setHasNext .readOutside
      false).setSlot 1 none)
    (hv : z.operationVector = [some op, none]) : WriteStage e₀ op key record reply found z := by
  have hread : z.keyReadSet = e₀.keyReadSet.newReadSetEntry.release := by
    rw [hz, ← prepared.readSet]
    rfl
  have hfind : z.findInReadSet key = e₀.findInReadSet key := by
    rw [findInReadSet, hread]
    exact KeyReadSetEntryPool.findInReadSet_release
  have hentry : ∀ i, z.keyReadSet.entry i = e₀.keyReadSet.entry i := by
    intro i
    rw [hread]
    exact KeyReadSetEntryPool.entry_release i
  have hkey : z.args.writeKey = key := by
    rw [hz]
    exact prepared.writeKey
  have hsize : z.keyReadSet.popIndex = e₀.keyReadSet.popIndex := by
    rw [hread, Pool.popIndex_release, KeyReadSetEntryPool.newReadSetEntry, Pool.popIndex_new]
    rfl
  have herr : z.result.isError = true := by
    rw [hz]
    rfl
  apply WriteStage.returned hop (.inl hv)
  · rw [hz]
    exact prepared.status
  · rw [hz]
    exact hp
  · exact hkey
  · rw [hz]
    exact prepared.writeRecord
  · rw [hz]
    exact prepared.writeSet
  · intro i hi hu
    rw [hsize] at hi
    rw [hentry] at hu
    exact ⟨hi, hu⟩
  · have htarget : z.target op = (e₀.resetWrite key record).target op := by
      rcases hop with rfl | rfl <;> simp only [target, hkey, hfind, hentry] <;> rfl
    rw [hfound, htarget]
    simp [he, herr]
  · exact fun _ => herr
  · intro a _
    rw [hz, stored, if_pos he, ← hm]
    rfl

theorem read_returned {y : TransactionExecution K V S} (prepared : Prepared e₀ key record e)
    (hop : op = .insert ∨ op = .upsert) (hfound : ¬ found) (he : reply.isError = false)
    (hm : e.memory = delivered e₀.memory reply) (hp : e.pending = [])
    (hh : (e.handlerResult .readOutside).result = reply.result) (hr : e.internalRead = .ok y)
    (hz : z.toExecutionState = y.toExecutionState) (ha : z.args = y.args)
    (hzp : z.pending = y.pending) (hv : z.operationVector = [some op, none]) :
    WriteStage e₀ op key record reply found z := by
  obtain ⟨⟨entry, hu, hread⟩, herr, hmem⟩ := internalRead_frame hh he hr
  have hq := quiet_internalRead hr
  obtain ⟨hstatus, hargs, hset⟩ := internalRead_sets hr
  rw [prepared.readKey, prepared.readEntry, prepared.readSet] at hread
  have hzread : z.keyReadSet = _ := (congrArg ExecutionState.keyReadSet hz).trans hread
  have hkey : z.args.writeKey = key := by
    rw [ha, hargs, prepared.writeKey]
  have hzerr : z.result.isError = false := by
    rw [hz, herr, prepared.result]
    rfl
  have hfind : z.findInReadSet key = some e₀.keyReadSet.popIndex := by
    rw [findInReadSet, hzread]
    exact KeyReadSetEntryPool.findInReadSet_fill entry
  apply WriteStage.returned hop (.inl hv)
  · rw [hz, hstatus, prepared.status]
  · rw [hzp, hq]
    exact hp
  · exact hkey
  · rw [ha, hargs, prepared.writeRecord]
  · rw [hz, hset, prepared.writeSet]
  · intro i hi hui
    rw [hzread] at hi hui
    have hi' : i < e₀.keyReadSet.popIndex + 1 := by
      rw [← Pool.popIndex_new e₀.keyReadSet]
      exact hi
    rcases Nat.lt_succ_iff_lt_or_eq.mp hi' with hlt | rfl
    · refine ⟨hlt, ?_⟩
      have hsame : (e₀.keyReadSet.newReadSetEntry.fill e₀.keyReadSet.popIndex key entry).get i =
          e₀.keyReadSet.get i :=
        (Pool.get_modify_ne _ _ (Nat.ne_of_lt hlt)).trans (Pool.get_new _ _)
      rwa [KeyReadSetEntryPool.entry, hsame] at hui
    · have hself : (e₀.keyReadSet.newReadSetEntry.fill e₀.keyReadSet.popIndex key entry).get
          e₀.keyReadSet.popIndex = ⟨some key, entry⟩ := by
        apply Pool.get_modify_self
        rw [KeyReadSetEntryPool.newReadSetEntry, Pool.popIndex_new]
        exact hi'
      rw [KeyReadSetEntryPool.entry, hself, hu] at hui
      cases hui
  · simp [hfound, hzerr]
  · intro hnone
    rw [hfind] at hnone
    cases hnone
  · intro a hrec
    have := hmem a (by rw [prepared.result, ← hrec]; rfl)
    rw [hz, this, hm]

omit [DecidableEq K] in
theorem isFinished_waiting (hop : op = .insert ∨ op = .upsert)
    (moved : (e.flags .readOutside).moveToNext = false) : e.isFinished op = false := by
  rcases hop with rfl | rfl <;> simp [isFinished, children, isCascadeFinished, moved]

variable [Services S]

theorem visit_answered {e₁ : TransactionExecution K V S} {o : Option Op}
    (prepared : Prepared e₀ key record e) (hop : op = .insert ∨ op = .upsert)
    (hfound : found ↔ reply.isError = true ∧ ((e₀.resetWrite key record).target op).isSome = true)
    (stack : e.operationVector = [some op, some .readOutside]) (pending : e.pending = [])
    (handlerResult : e.handlerResult .readOutside = ⟨reply.result, true, reply.isError, 0⟩)
    (memory : e.memory = delivered e₀.memory reply) (hn : next .readOutside e = .ok (o, e₁)) :
    o = none ∧ WriteStage e₀ op key record reply found (e₁.setSlot 1 none) := by
  have hprep : Prepared e₀ key record (e.setFlags .readOutside ⟨true, true⟩) :=
    prepared.congr rfl rfl
  have ha := next_advanced hn
  have hv : (e₁.setSlot 1 none).operationVector = [some op, none] := by
    change Slots.setSlot e₁.operationVector 1 none = _
    rw [ha.operationVector, stack]
    rfl
  simp only [next, nextImpl] at hn
  split at hn
  · next he =>
    cases hn
    have he : reply.isError = true := by
      have : (e.handlerResult .readOutside).isError = true := he
      rwa [handlerResult] at this
    exact ⟨rfl, read_failed hprep hop hfound he memory pending rfl hv⟩
  · next he =>
    cases hr : (e.setFlags .readOutside ⟨true, true⟩).internalRead with
    | error m =>
      rw [hr] at hn
      cases hn
    | ok y =>
      rw [hr] at hn
      cases hn
      have he : reply.isError = false := by
        have : ¬ (e.handlerResult .readOutside).isError = true := he
        rw [handlerResult] at this
        simpa using this
      have hnot : ¬ found := by
        rw [hfound, he]
        simp
      exact ⟨rfl, read_returned hprep hop hnot he memory pending
        (congrArg HandlerResult.result handlerResult) hr rfl rfl rfl hv⟩

theorem visit_returned {e₁ : TransactionExecution K V S} {o : Option Op}
    (hop : op = .insert ∨ op = .upsert) (status : e.status = .ongoing)
    (writeKey : e.args.writeKey = key) (writeRecord : e.args.writeRecord = record)
    (writeSet : e.keyWriteSet = e₀.keyWriteSet) (flags : NoneUpdated e₀ e)
    (hfound : found ↔ e.result.isError = true ∧ (e.target op).isSome = true)
    (hread : e.findInReadSet key = none → e.result.isError = true)
    (hn : next op e = .ok (o, e₁)) :
    o = none ∧ e₁.status = .ongoing ∧ e₁.memory = e.memory ∧
      WriteOutcome e₀ key record found e₁ := by
  rcases hop with rfl | rfl
  · let y := e.setFlags .insert ⟨true, true⟩
    obtain rfl : e₁ = (insertNext y).2 := by
      cases hn
      rfl
    have hframe : (insertNext y).2.status = y.status ∧ (insertNext y).2.memory = y.memory := by
      unfold insertNext
      repeat' split
      all_goals exact ⟨rfl, rfl⟩
    refine ⟨?_, hframe.1.trans status, hframe.2, ?_⟩
    · cases hn
      rfl
    · exact WriteOutcome.insert (z := y) writeSet flags writeKey writeRecord hfound
  · let y := e.setFlags .upsert ⟨true, true⟩
    obtain rfl : e₁ = (upsertNext y).2 := by
      cases hn
      rfl
    have hframe : (upsertNext y).2.status = y.status ∧ (upsertNext y).2.memory = y.memory := by
      unfold upsertNext
      split <;> exact ⟨rfl, rfl⟩
    refine ⟨?_, hframe.1.trans status, hframe.2, ?_⟩
    · cases hn
      rfl
    · refine WriteOutcome.upsert (z := y) writeSet flags writeKey writeRecord hfound fun ht => hread ?_
      rw [← writeKey]
      exact ht

theorem visit (h : WriteStage e₀ op key record reply found e)
    (hfound : op = .insert ∨ op = .upsert → (found ↔ reply.isError = true ∧
      ((e₀.resetWrite key record).target op).isSome = true))
    {i : ℕ} {b : Bool} (hv : TransactionExecution.visit i e = .ok (e', b)) :
    WriteStage e₀ op key record reply found e' := by
  rcases visit_cases hv with rfl | ⟨y, o, e₁, hi, hf, hn, ha, hcase⟩
  · exact h
  have htwo : e.operationVector = [some op, some .readOutside] →
      i = 0 ∧ y = op ∨ i = 1 ∧ y = .readOutside := by
    intro stack
    rw [stack] at hi
    rcases i with _ | _ | i
    · exact .inl ⟨rfl, (Option.some.inj hi).symm⟩
    · exact .inr ⟨rfl, (Option.some.inj hi).symm⟩
    · simp [Slots.slot] at hi
  have hnone : o = none → e' = e₁.setSlot i none := by
    intro ho
    rcases hcase with ⟨-, he⟩ | ⟨x, hx, -⟩
    · exact he
    · rw [ho] at hx
      cases hx
  cases h with
  | waiting c hop prepared moved stack pending unfinished memory =>
    rcases htwo stack with ⟨rfl, rfl⟩ | ⟨rfl, rfl⟩
    · rw [isFinished_waiting hop moved] at hf
      cases hf
    · exact absurd (unfinished.symm.trans hf) (by simp)
  | answered hop prepared moved stack pending handlerResult memory =>
    rcases htwo stack with ⟨rfl, rfl⟩ | ⟨rfl, rfl⟩
    · rw [isFinished_waiting hop moved] at hf
      cases hf
    · obtain ⟨ho, hret⟩ := visit_answered prepared hop (hfound hop) stack pending handlerResult
        memory hn
      rw [hnone ho]
      exact hret
  | returned hop stack status pending writeKey writeRecord writeSet flags hfound hread memory =>
    have hone : i = 0 ∧ y = op := by
      rcases i with _ | _ | i
      · refine ⟨rfl, ?_⟩
        rcases stack with stack | stack <;> rw [stack] at hi <;>
          exact (Option.some.inj hi).symm
      · rcases stack with stack | stack <;> simp [stack, Slots.slot] at hi
      · rcases stack with stack | stack <;> simp [stack, Slots.slot] at hi
    obtain ⟨rfl, rfl⟩ := hone
    obtain ⟨ho, hs, hm, hout⟩ := visit_returned hop status writeKey writeRecord writeSet flags
      hfound hread hn
    rw [hnone ho]
    refine .done ?_ hs (ha.pending.trans pending) (hout.congr rfl) fun _ a hrec => ?_
    · intro j x hx
      have hslots : (e₁.setSlot 0 none).operationVector = Slots.setSlot e.operationVector 0 none :=
        congrArg (Slots.setSlot · 0 none) ha.operationVector
      rw [hslots] at hx
      rcases j with _ | _ | j
      · rcases stack with stack | stack <;> simp [stack, Slots.slot, Slots.setSlot] at hx
      · rcases stack with stack | stack <;> simp [stack, Slots.slot, Slots.setSlot] at hx
      · rcases stack with stack | stack <;> simp [stack, Slots.slot, Slots.setSlot] at hx
    · exact (congrFun hm a).trans (memory a hrec)
  | done stack status pending outcome memory =>
    have hdata : o = none ∧ e₁.toExecutionState = e.toExecutionState := by
      rcases stack i y hi with rfl | rfl <;> cases hn <;> exact ⟨rfl, rfl⟩
    obtain ⟨ho, hdata⟩ := hdata
    rw [hnone ho]
    refine .done ?_ (hdata ▸ status) (ha.pending.trans pending) (outcome.congr hdata) ?_
    · intro j x hx
      apply stack j x
      have hlt := Slots.lt_length_of_slot hi
      change (Slots.setSlot e₁.operationVector i none).slot j = some x at hx
      rw [ha.operationVector, Slots.slot_setSlot _ _ _ _ hlt] at hx
      split at hx
      · cases hx
      · exact hx
    · intro hop a hrec
      exact (congrFun (congrArg ExecutionState.memory hdata) a).trans (memory hop a hrec)

theorem run (h : WriteStage e₀ op key record reply found e)
    (hfound : op = .insert ∨ op = .upsert → (found ↔ reply.isError = true ∧
      ((e₀.resetWrite key record).target op).isSome = true))
    {as : List (Action K V)} (hd : ∀ q, .dispatch q ∉ as)
    (hr : ∀ q, .complete .readOutside q ∈ as → q = reply)
    (hrun : Fugue.run step e as = some e') : WriteStage e₀ op key record reply found e' := by
  apply run_invariant_of_mem _ h hrun
  intro z a z' ha hz hs
  cases a with
  | dispatch q => exact absurd ha (hd q)
  | complete op' r =>
    apply hz.complete _ hs
    intro q hq
    exact hr q (hq ▸ ha)
  | visit i =>
    simp only [step] at hs
    cases hv : TransactionExecution.visit i z with
    | error m =>
      rw [hv] at hs
      cases hs
    | ok p =>
      rw [hv] at hs
      cases hs
      exact hz.visit hfound (b := p.2) hv
  | tidy =>
    simp only [step] at hs
    split at hs
    · cases hs
    · cases hs
      exact hz.tidy

end WriteStage

section

variable {r : OperationRequest K} {reply : Reply V .readOutside}

def writeOp : OperationRequest K → Op
  | .insert _ _ => .insert
  | .upsert _ _ => .upsert
  | .update _ _ => .update
  | _ => .delete

theorem failedReadFinds_iff (hk : r.writeKey = some key)
    (hop : writeOp r = .insert ∨ writeOp r = .upsert) : FailedReadFinds e r reply ↔
      reply.isError = true ∧ ((e.resetWrite key r.record).target (writeOp r)).isSome = true := by
  have hfind : ∀ (record : Option Addr),
      (e.resetWrite key record).findInReadSet (e.resetWrite key record).args.writeKey =
        e.findInReadSet key := fun _ => rfl
  have hentry : ∀ (record : Option Addr) i,
      (e.resetWrite key record).keyReadSet.entry i = e.keyReadSet.entry i := fun _ _ => rfl
  cases r with
  | insert k record =>
    obtain rfl := Option.some.inj hk
    simp only [FailedReadFinds, writeOp, target, hfind, hentry]
    cases e.findInReadSet k <;> simp [Option.filter_some]
  | upsert k record =>
    obtain rfl := Option.some.inj hk
    simp only [FailedReadFinds, writeOp, target, hfind]
    cases e.findInReadSet k <;> simp
  | _ => simp [writeOp] at hop

theorem not_failedReadFinds (hop : ¬ (writeOp r = .insert ∨ writeOp r = .upsert)) :
    ¬ FailedReadFinds e r reply := by
  cases r <;> simp_all [writeOp, FailedReadFinds]

omit [DecidableEq K] in
theorem Prepared.dispatch (hs : e.status = .ongoing) {record : Option Addr}
    (hd : e'.toExecutionState = { e.toExecutionState with
      keyReadSet := e.keyReadSet.newReadSetEntry, currentRequest := e'.currentRequest,
      requestFinished := e'.requestFinished, result := Result.reset record })
    (h1 : e'.args.writeKey = key) (h2 : e'.args.writeRecord = record)
    (h3 : e'.args.readOutsideKey = key) (h4 : e'.args.readOutsideEntry = e.keyReadSet.popIndex) :
    Prepared e key record e' where
  status := (congrArg ExecutionState.status hd).trans hs
  writeKey := h1
  writeRecord := h2
  readKey := h3
  readEntry := h4
  readSet := congrArg ExecutionState.keyReadSet hd
  writeSet := (congrArg ExecutionState.keyWriteSet hd :)
  result := congrArg ExecutionState.result hd

variable [Services S]

theorem WriteStage.dispatch (hv : e.operationVector = []) (hp : e.pending = [])
    (hs : e.status = .ongoing) (hk : r.writeKey = some key) :
    WriteStage e (writeOp r) key r.record reply (FailedReadFinds e r reply) (e.dispatch r) := by
  have hsize : e.keyReadSet.newReadSetEntry.popIndex - 1 = e.keyReadSet.popIndex :=
    congrArg (· - 1) (Pool.popIndex_new e.keyReadSet)
  have hdone : ∀ op, op = .update ∨ op = .delete → ∀ v, v = e.operationVector.pushBack op →
      ∀ i y, v.slot i = some y → y = Op.update ∨ y = .delete := by
    rintro op hop v rfl i y hi
    rw [hv, Slots.slot_pushBack] at hi
    split at hi
    · exact Option.some.inj hi ▸ hop
    · simp at hi
  cases r with
  | insert k record =>
    obtain rfl := Option.some.inj hk
    refine .waiting (.getVersionList k e.commitTimestampLocal) (.inl rfl) ?_
      (issue_moveToNext _ _ _) ?_ ?_ (leafIsFinished_resetReadOutside k) rfl
    · exact Prepared.dispatch hs rfl rfl rfl rfl hsize
    · exact congrArg (fun v => Slots.pushBack (Slots.pushBack v .insert) .readOutside) hv
    · exact congrArg (· ++ [(Op.readOutside, HandlerCall.getVersionList k e.commitTimestampLocal)]) hp
  | upsert k record =>
    obtain rfl := Option.some.inj hk
    refine .waiting (.getVersionList k e.commitTimestampLocal) (.inr rfl) ?_
      (issue_moveToNext _ _ _) ?_ ?_ (leafIsFinished_resetReadOutside k) rfl
    · exact Prepared.dispatch hs rfl rfl rfl rfl hsize
    · exact congrArg (fun v => Slots.pushBack (Slots.pushBack v .upsert) .readOutside) hv
    · exact congrArg (· ++ [(Op.readOutside, HandlerCall.getVersionList k e.commitTimestampLocal)]) hp
  | update k record =>
    obtain rfl := Option.some.inj hk
    let z := ((({ e with currentRequest := some (.update k record), requestFinished := false } :
      TransactionExecution K V S).resetResultRecord none |>.resetWrite k record).push
        .update).setMoveToNext .update false
    have hout : WriteOutcome e k record (FailedReadFinds e (.update k record) reply)
        z.updateCallImpl :=
      .update rfl (fun i hi hu => ⟨hi, hu⟩) rfl rfl rfl (not_failedReadFinds (by simp [writeOp]))
    have hq : Quiet z z.updateCallImpl ∧ z.updateCallImpl.status = z.status := by
      unfold updateCallImpl
      repeat' split
      all_goals exact ⟨rfl, rfl⟩
    refine .done (hdone .update (.inl rfl) _ ?_) (hq.2.trans hs) ?_ hout (by simp [writeOp])
    · exact (congrArg operationVector hq.1 :)
    · exact (congrArg pending hq.1).trans hp
  | delete k =>
    obtain rfl := Option.some.inj hk
    let z := ((({ e with currentRequest := some (.delete k), requestFinished := false } :
      TransactionExecution K V S).resetResultRecord none |>.resetWrite k none).push
        .delete).setMoveToNext .delete false
    have hout : WriteOutcome e k none (FailedReadFinds e (.delete k) reply) z.deleteCallImpl :=
      .delete rfl (fun i hi hu => ⟨hi, hu⟩) rfl rfl (not_failedReadFinds (by simp [writeOp]))
    have hq : Quiet z z.deleteCallImpl ∧ z.deleteCallImpl.status = z.status := by
      unfold deleteCallImpl
      repeat' split
      all_goals exact ⟨rfl, rfl⟩
    refine .done (hdone .delete (.inr rfl) _ ?_) (hq.2.trans hs) ?_ hout (by simp [writeOp])
    · exact (congrArg operationVector hq.1 :)
    · exact (congrArg pending hq.1).trans hp
  | _ => cases hk

theorem write_request_outcome {bs : List (Action K V)} (hv : e.operationVector = [])
    (hp : e.pending = []) (hs : e.status = .ongoing) (hk : r.writeKey = some key)
    (hd : ∀ q, .dispatch q ∉ bs) (hb : ∀ q, .complete .readOutside q ∈ bs → q = reply)
    (hr : run step (e.dispatch r) bs = some e') (hi : e'.operationVector = []) :
    WriteOutcome e key r.record (FailedReadFinds e r reply) e' ∧ e'.status = .ongoing ∧
      e'.pending = [] ∧ (writeOp r = .insert ∨ writeOp r = .upsert →
        ∀ a, r.record = some a → e'.memory a = stored (delivered e.memory reply) a reply) := by
  have hstage := (WriteStage.dispatch hv hp hs hk).run
    (failedReadFinds_iff hk) hd hb hr
  cases hstage with
  | waiting c hop prepared moved stack | answered hop prepared moved stack =>
    rw [hi] at stack
    cases stack
  | returned hop stack =>
    rw [hi] at stack
    rcases stack with stack | stack <;> cases stack
  | done stack status pending outcome memory => exact ⟨outcome, status, pending, memory⟩

/-- A request to write is clean unless its read fails and an earlier read of the key is found. -/
theorem failed_write_changes_nothing {as bs : List (Action K V)} (hv : e₀.operationVector = [])
    (hp : e₀.pending = []) (hr : run step e₀.reset as = some e) (hi : e.operationVector = [])
    (hu : e.isTransactionFinished = false) (hk : r.writeKey = some key)
    (reply : Reply V .readOutside) (hd : ∀ q, .dispatch q ∉ bs)
    (hb : ∀ q, .complete .readOutside q ∈ bs → q = reply)
    (hr' : run step (e.dispatch r) bs = some e') (hi' : e'.operationVector = []) :
    WritesCleanly key e e' ↔ ¬ FailedReadFinds e r reply := by
  have hset := ((Alive.reset hv hp).run hr).settled hi hu
  obtain ⟨hout, -⟩ := write_request_outcome hi hset.pending hset.status hk hd hb hr' hi'
  exact hout.cleanly_iff

end

def readFirst : List (Action ℕ ℕ) :=
  [.dispatch .begin, sampleAnswer .initTxn, .visit 0, .tidy, .dispatch (.read ⟨"t", 1⟩ none),
    sampleAnswer .readOutside, .visit 0, .tidy]

def endUpsert (r : Reply ℕ .readOutside) : List (Action ℕ ℕ) :=
  [.complete .readOutside r, .visit 1, .visit 0, .tidy]

def failedReply : Reply ℕ .readOutside := ⟨true, (default, default), []⟩

/-- An upsert whose read fails adds a write-set entry and reports an error. -/
theorem failed_upsert_writes : ∃ e e', run step sampleExecution.reset readFirst = some e ∧
    run step (e.dispatch (.upsert ⟨"t", 1⟩ (some 7))) (endUpsert failedReply) = some e' ∧
    e'.operationVector = [] ∧ e'.result.isError = true ∧ ¬ WritesCleanly ⟨"t", 1⟩ e e' := by
  have h : ((run step sampleExecution.reset readFirst).bind fun e =>
      (run step (e.dispatch (.upsert ⟨"t", 1⟩ (some 7))) (endUpsert failedReply)).map fun e' =>
        (e.keyWriteSet.popIndex, e'.keyWriteSet.popIndex, e'.operationVector,
          e'.result.isError)) = some (0, 1, [], true) := by decide +kernel
  obtain ⟨e, hr, h⟩ := Option.bind_eq_some_iff.mp h
  obtain ⟨e', hr', h⟩ := Option.map_eq_some_iff.mp h
  obtain ⟨hsize, h⟩ := Prod.mk.inj h
  obtain ⟨hsize', h⟩ := Prod.mk.inj h
  obtain ⟨hv, he⟩ := Prod.mk.inj h
  refine ⟨e, e', hr, hr', hv, he, fun hclean => ?_⟩
  have hsame := congrArg Pool.popIndex (hclean.1 he).1
  rw [hsize, hsize'] at hsame
  cases hsame

theorem failed_write_changes_nothing_sample :
    ∃ e e', run step sampleExecution.reset readFirst = some e ∧
      run step (e.dispatch (.upsert ⟨"t", 1⟩ (some 7))) (endUpsert (sampleReply .readOutside)) =
        some e' ∧ WritesCleanly ⟨"t", 1⟩ e e' := by
  have h : ((run step sampleExecution.reset readFirst).bind fun e =>
      (run step (e.dispatch (.upsert ⟨"t", 1⟩ (some 7)))
        (endUpsert (sampleReply .readOutside))).map fun e' =>
          (e.operationVector, e.isTransactionFinished, e'.operationVector)) =
      some ([], false, []) := by decide +kernel
  obtain ⟨e, hr, h⟩ := Option.bind_eq_some_iff.mp h
  obtain ⟨e', hr', h⟩ := Option.map_eq_some_iff.mp h
  obtain ⟨hi, h⟩ := Prod.mk.inj h
  obtain ⟨hu, hi'⟩ := Prod.mk.inj h
  refine ⟨e, e', hr, hr', ?_⟩
  apply (failed_write_changes_nothing rfl rfl hr hi hu rfl (sampleReply .readOutside) _ _ hr'
    hi').mpr
  · rintro ⟨he, -⟩
    cases he
  · simp [endUpsert]
  · intro q hq
    simp only [endUpsert, List.mem_cons, reduceCtorEq, List.not_mem_nil, or_false] at hq
    cases hq
    rfl

end TransactionExecution

end Fugue
