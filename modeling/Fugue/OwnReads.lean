import Fugue.WriteSet

namespace Fugue

variable {K V S : Type}

namespace OperationRequest

def record : OperationRequest K → Option Addr
  | .insert _ record => record
  | .update _ record => record
  | .upsert _ record => record
  | _ => none

def writeKey : OperationRequest K → Option (SetKey K)
  | .insert key _ => some key
  | .update key _ => some key
  | .upsert key _ => some key
  | .delete key => some key
  | _ => none

end OperationRequest

structure Served (K V : Type) where
  request : OperationRequest K
  value : Option V
  result : Result

/-- The last write of `key` that did not end with an error; the newest request comes first. -/
def lastWrite [DecidableEq K] (key : SetKey K) (served : List (Served K V)) :
    Option (Served K V) :=
  served.find? fun s => s.request.writeKey = some key && !s.result.isError

namespace TransactionExecution

variable [DecidableEq K] [Services S] {e e' e₀ : TransactionExecution K V S}

def track (p : TransactionExecution K V S × List (Served K V)) (a : Action K V) :
    Option (TransactionExecution K V S × List (Served K V)) :=
  (step p.1 a).map fun e =>
    match a, p.2 with
    | .dispatch r, served => (e, ⟨r, r.record.map p.1.memory, e.result⟩ :: served)
    | _, s :: served => (e, { s with result := e.result } :: served)
    | _, [] => (e, [])

def Sees (w : Served K V) (e : TransactionExecution K V S) : Prop :=
  match w.request with
  | .delete _ => e.result.isDeleted = true ∨ e.result.isNull = true
  | _ => e.result.isDeleted = false ∧ e.result.isNull = false ∧ e.result.isError = false ∧
      e.result.record.map e.memory = w.value

def delivered (memory : Addr → V) (r : Reply V .readOutside) : Addr → V :=
  r.copies.foldl (fun m (c : Addr × V) => Function.update m c.1 c.2) memory

/-- The newest committed version that the store answers with is what the write `w` left. -/
def Offers (w : Served K V) (memory : Addr → V) (r : Reply V .readOutside) : Prop :=
  r.isError = false ∧
    match w.request, pickVisibleVersion r.result with
    | .delete _, .ok none => True
    | .delete _, .ok (some v) => v.isDeleted = true
    | _, .ok (some v) => v.isDeleted = false ∧ v.readRecord.map memory = w.value
    | _, _ => False

/-- A live version comes with the record that the store keeps for it. -/
def HasRecord (r : Reply V .readOutside) : Prop :=
  ∀ v, pickVisibleVersion r.result = .ok (some v) → v.isDeleted = false → v.readRecord ≠ none

/-- What a read that was answered with `r` leaves in the result. -/
def Returned (buffer : Option Addr) (memory : Addr → V) (r : Reply V .readOutside)
    (e : TransactionExecution K V S) : Prop :=
  if r.isError then e.result = { Result.reset buffer with isError := true }
  else match pickVisibleVersion r.result with
    | .ok none => e.result = { Result.reset buffer with isNull := true }
    | .ok (some v) =>
      if v.isDeleted then e.result = { Result.reset buffer with isDeleted := true }
      else e.result.isDeleted = false ∧ e.result.isNull = false ∧ e.result.isError = false ∧
        ∀ a, v.readRecord = some a → e.result.record.map e.memory = some (memory a)
    | .error _ => False

inductive ReadStage (e₀ : TransactionExecution K V S) (buffer : Option Addr)
    (r : Reply V .readOutside) (e : TransactionExecution K V S) : Prop
  | waiting (c : HandlerCall K) (stack : e.operationVector = [some .readOutside])
      (status : e.status = .ongoing) (pending : e.pending = [(.readOutside, c)])
      (unfinished : e.leafIsFinished .readOutside = false) (memory : e.memory = e₀.memory)
      (result : e.result = Result.reset buffer)
  | answered (stack : e.operationVector = [some .readOutside]) (status : e.status = .ongoing)
      (pending : e.pending = [])
      (handlerResult : e.handlerResult .readOutside = ⟨r.result, true, r.isError, 0⟩)
      (memory : e.memory = delivered e₀.memory r) (result : e.result = Result.reset buffer)
  | returned (stack : e.operationVector = [none] ∨ e.operationVector = [])
      (status : e.status = .ongoing) (pending : e.pending = [])
      (returned : Returned buffer (delivered e₀.memory r) r e)

theorem ReadStage.dispatch (hv : e.operationVector = []) (hp : e.pending = [])
    (hs : e.status = .ongoing) (key : SetKey K) (buffer : Option Addr)
    (r : Reply V .readOutside) : ReadStage e buffer r (e.dispatch (.read key buffer)) := by
  apply ReadStage.waiting (.getVersionList key e.commitTimestampLocal)
  · exact congrArg (Slots.pushBack · Op.readOutside) hv
  · exact hs
  · exact congrArg (· ++ [(Op.readOutside, HandlerCall.getVersionList key e.commitTimestampLocal)]) hp
  · exact leafIsFinished_resetReadOutside key
  · rfl
  · rfl

section

omit [DecidableEq K] [Services S]

theorem setResultRecord_returned {buffer : Option Addr} (hr : e.result = Result.reset buffer)
    (record : Option Addr) : (e.setResultRecord record).result.isDeleted = false ∧
      (e.setResultRecord record).result.isNull = false ∧
      (e.setResultRecord record).result.isError = false ∧ ∀ a, record = some a →
        (e.setResultRecord record).result.record.map (e.setResultRecord record).memory =
          some (e.memory a) := by
  have hrec : e.result.record = buffer := congrArg Result.record hr
  have hflags : e.result.isDeleted = false ∧ e.result.isNull = false ∧ e.result.isError = false := by
    rw [hr]
    exact ⟨rfl, rfl, rfl⟩
  obtain ⟨hd, hn, he⟩ := hflags
  unfold setResultRecord
  split
  · refine ⟨hd, hn, he, ?_⟩
    rintro a rfl
    rfl
  · next dst src hdst =>
    split
    · next heq =>
      refine ⟨hd, hn, he, ?_⟩
      rintro a ⟨⟩
      change e.result.record.map e.memory = _
      rw [hdst, heq]
      rfl
    · refine ⟨hd, hn, he, ?_⟩
      rintro a ⟨⟩
      change e.result.record.map (Function.update e.memory dst (e.memory src)) = _
      rw [hdst, Option.map_some, Function.update_self]
  · refine ⟨hd, hn, he, ?_⟩
    rintro a ⟨⟩

theorem returned_of_internalRead {buffer : Option Addr} {r : Reply V .readOutside}
    (hr : e.result = Result.reset buffer)
    (hh : (e.handlerResult .readOutside).result = r.result) (he : r.isError = false)
    (h : e.internalRead = .ok e') : Returned buffer e.memory r e' := by
  unfold internalRead at h
  rw [hh] at h
  unfold Returned
  rw [if_neg (by simp [he])]
  split at h
  · cases h
  · next v hv =>
    cases h
    simp only [hv]
    by_cases hd : v.isDeleted = true
    · rw [if_pos hd, if_pos hd]
      change { e.result with isDeleted := true } = _
      rw [hr]
    · rw [if_neg hd, if_neg hd]
      exact setResultRecord_returned (e := e.fillReadSet _ _ _) hr v.readRecord
  · next hv =>
    cases h
    simp only [hv]
    change { e.result with isNull := true } = _
    rw [hr]

end

omit [Services S] in
theorem ReadStage.complete {buffer : Option Addr} {r : Reply V .readOutside}
    (h : ReadStage e₀ buffer r e) {op : Op} {reply : Reply V op}
    (hr : ∀ q, Action.complete (K := K) op reply = .complete .readOutside q → q = r)
    (hc : e.complete op reply = some e') :
    ReadStage e₀ buffer r e' := by
  obtain ⟨c, hcomp⟩ := complete_cases hc
  cases h with
  | waiting c' stack status pending unfinished memory result =>
    have hmem := hcomp.mem
    rw [pending] at hmem
    obtain ⟨rfl, rfl⟩ := Prod.mk.inj (List.mem_singleton.mp hmem)
    obtain rfl := hr reply rfl
    apply ReadStage.answered
    · exact hcomp.operationVector.trans stack
    · exact hcomp.status.trans status
    · rw [hcomp.pending, pending, List.erase_cons_head]
    · exact hcomp.self
    · unfold TransactionExecution.complete at hc
      rw [pending] at hc
      simp only [List.find?_cons, decide_true, Option.map_some, Option.some.injEq] at hc
      rw [← hc]
      simp only [delivered, ← memory]
      rfl
    · exact (congrArg ExecutionState.result hcomp.data).trans result
  | answered stack status pending =>
    have hmem := hcomp.mem
    rw [pending] at hmem
    cases hmem
  | returned stack status pending =>
    have hmem := hcomp.mem
    rw [pending] at hmem
    cases hmem

theorem ReadStage.visit {buffer : Option Addr} {r : Reply V .readOutside}
    (h : ReadStage e₀ buffer r e) {i : ℕ} {b : Bool}
    (hv : TransactionExecution.visit i e = .ok (e', b)) : ReadStage e₀ buffer r e' := by
  have hone : ∀ op, Slots.slot [some Op.readOutside] i = some op → i = 0 ∧ op = .readOutside := by
    intro op hop
    cases i with
    | zero => exact ⟨rfl, (Option.some.inj hop).symm⟩
    | succ i => simp [Slots.slot] at hop
  rcases visit_cases hv with rfl | ⟨op, o, e₁, hi, hf, hn, ha, hcase⟩
  · exact h
  cases h with
  | waiting c stack status pending unfinished =>
    rw [stack] at hi
    obtain ⟨rfl, rfl⟩ := hone op hi
    exact absurd (unfinished.symm.trans hf) (by simp)
  | answered stack status pending handlerResult memory result =>
    rw [stack] at hi
    obtain ⟨rfl, rfl⟩ := hone op hi
    have hret : o = none ∧ e₁.status = .ongoing ∧ Returned buffer (delivered e₀.memory r) r e₁ := by
      simp only [next, nextImpl] at hn
      split at hn
      · next he =>
        cases hn
        have he : r.isError = true := by
          have : (e.handlerResult .readOutside).isError = true := he
          rwa [handlerResult] at this
        refine ⟨rfl, status, ?_⟩
        rw [Returned, if_pos he]
        change { e.result with isError := true } = _
        rw [result]
      · next he =>
        cases hr : (e.setFlags .readOutside ⟨true, true⟩).internalRead with
        | error m => rw [hr] at hn; cases hn
        | ok z =>
          rw [hr] at hn
          cases hn
          have he : r.isError = false := by
            have : ¬ (e.handlerResult .readOutside).isError = true := he
            rw [handlerResult] at this
            simpa using this
          have hz : Returned buffer (e.setFlags .readOutside ⟨true, true⟩).memory r z :=
            returned_of_internalRead result (congrArg HandlerResult.result handlerResult) he hr
          refine ⟨rfl, (internalRead_sets hr).1.trans status, ?_⟩
          rw [← memory]
          exact hz
    obtain ⟨rfl, hst, hret⟩ := hret
    rcases hcase with ⟨-, rfl⟩ | ⟨y, hy, -⟩
    · apply ReadStage.returned
      · left
        change Slots.setSlot e₁.operationVector 0 none = _
        rw [ha.operationVector, stack]
        rfl
      · exact hst
      · exact ha.pending.trans pending
      · exact hret
    · cases hy
  | returned stack status pending returned =>
    rcases stack with stack | stack <;> rw [stack] at hi
    · cases i <;> simp [Slots.slot] at hi
    · simp at hi

theorem ReadStage.tidy {buffer : Option Addr} {r : Reply V .readOutside}
    (h : ReadStage e₀ buffer r e) : ReadStage e₀ buffer r e.tidy := by
  unfold TransactionExecution.tidy
  have hs : e.status = .ongoing := by cases h <;> assumption
  rw [if_neg (by simp [hs])]
  have ht : ∀ l, e.operationVector = l → Slots.trim e.operationVector = Slots.trim l :=
    fun l hl => by rw [hl]
  cases h with
  | waiting c stack status pending unfinished memory result =>
    exact .waiting c (ht _ stack) status pending unfinished memory result
  | answered stack status pending handlerResult memory result =>
    exact .answered (ht _ stack) status pending handlerResult memory result
  | returned stack status pending returned =>
    exact .returned (.inr (stack.elim (ht _) (ht _))) status pending returned

theorem ReadStage.step {buffer : Option Addr} {r : Reply V .readOutside}
    (h : ReadStage e₀ buffer r e) {a : Action K V} (hd : ∀ q, a ≠ .dispatch q)
    (hr : ∀ reply, a = .complete .readOutside reply → reply = r)
    (hs : TransactionExecution.step e a = some e') : ReadStage e₀ buffer r e' := by
  cases a with
  | dispatch q => exact absurd rfl (hd q)
  | complete op reply => exact h.complete hr hs
  | visit i =>
    simp only [TransactionExecution.step] at hs
    cases hv : TransactionExecution.visit i e with
    | error m => rw [hv] at hs; cases hs
    | ok p =>
      rw [hv] at hs
      cases hs
      exact h.visit (b := p.2) hv
  | tidy =>
    simp only [TransactionExecution.step] at hs
    split at hs
    · cases hs
    · cases hs
      exact h.tidy

theorem ReadStage.run {buffer : Option Addr} {r : Reply V .readOutside} {as : List (Action K V)}
    (h : ReadStage e₀ buffer r e) (hd : ∀ q, .dispatch q ∉ as)
    (hr : ∀ reply, .complete .readOutside reply ∈ as → reply = r)
    (hrun : run TransactionExecution.step e as = some e') : ReadStage e₀ buffer r e' := by
  apply run_invariant_of_mem _ h hrun
  intro z a z' ha hz hs
  apply hz.step _ _ hs
  · rintro q rfl
    exact hd q ha
  · rintro reply rfl
    exact hr reply ha

omit [DecidableEq K] [Services S] in
theorem Returned.sees_iff {buffer : Option Addr} {memory : Addr → V} {r : Reply V .readOutside}
    (h : Returned buffer memory r e) (hrec : HasRecord r) (w : Served K V) :
    Sees w e ↔ Offers w memory r := by
  unfold Returned at h
  cases he : r.isError with
  | true =>
    simp only [he, if_true] at h
    cases hq : w.request <;> simp [Sees, Offers, hq, he, h, Result.reset]
  | false =>
    simp only [he, Bool.false_eq_true, if_false] at h
    cases hp : pickVisibleVersion r.result with
    | error m => simp [hp] at h
    | ok o =>
      cases o with
      | none =>
        simp only [hp] at h
        cases hq : w.request <;> simp [Sees, Offers, hq, hp, he, h, Result.reset]
      | some v =>
        simp only [hp] at h
        by_cases hd : v.isDeleted = true
        · rw [if_pos hd] at h
          cases hq : w.request <;> simp [Sees, Offers, hq, hp, hd, he, h, Result.reset]
        · rw [if_neg hd] at h
          obtain ⟨h1, h2, h3, h4⟩ := h
          obtain ⟨a, ha⟩ := Option.ne_none_iff_exists'.mp (hrec v hp (by simpa using hd))
          have hval := h4 a ha
          cases hq : w.request <;> simp [Sees, Offers, hq, hp, hd, he, h1, h2, h3, hval, ha]

theorem track_run {as : List (Action K V)} {served served' : List (Served K V)}
    (h : run track (e, served) as = some (e', served')) : run step e as = some e' := by
  induction as generalizing e served with
  | nil =>
    obtain ⟨rfl, -⟩ := Prod.mk.inj (Option.some.inj h)
    rfl
  | cons a as ih =>
    obtain ⟨⟨z, served₁⟩, hz, h⟩ := run_cons.mp h
    obtain ⟨y, hy, hyz⟩ := Option.map_eq_some_iff.mp hz
    have hzy : z = y := by
      cases a <;> cases served <;> exact (Prod.mk.inj hyz).1.symm
    exact run_cons.mpr ⟨z, hzy ▸ hy, ih h⟩

/-- A `Read` never looks at the write set: it sees a write if and only if the store has it. -/
theorem sees_iff_offers (hv : e₀.operationVector = []) (hp : e₀.pending = [])
    {as bs : List (Action K V)} (hr : run step e₀.reset as = some e) (hi : e.operationVector = [])
    (hu : e.isTransactionFinished = false) (key : SetKey K) (buffer : Option Addr)
    (reply : Reply V .readOutside) (hrec : HasRecord reply) (hd : ∀ q, .dispatch q ∉ bs)
    (hb : ∀ r, .complete .readOutside r ∈ bs → r = reply)
    (hr' : run step (e.dispatch (.read key buffer)) bs = some e') (hi' : e'.operationVector = [])
    (w : Served K V) : Sees w e' ↔ Offers w (delivered e.memory reply) reply := by
  have hset : Settled e := ((Alive.reset hv hp).run hr).settled hi hu
  have hread := (ReadStage.dispatch hi hset.pending hset.status key buffer reply).run hd hb hr'
  cases hread with
  | waiting c stack | answered stack =>
    rw [hi'] at stack
    cases stack
  | returned stack status pending returned => exact returned.sees_iff hrec w

/-- A transaction sees what it wrote last if and only if the store already has it. -/
theorem read_own_write {as bs : List (Action K V)} {served : List (Served K V)}
    (hv : e₀.operationVector = []) (hp : e₀.pending = [])
    (hr : run track (e₀.reset, []) as = some (e, served)) (hi : e.operationVector = [])
    (hu : e.isTransactionFinished = false) (key : SetKey K) (buffer : Option Addr)
    (reply : Reply V .readOutside) (hrec : HasRecord reply) (hd : ∀ q, .dispatch q ∉ bs)
    (hb : ∀ r, .complete .readOutside r ∈ bs → r = reply)
    (hr' : run step (e.dispatch (.read key buffer)) bs = some e') (hi' : e'.operationVector = []) :
    ∀ w ∈ lastWrite key served, Sees w e' ↔ Offers w (delivered e.memory reply) reply :=
  fun w _ => sees_iff_offers hv hp (track_run hr) hi hu key buffer reply hrec hd hb hr' hi' w

def upsertOnce (r : Reply ℕ .readOutside) : List (Action ℕ ℕ) :=
  [.dispatch .begin, sampleAnswer .initTxn, .visit 0, .tidy,
    .dispatch (.upsert ⟨"t", 1⟩ (some 7)), .complete .readOutside r, .visit 1, .visit 0, .tidy]

def readOnce (r : Reply ℕ .readOutside) : List (Action ℕ ℕ) :=
  [.complete .readOutside r, .visit 0, .tidy]

/-- After an upsert of a new key, a read of that key reports null. -/
theorem upsert_read_null : ∃ e served w e',
    run track (sampleExecution.reset, []) (upsertOnce (sampleReply .readOutside)) =
      some (e, served) ∧ lastWrite ⟨"t", 1⟩ served = some w ∧
    w.request = .upsert ⟨"t", 1⟩ (some 7) ∧
    run step (e.dispatch (.read ⟨"t", 1⟩ none)) (readOnce (sampleReply .readOutside)) = some e' ∧
    e'.operationVector = [] ∧ ¬ Sees w e' := by
  have h : ((run track (sampleExecution.reset, []) (upsertOnce (sampleReply .readOutside))).bind
      fun p => (lastWrite ⟨"t", 1⟩ p.2).bind fun w =>
        (run step (p.1.dispatch (.read ⟨"t", 1⟩ none)) (readOnce (sampleReply .readOutside))).map
          fun e' => (w.request, e'.operationVector, e'.result.isNull)) =
      some (.upsert ⟨"t", 1⟩ (some 7), [], true) := by decide +kernel
  obtain ⟨⟨e, served⟩, hr, h⟩ := Option.bind_eq_some_iff.mp h
  obtain ⟨w, hw, h⟩ := Option.bind_eq_some_iff.mp h
  obtain ⟨e', hr', h⟩ := Option.map_eq_some_iff.mp h
  obtain ⟨hq, h⟩ := Prod.mk.inj h
  obtain ⟨hv, hn⟩ := Prod.mk.inj h
  exact ⟨e, served, w, e', hr, hw, hq, hr', hv, by simp [Sees, hq, hn]⟩

def liveReply : Reply ℕ .readOutside :=
  ⟨false, ({ VersionEntry.blank (some 3) with
    version := 1, beginTs := 1, endTs := int64Max, isDeleted := false }, .blank none), []⟩

theorem read_own_write_sample : ∃ e served w e',
    run track (sampleExecution.reset, []) (upsertOnce liveReply) = some (e, served) ∧
    lastWrite ⟨"t", 1⟩ served = some w ∧
    run step (e.dispatch (.read ⟨"t", 1⟩ none)) (readOnce liveReply) = some e' ∧ Sees w e' := by
  have h : ((run track (sampleExecution.reset, []) (upsertOnce liveReply)).bind
      fun p => (lastWrite ⟨"t", 1⟩ p.2).bind fun w =>
        (run step (p.1.dispatch (.read ⟨"t", 1⟩ none)) (readOnce liveReply)).map
          fun e' => (decide (p.1.operationVector = [] ∧ p.1.isTransactionFinished = false ∧
            e'.operationVector = []), w.request, w.value, p.1.memory 3)) =
      some (true, .upsert ⟨"t", 1⟩ (some 7), some 0, 0) := by decide +kernel
  obtain ⟨⟨e, served⟩, hr, h⟩ := Option.bind_eq_some_iff.mp h
  obtain ⟨w, hw, h⟩ := Option.bind_eq_some_iff.mp h
  obtain ⟨e', hr', h⟩ := Option.map_eq_some_iff.mp h
  obtain ⟨hall, h⟩ := Prod.mk.inj h
  obtain ⟨hq, h⟩ := Prod.mk.inj h
  obtain ⟨hval, hm⟩ := Prod.mk.inj h
  obtain ⟨hi, hu, hv⟩ := of_decide_eq_true hall
  refine ⟨e, served, w, e', hr, hw, hr', ?_⟩
  have hpick : pickVisibleVersion liveReply.result = .ok (some liveReply.result.1) := rfl
  apply (read_own_write rfl rfl hr hi hu _ none liveReply _ _ _ hr' hv w hw).mpr
  · refine ⟨rfl, ?_⟩
    simp only [hq, hpick, hval]
    exact ⟨rfl, congrArg some hm⟩
  · intro v hv hd
    rw [hpick] at hv
    cases hv
    exact Option.some_ne_none 3
  · simp [readOnce]
  · intro r hr
    simp only [readOnce, List.mem_cons, reduceCtorEq, List.not_mem_nil, or_false] at hr
    cases hr
    rfl

end TransactionExecution

end Fugue
