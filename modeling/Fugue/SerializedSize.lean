import Fugue.Serialization
import Fugue.SlotReuse
import Fugue.StoredRecords

namespace Fugue

variable {K V S : Type}

def KeyWriteSetEntryPool.All (Q : SetKey K → Bool → Option Addr → Prop)
    (p : KeyWriteSetEntryPool K) : Prop :=
  ∀ i < p.popIndex, ∃ k, p.key i = some k ∧ Q k (p.entry i).isDeleted (p.entry i).record

namespace KeyWriteSetEntryPool.All

variable {Q : SetKey K → Bool → Option Addr → Prop} {p : KeyWriteSetEntryPool K} {k : SetKey K}

theorem newWriteSetEntry (h : All Q p) {version : ℤ} {isDeleted : Bool} {record : Option Addr}
    {readEntry : Option ℕ} {b : Bool} (hq : Q k isDeleted record) :
    All Q (p.newWriteSetEntry k version isDeleted record readEntry b) := by
  intro i hi
  rw [popIndex_newWriteSetEntry] at hi
  rcases Nat.lt_succ_iff_lt_or_eq.mp hi with hlt | rfl
  · have hget : (p.newWriteSetEntry k version isDeleted record readEntry b).get i = p.get i :=
      (Pool.get_modify_ne _ _ (Nat.ne_of_lt hlt)).trans (Pool.get_new p i)
    unfold key entry
    rw [hget]
    exact h i hlt
  · have hself : (p.newWriteSetEntry k version isDeleted record readEntry b).get p.popIndex =
        ⟨some k, ⟨version, isDeleted, record, readEntry, b⟩⟩ :=
      Pool.get_modify_self _ _ (by rw [Pool.popIndex_new]; exact Nat.lt_succ_self _)
    unfold key entry
    rw [hself]
    exact ⟨k, rfl, hq⟩

theorem setDeleted (h : All Q p) {j : ℕ} (hj : p.key j = some k) (hq : Q k true none) :
    All Q (p.setDeleted j) := by
  intro i hi
  by_cases hij : i = j
  · subst hij
    have hself : (p.setDeleted i).get i = { p.get i with
        entry := { (p.get i).entry with isDeleted := true, record := none } } :=
      Pool.get_modify_self p _ hi
    refine ⟨k, (key_setDeleted i i).trans hj, ?_⟩
    unfold entry
    rw [hself]
    exact hq
  · have hget : (p.setDeleted j).get i = p.get i := Pool.get_modify_ne p _ hij
    unfold key entry
    rw [hget]
    exact h i hi

theorem setPostProcessing (h : All Q p) (j : ℕ) : All Q (p.setPostProcessing j) := by
  intro i hi
  obtain ⟨k, hk, hq⟩ := h i hi
  refine ⟨k, (key_setPostProcessing i j).trans hk, ?_⟩
  have hfield : ∀ {β : Type} (g : WriteSetEntry → β),
      (∀ w : WriteSetEntry, g { w with needPostProcessing := true } = g w) →
      g ((p.setPostProcessing j).entry i) = g (p.entry i) := fun g hg =>
    Pool.get_modify_field (fun o : KeyWriteSetEntry K => g o.entry) p j i _ fun o => hg o.entry
  rw [hfield WriteSetEntry.isDeleted fun _ => rfl, hfield WriteSetEntry.record fun _ => rfl]
  exact hq

end KeyWriteSetEntryPool.All

def OperationRequest.Asks (Q : SetKey K → Bool → Option Addr → Prop) : OperationRequest K → Prop
  | .insert key record => Q key false record
  | .update key record => Q key false record
  | .upsert key record => Q key false record
  | .delete key => Q key true none
  | _ => True

/-- The operations that write their entry only after a read. -/
def Op.isDeferred : Op → Bool
  | .insert => true
  | .upsert => true
  | _ => false

namespace TransactionExecution

variable [DecidableEq K] [Services S] {e e' e₁ : TransactionExecution K V S}

theorem next_args {op : Op} {o : Option Op} (hop : op.rank = 0) (hn : next op e = .ok (o, e₁)) :
    e₁.args = e.args := by
  unfold next at hn
  cases op with
  | readOutside =>
    simp only [nextImpl] at hn
    split at hn
    · cases hn
      rfl
    · cases hr : (e.setFlags .readOutside ⟨true, true⟩).internalRead with
      | error msg =>
        rw [hr] at hn
        cases hn
      | ok w =>
        rw [hr] at hn
        cases hn
        exact (internalRead_sets hr).2.1
  | insert =>
    simp only [nextImpl, insertNext] at hn
    cases hn
    split
    · split <;> rfl
    · rfl
  | upsert =>
    simp only [nextImpl, upsertNext] at hn
    cases hn
    split <;> rfl
  | readDataStore =>
    simp only [nextImpl, readDataStoreNext, noNext] at hn
    cases hn
    have hr := setResultRecord_frame (e := e.setFlags .readDataStore ⟨true, true⟩)
    split
    · rfl
    · split
      · rfl
      · next a _ => exact (hr (some a)).2.2.2.2.2.2
  | update | delete | initTxn =>
    simp only [nextImpl] at hn
    repeat' split at hn
    all_goals cases hn
    all_goals rfl
  | _ => cases hop

theorem Alive.same_rank (h : Alive e) {i j : ℕ} {op y : Op}
    (hi : e.operationVector.slot i = some op) (hj : e.operationVector.slot j = some y)
    (hop : op.rank = 0) : y.rank = 0 := by
  cases h with
  | serving h => exact h.rank_of_slot hj
  | ending _ _ _ _ h => exact absurd (h.rank_of_slot hi) (by rw [hop]; exact Nat.lt_irrefl 0)

theorem isDeferred_of_start {op y : Op} (hv : e.operationVector = []) {i : ℕ}
    (hi : (start op e).operationVector.slot i = some y) (hy : y.isDeferred = true) : y = op := by
  apply (slot_start hv hi).resolve_right
  intro hm
  have hc := children_child hm
  cases y <;> cases hy <;> cases hc

/-- The entries of the write set are those that requests asked for. -/
structure Stocked (Q : SetKey K → Bool → Option Addr → Prop) (e : TransactionExecution K V S) :
    Prop where
  alive : Alive e
  entries : e.keyWriteSet.All Q
  given : ∀ i op, e.operationVector.slot i = some op → op.isDeferred = true →
    Q e.args.writeKey false e.args.writeRecord

namespace Stocked

variable {Q : SetKey K → Bool → Option Addr → Prop}

theorem reset (hv : e.operationVector = []) (hp : e.pending = []) : Stocked Q e.reset := by
  refine ⟨.reset hv hp, fun i hi => absurd hi (Nat.not_lt_zero i), fun i op hi => ?_⟩
  rw [show e.reset.operationVector = [] from hv] at hi
  simp at hi

theorem dispatch (h : Stocked Q e) {q : OperationRequest K} (hq : q.Asks Q)
    (hs : TransactionExecution.step e (.dispatch q) = some e') : Stocked Q e' := by
  have halive := h.alive.step hs
  simp only [TransactionExecution.step] at hs
  split at hs
  · next hv =>
    cases hs
    refine ⟨halive, ?_, fun i op hi hop => ?_⟩
    · rcases dispatch_keyWriteSet_cases q e with hset | ⟨k, version, b, record, l, hset, hk⟩ |
        ⟨k, l, rfl, hl, hset⟩
      · rw [hset]
        exact h.entries
      · rw [hset]
        apply h.entries.newWriteSetEntry
        rcases hk with ⟨rfl, rfl⟩ | ⟨rfl, rfl, rfl⟩
        · exact hq
        · exact hq
      · rw [hset]
        exact h.entries.setDeleted (of_decide_eq_true (Pool.find_eq_some hl).2.1) hq
    · have hstart : ∀ (y : Op) (z : TransactionExecution K V S), y.isDeferred = false →
          z.operationVector = [] →
          (TransactionExecution.start y z).operationVector.slot i ≠ some op := by
        intro y z hy hz hi
        rw [isDeferred_of_start hz hi hop] at hop
        rw [hy] at hop
        cases hop
      cases q with
      | insert key record | upsert key record => exact hq
      | readDataStore key record needToRead =>
        simp only [TransactionExecution.dispatch] at hi
        split at hi
        · exact absurd hi (hstart .readDataStore _ rfl hv.1)
        · rw [setResultFinished, setResult, resetResultRecord, hv.1] at hi
          simp at hi
      | abort =>
        have hstack : (e.dispatch .abort).operationVector = Slots.pushBack [] .updateTxnStatusToAbort :=
          rfl
        rw [hstack, Slots.slot_pushBack] at hi
        split at hi
        · cases hi
          cases hop
        · simp at hi
      | _ =>
        simp only [TransactionExecution.dispatch] at hi
        exact absurd hi (hstart _ _ rfl hv.1)
  · cases hs

theorem next (h : Stocked Q e) {j : ℕ} {op : Op} {o : Option Op}
    (hj : e.operationVector.slot j = some op) (hn : TransactionExecution.next op e = .ok (o, e₁)) :
    e₁.keyWriteSet.All Q := by
  rcases next_keyWriteSet hn with hw | ⟨l, hw⟩ <;> rw [hw]
  · split
    · next hop =>
      have hdef : op.isDeferred = true := by rcases hop with rfl | rfl <;> rfl
      unfold written
      split
      · exact h.entries.newWriteSetEntry (h.given j op hj hdef)
      · exact h.entries
    · exact h.entries
  · exact h.entries.setPostProcessing l

theorem visit (h : Stocked Q e) {j : ℕ} {b : Bool}
    (hv : TransactionExecution.visit j e = .ok (e', b)) : Stocked Q e' := by
  have halive : Alive e' := h.alive.step (a := .visit j) (by
    simp [TransactionExecution.step, hv, Except.map, Except.toOption])
  rcases visit_cases hv with rfl | ⟨op, o, e₁, hj, hf, hn, ha, hcase⟩
  · exact h
  have hset := h.next hj hn
  -- an operation that has not written yet is another one, which the visited one leaves alone
  have hgiven : ∀ o', o' ≠ some .insert → o' ≠ some .upsert → ∀ l y,
      (e₁.setSlot j o').operationVector.slot l = some y → y.isDeferred = true →
      Q e₁.args.writeKey false e₁.args.writeRecord := by
    intro o' hi hu l y hl hy
    change (Slots.setSlot e₁.operationVector j o').slot l = some y at hl
    rw [ha.operationVector, Slots.slot_setSlot _ _ _ _ (Slots.lt_length_of_slot hj)] at hl
    split at hl
    · cases y <;> cases hy <;> contradiction
    · have hrank : y.rank = 0 := by cases y <;> cases hy <;> rfl
      rw [next_args (h.alive.same_rank hl hj hrank) hn]
      exact h.given l y hl hy
  rcases hcase with ⟨rfl, rfl⟩ | ⟨y, rfl, rfl⟩
  · exact ⟨halive, hset, hgiven none (by simp) (by simp)⟩
  obtain ⟨hu, hd⟩ := next_some hn
  refine ⟨halive, ?_, fun l x hl hx => ?_⟩
  · rw [call_keyWriteSet hu hd]
    exact hset
  rcases next_rank hn with ⟨-, hr⟩ | ⟨-, rfl⟩
  · have hself : (call y (e₁.setSlot j (some y))).operationVector.slot j = some y := by
      apply (call_grows y _).slot
      change (Slots.setSlot e₁.operationVector j (some y)).slot j = some y
      rw [ha.operationVector, Slots.slot_setSlot _ _ _ _ (Slots.lt_length_of_slot hj), if_pos rfl]
    have hrank : x.rank = 0 := by cases x <;> cases hx <;> rfl
    rw [halive.same_rank hl hself hrank] at hr
    exact absurd hr (Nat.lt_irrefl 0)
  · have hargs : (call .initTxn (e₁.setSlot j (some .initTxn))).args = e₁.args :=
      (callLeaf_frame .initTxn _).2
    rw [hargs]
    exact hgiven (some .initTxn) (by simp) (by simp) l x hl hx

theorem tidy (h : Stocked Q e) (hne : e.operationVector ≠ []) : Stocked Q e.tidy := by
  have halive : Alive e.tidy := h.alive.step (a := .tidy) (by
    simp [TransactionExecution.step, hne])
  unfold TransactionExecution.tidy at halive ⊢
  split
  · next hst =>
    rw [if_pos hst] at halive
    refine ⟨halive, h.entries, fun i op hi hop => ?_⟩
    have hstack : (abort { e with status := .aborted }).operationVector =
        Slots.pushBack [] .updateTxnStatusToAbort := rfl
    rw [hstack, Slots.slot_pushBack] at hi
    split at hi
    · cases hi
      cases hop
    · simp at hi
  · next hst =>
    rw [if_neg hst] at halive
    refine ⟨halive, h.entries, fun i op hi hop => ?_⟩
    exact h.given i op (by simpa using hi) hop

theorem run (h : Stocked Q e) {as : List (Action K V)}
    (has : ∀ q, .dispatch q ∈ as → q.Asks Q) (hr : Fugue.run TransactionExecution.step e as = some e') :
    Stocked Q e' := by
  apply run_invariant_of_mem _ h hr
  intro z a z' ha hz hs
  cases a with
  | dispatch q => exact hz.dispatch (has q ha) hs
  | complete op reply =>
    obtain ⟨c, hc⟩ := complete_cases hs
    refine ⟨hz.alive.step hs, ?_, fun i y hi hy => ?_⟩
    · rw [hc.keyWriteSet]
      exact hz.entries
    · rw [hc.operationVector] at hi
      rw [hc.args]
      exact hz.given i y hi hy
  | visit j =>
    simp only [TransactionExecution.step] at hs
    cases hv : TransactionExecution.visit j z with
    | error m =>
      rw [hv] at hs
      cases hs
    | ok p =>
      rw [hv] at hs
      cases hs
      exact hz.visit (b := p.2) hv
  | tidy =>
    simp only [TransactionExecution.step] at hs
    split at hs
    · cases hs
    · next hne =>
      cases hs
      exact hz.tidy hne

end Stocked

end TransactionExecution

section

variable {S : Type}

def TransactionExecution.writeSetEntries (e : TransactionExecution Key Record S) :
    List (KeyWriteSetEntry Key) :=
  (List.range e.keyWriteSet.popIndex).map e.keyWriteSet.get

/-- The write set is serialized in the number of bytes that it announces. -/
def TransactionExecution.Announced (e : TransactionExecution Key Record S) : Prop :=
  Exceeds 0 e.memory e.writeSetEntries

def Writable (key : SetKey Key) (isDeleted : Bool) (record : Option Addr) : Prop :=
  key.tableName.length < 2 ^ 31 ∧ (record = none ↔ isDeleted = true)

end

namespace TransactionExecution

variable [Services S] {e₀ e : TransactionExecution Key Record S} {as : List (Action Key Record)}

theorem Stocked.exceeds (h : Stocked Writable e)
    (hd : ∀ o ∈ e.writeSetEntries, o.entry.isDeleted = false) :
    Exceeds (4 * e.keyWriteSet.popIndex) e.memory e.writeSetEntries := by
  have hlen : e.writeSetEntries.length = e.keyWriteSet.popIndex := by simp [writeSetEntries]
  rw [← hlen]
  apply exceeds_of_records
  · intro o ho
    obtain ⟨i, hi, rfl⟩ := List.mem_map.mp ho
    obtain ⟨key, hkey, hname, -⟩ := h.entries i (List.mem_range.mp hi)
    exact ⟨key, hkey, hname⟩
  · intro o ho hnone
    obtain ⟨i, hi, rfl⟩ := List.mem_map.mp ho
    obtain ⟨key, hkey, -, hrec⟩ := h.entries i (List.mem_range.mp hi)
    have hdel : (e.keyWriteSet.entry i).isDeleted = false := hd _ ho
    rw [hrec.mp hnone] at hdel
    cases hdel

theorem Stocked.defined_iff (h : Stocked Writable e) :
    (∃ extra, Exceeds extra e.memory e.writeSetEntries) ↔
      ∀ o ∈ e.writeSetEntries, o.entry.isDeleted = false := by
  constructor
  · rintro ⟨extra, hex⟩ o ho
    have hrec := hex.records o ho
    obtain ⟨i, hi, rfl⟩ := List.mem_map.mp ho
    obtain ⟨key, hkey, -, hnone⟩ := h.entries i (List.mem_range.mp hi)
    by_contra hdel
    exact hrec (hnone.mpr (Bool.eq_true_of_not_eq_false hdel))
  · exact fun hd => ⟨_, h.exceeds hd⟩

/-- The announced size is right only for a write set without entries. -/
theorem announced_iff_empty (hv : e₀.operationVector = []) (hp : e₀.pending = [])
    (has : ∀ q, .dispatch q ∈ as → q.Asks Writable) (hr : run step e₀.reset as = some e) :
    e.Announced ↔ e.keyWriteSet.popIndex = 0 := by
  have hst : Stocked Writable e := (Stocked.reset hv hp).run has hr
  constructor
  · intro hann
    have hex := hst.exceeds (hst.defined_iff.mp ⟨0, hann⟩)
    have hzero := hann.unique hex
    omega
  · intro hz
    rw [Announced, writeSetEntries, hz]
    exact .nil

def sampleTable : TransactionExecution Key Record LocalServices :=
  init ⟨.ofBase 0 100, .ofClock fun _ => 5⟩ (fun _ => .intRecord 7) ⟨"t", .intKey 1⟩

def sampleInsertion : List (Action Key Record) :=
  let answer := fun op => Action.complete op ⟨false, op.defaultResult, []⟩
  [.dispatch .begin, answer .initTxn, .visit 0, .tidy,
    .dispatch (.insert ⟨"t", .intKey 1⟩ (some 3)), answer .readOutside, .visit 1, .visit 0, .tidy]

theorem announced_iff_empty_sample : ∃ e, run step sampleTable.reset sampleInsertion = some e ∧
    e.keyWriteSet.popIndex = 1 ∧ ¬ e.Announced := by
  have hrun : (run step sampleTable.reset sampleInsertion).map
      (fun e => e.keyWriteSet.popIndex) = some 1 := by
    decide +kernel
  obtain ⟨e, he, hpop⟩ := Option.map_eq_some_iff.mp hrun
  refine ⟨e, he, hpop, fun hann => ?_⟩
  have hasks : ∀ q, .dispatch q ∈ sampleInsertion → q.Asks Writable := by
    intro q hq
    simp only [sampleInsertion, List.mem_cons, Action.dispatch.injEq, reduceCtorEq, false_or,
      List.not_mem_nil, or_false] at hq
    rcases hq with rfl | rfl
    · trivial
    · exact ⟨by decide +kernel, by simp⟩
  have hzero := (announced_iff_empty rfl rfl hasks he).mp hann
  rw [hpop] at hzero
  cases hzero

theorem announced_short : ∃ e buffer, run step sampleTable.reset sampleInsertion = some e ∧
    serializeLengths e.memory e.writeSetEntries = some 26 ∧
    serializeEntries e.memory e.writeSetEntries (fun _ => 0) 0 = some (buffer, 30) ∧
    ¬ e.Announced := by
  have hrun : (run step sampleTable.reset sampleInsertion).map
      (fun e => (serializeLengths e.memory e.writeSetEntries,
        (serializeEntries e.memory e.writeSetEntries (fun _ => 0) 0).map Prod.snd)) =
          some (some 26, some 30) := by
    decide +kernel
  obtain ⟨e, he, hval⟩ := Option.map_eq_some_iff.mp hrun
  obtain ⟨hlen, hoff⟩ := Prod.mk.inj hval
  obtain ⟨⟨buffer, offset⟩, hwrite, rfl⟩ := Option.map_eq_some_iff.mp hoff
  refine ⟨e, buffer, he, hlen, hwrite, ?_⟩
  rintro ⟨n, bs, hn, hbs, happ⟩
  have hpair := Option.some.inj ((happ (fun _ => 0) 0).symm.trans hwrite)
  have hend := (Prod.mk.inj hpair).2
  obtain rfl := Option.some.inj (hn.symm.trans hlen)
  omega

end TransactionExecution

end Fugue
