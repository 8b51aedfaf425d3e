import Fugue.TimestampStore

namespace Fugue

variable {ι K : Type}

namespace TxnEntry

@[simp] theorem raised_status (t : TxnEntry) (lowerBound : ℤ) :
    (t.raised lowerBound).status = t.status := by
  unfold raised
  split <;> rfl

@[simp] theorem raised_commitTs (t : TxnEntry) (lowerBound : ℤ) :
    (t.raised lowerBound).commitTs = t.commitTs := by
  unfold raised
  split <;> rfl

theorem le_raised (t : TxnEntry) (lowerBound : ℤ) :
    t.commitLowerBound ≤ (t.raised lowerBound).commitLowerBound := by
  unfold raised
  split
  · exact le_max_left _ _
  · exact le_rfl

theorem lowerBound_le_raised {t : TxnEntry} {lowerBound : ℤ} (h : t.commitTs = kDefaultCommitTs) :
    lowerBound ≤ (t.raised lowerBound).commitLowerBound := by
  rw [raised, if_pos h]
  exact le_max_right _ _

def Proper (t : TxnEntry) : Prop := t.status = .ongoing ∨ t.status = .committed

end TxnEntry

/-- The entries of the transactions, the timestamps that they fixed, the ids that were aborted,
and what each pushed lower bound was answered with. -/
structure Recorded (entry : ℤ → Option TxnEntry) (fixes : ι → ℤ → ℤ → Prop) (aborts : ℤ → Prop)
    (pushes : ℤ → ℤ → TxnEntry → Prop) : Prop where
  fixed : ∀ j id ts, fixes j id ts → ∃ t ∈ entry id, t.commitTs = ts
  fixer : ∀ id, ∀ t ∈ entry id, t.commitTs ≠ TxnEntry.kDefaultCommitTs → ∃ j, fixes j id t.commitTs
  proper : ∀ id, ∀ t ∈ entry id, t.Proper ∨ aborts id
  raised : ∀ id b t, pushes id b t → t.commitTs = TxnEntry.kDefaultCommitTs →
    ∃ t' ∈ entry id, b ≤ t'.commitLowerBound
  known : ∀ id b t, pushes id b t → t.commitTs ≠ TxnEntry.kDefaultCommitTs →
    ∃ j, fixes j id t.commitTs
  seen : ∀ id b t, pushes id b t → t.Proper ∨ aborts id
  later : ∀ id b t, pushes id b t → ∀ j ts, fixes j id ts → b ≤ ts ∨ t.commitTs = ts

namespace Recorded

variable {entry : ℤ → Option TxnEntry} {fixes fixes' : ι → ℤ → ℤ → Prop}
  {aborts aborts' : ℤ → Prop} {pushes pushes' : ℤ → ℤ → TxnEntry → Prop}

theorem congr (h : Recorded entry fixes aborts pushes)
    (hf : ∀ j id ts, fixes' j id ts ↔ fixes j id ts) (ha : ∀ id, aborts' id ↔ aborts id)
    (hp : ∀ id b t, pushes' id b t ↔ pushes id b t) : Recorded entry fixes' aborts' pushes' := by
  obtain rfl : fixes' = fixes := by
    funext j id ts
    exact propext (hf j id ts)
  obtain rfl : aborts' = aborts := by
    funext id
    exact propext (ha id)
  obtain rfl : pushes' = pushes := by
    funext id b t
    exact propext (hp id b t)
  exact h

theorem newTxn (h : Recorded entry fixes aborts pushes) {id : ℤ} (hnone : entry id = none)
    (t : TxnEntry) : Recorded (Function.update entry id (some t.opened)) fixes aborts pushes := by
  have hmem : ∀ id', ∀ t' ∈ entry id', t' ∈ Function.update entry id (some t.opened) id' := by
    intro id' t' ht'
    have hne : id' ≠ id := by
      rintro rfl
      rw [hnone] at ht'
      cases ht'
    rwa [Function.update_of_ne hne]
  have hback : ∀ id', ∀ t' ∈ Function.update entry id (some t.opened) id',
      t' ∈ entry id' ∨ t' = t.opened := by
    intro id' t' ht'
    by_cases hid : id' = id
    · subst hid
      rw [Function.update_self] at ht'
      exact Or.inr (Option.some.inj ht').symm
    · rw [Function.update_of_ne hid] at ht'
      exact Or.inl ht'
  refine ⟨fun j id' ts hf => ?_, fun id' t' ht' hset => ?_, fun id' t' ht' => ?_,
    fun id' b t' hp hunset => ?_, h.known, h.seen, h.later⟩
  · obtain ⟨t', ht', hts⟩ := h.fixed j id' ts hf
    exact ⟨t', hmem id' t' ht', hts⟩
  · rcases hback id' t' ht' with ht' | rfl
    · exact h.fixer id' t' ht' hset
    · exact absurd rfl hset
  · rcases hback id' t' ht' with ht' | rfl
    · exact h.proper id' t' ht'
    · exact Or.inl (Or.inl rfl)
  · obtain ⟨u, hu, hb⟩ := h.raised id' b t' hp hunset
    exact ⟨u, hmem id' u hu, hb⟩

theorem mem_update {id : ℤ} {t u : TxnEntry} (ht : entry id = some t) {id' : ℤ} :
    (∀ t' ∈ entry id', t' ∈ Function.update entry id (some u) id' ∨
      id' = id ∧ t' = t ∧ u ∈ Function.update entry id (some u) id') ∧
    ∀ t' ∈ Function.update entry id (some u) id', t' ∈ entry id' ∨ id' = id ∧ t' = u := by
  by_cases hid : id' = id
  · subst hid
    rw [Function.update_self, ht]
    exact ⟨fun t' ht' => Or.inr ⟨rfl, (Option.some.inj ht').symm, rfl⟩,
      fun t' ht' => Or.inr ⟨rfl, (Option.some.inj ht').symm⟩⟩
  · rw [Function.update_of_ne hid]
    exact ⟨fun t' ht' => Or.inl ht', fun t' ht' => Or.inl ht'⟩

theorem fix (h : Recorded entry fixes aborts pushes) {j : ι} {id commitTs : ℤ} {t : TxnEntry}
    (ht : entry id = some t) (hfirst : ∀ j' ts, ¬ fixes j' id ts)
    (hf : ∀ j' id' ts, fixes' j' id' ts ↔
      fixes j' id' ts ∨ j' = j ∧ id = id' ∧ max commitTs t.commitLowerBound = ts) :
    Recorded (Function.update entry id (some (t.fixed commitTs))) fixes' aborts pushes := by
  refine ⟨fun j' id' ts hfix => ?_, fun id' t' ht' hset => ?_, fun id' t' ht' => ?_,
    fun id' b t' hp hunset => ?_, fun id' b t' hp hset => ?_, h.seen,
    fun id' b t' hp j' ts hfix => ?_⟩
  · rcases (hf j' id' ts).mp hfix with hold | ⟨-, rfl, rfl⟩
    · obtain ⟨t', ht', hts⟩ := h.fixed j' id' ts hold
      rcases (mem_update ht).1 t' ht' with hmem | ⟨rfl, -, -⟩
      · exact ⟨t', hmem, hts⟩
      · exact absurd hold (hfirst j' ts)
    · exact ⟨_, by rw [Function.update_self]; rfl, rfl⟩
  · rcases (mem_update ht).2 t' ht' with hold | ⟨rfl, rfl⟩
    · obtain ⟨j', hj'⟩ := h.fixer id' t' hold hset
      exact ⟨j', (hf j' id' _).mpr (Or.inl hj')⟩
    · exact ⟨j, (hf j id' _).mpr (Or.inr ⟨rfl, rfl, rfl⟩)⟩
  · rcases (mem_update ht).2 t' ht' with hold | ⟨rfl, rfl⟩
    · exact h.proper id' t' hold
    · exact (h.proper id' t ht).imp_left id
  · obtain ⟨u, hu, hb⟩ := h.raised id' b t' hp hunset
    rcases (mem_update ht).1 u hu with hmem | ⟨-, rfl, hmem⟩
    · exact ⟨u, hmem, hb⟩
    · exact ⟨_, hmem, hb⟩
  · obtain ⟨j', hj'⟩ := h.known id' b t' hp hset
    exact ⟨j', (hf j' id' _).mpr (Or.inl hj')⟩
  · rcases (hf j' id' ts).mp hfix with hold | ⟨-, rfl, rfl⟩
    · exact h.later id' b t' hp j' ts hold
    · -- The push came before the timestamp was fixed, and has raised the lower bound.
      by_cases hset : t'.commitTs = TxnEntry.kDefaultCommitTs
      · obtain ⟨u, hu, hb⟩ := h.raised id b t' hp hset
        obtain rfl := Option.some.inj (hu.symm.trans ht)
        exact Or.inl (hb.trans (le_max_right _ _))
      · obtain ⟨j'', hj''⟩ := h.known id b t' hp hset
        exact absurd hj'' (hfirst j'' _)

theorem push (h : Recorded entry fixes aborts pushes) {id lowerBound : ℤ} {t : TxnEntry}
    (ht : entry id = some t) (hp : ∀ id' b t', pushes' id' b t' ↔
      pushes id' b t' ∨ id = id' ∧ lowerBound = b ∧ t.raised lowerBound = t') :
    Recorded (Function.update entry id (some (t.raised lowerBound))) fixes aborts pushes' := by
  refine ⟨fun j id' ts hfix => ?_, fun id' t' ht' hset => ?_, fun id' t' ht' => ?_,
    fun id' b t' hpush hunset => ?_, fun id' b t' hpush hset => ?_, fun id' b t' hpush => ?_,
    fun id' b t' hpush j ts hfix => ?_⟩
  · obtain ⟨t', ht', hts⟩ := h.fixed j id' ts hfix
    rcases (mem_update ht).1 t' ht' with hmem | ⟨-, rfl, hmem⟩
    · exact ⟨t', hmem, hts⟩
    · exact ⟨_, hmem, by rw [TxnEntry.raised_commitTs, hts]⟩
  · rcases (mem_update ht).2 t' ht' with hold | ⟨rfl, rfl⟩
    · exact h.fixer id' t' hold hset
    · rw [TxnEntry.raised_commitTs] at hset ⊢
      exact h.fixer id' t ht hset
  · rcases (mem_update ht).2 t' ht' with hold | ⟨rfl, rfl⟩
    · exact h.proper id' t' hold
    · rw [TxnEntry.Proper, TxnEntry.raised_status]
      exact h.proper id' t ht
  · rcases (hp id' b t').mp hpush with hold | ⟨rfl, rfl, rfl⟩
    · obtain ⟨u, hu, hb⟩ := h.raised id' b t' hold hunset
      rcases (mem_update ht).1 u hu with hmem | ⟨-, rfl, hmem⟩
      · exact ⟨u, hmem, hb⟩
      · exact ⟨_, hmem, hb.trans (u.le_raised lowerBound)⟩
    · rw [TxnEntry.raised_commitTs] at hunset
      exact ⟨_, by rw [Function.update_self]; rfl, TxnEntry.lowerBound_le_raised hunset⟩
  · rcases (hp id' b t').mp hpush with hold | ⟨rfl, rfl, rfl⟩
    · exact h.known id' b t' hold hset
    · rw [TxnEntry.raised_commitTs] at hset ⊢
      exact h.fixer id t ht hset
  · rcases (hp id' b t').mp hpush with hold | ⟨rfl, rfl, rfl⟩
    · exact h.seen id' b t' hold
    · rw [TxnEntry.Proper, TxnEntry.raised_status]
      exact h.proper id t ht
  · rcases (hp id' b t').mp hpush with hold | ⟨rfl, rfl, rfl⟩
    · exact h.later id' b t' hold j ts hfix
    · obtain ⟨u, hu, hts⟩ := h.fixed j id ts hfix
      obtain rfl := Option.some.inj (hu.symm.trans ht)
      exact Or.inr (by rw [TxnEntry.raised_commitTs, hts])

theorem setStatus (h : Recorded entry fixes aborts pushes) {id : ℤ} {status : TxnStatus}
    {t : TxnEntry} (ht : entry id = some t) (hstatus : status = .committed ∨ status = .aborted)
    (ha : ∀ id', aborts' id' ↔ aborts id' ∨ id = id' ∧ status = .aborted) :
    Recorded (Function.update entry id (some { t with status := status })) fixes aborts' pushes := by
  refine ⟨fun j id' ts hfix => ?_, fun id' t' ht' hset => ?_, fun id' t' ht' => ?_,
    fun id' b t' hp hunset => ?_, h.known, fun id' b t' hp => ?_, h.later⟩
  · obtain ⟨t', ht', hts⟩ := h.fixed j id' ts hfix
    rcases (mem_update ht).1 t' ht' with hmem | ⟨-, rfl, hmem⟩
    · exact ⟨t', hmem, hts⟩
    · exact ⟨_, hmem, hts⟩
  · rcases (mem_update ht).2 t' ht' with hold | ⟨rfl, rfl⟩
    · exact h.fixer id' t' hold hset
    · exact h.fixer id' t ht hset
  · rcases (mem_update ht).2 t' ht' with hold | ⟨rfl, rfl⟩
    · exact (h.proper id' t' hold).imp_right fun hab => (ha id').mpr (Or.inl hab)
    · rcases hstatus with hst | hst
      · exact Or.inl (Or.inr hst)
      · exact Or.inr ((ha id').mpr (Or.inr ⟨rfl, hst⟩))
  · obtain ⟨u, hu, hb⟩ := h.raised id' b t' hp hunset
    rcases (mem_update ht).1 u hu with hmem | ⟨-, rfl, hmem⟩
    · exact ⟨u, hmem, hb⟩
    · exact ⟨_, hmem, hb⟩
  · exact (h.seen id' b t' hp).imp_right fun hab => (ha id').mpr (Or.inl hab)

theorem lt_of_pushed (h : Recorded entry fixes aborts pushes) {id ts commitTs : ℤ} {t : TxnEntry}
    (hp : pushes id (ts + 1) t) (hno : ¬ TxnEntry.Conflicts ts t) (ha : ¬ aborts id) {j : ι}
    (hf : fixes j id commitTs) (hset : commitTs ≠ TxnEntry.kDefaultCommitTs) : ts < commitTs := by
  rcases h.later id _ t hp j commitTs hf with hle | rfl
  · exact Int.lt_of_add_one_le hle
  · by_contra hle
    have hle := Int.not_lt.mp hle
    rcases (h.seen id _ t hp).resolve_right ha with hst | hst
    · exact hno (Or.inr ⟨hst, hset, hle⟩)
    · exact hno (Or.inl ⟨hst, hle⟩)

end Recorded

end Fugue
