import Fugue.LocalServices
import Mathlib.Algebra.Order.Group.Unbundled.Int
import Mathlib.Data.List.Nodup
import Mathlib.Data.List.Range
import Mathlib.Data.Int.ModEq

namespace Fugue

/-- `INT32_MAX`, the largest `int`. -/
def int32Max : ℤ := 2147483647

structure SimpleTxnIDGeneratorFactory where
  count : ℤ
  interval : ℤ

namespace SimpleTxnIDGeneratorFactory

def ofCount (count : ℤ) : SimpleTxnIDGeneratorFactory := ⟨count, int64Max / count⟩

def getTxnIDGenerator (f : SimpleTxnIDGeneratorFactory) (executorId : ℤ) : SimpleTxnIDGenerator :=
  .ofBase (f.interval * executorId) f.interval

theorem interval_mul_le {count : ℤ} (h : 1 ≤ count) : (ofCount count).interval * count ≤ int64Max :=
  Int.ediv_mul_le int64Max (by omega)

theorem interval_pos {count : ℤ} (h1 : 1 ≤ count) (h2 : count ≤ int32Max) :
    1 ≤ (ofCount count).interval := by
  rw [ofCount, Int.le_ediv_iff_mul_le (by omega)]
  simp only [int32Max] at h2
  simp only [int64Max]
  omega

theorem range_le {count e : ℤ} (h : 1 ≤ count) (hi : 0 ≤ (ofCount count).interval)
    (he : e < count) :
    (ofCount count).interval * e + (ofCount count).interval ≤ int64Max := by
  have hmul : (ofCount count).interval * (e + 1) ≤ (ofCount count).interval * count :=
    Int.mul_le_mul_of_nonneg_left (by omega) hi
  rw [Int.mul_add, Int.mul_one] at hmul
  exact hmul.trans (interval_mul_le h)

theorem range_disjoint {i e e' x y : ℤ} (he : e ≠ e') (hx : i * e ≤ x ∧ x < i * e + i)
    (hy : i * e' ≤ y ∧ y < i * e' + i) : x ≠ y := by
  have hi : 0 < i := by omega
  have hlt : ∀ {a b : ℤ}, a < b → i * a + i ≤ i * b := fun {a b} hab => by
    have := Int.mul_le_mul_of_nonneg_left (show a + 1 ≤ b by omega) (Int.le_of_lt hi)
    rwa [Int.mul_add, Int.mul_one] at this
  rcases Int.lt_or_gt_of_ne he with h | h
  · have := hlt h
    omega
  · have := hlt h
    omega

end SimpleTxnIDGeneratorFactory

def nthID (start interval : ℤ) (k : ℕ) : ℤ := start + k % interval

theorem nthID_mem {start interval : ℤ} (hi : 0 < interval) (k : ℕ) :
    start ≤ nthID start interval k ∧ nthID start interval k < start + interval := by
  have h1 := Int.emod_nonneg k (Int.ne_of_gt hi)
  have h2 := Int.emod_lt_of_pos k hi
  simp only [nthID]
  omega

theorem generateID_nthID {g : SimpleTxnIDGenerator} {start interval : ℤ} {k : ℕ}
    (hi : 0 < interval) (hs : g.start = start) (he : g.end_ = start + interval)
    (hid : g.id = nthID start interval k) : g.generateID.1 = nthID start interval (k + 1) := by
  have hdiv := Int.mul_ediv_add_emod (k : ℤ) interval
  have hlt := Int.emod_lt_of_pos (k : ℤ) hi
  have hnn := Int.emod_nonneg (k : ℤ) (Int.ne_of_gt hi)
  simp only [SimpleTxnIDGenerator.generateID, hs, he, hid, nthID, Nat.cast_add, Nat.cast_one]
  generalize (k : ℤ) % interval = m at hdiv hlt hnn ⊢
  rw [← hdiv, Int.add_assoc, Int.add_assoc, Int.mul_add_emod_self_left]
  split
  · next hend =>
    have hm : m + 1 = interval := by omega
    rw [hm, Int.emod_self, Int.add_zero]
  · next hend =>
    rw [Int.emod_eq_of_lt (by omega) (by omega)]

theorem nthID_nodup {start interval : ℤ} {a m : ℕ} (hm : (m : ℤ) ≤ interval) :
    ((List.range' a m).map (nthID start interval)).Nodup := by
  refine List.Nodup.map_on (fun x hx y hy hxy => ?_) List.nodup_range'
  obtain ⟨hx1, hx2⟩ := List.mem_range'_1.mp hx
  obtain ⟨hy1, hy2⟩ := List.mem_range'_1.mp hy
  simp only [nthID] at hxy
  have hdvd : interval ∣ (x : ℤ) - y := by
    apply Int.dvd_of_emod_eq_zero
    exact Int.emod_eq_emod_iff_emod_sub_eq_zero.mp (by omega)
  have hzero := Int.eq_zero_of_abs_lt_dvd hdvd (by rw [abs_lt]; omega)
  omega

structure Generators where
  generator : ℤ → SimpleTxnIDGenerator
  ids : List (ℤ × ℤ)

namespace Generators

def init (f : SimpleTxnIDGeneratorFactory) : Generators := ⟨f.getTxnIDGenerator, []⟩

def generate (s : Generators) (e : ℤ) : Generators where
  generator := Function.update s.generator e (s.generator e).generateID.2
  ids := s.ids ++ [(e, (s.generator e).generateID.1)]

def idsOf (s : Generators) (e : ℤ) : List ℤ := (s.ids.filter (·.1 = e)).map Prod.snd

theorem generator_self (s : Generators) (e : ℤ) :
    (s.generate e).generator e = (s.generator e).generateID.2 := Function.update_self _ _ _

theorem generator_other (s : Generators) {e e' : ℤ} (h : e ≠ e') :
    (s.generate e).generator e' = s.generator e' := Function.update_of_ne (Ne.symm h) _ _

structure Counted (i : ℤ) (s : Generators) : Prop where
  start : ∀ e, (s.generator e).start = i * e
  end_ : ∀ e, (s.generator e).end_ = i * e + i
  id : ∀ e, (s.generator e).id = nthID (i * e) i (s.idsOf e).length
  ids : ∀ e, s.idsOf e = (List.range' 1 (s.idsOf e).length).map (nthID (i * e) i)

namespace Counted

theorem init (f : SimpleTxnIDGeneratorFactory) : Counted f.interval (.init f) where
  start _ := rfl
  end_ _ := rfl
  id e := by simp [Generators.init, idsOf, nthID, SimpleTxnIDGeneratorFactory.getTxnIDGenerator,
    SimpleTxnIDGenerator.ofBase]
  ids _ := rfl

theorem generate {i : ℤ} {s : Generators} (h : Counted i s) (hi : 0 < i) (e : ℤ) :
    Counted i (s.generate e) := by
  have hnew := generateID_nthID hi (h.start e) (h.end_ e) (h.id e)
  have hself : (s.generate e).idsOf e = s.idsOf e ++ [nthID (i * e) i ((s.idsOf e).length + 1)] := by
    simp [idsOf, Generators.generate, hnew]
  have hother : ∀ e', e ≠ e' → (s.generate e).idsOf e' = s.idsOf e' := fun e' he => by
    simp [idsOf, Generators.generate, he]
  refine ⟨fun e' => ?_, fun e' => ?_, fun e' => ?_, fun e' => ?_⟩
  all_goals by_cases he : e = e'
  · subst he
    rw [generator_self]
    exact h.start e
  · rw [generator_other s he]
    exact h.start e'
  · subst he
    rw [generator_self]
    exact h.end_ e
  · rw [generator_other s he]
    exact h.end_ e'
  · subst he
    rw [generator_self, hself, List.length_append, List.length_singleton]
    exact hnew
  · rw [hother e' he, generator_other s he]
    exact h.id e'
  · subst he
    rw [hself, List.length_append, List.length_singleton, List.range'_concat, List.map_append,
      ← h.ids e]
    simp [Nat.add_comm]
  · rw [hother e' he]
    exact h.ids e'

theorem foldl {i : ℤ} {s : Generators} (h : Counted i s) (hi : 0 < i) (es : List ℤ) :
    Counted i (es.foldl Generators.generate s) := by
  induction es generalizing s with
  | nil => exact h
  | cons e es ih => exact ih (h.generate hi e)

theorem mem {i : ℤ} {s : Generators} (h : Counted i s) (hi : 0 < i) {e x : ℤ}
    (hx : (e, x) ∈ s.ids) : i * e ≤ x ∧ x < i * e + i := by
  have hmem : x ∈ s.idsOf e := List.mem_map.mpr ⟨(e, x), List.mem_filter.mpr ⟨hx, by simp⟩, rfl⟩
  rw [h.ids e] at hmem
  obtain ⟨k, -, rfl⟩ := List.mem_map.mp hmem
  exact nthID_mem hi k

end Counted

theorem ids_subset {es : List ℤ} {s : Generators} {p : ℤ × ℤ}
    (hp : p ∈ (es.foldl generate s).ids) : p ∈ s.ids ∨ p.1 ∈ es := by
  induction es generalizing s with
  | nil => exact .inl hp
  | cons e es ih =>
    rcases ih hp with hp | hp
    · rcases List.mem_append.mp hp with hp | hp
      · exact .inl hp
      · obtain rfl := List.mem_singleton.mp hp
        exact .inr List.mem_cons_self
    · exact .inr (List.mem_cons_of_mem _ hp)

/-- No number that the factory or a generator computes leaves `int64_t`, no id is the empty one,
and ids are unique across executors and, as long as a range lasts, within each of them. -/
theorem ids_unique {count : ℤ} (h1 : 1 ≤ count) (h2 : count ≤ int32Max) {es : List ℤ}
    (hes : ∀ e ∈ es, 0 ≤ e ∧ e < count) :
    let f := SimpleTxnIDGeneratorFactory.ofCount count
    let s := es.foldl generate (init f)
    (∀ e, 0 ≤ e → e < count → InInt64 (f.interval * e) ∧ InInt64 (f.interval * e + f.interval) ∧
      InInt64 ((s.generator e).id + 1)) ∧
    (∀ p ∈ s.ids, InInt64 p.2 ∧ p.2 ≠ VersionEntry.kEmptyTxId) ∧
    (∀ p ∈ s.ids, ∀ q ∈ s.ids, p.1 ≠ q.1 → p.2 ≠ q.2) ∧
    ∀ e pre w post, s.idsOf e = pre ++ (w ++ post) → (w.length : ℤ) ≤ f.interval → w.Nodup := by
  intro f s
  have hi : 1 ≤ f.interval := SimpleTxnIDGeneratorFactory.interval_pos h1 h2
  have hc : Counted f.interval s := (Counted.init f).foldl (by omega) es
  have hrange : ∀ e, 0 ≤ e → e < count →
      0 ≤ f.interval * e ∧ f.interval * e + f.interval ≤ int64Max := fun e h0 hlt =>
    ⟨Int.mul_nonneg (by omega) h0, SimpleTxnIDGeneratorFactory.range_le h1 (Int.le_trans (by decide) hi) hlt⟩
  have hmem : ∀ p ∈ s.ids, f.interval * p.1 ≤ p.2 ∧ p.2 < f.interval * p.1 + f.interval :=
    fun p hp => hc.mem (by omega) hp
  have hmax : 0 < int64Max := by decide
  refine ⟨fun e h0 hlt => ?_, fun p hp => ?_, fun p hp q hq hne => ?_, fun e pre w post hw hlen => ?_⟩
  · have := hrange e h0 hlt
    have hid : f.interval * e ≤ (s.generator e).id ∧
        (s.generator e).id < f.interval * e + f.interval := by
      rw [hc.id e]
      exact nthID_mem (by omega) _
    refine ⟨⟨?_, ?_⟩, ⟨?_, ?_⟩, ?_, ?_⟩ <;> omega
  · have hexec : p.1 ∈ es := (ids_subset hp).resolve_left (by simp [init])
    have := hrange p.1 (hes p.1 hexec).1 (hes p.1 hexec).2
    have := hmem p hp
    refine ⟨⟨?_, ?_⟩, ?_⟩
    · omega
    · omega
    · simp only [VersionEntry.kEmptyTxId]
      omega
  · exact SimpleTxnIDGeneratorFactory.range_disjoint hne (hmem p hp) (hmem q hq)
  · rw [hc.ids e] at hw
    obtain ⟨l, l', hl, -, hrest⟩ := List.map_eq_append_iff.mp hw
    obtain ⟨m, m', hm, rfl, -⟩ := List.map_eq_append_iff.mp hrest
    obtain ⟨k, -, -, rfl⟩ := List.range'_eq_append_iff.mp hl
    obtain ⟨k', -, rfl, -⟩ := List.range'_eq_append_iff.mp hm
    rw [List.length_map, List.length_range'] at hlen
    exact nthID_nodup hlen

theorem ids_unique_sample : (∀ p ∈ ([0, 1, 0].foldl generate (init (.ofCount 2))).ids,
    InInt64 p.2 ∧ p.2 ≠ VersionEntry.kEmptyTxId) ∧
    ([0, 1, 0].foldl generate (init (.ofCount 2))).ids =
      [(0, 1), (1, 4611686018427387904), (0, 2)] :=
  ⟨(@ids_unique 2 (by decide) (by decide) [0, 1, 0] (by decide)).2.1, by decide +kernel⟩

end Generators

end Fugue
