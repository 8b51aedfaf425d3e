import Mathlib.Order.Basic
import Mathlib.Data.List.DropRight
import Mathlib.Tactic.Common

namespace Fugue

abbrev Slots (α : Type) := List (Option α)

namespace Slots

variable {α : Type}

def slot (v : Slots α) (i : ℕ) : Option α := (v[i]?).join

def setSlot (v : Slots α) (i : ℕ) (o : Option α) : Slots α := v.set i o

def pushBack (v : Slots α) (x : α) : Slots α := v ++ [some x]

/-- Drops the empty slots above the topmost occupied one. -/
def trim (v : Slots α) : Slots α := v.rdropWhile Option.isNone

def Holds (v : Slots α) (x : α) : Prop := ∃ i, v.slot i = some x

def Unique (v : Slots α) : Prop := ∀ i j x, v.slot i = some x → v.slot j = some x → i = j

theorem lt_length_of_slot {v : Slots α} {i : ℕ} {x : α} (h : v.slot i = some x) :
    i < v.length := by
  by_contra hi
  simp [slot, List.getElem?_eq_none (Nat.le_of_not_lt hi)] at h

@[simp] theorem slot_nil (i : ℕ) : slot ([] : Slots α) i = none := by simp [slot]

theorem slot_setSlot (v : Slots α) (i j : ℕ) (o : Option α) (h : i < v.length) :
    (v.setSlot i o).slot j = if j = i then o else v.slot j := by
  by_cases hj : j = i
  · subst hj; simp [slot, setSlot, h]
  · simp [slot, setSlot, hj, Ne.symm hj]

theorem slot_pushBack (v : Slots α) (x : α) (j : ℕ) :
    (v.pushBack x).slot j = if j = v.length then some x else v.slot j := by
  simp only [slot, pushBack]
  rcases Nat.lt_trichotomy j v.length with h | h | h
  · rw [List.getElem?_append_left h]; simp [Nat.ne_of_lt h]
  · simp [h]
  · rw [List.getElem?_eq_none (by simp; omega), List.getElem?_eq_none (by omega)]
    simp [Nat.ne_of_gt h]

theorem slot_concat_none (v : Slots α) (j : ℕ) : slot (v ++ [none]) j = v.slot j := by
  simp only [slot]
  rcases Nat.lt_trichotomy j v.length with h | h | h
  · rw [List.getElem?_append_left h]
  · simp [h]
  · rw [List.getElem?_eq_none (by simp; omega), List.getElem?_eq_none (by omega)]

theorem of_slot_append {v w : Slots α} {i : ℕ} {x : α}
    (h : slot (v ++ w) i = some x) : v.slot i = some x ∨ some x ∈ w := by
  by_cases hi : i < v.length
  · left
    rw [slot, List.getElem?_append_left hi] at h
    exact h
  · right
    rw [slot, List.getElem?_append_right (Nat.le_of_not_lt hi)] at h
    exact List.mem_of_getElem? (Option.join_eq_some_iff.mp h)

theorem slot_append {v : Slots α} {i : ℕ} {x : α} (h : v.slot i = some x) (w : Slots α) :
    slot (v ++ w) i = some x := by
  rw [slot, List.getElem?_append_left (lt_length_of_slot h)]
  exact h

@[simp] theorem slot_trim (v : Slots α) (j : ℕ) : v.trim.slot j = v.slot j := by
  induction v using List.reverseRecOn with
  | nil => rfl
  | append_singleton v o ih =>
    cases o with
    | none => simpa [trim, List.rdropWhile_concat, slot_concat_none] using ih
    | some x => simp [trim]

theorem trim_eq_nil {v : Slots α} : v.trim = [] ↔ ∀ x, ¬ v.Holds x := by
  induction v using List.reverseRecOn with
  | nil => simp [trim, Holds]
  | append_singleton v o ih =>
    cases o with
    | none =>
      have : ∀ x, Holds (v ++ [none]) x ↔ Holds v x := fun x => by simp [Holds, slot_concat_none]
      simpa [trim, List.rdropWhile_concat, this] using ih
    | some x =>
      simp only [trim, List.rdropWhile_concat, Option.isNone_some, Bool.false_eq_true, ↓reduceIte,
        List.append_eq_nil_iff, List.cons_ne_self, and_false, false_iff, not_forall, not_not]
      exact ⟨x, v.length, by simp [slot]⟩

theorem not_holds_nil (x : α) : ¬ Holds ([] : Slots α) x := by simp [Holds]

@[simp] theorem holds_trim (v : Slots α) (x : α) : v.trim.Holds x ↔ v.Holds x := by simp [Holds]

theorem holds_pushBack (v : Slots α) (x y : α) :
    (v.pushBack x).Holds y ↔ y = x ∨ v.Holds y := by
  constructor
  · rintro ⟨j, hj⟩
    rw [slot_pushBack] at hj
    split at hj
    · exact .inl (Option.some.inj hj).symm
    · exact .inr ⟨j, hj⟩
  · rintro (rfl | ⟨j, hj⟩)
    · exact ⟨v.length, by simp [slot_pushBack]⟩
    · exact ⟨j, by rw [slot_pushBack, if_neg (Nat.ne_of_lt (lt_length_of_slot hj))]; exact hj⟩

theorem holds_setSlot {v : Slots α} (hu : v.Unique) {i : ℕ} {x : α} (h : v.slot i = some x)
    (o : Option α) (y : α) : (v.setSlot i o).Holds y ↔ o = some y ∨ (v.Holds y ∧ y ≠ x) := by
  have hi := lt_length_of_slot h
  constructor
  · rintro ⟨j, hj⟩
    rw [slot_setSlot v i j o hi] at hj
    split at hj
    · exact .inl hj
    · next hji => exact .inr ⟨⟨j, hj⟩, fun hy => hji (hu j i x (hy ▸ hj) h)⟩
  · rintro (rfl | ⟨⟨j, hj⟩, hy⟩)
    · exact ⟨i, by simp [slot_setSlot v i i _ hi]⟩
    · have hji : j ≠ i := by rintro rfl; rw [h] at hj; exact hy (Option.some.inj hj).symm
      exact ⟨j, by rw [slot_setSlot v i j o hi, if_neg hji]; exact hj⟩

theorem Unique.trim {v : Slots α} (h : v.Unique) : v.trim.Unique := by
  intro i j x hi hj
  exact h i j x (by simpa using hi) (by simpa using hj)

theorem Unique.of_append {v w : Slots α} (h : Unique (v ++ w)) : v.Unique :=
  fun i j x hi hj => h i j x (slot_append hi w) (slot_append hj w)

theorem unique_nil : Unique ([] : Slots α) := by intro i j x h; simp at h

theorem Unique.pushBack {v : Slots α} (h : v.Unique) {x : α} (hx : ¬ v.Holds x) :
    (v.pushBack x).Unique := by
  intro i j y hi hj
  rw [slot_pushBack] at hi hj
  split at hi <;> split at hj
  · omega
  · obtain rfl := Option.some.inj hi; exact absurd ⟨j, hj⟩ hx
  · obtain rfl := Option.some.inj hj; exact absurd ⟨i, hi⟩ hx
  · exact h i j y hi hj

theorem Unique.setSlot {v : Slots α} (hu : v.Unique) {i : ℕ} {x : α} (h : v.slot i = some x)
    {o : Option α} (ho : ∀ y, o = some y → v.Holds y → y = x) : (v.setSlot i o).Unique := by
  have hi := lt_length_of_slot h
  intro a b y ha hb
  rw [slot_setSlot v i _ o hi] at ha hb
  split at ha <;> split at hb
  · omega
  · next _ hbi => exact absurd (hu b i x (ho y ha ⟨b, hb⟩ ▸ hb) h) hbi
  · next hai _ => exact absurd (hu a i x (ho y hb ⟨a, ha⟩ ▸ ha) h) hai
  · exact hu a b y ha hb

/-- The occupied slots hold exactly the objects in `held`, each in one slot. -/
structure Occupied (v : Slots α) (held : α → Prop) : Prop where
  unique : v.Unique
  holds : ∀ x, v.Holds x ↔ held x

theorem occupied_nil : Occupied ([] : Slots α) fun _ => False :=
  ⟨unique_nil, fun x => iff_false_intro (not_holds_nil x)⟩

namespace Occupied

variable {v : Slots α} {held : α → Prop}

theorem congr (h : v.Occupied held) {held' : α → Prop} (hc : ∀ x, held x ↔ held' x) :
    v.Occupied held' :=
  ⟨h.unique, fun x => (h.holds x).trans (hc x)⟩

theorem held_of_slot (h : v.Occupied held) {i : ℕ} {x : α} (hi : v.slot i = some x) : held x :=
  (h.holds x).mp ⟨i, hi⟩

theorem pushBack (h : v.Occupied held) {x : α} (hx : ¬ held x) :
    (v.pushBack x).Occupied fun y => y = x ∨ held y := by
  refine ⟨h.unique.pushBack (mt (h.holds x).mp hx), fun y => ?_⟩
  rw [holds_pushBack, h.holds]

theorem empty (h : v.Occupied held) {i : ℕ} {x : α} (hi : v.slot i = some x) :
    (v.setSlot i none).Occupied fun y => held y ∧ y ≠ x := by
  refine ⟨h.unique.setSlot hi (fun y hy => by simp at hy), fun y => ?_⟩
  rw [holds_setSlot h.unique hi, h.holds]
  simp

theorem replace (h : v.Occupied held) {i : ℕ} {x y : α} (hi : v.slot i = some x)
    (hy : held y → y = x) : (v.setSlot i (some y)).Occupied fun z => z = y ∨ held z ∧ z ≠ x := by
  refine ⟨h.unique.setSlot hi ?_, fun z => ?_⟩
  · intro z hz hv
    obtain rfl := Option.some.inj hz
    exact hy ((h.holds y).mp hv)
  · rw [holds_setSlot h.unique hi, h.holds, Option.some_inj, eq_comm]

theorem trim (h : v.Occupied held) : v.trim.Occupied held :=
  ⟨h.unique.trim, fun x => (holds_trim v x).trans (h.holds x)⟩

theorem trim_eq_nil (h : v.Occupied held) (hn : ∀ x, ¬ held x) : v.trim = [] :=
  Slots.trim_eq_nil.mpr fun x hx => hn x ((h.holds x).mp hx)

end Occupied

end Slots

end Fugue
