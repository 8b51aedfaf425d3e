import Mathlib.Order.Basic
import Mathlib.Data.List.Basic
import Mathlib.Data.Nat.Basic
import Mathlib.Order.Interval.Set.Defs
import Mathlib.Tactic.Common

/-! A pool of objects that are handed out and given back as a stack and are never destroyed. -/

namespace Fugue

/-- The objects below `popIndex` are live; the objects above it keep what they held before. -/
structure Pool (α : Type) where
  objects : List α
  popIndex : ℕ
  popIndex_le : popIndex ≤ objects.length

namespace Pool

variable {α : Type}

def ofCapacity [Inhabited α] (capacity : ℕ) : Pool α := ⟨List.replicate capacity default, 0, by simp⟩

def capacity (p : Pool α) : ℕ := p.objects.length

def get [Inhabited α] (p : Pool α) (i : ℕ) : α := p.objects.getD i default

def resize [Inhabited α] (p : Pool α) : Pool α :=
  ⟨p.objects ++ [default], p.popIndex, by have := p.popIndex_le; simp; omega⟩

theorem popIndex_lt_capacity {p : Pool α} (h : p.popIndex ≠ p.capacity) :
    p.popIndex + 1 ≤ p.objects.length := by
  have := p.popIndex_le
  simp only [capacity] at h
  omega

/-- Hands out the object at `popIndex`, after growing the pool by one when it is exhausted. -/
def new [Inhabited α] (p : Pool α) : Pool α :=
  if h : p.popIndex = p.capacity then
    ⟨p.resize.objects, p.popIndex + 1, by simp [resize, h, capacity]⟩
  else ⟨p.objects, p.popIndex + 1, popIndex_lt_capacity h⟩

def modify (p : Pool α) (i : ℕ) (f : α → α) : Pool α :=
  ⟨p.objects.modify i f, p.popIndex, by simpa using p.popIndex_le⟩

def release (p : Pool α) : Pool α :=
  ⟨p.objects, p.popIndex - 1, by have := p.popIndex_le; omega⟩

def reset (p : Pool α) : Pool α := ⟨p.objects, 0, Nat.zero_le _⟩

/-- Searches the objects below `i` from the newest to the oldest. -/
def findBelow [Inhabited α] (p : Pool α) (q : α → Bool) : ℕ → Option ℕ
  | 0 => none
  | i + 1 => if q (p.get i) then some i else p.findBelow q i

def find [Inhabited α] (p : Pool α) (q : α → Bool) : Option ℕ := p.findBelow q p.popIndex

@[simp] theorem popIndex_release (p : Pool α) : p.release.popIndex = p.popIndex - 1 := rfl

variable [Inhabited α]

@[simp] theorem popIndex_new (p : Pool α) : p.new.popIndex = p.popIndex + 1 := by
  unfold new; split <;> rfl

@[simp] theorem get_new (p : Pool α) (i : ℕ) : p.new.get i = p.get i := by
  unfold new
  split
  · simp only [get, resize, List.getD_eq_getElem?_getD]
    rcases Nat.lt_trichotomy i p.objects.length with h | h | h
    · rw [List.getElem?_append_left h]
    · simp [h]
    · rw [List.getElem?_eq_none (l := p.objects) (by omega),
        List.getElem?_eq_none (by simp; omega)]
  · rfl

@[simp] theorem get_release (p : Pool α) (i : ℕ) : p.release.get i = p.get i := rfl

theorem get_modify_ne (p : Pool α) {i j : ℕ} (f : α → α) (h : j ≠ i) :
    (p.modify i f).get j = p.get j := by
  simp [get, modify, Ne.symm h]

theorem get_modify_self (p : Pool α) {i : ℕ} (f : α → α) (h : i < p.popIndex) :
    (p.modify i f).get i = f (p.get i) := by
  have hi : i < p.objects.length := Nat.lt_of_lt_of_le h p.popIndex_le
  simp [get, modify, hi]

theorem get_modify (p : Pool α) {i j : ℕ} (f : α → α) (h : j < p.popIndex) :
    (p.modify i f).get j = if j = i then f (p.get j) else p.get j := by
  split
  · next hj => subst hj; exact get_modify_self p f h
  · next hj => exact get_modify_ne p f hj

theorem get_modify_field {β : Type} (g : α → β) (p : Pool α) (i j : ℕ) (f : α → α)
    (hf : ∀ a, g (f a) = g a) : g ((p.modify i f).get j) = g (p.get j) := by
  by_cases h : j = i
  · subst h
    simp only [get, modify, List.getD_eq_getElem?_getD, List.getElem?_modify]
    cases p.objects[j]? <;> simp [hf]
  · rw [get_modify_ne p f h]

theorem findBelow_eq_some {p : Pool α} {q : α → Bool} {n i : ℕ} (h : p.findBelow q n = some i) :
    i < n ∧ q (p.get i) = true ∧ ∀ j, i < j → j < n → q (p.get j) = false := by
  induction n with
  | zero => simp [findBelow] at h
  | succ n ih =>
    simp only [findBelow] at h
    split at h
    · next hq =>
      obtain rfl := Option.some.inj h
      exact ⟨Nat.lt_succ_self _, hq, fun j h1 h2 => by omega⟩
    · next hq =>
      obtain ⟨h1, h2, h3⟩ := ih h
      refine ⟨by omega, h2, fun j hj hjn => ?_⟩
      rcases Nat.lt_succ_iff_lt_or_eq.mp hjn with hlt | rfl
      · exact h3 j hj hlt
      · simpa using hq

theorem findBelow_eq_none {p : Pool α} {q : α → Bool} {n : ℕ} :
    p.findBelow q n = none ↔ ∀ j < n, q (p.get j) = false := by
  induction n with
  | zero => simp [findBelow]
  | succ n ih =>
    simp only [findBelow]
    split
    · next hq =>
      simp only [reduceCtorEq, false_iff, not_forall]
      exact ⟨n, Nat.lt_succ_self n, by simp [hq]⟩
    · next hq =>
      rw [ih]
      constructor
      · intro h j hj
        rcases Nat.lt_succ_iff_lt_or_eq.mp hj with hlt | rfl
        · exact h j hlt
        · simpa using hq
      · exact fun h j hj => h j (by omega)

theorem find_eq_some {p : Pool α} {q : α → Bool} {i : ℕ} (h : p.find q = some i) :
    i < p.popIndex ∧ q (p.get i) = true ∧ ∀ j, i < j → j < p.popIndex → q (p.get j) = false :=
  findBelow_eq_some h

theorem find_eq_none {p : Pool α} {q : α → Bool} :
    p.find q = none ↔ ∀ j < p.popIndex, q (p.get j) = false :=
  findBelow_eq_none

theorem findBelow_congr {p p' : Pool α} {q : α → Bool} {n : ℕ}
    (h : ∀ j < n, q (p'.get j) = q (p.get j)) : p'.findBelow q n = p.findBelow q n := by
  induction n with
  | zero => rfl
  | succ n ih =>
    simp only [findBelow, h n (Nat.lt_succ_self n), ih (fun j hj => h j (by omega))]

section SameOn

omit [Inhabited α] in
structure SameOn (s : Set ℕ) (p p' : Pool α) : Prop where
  popIndex : p'.popIndex = p.popIndex
  objects : ∀ i ∈ s, p'.objects[i]? = p.objects[i]?

namespace SameOn

variable {s t : Set ℕ} {p p' : Pool α}

omit [Inhabited α] in
theorem refl (p : Pool α) : SameOn s p p := ⟨rfl, fun _ _ => rfl⟩

omit [Inhabited α] in
theorem mono (h : SameOn t p p') (hs : s ⊆ t) : SameOn s p p' :=
  ⟨h.popIndex, fun i hi => h.objects i (hs hi)⟩

omit [Inhabited α] in
theorem reset (p p' : Pool α) : SameOn ∅ p.reset p'.reset := ⟨rfl, fun _ hi => hi.elim⟩

omit [Inhabited α] in
theorem release (h : SameOn s p p') : SameOn s p.release p'.release :=
  ⟨congrArg (· - 1) h.popIndex, h.objects⟩

omit [Inhabited α] in
theorem modify (h : SameOn s p p') (i : ℕ) (f : α → α) :
    SameOn s (p.modify i f) (p'.modify i f) := by
  refine ⟨h.popIndex, fun j hj => ?_⟩
  simp only [Pool.modify, List.getElem?_modify, h.objects j hj]

omit [Inhabited α] in
theorem overwrite (h : SameOn s p p') {i : ℕ} (hi : i < p.popIndex) (a : α) :
    SameOn (insert i s) (p.modify i fun _ => a) (p'.modify i fun _ => a) := by
  refine ⟨h.popIndex, fun j hj => ?_⟩
  rcases hj with rfl | hj
  · have hlt : j < p.objects.length := Nat.lt_of_lt_of_le hi p.popIndex_le
    have hlt' : j < p'.objects.length :=
      Nat.lt_of_lt_of_le (h.popIndex ▸ hi) p'.popIndex_le
    simp [Pool.modify, hlt, hlt']
  · exact (h.modify i fun _ => a).objects j hj

theorem get (h : SameOn s p p') {i : ℕ} (hi : i ∈ s) : p'.get i = p.get i := by
  simp only [Pool.get, List.getD_eq_getElem?_getD, h.objects i hi]

theorem find (h : SameOn s p p') (hs : Set.Iio p.popIndex ⊆ s) (q : α → Bool) :
    p'.find q = p.find q := by
  rw [Pool.find, Pool.find, h.popIndex]
  exact findBelow_congr fun j hj => by rw [h.get (hs hj)]

theorem objects_new (p : Pool α) (i : ℕ) :
    p.new.objects[i]? = if i = p.popIndex ∧ p.objects[i]? = none then some default
      else p.objects[i]? := by
  have hle := p.popIndex_le
  unfold new
  split
  · next hc =>
    rw [capacity] at hc
    simp only [resize]
    rcases Nat.lt_trichotomy i p.objects.length with h | h | h
    · rw [List.getElem?_append_left h, if_neg fun hi => by omega]
    · simp [h, hc]
    · rw [List.getElem?_eq_none (by simp; omega), List.getElem?_eq_none (by omega), if_neg]
      omega
  · next hc =>
    rw [capacity] at hc
    rw [if_neg]
    rintro ⟨rfl, hn⟩
    have := List.getElem?_eq_none_iff.mp hn
    omega

theorem new (h : SameOn s p p') : SameOn s p.new p'.new := by
  refine ⟨by simp [h.popIndex], fun i hi => ?_⟩
  rw [objects_new, objects_new, h.popIndex, h.objects i hi]

end SameOn

end SameOn

end Pool

end Fugue
