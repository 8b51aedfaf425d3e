import Fugue.Library.Slots
import Mathlib.Data.List.ReduceOption
import Mathlib.Data.Multiset.DershowitzManna

/-! Work that is left, as a multiset of heights. A step replaces some of it by work of less
height, and only finitely many such steps follow one another. -/

namespace Fugue

namespace Workload

open Multiset

variable {α : Type} [Preorder α] {M N P X Y Z : Multiset α}

theorem lt_of_replace (hZ : Z ≠ 0) (h : ∀ y ∈ Y, ∃ z ∈ Z, y < z) :
    IsDershowitzMannaLT (X + Y) (X + Z) :=
  ⟨X, Y, Z, hZ, rfl, rfl, h⟩

theorem lt_cons {a : α} (h : ∀ y ∈ Y, y < a) : IsDershowitzMannaLT (X + Y) (a ::ₘ X) := by
  rw [← Multiset.singleton_add, add_comm _ X]
  apply lt_of_replace (Multiset.singleton_ne_zero a)
  intro y hy
  exact ⟨a, Multiset.mem_singleton_self a, h y hy⟩

theorem lt_cons_self (a : α) : IsDershowitzMannaLT X (a ::ₘ X) := by
  have h := lt_cons (X := X) (Y := 0) (a := a) fun y hy => absurd hy (Multiset.notMem_zero y)
  rwa [add_zero] at h

theorem add_right (h : IsDershowitzMannaLT M N) (P : Multiset α) :
    IsDershowitzMannaLT (M + P) (N + P) := by
  obtain ⟨X, Y, Z, hZ, rfl, rfl, hlt⟩ := h
  rw [add_right_comm X Y P, add_right_comm X Z P]
  exact lt_of_replace hZ hlt

theorem of_le (hle : M ≤ N) (h : IsDershowitzMannaLT N P) :
    IsDershowitzMannaLT M P := by
  obtain ⟨R, rfl⟩ := Multiset.le_iff_exists_add.mp hle
  induction R using Multiset.induction with
  | empty => rwa [add_zero] at h
  | cons a R ih =>
    apply ih (Multiset.le_add_right M R)
    rw [Multiset.add_cons] at h
    exact (lt_cons_self a).trans h

theorem lt_of_le_add {a : α} (hM : M ≤ X + Y) (hY : ∀ y ∈ Y, y < a) :
    IsDershowitzMannaLT M (a ::ₘ X) := of_le hM (lt_cons hY)

/-- All that was added replaces work of greater height. -/
def AtMost (M N : Multiset α) : Prop := M = N ∨ IsDershowitzMannaLT M N

namespace AtMost

theorem refl (M : Multiset α) : AtMost M M := .inl rfl

theorem trans (h : AtMost M N) (h' : AtMost N P) : AtMost M P := by
  rcases h with rfl | h
  · exact h'
  · rcases h' with rfl | h'
    · exact .inr h
    · exact .inr (h.trans h')

theorem trans_lt (h : AtMost M N) (h' : IsDershowitzMannaLT N P) : IsDershowitzMannaLT M P := by
  rcases h with rfl | h
  · exact h'
  · exact h.trans h'

theorem lt_trans (h : IsDershowitzMannaLT M N) (h' : AtMost N P) : IsDershowitzMannaLT M P := by
  rcases h' with rfl | h'
  · exact h
  · exact h.trans h'

theorem of_le (h : M ≤ N) : AtMost M N := by
  obtain ⟨R, rfl⟩ := Multiset.le_iff_exists_add.mp h
  induction R using Multiset.induction with
  | empty => exact .inl (add_zero M).symm
  | cons a R ih =>
    right
    rw [Multiset.add_cons]
    exact trans_lt (ih (Multiset.le_add_right M R)) (lt_cons_self a)

theorem add_right (h : AtMost M N) (P : Multiset α) : AtMost (M + P) (N + P) := by
  rcases h with rfl | h
  · exact refl _
  · exact .inr (Workload.add_right h P)

theorem add_left (P : Multiset α) (h : AtMost M N) : AtMost (P + M) (P + N) := by
  rw [add_comm P M, add_comm P N]
  exact h.add_right P

theorem replicate {a b : α} (hab : a < b) {m n : ℕ} (hmn : m ≤ n) :
    AtMost (Multiset.replicate m a) (Multiset.replicate n b) := by
  induction m generalizing n with
  | zero => exact of_le (Multiset.zero_le _)
  | succ m ih =>
    obtain ⟨n, rfl⟩ : ∃ k, n = k + 1 := ⟨n - 1, by omega⟩
    right
    rw [Multiset.replicate_succ, Multiset.replicate_succ, ← Multiset.singleton_add, add_comm]
    apply trans_lt ((ih (Nat.le_of_succ_le_succ hmn)).add_right {a})
    apply lt_cons
    intro y hy
    rwa [Multiset.mem_singleton.mp hy]

end AtMost

omit [Preorder α] in
theorem sum_set {β : Type} {f : β → Multiset α} {l : List β} {i : ℕ} {b : β} (h : l[i]? = some b) :
    ∃ R, (l.map f).sum = R + f b ∧ ∀ c, ((l.set i c).map f).sum = R + f c := by
  induction l generalizing i with
  | nil => cases h
  | cons d l ih =>
    cases i with
    | zero =>
      obtain rfl := Option.some.inj h
      exact ⟨(l.map f).sum, add_comm _ _, fun c => add_comm _ _⟩
    | succ i =>
      obtain ⟨R, hb, hc⟩ := ih (i := i) h
      refine ⟨f d + R, ?_, fun c => ?_⟩
      · rw [List.map_cons, List.sum_cons, hb, add_assoc]
      · rw [List.set_cons_succ, List.map_cons, List.sum_cons, hc, add_assoc]

theorem lt_of_mem_sum {β : Type} {f : β → Multiset α} {l : List β} {a y : α}
    (h : ∀ b ∈ l, ∀ y ∈ f b, y < a) (hy : y ∈ (l.map f).sum) : y < a := by
  induction l with
  | nil => exact absurd hy (Multiset.notMem_zero y)
  | cons b l ih =>
    rw [List.map_cons, List.sum_cons, Multiset.mem_add] at hy
    rcases hy with hy | hy
    · exact h b List.mem_cons_self y hy
    · exact ih (fun c hc => h c (List.mem_cons_of_mem b hc)) hy

/-- A round of a loop either does some work, or leaves all of it and brings the end of the waiting
nearer, which lasts `n` more rounds at most. Then the loop ends. -/
theorem ends_of_rounds [WellFoundedLT α] {σ : Type} {I E : σ → Prop}
    {W : σ → ℕ → Prop} (work : σ → Multiset α) (hwaits : ∀ s, I s → ∃ n, W s n)
    (hround : ∀ s n, I s → W s n →
      (∀ t, I t → IsDershowitzMannaLT (work t) (work s) → E t) →
      (∀ t m, I t → work t = work s → W t m → m < n → E t) → E s)
    {s : σ} (hs : I s) : E s := by
  induction hw : work s using (wellFounded_isDershowitzMannaLT (α := α)).induction
    generalizing s with
  | _ w ih =>
    subst hw
    have hwait : ∀ n t, I t → work t = work s → W t n → E t := by
      intro n
      induction n using Nat.strong_induction_on with
      | _ n ihn =>
        intro t ht heq hn
        apply hround t n ht hn
        · intro u hu hlt
          rw [heq] at hlt
          exact ih (work u) hlt hu rfl
        · intro u m hu hequ hm hmn
          exact ihn m hmn u hu (hequ.trans heq) hm
    obtain ⟨n, hn⟩ := hwaits s hs
    exact hwait n s hs rfl hn

end Workload

namespace Slots

variable {α : Type} {v : Slots α}

def work {β : Type} (height : α → β) (v : Slots α) : Multiset β := v.reduceOption.map height

variable {β : Type} (height : α → β)

theorem work_append (v w : Slots α) : work height (v ++ w) = work height v + work height w := by
  rw [work, List.reduceOption_append, List.map_append, ← Multiset.coe_add]
  rfl

theorem work_map_some (l : List α) : work height (l.map some) = (l.map height : List β) := by
  simp [work, List.reduceOption]

@[simp] theorem work_trim (v : Slots α) : work height v.trim = work height v := by
  induction v using List.reverseRecOn with
  | nil => rfl
  | append_singleton v o ih =>
    cases o with
    | none =>
      rw [trim, List.rdropWhile_concat, if_pos (by rfl), work_append]
      exact ih.trans (add_zero _).symm
    | some x => simp [trim]

theorem work_setSlot {i : ℕ} {x : α} (h : v.slot i = some x) :
    work height v = height x ::ₘ work height (v.setSlot i none) := by
  induction v generalizing i with
  | nil => simp at h
  | cons o v ih =>
    cases i with
    | zero =>
      obtain rfl : o = some x := by simpa [slot] using h
      rfl
    | succ i =>
      have hv := ih (i := i) (by simpa [slot] using h)
      cases o with
      | none => exact hv
      | some y =>
        change height y ::ₘ work height v = height x ::ₘ height y ::ₘ work height _
        rw [hv]
        exact Multiset.cons_swap _ _ _

theorem work_replace {i : ℕ} (h : i < v.length) (y : α) :
    work height (v.setSlot i (some y)) = height y ::ₘ work height (v.setSlot i none) := by
  have hs := work_setSlot height (v := v.setSlot i (some y)) (i := i) (x := y)
    (by rw [slot_setSlot v i i _ h, if_pos rfl])
  rw [hs, setSlot, setSlot, setSlot, List.set_set]

end Slots

end Fugue
