import Mathlib.Data.Int.Notation
import Mathlib.Data.List.Basic
import Mathlib.Order.Basic
import Mathlib.Tactic.Common

/-! Versions of one object, newest first: each was born when the one before it died. -/

namespace Fugue

variable {α T : Type} [LT T]

/-- The versions are numbered from zero. The oldest starts at `t₀`, and the newest stops at `t`. -/
inductive Lineage (number : α → ℤ) (start stop : α → T) (t₀ : T) : T → List α → Prop
  | first {v : α} (hn : number v = 0) (hs : start v = t₀) : Lineage number start stop t₀ (stop v) [v]
  | next {v w : α} {l : List α} (h : Lineage number start stop t₀ (start v) (w :: l))
      (hn : number v = number w + 1) (hlt : start w < start v) :
      Lineage number start stop t₀ (stop v) (v :: w :: l)

namespace Lineage

variable {number : α → ℤ} {start stop : α → T} {t₀ t : T} {v w : α} {l : List α}

theorem ne_nil (h : Lineage number start stop t₀ t l) : l ≠ [] := by
  cases h <;> exact List.cons_ne_nil _ _

theorem stop_eq (h : Lineage number start stop t₀ t (v :: l)) : stop v = t := by
  cases h <;> rfl

theorem number_eq (h : Lineage number start stop t₀ t (v :: l)) : number v = l.length := by
  induction l generalizing v t with
  | nil =>
    cases h with
    | first hn => exact hn
  | cons w l ih =>
    cases h with
    | next h hn hlt =>
      rw [hn, ih h, List.length_cons, Int.natCast_succ]

theorem number_getElem? (h : Lineage number start stop t₀ t l) {i : ℕ} (hi : l[i]? = some v) :
    number v + i + 1 = l.length := by
  induction h generalizing i with
  | @first w hn hs =>
    cases i with
    | zero =>
      obtain rfl := Option.some.inj hi
      simp [hn]
    | succ i => cases hi
  | @next u w l h hn hlt ih =>
    cases i with
    | zero =>
      obtain rfl := Option.some.inj hi
      rw [hn, h.number_eq]
      simp only [List.length_cons]
      omega
    | succ i =>
      have := ih (i := i) hi
      simp only [List.length_cons] at this ⊢
      omega

theorem number_lt (h : Lineage number start stop t₀ t l) (hv : v ∈ l) : number v < l.length := by
  obtain ⟨i, hi⟩ := List.mem_iff_getElem?.mp hv
  have := h.number_getElem? hi
  omega

theorem number_nonneg (h : Lineage number start stop t₀ t l) (hv : v ∈ l) : 0 ≤ number v := by
  obtain ⟨i, hi⟩ := List.mem_iff_getElem?.mp hv
  have := h.number_getElem? hi
  have hlt := (List.getElem?_eq_some_iff.mp hi).1
  omega

theorem number_lt_newest (h : Lineage number start stop t₀ t (v :: l)) (hw : w ∈ l) :
    number w < number v := by
  have hv := h.number_eq
  cases h with
  | first hn hs => cases hw
  | next h hn hlt =>
    have := h.number_lt hw
    omega

theorem eq_of_number (h : Lineage number start stop t₀ t l) (hv : v ∈ l) (hw : w ∈ l)
    (hn : number v = number w) : v = w := by
  obtain ⟨i, hi⟩ := List.mem_iff_getElem?.mp hv
  obtain ⟨j, hj⟩ := List.mem_iff_getElem?.mp hw
  have h1 := h.number_getElem? hi
  have h2 := h.number_getElem? hj
  obtain rfl : i = j := by omega
  exact Option.some.inj (hi.symm.trans hj)

theorem exists_number (h : Lineage number start stop t₀ t l) {n : ℤ} (h0 : 0 ≤ n)
    (hn : n < l.length) : ∃ v ∈ l, number v = n := by
  have hlt : l.length - 1 - n.toNat < l.length := by omega
  refine ⟨l[l.length - 1 - n.toNat], List.getElem_mem hlt, ?_⟩
  have := h.number_getElem? (List.getElem?_eq_getElem hlt)
  omega

theorem restop (h : Lineage number start stop t₀ t (v :: l)) (hn : number w = number v)
    (hs : start w = start v) : Lineage number start stop t₀ (stop w) (w :: l) := by
  cases h with
  | first hn' hs' => exact .first (hn.trans hn') (hs.trans hs')
  | next h hn' hlt => exact .next (hs ▸ h) (hn.trans hn') (hs ▸ hlt)

theorem start_first (h : Lineage number start stop t₀ t l) (hv : v ∈ l) (hn : number v = 0) :
    start v = t₀ := by
  induction h with
  | @first w hw hs =>
    obtain rfl := List.mem_singleton.mp hv
    exact hs
  | @next u w l h hw hlt ih =>
    rcases List.mem_cons.mp hv with rfl | hv
    · have := h.number_eq
      omega
    · exact ih hv

theorem stops (h : Lineage number start stop t₀ t l) {i : ℕ} (hv : l[i]? = some v)
    (hw : l[i + 1]? = some w) : stop w = start v := by
  induction h generalizing i with
  | first hn hs => cases hw
  | @next u x l h hn hlt ih =>
    cases i with
    | zero =>
      obtain rfl := Option.some.inj hv
      obtain rfl := Option.some.inj hw
      exact h.stop_eq
    | succ i => exact ih hv hw

end Lineage

section

variable {T : Type} [Preorder T] {number : α → ℤ} {start stop : α → T} {t₀ t : T} {v w : α}
  {l : List α}

namespace Lineage

theorem start_lt (h : Lineage number start stop t₀ t (v :: l)) (hw : w ∈ l) :
    start w < start v := by
  induction l generalizing v t with
  | nil => cases hw
  | cons x l ih =>
    cases h with
    | next h hn hlt =>
      rcases List.mem_cons.mp hw with rfl | hw
      · exact hlt
      · exact (ih h hw).trans hlt

theorem increasing (h : Lineage number start stop t₀ t l) :
    l.Pairwise fun newer older => start older < start newer := by
  induction h with
  | first hn hs => exact List.pairwise_singleton _ _
  | next h hn hlt ih =>
    refine List.pairwise_cons.mpr ⟨fun x hx => ?_, ih⟩
    exact (h.next hn hlt).start_lt hx

theorem start_lt_of_number (h : Lineage number start stop t₀ t l) (hv : v ∈ l) (hw : w ∈ l)
    (hn : number v < number w) : start v < start w := by
  obtain ⟨i, hi⟩ := List.mem_iff_getElem?.mp hv
  obtain ⟨j, hj⟩ := List.mem_iff_getElem?.mp hw
  have h1 := h.number_getElem? hi
  have h2 := h.number_getElem? hj
  obtain ⟨hi', rfl⟩ := List.getElem?_eq_some_iff.mp hi
  obtain ⟨hj', rfl⟩ := List.getElem?_eq_some_iff.mp hj
  apply List.pairwise_iff_getElem.mp h.increasing j i hj' hi'
  omega

theorem start_le_of_number (h : Lineage number start stop t₀ t l) (hv : v ∈ l) (hw : w ∈ l)
    (hn : number v ≤ number w) : start v ≤ start w := by
  rcases Int.lt_or_eq_of_le hn with hlt | heq
  · exact (h.start_lt_of_number hv hw hlt).le
  · rw [h.eq_of_number hv hw heq]

theorem le_newest (h : Lineage number start stop t₀ t (v :: l)) : t₀ ≤ start v := by
  induction l generalizing v t with
  | nil =>
    cases h with
    | first hn hs => exact hs.ge
  | cons x l ih =>
    cases h with
    | next h hn hlt => exact (ih h).trans hlt.le

theorem le_start (h : Lineage number start stop t₀ t l) (hv : v ∈ l) : t₀ ≤ start v := by
  induction h with
  | first hn hs =>
    obtain rfl := List.mem_singleton.mp hv
    exact hs.ge
  | next h hn hlt ih =>
    rcases List.mem_cons.mp hv with rfl | hv
    · exact (h.next hn hlt).le_newest
    · exact ih hv

theorem lt_stop (h : Lineage number start stop t₀ t l) (hv : v ∈ l) :
    stop v = t ∨ t₀ < stop v := by
  induction h with
  | first hn hs =>
    obtain rfl := List.mem_singleton.mp hv
    exact Or.inl rfl
  | @next u w l h hn hlt ih =>
    rcases List.mem_cons.mp hv with rfl | hv
    · exact Or.inl rfl
    · have hpos : t₀ < start u := h.le_newest.trans_lt hlt
      rcases ih hv with hs | hs
      · exact Or.inr (hs ▸ hpos)
      · exact Or.inr hs

end Lineage

end

end Fugue
