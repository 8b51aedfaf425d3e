import Fugue.Library.Slots

/-! Objects that are reset, called and later moved on, and the stack that holds those in flight. -/

namespace Fugue

inductive FlightEvent (α : Type)
  | reset (x : α)
  | call (x : α)
  | next (x : α)
  | clean
  deriving DecidableEq

variable {α : Type}

def InFlight (h : List (FlightEvent α)) (x : α) : Prop :=
  ∃ pre post, h = pre ++ .call x :: post ∧ .next x ∉ post

def NoRestart (h : List (FlightEvent α)) : Prop :=
  ∀ pre ev post x, h = pre ++ ev :: post → ev = .reset x ∨ ev = .call x → ¬ InFlight pre x

section

variable {h : List (FlightEvent α)} {ev : FlightEvent α} {x : α}

theorem inFlight_concat :
    InFlight (h ++ [ev]) x ↔ ev = .call x ∨ InFlight h x ∧ ev ≠ .next x := by
  constructor
  · rintro ⟨pre, post, heq, hpost⟩
    rcases List.eq_nil_or_concat post with rfl | ⟨post, ev', rfl⟩
    · left
      exact (List.cons.inj (List.append_inj' heq rfl).2).1
    · rw [List.concat_eq_append] at hpost heq
      rw [← List.cons_append, ← List.append_assoc] at heq
      obtain ⟨hpre, hev⟩ := List.append_inj' heq rfl
      obtain rfl := (List.cons.inj hev).1
      right
      constructor
      · exact ⟨pre, post, hpre, fun hx => hpost (List.mem_append_left _ hx)⟩
      · rintro rfl
        exact hpost (List.mem_append_right _ List.mem_cons_self)
  · rintro (rfl | ⟨⟨pre, post, rfl, hpost⟩, hne⟩)
    · exact ⟨h, [], rfl, by simp⟩
    · refine ⟨pre, post ++ [ev], by simp, fun hx => ?_⟩
      rcases List.mem_append.mp hx with hx | hx
      · exact hpost hx
      · exact hne (List.mem_singleton.mp hx).symm

theorem NoRestart.concat (hn : NoRestart h)
    (hev : ∀ x, ev = .reset x ∨ ev = .call x → ¬ InFlight h x) : NoRestart (h ++ [ev]) := by
  intro pre ev' post x heq hx
  rcases List.eq_nil_or_concat post with rfl | ⟨post, l, rfl⟩
  · obtain ⟨rfl, hl⟩ := List.append_inj' heq rfl
    obtain rfl := (List.cons.inj hl).1
    exact hev x hx
  · apply hn pre ev' post x _ hx
    rw [List.concat_eq_append, ← List.cons_append, ← List.append_assoc] at heq
    exact (List.append_inj' heq rfl).1

end

structure Tracked (v : Slots α) (h : List (FlightEvent α)) : Prop where
  held : ∀ x, InFlight h x → v.Holds x
  noRestart : NoRestart h

namespace Tracked

variable {v : Slots α} {h : List (FlightEvent α)} {x y : α} {i : ℕ}

theorem nil : Tracked ([] : Slots α) [] where
  held x hx := by
    obtain ⟨pre, post, heq, -⟩ := hx
    exact absurd heq.symm (by simp)
  noRestart pre ev post x heq := absurd heq.symm (by simp)

theorem trim (ht : Tracked v h) : Tracked v.trim h where
  held x hx := (Slots.holds_trim v x).mpr (ht.held x hx)
  noRestart := ht.noRestart

theorem clean (ht : Tracked v h) (hv : ∀ x, ¬ v.Holds x) :
    Tracked ([] : Slots α) (h ++ [.clean]) where
  held x hx := by
    rcases inFlight_concat.mp hx with hx | ⟨hx, -⟩
    · cases hx
    · exact absurd (ht.held x hx) (hv x)
  noRestart := ht.noRestart.concat fun x hx => by simp at hx

theorem next (ht : Tracked v h) (hu : v.Unique) (hi : v.slot i = some x) :
    Tracked (v.setSlot i none) (h ++ [.next x]) where
  held y hy := by
    rcases inFlight_concat.mp hy with hy | ⟨hy, hne⟩
    · cases hy
    · refine (Slots.holds_setSlot hu hi none y).mpr (.inr ⟨ht.held y hy, ?_⟩)
      rintro rfl
      exact hne rfl
  noRestart := ht.noRestart.concat fun x hx => by simp at hx

theorem restart (ht : Tracked v h) (hx : ¬ v.Holds x) {w : Slots α} (hw : w.Holds x)
    (hvw : ∀ y, v.Holds y → w.Holds y) : Tracked w (h ++ [.reset x, .call x]) := by
  have hf : ¬ InFlight h x := fun hf => hx (ht.held x hf)
  have hf' : ¬ InFlight (h ++ [.reset x]) x := by
    rw [inFlight_concat]
    simp [hf]
  have heq : h ++ [.reset x, .call x] = (h ++ [.reset x]) ++ [.call x] := by simp
  rw [heq]
  refine ⟨fun y hy => ?_, (ht.noRestart.concat fun y hy => ?_).concat fun y hy => ?_⟩
  · rcases inFlight_concat.mp hy with hy | ⟨hy, -⟩
    · cases hy
      exact hw
    · rcases inFlight_concat.mp hy with hy | ⟨hy, -⟩
      · cases hy
      · exact hvw y (ht.held y hy)
  · simp only [FlightEvent.reset.injEq, reduceCtorEq, or_false] at hy
    exact hy ▸ hf
  · simp only [FlightEvent.call.injEq, reduceCtorEq, false_or] at hy
    exact hy ▸ hf'

theorem pushBack (ht : Tracked v h) (hu : (v.pushBack x).Unique) :
    Tracked (v.pushBack x) (h ++ [.reset x, .call x]) := by
  refine ht.restart ?_ ((Slots.holds_pushBack v x x).mpr (.inl rfl))
    fun y hy => (Slots.holds_pushBack v x y).mpr (.inr hy)
  rintro ⟨j, hj⟩
  have hlt := Slots.lt_length_of_slot hj
  have hjl : j = v.length := by
    apply hu j v.length x (Slots.slot_append hj _)
    rw [Slots.slot_pushBack, if_pos rfl]
  omega

theorem pushAll {l : List α} (ht : Tracked v h) (hu : (v ++ l.map some).Unique) :
    Tracked (v ++ l.map some) (h ++ l.flatMap fun x => [.reset x, .call x]) := by
  induction l using List.reverseRecOn with
  | nil => simpa using ht
  | append_singleton l x ih =>
    have heq : v ++ (l ++ [x]).map some = (v ++ l.map some).pushBack x := by simp [Slots.pushBack]
    rw [heq] at hu ⊢
    rw [List.flatMap_append, ← List.append_assoc]
    exact (ih hu.of_append).pushBack hu

theorem replace (ht : Tracked v h) (hu : v.Unique) (hi : v.slot i = some x)
    (hu' : (v.setSlot i (some y)).Unique) :
    Tracked (v.setSlot i (some y)) (h ++ [.next x, .reset y, .call y]) := by
  have hlt := Slots.lt_length_of_slot hi
  have hnext := (ht.next hu hi).restart (x := y) (w := v.setSlot i (some y)) ?_ ?_ ?_
  · simpa using hnext
  · rintro ⟨j, hj⟩
    rw [Slots.slot_setSlot v i j none hlt] at hj
    split at hj
    · cases hj
    · next hji =>
      apply hji
      apply hu' j i y
      · rw [Slots.slot_setSlot v i j _ hlt, if_neg hji, hj]
      · rw [Slots.slot_setSlot v i i _ hlt, if_pos rfl]
  · exact ⟨i, by rw [Slots.slot_setSlot v i i _ hlt, if_pos rfl]⟩
  · rintro z ⟨j, hj⟩
    rw [Slots.slot_setSlot v i j none hlt] at hj
    split at hj
    · cases hj
    · next hji => exact ⟨j, by rw [Slots.slot_setSlot v i j _ hlt, if_neg hji, hj]⟩

end Tracked

end Fugue
