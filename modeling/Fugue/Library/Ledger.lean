import Mathlib.Data.List.Forall2
import Mathlib.Logic.Function.Basic
import Mathlib.Tactic.Common

/-! What was started in slots that are used again, and how it ended: each start gets the next
number. The ledger is kept by looking at the slots before and after each step. -/

namespace Fugue

/-- What a slot holds: nothing, something that runs, or something that ended and is still there. -/
abbrev Standing (α : Type) := Option (Option α)

inductive Moves {α : Type} : Standing α → Standing α → Prop
  | stay (b : Standing α) : Moves b b
  | start : Moves none (some none)
  | finish (a : α) : Moves (some none) (some (some a))
  | leave (a : α) : Moves (some (some a)) none

structure Ledger (α : Type) where
  started : ℕ
  running : ℕ → Option ℕ
  ended : List (ℕ × α)

namespace Ledger

variable {α : Type} {l : Ledger α} {slots : List (Standing α)} {i : ℕ} {a : α}

def empty : Ledger α := ⟨0, fun _ => none, []⟩

def start (l : Ledger α) (i : ℕ) : Ledger α :=
  { l with started := l.started + 1, running := Function.update l.running i (some l.started) }

def finish (l : Ledger α) (i : ℕ) (a : α) : Ledger α :=
  { l with ended := l.ended ++ ((l.running i).map (·, a)).toList }

def leave (l : Ledger α) (i : ℕ) : Ledger α :=
  { l with running := Function.update l.running i none }

def see (l : Ledger α) (i : ℕ) : Standing α → Standing α → Ledger α
  | none, some _ => l.start i
  | some none, some (some a) => l.finish i a
  | some _, none => l.leave i
  | _, _ => l

def observeFrom : ℕ → List (Standing α) → List (Standing α) → Ledger α → Ledger α
  | i, b :: bs, c :: cs, l => observeFrom (i + 1) bs cs (l.see i b c)
  | _, _, _, l => l

def observe (l : Ledger α) (before after : List (Standing α)) : Ledger α :=
  observeFrom 0 before after l

theorem running_start (l : Ledger α) (i j : ℕ) :
    (l.start i).running j = if j = i then some l.started else l.running j :=
  Function.update_apply l.running i (some l.started) j

theorem running_leave (l : Ledger α) (i j : ℕ) :
    (l.leave i).running j = if j = i then none else l.running j :=
  Function.update_apply l.running i none j

theorem see_self (l : Ledger α) (i : ℕ) (b : Standing α) : l.see i b b = l := by
  obtain _ | _ | a := b <;> rfl

variable [DecidableEq α]

/-- What is in a slot has the number under which it was started, and what ended is in the ledger
once, with its result. -/
structure Sound (slots : List (Standing α)) (l : Ledger α) : Prop where
  running : ∀ i, (∃ n, l.running i = some n) ↔ ∃ r, slots[i]? = some (some r)
  unique : ∀ i j n, l.running i = some n → l.running j = some n → i = j
  once : (l.ended.map Prod.fst).Nodup
  result : ∀ i n r, l.running i = some n → slots[i]? = some (some r) →
    ∀ a, (n, a) ∈ l.ended ↔ r = some a
  all : ∀ n, n < l.started ↔ (∃ i, l.running i = some n) ∨ n ∈ l.ended.map Prod.fst
  total : l.started = l.ended.length + slots.count (some none)

theorem Sound.empty {slots : List (Standing α)} (h : ∀ b ∈ slots, b = none) :
    Sound slots (empty : Ledger α) := by
  refine ⟨fun i => ?_, fun i j n hn => ?_, List.nodup_nil, fun i n r hn => ?_, fun n => ?_, ?_⟩
  · constructor
    · rintro ⟨n, hn⟩
      cases hn
    · rintro ⟨r, hr⟩
      cases h _ (List.mem_of_getElem? hr)
  · cases hn
  · cases hn
  · simp [Ledger.empty]
  · have hcount : slots.count (some none) = 0 :=
      List.count_eq_zero.mpr fun hm => Option.some_ne_none _ (h _ hm)
    rw [hcount]
    rfl

namespace Sound

theorem lt (h : Sound slots l) {n : ℕ} (hr : l.running i = some n) : n < l.started :=
  (h.all n).mpr (.inl ⟨i, hr⟩)

theorem running_of_slot (h : Sound slots l) {r : Option α} (hi : slots[i]? = some (some r)) :
    ∃ n, l.running i = some n := (h.running i).mpr ⟨r, hi⟩

theorem not_running (h : Sound slots l) (hi : slots[i]? = some none) : l.running i = none := by
  by_contra hne
  obtain ⟨r, hr⟩ := (h.running i).mp (Option.ne_none_iff_exists'.mp hne)
  cases hi.symm.trans hr

theorem result_of_mem (h : Sound slots l) {n : ℕ} {r : Option α} (hr : l.running i = some n)
    (hi : slots[i]? = some (some r)) (hm : n ∈ l.ended.map Prod.fst) : ∃ a, r = some a := by
  obtain ⟨p, hp, rfl⟩ := List.mem_map.mp hm
  exact ⟨p.2, (h.result i p.1 r hr hi p.2).mp hp⟩

omit [DecidableEq α] in
theorem slot_set {b c : Standing α} (hi : slots[i]? = some b) (j : ℕ) :
    (slots.set i c)[j]? = if j = i then some c else slots[j]? := by
  have hlt := (List.getElem?_eq_some_iff.mp hi).1
  split
  · next hji => rw [hji, List.getElem?_set_self hlt]
  · next hji => rw [List.getElem?_set_ne (Ne.symm hji)]

theorem start (h : Sound slots l) (hi : slots[i]? = some none) :
    Sound (slots.set i (some none)) (l.start i) := by
  have hfresh : l.started ∉ l.ended.map Prod.fst := fun hm =>
    Nat.lt_irrefl _ ((h.all _).mpr (.inr hm))
  refine ⟨fun j => ?_, fun j k n hj hk => ?_, h.once, fun j n r hj hs a => ?_, fun n => ?_, ?_⟩
  · rw [slot_set hi, running_start]
    by_cases hji : j = i
    · simp [hji]
    · rw [if_neg hji, if_neg hji, h.running]
  · rw [running_start] at hj hk
    split at hj <;> split at hk
    · next hji hki => exact hji.trans hki.symm
    · next hji hki =>
      obtain rfl := Option.some.inj hj
      exact absurd (h.lt hk) (Nat.lt_irrefl _)
    · next hji hki =>
      obtain rfl := Option.some.inj hk
      exact absurd (h.lt hj) (Nat.lt_irrefl _)
    · exact h.unique j k n hj hk
  · rw [running_start] at hj
    rw [slot_set hi] at hs
    by_cases hji : j = i
    · rw [if_pos hji] at hj hs
      obtain rfl := Option.some.inj hj
      obtain rfl := Option.some.inj (Option.some.inj hs)
      constructor
      · exact fun hm => absurd (List.mem_map_of_mem (f := Prod.fst) hm) hfresh
      · intro ha
        cases ha
    · rw [if_neg hji] at hj hs
      exact h.result j n r hj hs a
  · change n < l.started + 1 ↔ _ ∨ n ∈ l.ended.map Prod.fst
    rw [Nat.lt_succ_iff_lt_or_eq, h.all]
    have hnone := h.not_running hi
    constructor
    · rintro ((⟨j, hj⟩ | hm) | rfl)
      · have hji : j ≠ i := fun he => by simp [he, hnone] at hj
        exact .inl ⟨j, by rw [running_start, if_neg hji, hj]⟩
      · exact .inr hm
      · exact .inl ⟨i, by rw [running_start, if_pos rfl]⟩
    · rintro (⟨j, hj⟩ | hm)
      · rw [running_start] at hj
        split at hj
        · exact .inr (Option.some.inj hj).symm
        · exact .inl (.inl ⟨j, hj⟩)
      · exact .inl (.inr hm)
  · obtain ⟨hlt, hget⟩ := List.getElem?_eq_some_iff.mp hi
    have htotal := h.total
    rw [List.count_set hlt, hget]
    simp only [Ledger.start, beq_self_eq_true, if_true, reduceCtorEq, beq_iff_eq, if_false]
    omega

theorem finish (h : Sound slots l) (hi : slots[i]? = some (some none)) (a : α) :
    Sound (slots.set i (some (some a))) (l.finish i a) := by
  obtain ⟨n, hn⟩ := h.running_of_slot hi
  have hended : (l.finish i a).ended = l.ended ++ [(n, a)] := by
    simp [Ledger.finish, hn]
  have hmap : (l.finish i a).ended.map Prod.fst = l.ended.map Prod.fst ++ [n] := by simp [hended]
  have hfresh : n ∉ l.ended.map Prod.fst := fun hm => by
    obtain ⟨b, hb⟩ := h.result_of_mem hn hi hm
    cases hb
  refine ⟨fun j => ?_, h.unique, ?_, fun j m r hj hs b => ?_, fun m => ?_, ?_⟩
  · change (∃ n, l.running j = some n) ↔ _
    rw [h.running, slot_set hi]
    by_cases hji : j = i
    · simp [hji, hi]
    · rw [if_neg hji]
  · rw [hmap, List.nodup_append]
    refine ⟨h.once, by simp, fun x hx y hy => ?_⟩
    obtain rfl := List.mem_singleton.mp hy
    rintro rfl
    exact hfresh hx
  · change l.running j = some m at hj
    rw [slot_set hi] at hs
    rw [hended, List.mem_append, List.mem_singleton]
    by_cases hji : j = i
    · subst hji
      rw [if_pos rfl] at hs
      obtain rfl := Option.some.inj (Option.some.inj hs)
      obtain rfl := Option.some.inj (hn.symm.trans hj)
      constructor
      · rintro (hm | hm)
        · exact absurd (List.mem_map_of_mem (f := Prod.fst) hm) hfresh
        · rw [(Prod.mk.inj hm).2]
      · exact fun hb => .inr (by rw [Option.some.inj hb])
    · rw [if_neg hji] at hs
      rw [← h.result j m r hj hs b]
      refine ⟨fun hm => hm.resolve_right fun hb => ?_, .inl⟩
      obtain rfl := (Prod.mk.inj hb).1
      exact hji (h.unique j i m hj hn)
  · rw [hmap, List.mem_append, List.mem_singleton]
    change m < l.started ↔ (∃ i, l.running i = some m) ∨ _
    rw [h.all]
    constructor
    · rintro (hr | hm)
      · exact .inl hr
      · exact .inr (.inl hm)
    · rintro (hr | hm | rfl)
      · exact .inl hr
      · exact .inr hm
      · exact .inl ⟨i, hn⟩
  · obtain ⟨hlt, hget⟩ := List.getElem?_eq_some_iff.mp hi
    have htotal : l.started = l.ended.length + slots.count (some none) := h.total
    have hpos : 0 < slots.count (some none) := List.count_pos_iff.mpr (List.mem_of_getElem? hi)
    rw [hended, List.length_append, List.count_set hlt, hget]
    simp only [beq_self_eq_true, if_true, beq_iff_eq, Option.some.injEq, reduceCtorEq, if_false]
    change l.started = _
    rw [htotal, List.length_singleton]
    omega

theorem leave (h : Sound slots l) (hi : slots[i]? = some (some (some a))) :
    Sound (slots.set i none) (l.leave i) := by
  obtain ⟨n, hn⟩ := h.running_of_slot hi
  have hended : n ∈ l.ended.map Prod.fst :=
    List.mem_map_of_mem (f := Prod.fst) ((h.result i n _ hn hi a).mpr rfl)
  refine ⟨fun j => ?_, fun j k m hj hk => ?_, h.once, fun j m r hj hs b => ?_, fun m => ?_, ?_⟩
  · rw [slot_set hi, running_leave]
    by_cases hji : j = i
    · simp [hji]
    · rw [if_neg hji, if_neg hji, h.running]
  · rw [running_leave] at hj hk
    split at hj
    · cases hj
    · split at hk
      · cases hk
      · exact h.unique j k m hj hk
  · rw [running_leave] at hj
    rw [slot_set hi] at hs
    split at hj
    · cases hj
    · next hji =>
      rw [if_neg hji] at hs
      exact h.result j m r hj hs b
  · change m < l.started ↔ _ ∨ m ∈ l.ended.map Prod.fst
    rw [h.all]
    constructor
    · rintro (⟨j, hj⟩ | hm)
      · by_cases hji : j = i
        · subst hji
          obtain rfl := Option.some.inj (hj.symm.trans hn)
          exact .inr hended
        · exact .inl ⟨j, by rw [running_leave, if_neg hji, hj]⟩
      · exact .inr hm
    · rintro (⟨j, hj⟩ | hm)
      · rw [running_leave] at hj
        split at hj
        · cases hj
        · exact .inl ⟨j, hj⟩
      · exact .inr hm
  · obtain ⟨hlt, hget⟩ := List.getElem?_eq_some_iff.mp hi
    have htotal : l.started = l.ended.length + slots.count (some none) := h.total
    rw [List.count_set hlt, hget]
    simp only [beq_iff_eq, Option.some.injEq, reduceCtorEq, if_false]
    change l.started = l.ended.length + _
    rw [htotal]
    omega

theorem see (h : Sound slots l) {b c : Standing α} (hi : slots[i]? = some b) (hm : Moves b c) :
    Sound (slots.set i c) (l.see i b c) := by
  cases hm with
  | stay b =>
    obtain ⟨hlt, rfl⟩ := List.getElem?_eq_some_iff.mp hi
    rw [see_self, List.set_getElem_self]
    exact h
  | start => exact h.start hi
  | finish a => exact h.finish hi a
  | leave a => exact h.leave hi

theorem observeFrom {bs cs : List (Standing α)} (done : List (Standing α))
    (h : Sound (done ++ bs) l) (hm : List.Forall₂ Moves bs cs) :
    Sound (done ++ cs) (observeFrom done.length bs cs l) := by
  induction hm generalizing done l with
  | nil => exact h
  | @cons b c bs cs hbc hm ih =>
    have hi : (done ++ b :: bs)[done.length]? = some b := by simp
    have hsee := h.see hi hbc
    have hset : (done ++ b :: bs).set done.length c = done ++ [c] ++ bs := by simp
    rw [hset] at hsee
    have hrest := ih (done ++ [c]) hsee
    rw [List.length_append, List.length_singleton, List.append_assoc] at hrest
    exact hrest

/-- The ledger follows any step in which each slot makes a move. -/
theorem observe {before after : List (Standing α)} (h : Sound before l)
    (hm : List.Forall₂ Moves before after) : Sound after (l.observe before after) :=
  observeFrom [] h hm

end Sound

omit [DecidableEq α] in
theorem observeFrom_self (k : ℕ) (bs : List (Standing α)) (l : Ledger α) :
    observeFrom k bs bs l = l := by
  induction bs generalizing k with
  | nil => rfl
  | cons b bs ih => rw [observeFrom, see_self, ih]

omit [DecidableEq α] in
theorem observeFrom_set {bs : List (Standing α)} {b : Standing α} (hi : bs[i]? = some b)
    (k : ℕ) (c : Standing α) (l : Ledger α) :
    observeFrom k bs (bs.set i c) l = l.see (k + i) b c := by
  induction bs generalizing i k with
  | nil => simp at hi
  | cons d bs ih =>
    cases i with
    | zero =>
      obtain rfl := Option.some.inj hi
      rw [List.set_cons_zero, observeFrom, observeFrom_self, Nat.add_zero]
    | succ i =>
      rw [List.set_cons_succ, observeFrom, see_self, ih hi, Nat.add_right_comm, Nat.add_assoc]

omit [DecidableEq α] in
theorem observe_set {bs : List (Standing α)} {b : Standing α} (hi : bs[i]? = some b)
    (c : Standing α) (l : Ledger α) : l.observe bs (bs.set i c) = l.see i b c := by
  rw [observe, observeFrom_set hi, Nat.zero_add]

omit [DecidableEq α] in
theorem forall₂_set {R : Standing α → Standing α → Prop} (hR : ∀ b, R b b)
    {bs : List (Standing α)} {b c : Standing α} (hi : bs[i]? = some b) (hbc : R b c) :
    List.Forall₂ R bs (bs.set i c) := by
  induction bs generalizing i with
  | nil => simp at hi
  | cons d bs ih =>
    cases i with
    | zero =>
      obtain rfl := Option.some.inj hi
      exact .cons hbc (List.forall₂_same.mpr fun b _ => hR b)
    | succ i => exact .cons (hR d) (ih hi)

omit [DecidableEq α] in
theorem forall₂_of_slots {R : Standing α → Standing α → Prop} {bs cs : List (Standing α)}
    (h : ∀ i : ℕ, bs[i]? = none ∧ cs[i]? = none ∨ ∃ b c, bs[i]? = some b ∧ cs[i]? = some c ∧ R b c) :
    List.Forall₂ R bs cs := by
  induction bs generalizing cs with
  | nil =>
    cases cs with
    | nil => exact .nil
    | cons c cs => simpa using h 0
  | cons b bs ih =>
    cases cs with
    | nil => simpa using h 0
    | cons c cs =>
      have hbc : R b c := by simpa using h 0
      refine .cons hbc (ih fun i => ?_)
      simpa using h (i + 1)

theorem observeFrom_starts {before after : List (Standing α)} (k : ℕ)
    (h : List.Forall₂ (fun b c => c = b ∨ b = none ∧ c = some none) before after) (l : Ledger α) :
    (observeFrom k before after l).ended = l.ended ∧
      ∀ a, after.count (some (some a)) = before.count (some (some a)) := by
  induction h generalizing k l with
  | nil => exact ⟨rfl, fun _ => rfl⟩
  | cons hbc h ih =>
    rw [observeFrom]
    rcases hbc with rfl | ⟨rfl, rfl⟩
    · rw [see_self]
      obtain ⟨he, hc⟩ := ih (k + 1) l
      exact ⟨he, fun a => by rw [List.count_cons, List.count_cons, hc]⟩
    · obtain ⟨he, hc⟩ := ih (k + 1) (l.start k)
      exact ⟨he, fun a => by simp [hc]⟩

end Ledger

end Fugue
