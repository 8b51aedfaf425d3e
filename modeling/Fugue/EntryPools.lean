import Fugue.Library.Run
import Fugue.LocalState
import Mathlib.Data.List.Nodup
import Mathlib.Data.List.TakeWhile
import Mathlib.Tactic.Ring

/-! The pools of the read set and the write set, with the addresses of their objects: the objects
are handed out and given back as a stack. -/

namespace Fugue

/-- `pool` is the vector of owning pointers, and `objects` what is found at each address. -/
structure EntryPool (α : Type) where
  pool : List Addr
  objects : Addr → α
  capacity : ℕ
  popIndex : ℕ

namespace EntryPool

variable {α K : Type}

section

variable [Inhabited α]

/-- `push_back` of a new object, whose address no other object has. -/
def pushNew (p : EntryPool α) (a : Addr) : Option (EntryPool α) :=
  if a ∈ p.pool then none
  else some { p with pool := p.pool ++ [a], objects := Function.update p.objects a default }

/-- The constructor, which creates its objects at the given addresses. -/
def ofCapacity (addresses : List Addr) : Option (EntryPool α) :=
  run pushNew ⟨[], fun _ => default, addresses.length, 0⟩ addresses

/-- The loop from the old capacity to the new one runs once. -/
def resize (p : EntryPool α) (a : Addr) : Option (EntryPool α) := do
  let newCapacity := 1 + p.capacity
  let p ← p.pushNew a
  return { p with capacity := newCapacity }

end

/-- What is written through a pointer to the object at `a`. -/
def fill (p : EntryPool α) (a : Addr) (o : α) : EntryPool α :=
  { p with objects := Function.update p.objects a o }

def growIfFull [Inhabited α] (p : EntryPool α) (a : Addr) : Option (EntryPool α) :=
  if p.popIndex = p.capacity then p.resize a else some p

/-- What `NewReadSetEntry` and `NewWriteSetEntry` have in common: the second fills the object that
it hands out. A new object would be created at `a`. -/
def newEntry [Inhabited α] (p : EntryPool α) (a : Addr) (o : Option α) :
    Option (Addr × EntryPool α) := do
  let p ← p.growIfFull a
  let b ← p.pool[p.popIndex]?
  let p := match o with
    | none => p
    | some o => p.fill b o
  return (b, { p with popIndex := p.popIndex + 1 })

def release (p : EntryPool α) : EntryPool α := { p with popIndex := p.popIndex - 1 }

def reset (p : EntryPool α) : EntryPool α := { p with popIndex := 0 }

def getSize (p : EntryPool α) : ℕ := p.popIndex

def findBelow [DecidableEq K] (keyOf : α → Option (SetKey K)) (p : EntryPool α) (key : SetKey K) :
    ℕ → Except String (Option Addr)
  | 0 => .ok none
  | i + 1 =>
    match p.pool[i]? with
    | none => .error "null pointer"
    | some a =>
      match keyOf (p.objects a) with
      | none => .error "assert(entry->key_->table_name != nullptr)"
      | some k => if k = key then .ok (some a) else p.findBelow keyOf key i

/-- `int i = pop_index_ - 1`. -/
def lastIndex (p : EntryPool α) : ℤ := ((p.popIndex : ℤ) - 1).bmod (2 ^ 32)

/-- The loop body is not entered when the index is negative. -/
def find [DecidableEq K] (keyOf : α → Option (SetKey K)) (p : EntryPool α) (key : SetKey K) :
    Except String (Option Addr) :=
  p.findBelow keyOf key (p.lastIndex + 1).toNat

def newReadSetEntry (p : EntryPool (KeyReadSetEntry K)) (a : Addr) :
    Option (Addr × EntryPool (KeyReadSetEntry K)) :=
  p.newEntry a none

def findInReadSet [DecidableEq K] (p : EntryPool (KeyReadSetEntry K)) (key : SetKey K) :
    Except String (Option Addr) :=
  p.find KeyReadSetEntry.key key

def newWriteSetEntry (p : EntryPool (KeyWriteSetEntry K)) (a : Addr) (key : SetKey K)
    (entry : WriteSetEntry) : Option (Addr × EntryPool (KeyWriteSetEntry K)) :=
  p.newEntry a (some ⟨some key, entry⟩)

def findInWriteSet [DecidableEq K] (p : EntryPool (KeyWriteSetEntry K)) (key : SetKey K) :
    Except String (Option Addr) :=
  p.find KeyWriteSetEntry.key key

end EntryPool

/-- A pool, and its live entries: those that were handed out and neither released nor reset since,
the newest first, each with the key that it was filled with since then. -/
structure LiveEntries (α K : Type) where
  entries : EntryPool α
  live : List (Addr × Option (SetKey K))

namespace LiveEntries

variable {α K : Type}

def handOut (keyOf : α → Option (SetKey K)) (s : LiveEntries α K) (o : Option α) :
    Option (Addr × EntryPool α) → Option (LiveEntries α K) :=
  Option.map fun (b, p) => ⟨p, (b, o.bind keyOf) :: s.live⟩

def fill (keyOf : α → Option (SetKey K)) (s : LiveEntries α K) (a : Addr) (o : α) :
    Option (LiveEntries α K) :=
  if a ∈ s.entries.pool then
    some ⟨s.entries.fill a o, s.live.map fun e => if e.1 = a then (a, keyOf o) else e⟩
  else none

def release (s : LiveEntries α K) : Option (LiveEntries α K) :=
  if s.entries.getSize = 0 then none else some ⟨s.entries.release, s.live.tail⟩

def reset (s : LiveEntries α K) : LiveEntries α K := ⟨s.entries.reset, []⟩

end LiveEntries

inductive ReadSetAction (K : Type)
  | newReadSetEntry (a : Addr)
  | fill (a : Addr) (key : SetKey K) (entry : ReadSetEntry)
  | release
  | reset

inductive WriteSetAction (K : Type)
  | newWriteSetEntry (a : Addr) (key : SetKey K) (entry : WriteSetEntry)
  | fill (a : Addr) (key : SetKey K) (entry : WriteSetEntry)
  | release
  | reset

section

variable {K : Type}

def stepReadSet (s : LiveEntries (KeyReadSetEntry K) K) :
    ReadSetAction K → Option (LiveEntries (KeyReadSetEntry K) K)
  | .newReadSetEntry a => s.handOut KeyReadSetEntry.key none (s.entries.newReadSetEntry a)
  | .fill a key entry => s.fill KeyReadSetEntry.key a ⟨some key, entry⟩
  | .release => s.release
  | .reset => some s.reset

def stepWriteSet (s : LiveEntries (KeyWriteSetEntry K) K) :
    WriteSetAction K → Option (LiveEntries (KeyWriteSetEntry K) K)
  | .newWriteSetEntry a key entry =>
    s.handOut KeyWriteSetEntry.key (some ⟨some key, entry⟩) (s.entries.newWriteSetEntry a key entry)
  | .fill a key entry => s.fill KeyWriteSetEntry.key a ⟨some key, entry⟩
  | .release => s.release
  | .reset => some s.reset

end

namespace EntryPool

variable {α K : Type} {p p' : EntryPool α} {a b : Addr}

structure Sound (p : EntryPool α) : Prop where
  capacity : p.capacity = p.pool.length
  nodup : p.pool.Nodup

section

variable [Inhabited α]

theorem pushNew_eq (h : p.pushNew a = some p') :
    a ∉ p.pool ∧ p' = { p with
      pool := p.pool ++ [a], objects := Function.update p.objects a default } := by
  unfold pushNew at h
  split at h
  · cases h
  · next ha =>
    cases h
    exact ⟨ha, rfl⟩

theorem ofCapacity_pool {addresses : List Addr} (h : ofCapacity addresses = some p) :
    p.pool = addresses ∧ p.capacity = addresses.length ∧ p.popIndex = 0 ∧ addresses.Nodup := by
  have hpush : ∀ (addresses : List Addr) (q : EntryPool α), q.pool.Nodup →
      run pushNew q addresses = some p →
      p.pool = q.pool ++ addresses ∧ p.capacity = q.capacity ∧ p.popIndex = q.popIndex ∧
        p.pool.Nodup := by
    intro addresses
    induction addresses with
    | nil =>
      intro q hq hrun
      cases hrun
      exact ⟨(List.append_nil _).symm, rfl, rfl, hq⟩
    | cons a addresses ih =>
      intro q hq hrun
      obtain ⟨q', hpush, hrest⟩ := run_cons.mp hrun
      obtain ⟨hfresh, rfl⟩ := pushNew_eq hpush
      have hnodup : (q.pool ++ [a]).Nodup :=
        hq.append (List.nodup_singleton a) (List.disjoint_singleton.mpr hfresh)
      obtain ⟨hpool, hcapacity, hindex, hall⟩ := ih _ hnodup hrest
      refine ⟨?_, hcapacity, hindex, hall⟩
      rw [hpool, List.append_assoc, List.singleton_append]
  obtain ⟨hpool, hcapacity, hindex, hnodup⟩ := hpush addresses _ List.nodup_nil h
  rw [List.nil_append] at hpool
  exact ⟨hpool, hcapacity, hindex, hpool ▸ hnodup⟩

theorem Sound.ofCapacity {addresses : List Addr} (h : ofCapacity addresses = some p) : Sound p := by
  obtain ⟨hpool, hcapacity, -, hnodup⟩ := ofCapacity_pool h
  rw [← hpool] at hcapacity hnodup
  exact ⟨hcapacity, hnodup⟩

theorem resize_eq (h : p.resize a = some p') :
    a ∉ p.pool ∧ p'.pool = p.pool ++ [a] ∧ p'.capacity = p.capacity + 1 ∧
      p'.popIndex = p.popIndex ∧ ∀ c ∈ p.pool, p'.objects c = p.objects c := by
  simp only [resize, Option.bind_eq_bind, Option.bind_eq_some_iff, Option.pure_def,
    Option.some.injEq] at h
  obtain ⟨q, hpush, rfl⟩ := h
  obtain ⟨hfresh, rfl⟩ := pushNew_eq hpush
  refine ⟨hfresh, rfl, Nat.add_comm 1 _, rfl, fun c hc => ?_⟩
  have hne : c ≠ a := fun hca => hfresh (hca ▸ hc)
  exact Function.update_of_ne hne _ _

theorem Sound.resize (hs : Sound p) (h : p.resize a = some p') : Sound p' := by
  obtain ⟨hfresh, hpool, hcapacity, -⟩ := resize_eq h
  constructor
  · rw [hcapacity, hpool, List.length_append, List.length_singleton, hs.capacity]
  · rw [hpool]
    exact hs.nodup.append (List.nodup_singleton a) (List.disjoint_singleton.mpr hfresh)

theorem resize_isSome (h : a ∉ p.pool) : ∃ p', p.resize a = some p' := by
  simp only [resize, pushNew, if_neg h]
  exact ⟨_, rfl⟩

structure Grown (p : EntryPool α) (a : Addr) (q : EntryPool α) : Prop where
  sound : Sound q
  pool : q.pool = p.pool ∨ q.pool = p.pool ++ [a]
  popIndex : q.popIndex = p.popIndex
  lt : q.popIndex < q.pool.length
  objects : ∀ c ∈ p.pool, q.objects c = p.objects c

theorem Grown.of_growIfFull (hs : Sound p) (hle : p.popIndex ≤ p.pool.length)
    (h : p.growIfFull a = some p') : Grown p a p' := by
  unfold growIfFull at h
  split at h
  · obtain ⟨-, hpool, -, hindex, hobjects⟩ := resize_eq h
    refine ⟨hs.resize h, Or.inr hpool, hindex, ?_, hobjects⟩
    rw [hpool, hindex, List.length_append, List.length_singleton]
    omega
  · next hfull =>
    cases h
    have hcapacity := hs.capacity
    exact ⟨hs, Or.inl rfl, rfl, by omega, fun _ _ => rfl⟩

theorem newEntry_eq (hs : Sound p) (hle : p.popIndex ≤ p.pool.length) {o : Option α}
    (h : p.newEntry a o = some (b, p')) :
    Sound p' ∧ (p'.pool = p.pool ∨ p'.pool = p.pool ++ [a]) ∧ p'.pool[p.popIndex]? = some b ∧
      p'.popIndex = p.popIndex + 1 ∧ (∀ c ∈ p.pool, c ≠ b → p'.objects c = p.objects c) ∧
      (o = none → ∀ c ∈ p.pool, p'.objects c = p.objects c) ∧
      ∀ v, o = some v → p'.objects b = v := by
  simp only [newEntry, Option.bind_eq_bind, Option.bind_eq_some_iff, Option.pure_def,
    Option.some.injEq, Prod.mk.injEq] at h
  obtain ⟨q, hgrow, b', hb, rfl, rfl⟩ := h
  have hq := Grown.of_growIfFull hs hle hgrow
  rw [hq.popIndex] at hb
  cases o with
  | none =>
    refine ⟨⟨hq.sound.capacity, hq.sound.nodup⟩, hq.pool, hb, ?_, fun c hc _ => hq.objects c hc,
      fun _ => hq.objects, fun v hv => by cases hv⟩
    exact congrArg (· + 1) hq.popIndex
  | some v =>
    refine ⟨⟨hq.sound.capacity, hq.sound.nodup⟩, hq.pool, hb, ?_, fun c hc hne => ?_,
      fun hnone => ?_, fun v' hv => ?_⟩
    · exact congrArg (· + 1) hq.popIndex
    · exact (Function.update_of_ne hne _ _).trans (hq.objects c hc)
    · cases hnone
    · cases hv
      exact Function.update_self _ _ _

theorem newEntry_isSome (hs : Sound p) (hle : p.popIndex ≤ p.pool.length) (ha : a ∉ p.pool)
    (o : Option α) : ∃ b p', p.newEntry a o = some (b, p') := by
  obtain ⟨q, hgrow⟩ : ∃ q, p.growIfFull a = some q := by
    unfold growIfFull
    split
    · exact resize_isSome ha
    · exact ⟨p, rfl⟩
  have hq := Grown.of_growIfFull hs hle hgrow
  obtain ⟨b, hb⟩ : ∃ b, q.pool[q.popIndex]? = some b := ⟨_, List.getElem?_eq_getElem hq.lt⟩
  simp only [newEntry, hgrow, hb, Option.bind_eq_bind, Option.bind_some, Option.pure_def]
  exact ⟨_, _, rfl⟩

end

theorem newest_of_take {pool : List Addr} {e : Addr × Option (SetKey K)}
    {es : List (Addr × Option (SetKey K))}
    (h : pool.take (e :: es).length = ((e :: es).map Prod.fst).reverse) :
    pool[es.length]? = some e.1 ∧ pool.take es.length = (es.map Prod.fst).reverse := by
  have hlen := congrArg List.length h
  rw [List.length_take, List.length_reverse, List.length_map, List.length_cons] at hlen
  have hlt : es.length < pool.length := by omega
  rw [List.length_cons, List.take_succ_eq_append_getElem hlt, List.map_cons,
    List.reverse_cons] at h
  obtain ⟨hrest, hnewest⟩ := List.append_inj' h rfl
  refine ⟨?_, hrest⟩
  rw [List.getElem?_eq_getElem hlt, (List.cons.inj hnewest).1]

section

variable [DecidableEq K] {keyOf : α → Option (SetKey K)}

/-- The search over the entries `es`, which are at the indices below their number, meets the
newest one with the key before any that has not been filled. -/
theorem findBelow_eq {es : List (Addr × Option (SetKey K))} {key : SetKey K}
    (hpool : p.pool.take es.length = (es.map Prod.fst).reverse)
    (hkeys : ∀ e ∈ es, ∀ k, e.2 = some k → keyOf (p.objects e.1) = some k)
    (hmet : ∀ e ∈ es.takeWhile fun e => e.2 ≠ some key, e.2 ≠ none) :
    p.findBelow keyOf key es.length =
      .ok ((es.find? fun e => e.2 = some key).map Prod.fst) := by
  induction es with
  | nil => rfl
  | cons e es ih =>
    obtain ⟨hget, hrest⟩ := newest_of_take hpool
    rw [List.length_cons, findBelow, hget]
    by_cases hkey : e.2 = some key
    · have hobject := hkeys e List.mem_cons_self key hkey
      simp [hobject, hkey]
    · rw [List.takeWhile_cons, if_pos (decide_eq_true hkey)] at hmet
      obtain ⟨k, hk⟩ := Option.ne_none_iff_exists'.mp (hmet e List.mem_cons_self)
      have hobject := hkeys e List.mem_cons_self k hk
      have hne : k ≠ key := fun heq => hkey (hk.trans (congrArg some heq))
      have hother := ih hrest (fun e he => hkeys e (List.mem_cons_of_mem _ he))
        fun e he => hmet e (List.mem_cons_of_mem _ he)
      have hfind : (e :: es).find? (fun e => e.2 = some key) =
          es.find? fun e => e.2 = some key := by
        rw [List.find?_cons_of_neg]
        simpa using hkey
      simp only [hobject, if_neg hne, hother, hfind]

theorem findBelow_mem {key : SetKey K} {n : ℕ} (h : p.findBelow keyOf key n = .ok (some a)) :
    a ∈ p.pool.take n := by
  induction n with
  | zero => cases h
  | succ n ih =>
    have hmono : a ∈ p.pool.take n → a ∈ p.pool.take (n + 1) := fun ha =>
      (List.take_prefix_take_left (Nat.le_succ n)).subset ha
    rw [findBelow] at h
    split at h
    · cases h
    · next c hc =>
      split at h
      · cases h
      · split at h
        · cases h
          obtain ⟨hlt, rfl⟩ := List.getElem?_eq_some_iff.mp hc
          rw [List.take_succ_eq_append_getElem hlt]
          exact List.mem_append_right _ (List.mem_singleton_self _)
        · exact hmono (ih h)

theorem lastIndex_lt (p : EntryPool α) : (p.lastIndex + 1).toNat ≤ p.popIndex := by
  unfold lastIndex
  rw [Int.bmod_eq_emod]
  split <;> omega

theorem lastIndex_eq (h : p.popIndex ≤ 2 ^ 31) : (p.lastIndex + 1).toNat = p.popIndex := by
  have hint : ((p.popIndex : ℤ) - 1).bmod (2 ^ 32) = (p.popIndex : ℤ) - 1 := by
    apply Int.bmod_eq_of_le <;> omega
  unfold lastIndex
  omega

end

end EntryPool

namespace LiveEntries

open EntryPool

variable {α K : Type} {keyOf : α → Option (SetKey K)} {s s' : LiveEntries α K} {a : Addr}

structure Tracks (keyOf : α → Option (SetKey K)) (s : LiveEntries α K) : Prop where
  sound : s.entries.Sound
  size : s.entries.popIndex = s.live.length
  live : s.entries.pool.take s.live.length = (s.live.map Prod.fst).reverse
  keys : ∀ e ∈ s.live, ∀ k, e.2 = some k → keyOf (s.entries.objects e.1) = some k

namespace Tracks

theorem le (h : Tracks keyOf s) : s.live.length ≤ s.entries.pool.length := by
  have hlen := congrArg List.length h.live
  rw [List.length_take, List.length_reverse, List.length_map] at hlen
  omega

theorem mem (h : Tracks keyOf s) {b : Addr} :
    b ∈ s.live.map Prod.fst ↔ b ∈ s.entries.pool.take s.live.length := by
  rw [h.live, List.mem_reverse]

theorem mem_pool (h : Tracks keyOf s) {e : Addr × Option (SetKey K)} (he : e ∈ s.live) :
    e.1 ∈ s.entries.pool :=
  List.mem_of_mem_take (h.mem.mp (List.mem_map_of_mem he))

theorem nodup (h : Tracks keyOf s) : (s.live.map Prod.fst).Nodup := by
  rw [← List.nodup_reverse, ← h.live]
  exact h.sound.nodup.sublist (List.take_sublist _ _)

theorem handOut [Inhabited α] (h : Tracks keyOf s) {o : Option α}
    (hs : s.handOut keyOf o (s.entries.newEntry a o) = some s') : Tracks keyOf s' := by
  obtain ⟨⟨b, p⟩, hnew, rfl⟩ := Option.map_eq_some_iff.mp hs
  obtain ⟨hsound, hpool, hb, hindex, hothers, -, hfilled⟩ :=
    newEntry_eq h.sound (h.size.trans_le h.le) hnew
  have hfront : p.pool.take s.live.length = s.entries.pool.take s.live.length := by
    rcases hpool with hpool | hpool
    · rw [hpool]
    · rw [hpool, List.take_append_of_le_length h.le]
  rw [h.size] at hb
  obtain ⟨hlt, hbeq⟩ := List.getElem?_eq_some_iff.mp hb
  have hlive : p.pool.take (s.live.length + 1) =
      (((b, o.bind keyOf) :: s.live).map Prod.fst).reverse := by
    rw [List.take_succ_eq_append_getElem hlt, hbeq, hfront, h.live, List.map_cons,
      List.reverse_cons]
  have hnodup : (((b, o.bind keyOf) :: s.live).map Prod.fst).Nodup := by
    rw [← List.nodup_reverse, ← hlive]
    exact hsound.nodup.sublist (List.take_sublist _ _)
  refine ⟨hsound, ?_, hlive, fun e he k hk => ?_⟩
  · rw [hindex, h.size, List.length_cons]
  · rcases List.mem_cons.mp he with rfl | he
    · obtain ⟨v, hv, hkey⟩ := Option.bind_eq_some_iff.mp hk
      rw [hfilled v hv, hkey]
    · have hne : e.1 ≠ b := by
        intro heq
        have hin : e.1 ∈ s.live.map Prod.fst := List.mem_map_of_mem he
        rw [heq] at hin
        exact (List.nodup_cons.mp hnodup).1 hin
      rw [hothers e.1 (h.mem_pool he) hne, h.keys e he k hk]

theorem fill (h : Tracks keyOf s) {o : α} (hs : s.fill keyOf a o = some s') :
    Tracks keyOf s' := by
  unfold LiveEntries.fill at hs
  split at hs
  · cases hs
    have hfst : (s.live.map fun e => if e.1 = a then (a, keyOf o) else e).map Prod.fst =
        s.live.map Prod.fst := by
      rw [List.map_map]
      apply List.map_congr_left
      intro e _
      by_cases he : e.1 = a <;> simp [he]
    refine ⟨⟨h.sound.capacity, h.sound.nodup⟩, ?_, ?_, fun e he k hk => ?_⟩
    · rw [List.length_map]
      exact h.size
    · rw [List.length_map, hfst]
      exact h.live
    · obtain ⟨e, hmem, rfl⟩ := List.mem_map.mp he
      by_cases hea : e.1 = a
      · rw [if_pos hea] at hk ⊢
        simpa [EntryPool.fill] using hk
      · rw [if_neg hea] at hk ⊢
        have hkey := h.keys e hmem k hk
        simpa [EntryPool.fill, Function.update_of_ne hea] using hkey
  · cases hs

theorem release (h : Tracks keyOf s) (hs : s.release = some s') : Tracks keyOf s' := by
  unfold LiveEntries.release at hs
  split at hs
  · cases hs
  · next hsize =>
    cases hs
    obtain ⟨entries, live⟩ := s
    cases live with
    | nil => exact absurd h.size hsize
    | cons e es =>
      refine ⟨⟨h.sound.capacity, h.sound.nodup⟩, ?_, (newest_of_take h.live).2,
        fun e he => h.keys e (List.mem_cons_of_mem _ he)⟩
      exact congrArg (· - 1) h.size

theorem reset (h : Tracks keyOf s) : Tracks keyOf s.reset :=
  ⟨⟨h.sound.capacity, h.sound.nodup⟩, rfl, rfl, fun _ he => by cases he⟩

theorem ofCapacity [Inhabited α] {addresses : List Addr} {p : EntryPool α}
    (h : EntryPool.ofCapacity addresses = some p) : Tracks keyOf ⟨p, []⟩ :=
  ⟨.ofCapacity h, (ofCapacity_pool h).2.2.1, rfl, fun _ he => by cases he⟩

variable [DecidableEq K]

theorem find_mem (h : Tracks keyOf s) {key : SetKey K}
    (hfind : s.entries.find keyOf key = .ok (some a)) : a ∈ s.live.map Prod.fst := by
  have hmem := findBelow_mem hfind
  have hle := lastIndex_lt s.entries
  rw [h.size] at hle
  exact h.mem.mpr ((List.take_prefix_take_left hle).subset hmem)

theorem find_eq (h : Tracks keyOf s) {key : SetKey K} (hsize : s.live.length ≤ 2 ^ 31)
    (hmet : ∀ e ∈ s.live.takeWhile fun e => e.2 ≠ some key, e.2 ≠ none) :
    s.entries.find keyOf key = .ok ((s.live.find? fun e => e.2 = some key).map Prod.fst) := by
  have hlast := lastIndex_eq (h.size.trans_le hsize)
  rw [EntryPool.find, hlast, h.size]
  exact findBelow_eq h.live h.keys hmet

end Tracks

def Filled (s : LiveEntries α K) : Prop := ∀ e ∈ s.live, e.2 ≠ none

structure IsStack [Inhabited α] (s : LiveEntries α K) : Prop where
  popIndex_le : s.entries.popIndex ≤ s.entries.capacity
  capacity : s.entries.capacity = s.entries.pool.length
  distinct : (s.live.map Prod.fst).Nodup
  owned : ∀ e ∈ s.live, e.1 ∈ s.entries.pool
  size : s.entries.getSize = s.live.length
  grows : ∀ a ∉ s.entries.pool, ∃ p, s.entries.resize a = some p ∧
    p.pool = s.entries.pool ++ [a] ∧ ∀ c ∈ s.entries.pool, p.objects c = s.entries.objects c
  handsOut : ∀ a ∉ s.entries.pool, ∀ o, ∃ b p, s.entries.newEntry a o = some (b, p) ∧
    b ∉ s.live.map Prod.fst ∧ s.entries.pool <+: p.pool ∧
    ∀ c ∈ s.entries.pool, (c ≠ b ∨ o = none) → p.objects c = s.entries.objects c

theorem Tracks.isStack [Inhabited α] (h : Tracks keyOf s) : IsStack s := by
  have hle : s.entries.popIndex ≤ s.entries.pool.length := h.size.trans_le h.le
  refine ⟨h.sound.capacity ▸ hle, h.sound.capacity, h.nodup, fun e => h.mem_pool, h.size,
    fun a ha => ?_, fun a ha o => ?_⟩
  · obtain ⟨p, hp⟩ := resize_isSome ha
    obtain ⟨-, hpool, -, -, hobjects⟩ := resize_eq hp
    exact ⟨p, hp, hpool, hobjects⟩
  · obtain ⟨b, p, hnew⟩ := newEntry_isSome h.sound hle ha o
    obtain ⟨-, hpool, -, -, hothers, hunfilled, -⟩ := newEntry_eq h.sound hle hnew
    have hnext : Tracks keyOf ⟨p, (b, o.bind keyOf) :: s.live⟩ :=
      h.handOut (congrArg (LiveEntries.handOut keyOf s o) hnew)
    refine ⟨b, p, hnew, (List.nodup_cons.mp hnext.nodup).1, ?_, fun c hc hcb => ?_⟩
    · rcases hpool with hpool | hpool
      · exact hpool ▸ List.prefix_refl _
      · exact hpool ▸ List.prefix_append _ _
    · rcases hcb with hne | hnone
      · exact hothers c hc hne
      · exact hunfilled hnone c hc

end LiveEntries

section

variable {K : Type}

open LiveEntries

def runReadSet (addresses : List Addr) (actions : List (ReadSetAction K)) :
    Option (LiveEntries (KeyReadSetEntry K) K) :=
  (EntryPool.ofCapacity addresses).bind fun p => run stepReadSet ⟨p, []⟩ actions

def runWriteSet (addresses : List Addr) (actions : List (WriteSetAction K)) :
    Option (LiveEntries (KeyWriteSetEntry K) K) :=
  (EntryPool.ofCapacity addresses).bind fun p => run stepWriteSet ⟨p, []⟩ actions

theorem stepReadSet_tracks {s s' : LiveEntries (KeyReadSetEntry K) K} {action : ReadSetAction K}
    (h : Tracks KeyReadSetEntry.key s) (hs : stepReadSet s action = some s') :
    Tracks KeyReadSetEntry.key s' := by
  cases action with
  | newReadSetEntry a => exact h.handOut hs
  | fill a key entry => exact h.fill hs
  | release => exact h.release hs
  | reset =>
    cases hs
    exact h.reset

theorem stepWriteSet_tracks {s s' : LiveEntries (KeyWriteSetEntry K) K}
    {action : WriteSetAction K} (h : Tracks KeyWriteSetEntry.key s ∧ Filled s)
    (hs : stepWriteSet s action = some s') : Tracks KeyWriteSetEntry.key s' ∧ Filled s' := by
  obtain ⟨h, hfilled⟩ := h
  cases action with
  | newWriteSetEntry a key entry =>
    refine ⟨h.handOut hs, ?_⟩
    obtain ⟨⟨b, p⟩, -, rfl⟩ := Option.map_eq_some_iff.mp hs
    exact List.forall_mem_cons.mpr ⟨nofun, hfilled⟩
  | fill a key entry =>
    refine ⟨h.fill hs, ?_⟩
    simp only [stepWriteSet, LiveEntries.fill] at hs
    split at hs
    · cases hs
      intro e he
      obtain ⟨e, hmem, rfl⟩ := List.mem_map.mp he
      by_cases hea : e.1 = a
      · rw [if_pos hea]
        nofun
      · rw [if_neg hea]
        exact hfilled e hmem
    · cases hs
  | release =>
    refine ⟨h.release hs, ?_⟩
    simp only [stepWriteSet, LiveEntries.release] at hs
    split at hs
    · cases hs
    · cases hs
      exact fun e he => hfilled e (List.mem_of_mem_tail he)
  | reset =>
    cases hs
    exact ⟨h.reset, fun _ he => by cases he⟩

variable [DecidableEq K]

/-- Both pools are stacks whatever is done with them. A search returns a live entry if any, and
this is the newest one with the key as long as none of those that it passes is still unfilled and
an `int` can hold the number of live entries; entries of the write set are filled at once. -/
theorem entryPools_isStack :
    (∀ addresses (actions : List (ReadSetAction K)) s, runReadSet addresses actions = some s →
      IsStack s ∧
      (∀ key a, s.entries.findInReadSet key = .ok (some a) → a ∈ s.live.map Prod.fst) ∧
      ∀ key, s.live.length ≤ 2 ^ 31 →
        (∀ e ∈ s.live.takeWhile fun e => e.2 ≠ some key, e.2 ≠ none) →
        s.entries.findInReadSet key =
          .ok ((s.live.find? fun e => e.2 = some key).map Prod.fst)) ∧
    ∀ addresses (actions : List (WriteSetAction K)) s, runWriteSet addresses actions = some s →
      IsStack s ∧
      (∀ key a, s.entries.findInWriteSet key = .ok (some a) → a ∈ s.live.map Prod.fst) ∧
      ∀ key, s.live.length ≤ 2 ^ 31 →
        s.entries.findInWriteSet key =
          .ok ((s.live.find? fun e => e.2 = some key).map Prod.fst) := by
  constructor
  · intro addresses actions s hs
    obtain ⟨p, hp, hrun⟩ := Option.bind_eq_some_iff.mp hs
    have h : Tracks KeyReadSetEntry.key s :=
      run_invariant (fun _ _ _ => stepReadSet_tracks) (.ofCapacity hp) hrun
    exact ⟨h.isStack, fun key a => h.find_mem, fun key => h.find_eq⟩
  · intro addresses actions s hs
    obtain ⟨p, hp, hrun⟩ := Option.bind_eq_some_iff.mp hs
    have hstart : Filled ⟨p, ([] : List (Addr × Option (SetKey K)))⟩ := fun _ he => by cases he
    obtain ⟨h, hfilled⟩ : Tracks KeyWriteSetEntry.key s ∧ Filled s :=
      run_invariant (fun _ _ _ => stepWriteSet_tracks) ⟨.ofCapacity hp, hstart⟩ hrun
    refine ⟨h.isStack, fun key a => h.find_mem, fun key hsize => h.find_eq hsize fun e he => ?_⟩
    exact hfilled e ((List.takeWhile_sublist _).subset he)

theorem entryPools_isStack_sample :
    let fillFirst : List (ReadSetAction ℕ) :=
      [.newReadSetEntry 5, .fill 5 ⟨[], 1⟩ default, .newReadSetEntry 6, .fill 6 ⟨[], 1⟩ default,
        .release, .newReadSetEntry 7, .fill 6 ⟨[], 2⟩ default]
    let writes : List (WriteSetAction ℕ) :=
      [.newWriteSetEntry 3 ⟨[], 1⟩ default, .reset, .newWriteSetEntry 4 ⟨[], 2⟩ default]
    (∃ s, runReadSet [] fillFirst = some s ∧ IsStack s ∧
      s.entries.findInReadSet ⟨[], 1⟩ = .ok (some 5)) ∧
    ∃ s, runWriteSet [9] writes = some s ∧ IsStack s ∧
      s.entries.findInWriteSet ⟨[], 1⟩ = .ok none := by
  intro fillFirst writes
  constructor
  · obtain ⟨s, hs⟩ : ∃ s, runReadSet [] fillFirst = some s := ⟨_, rfl⟩
    have hlive : s.live = [(6, some ⟨[], 2⟩), (5, some ⟨[], 1⟩)] := by
      cases hs
      rfl
    obtain ⟨hstack, -, hfind⟩ := entryPools_isStack.1 [] fillFirst s hs
    have h := hfind ⟨[], 1⟩ (by rw [hlive]; decide) (by rw [hlive]; decide)
    rw [hlive] at h
    exact ⟨s, hs, hstack, h⟩
  · obtain ⟨s, hs⟩ : ∃ s, runWriteSet [9] writes = some s := ⟨_, rfl⟩
    have hlive : s.live = [(9, some ⟨[], 2⟩)] := by
      cases hs
      rfl
    obtain ⟨hstack, -, hfind⟩ := entryPools_isStack.2 [9] writes s hs
    have h := hfind ⟨[], 1⟩ (by rw [hlive]; decide)
    rw [hlive] at h
    exact ⟨s, hs, hstack, h⟩

omit [DecidableEq K] in
theorem exists_runWriteSet (key : SetKey K) (entry : WriteSetEntry) (n : ℕ) :
    ∃ s, runWriteSet [] ((List.range n).map fun a => .newWriteSetEntry a key entry) = some s ∧
      Tracks KeyWriteSetEntry.key s ∧ s.live.length = n ∧ (∀ e ∈ s.live, e.2 = some key) ∧
      ∀ a ∈ s.entries.pool, a < n := by
  induction n with
  | zero =>
    obtain ⟨p, hp⟩ : ∃ p : EntryPool (KeyWriteSetEntry K), EntryPool.ofCapacity [] = some p :=
      ⟨_, rfl⟩
    refine ⟨⟨p, []⟩, Option.bind_eq_some_iff.mpr ⟨p, hp, rfl⟩, .ofCapacity hp, rfl, nofun, ?_⟩
    rw [(EntryPool.ofCapacity_pool hp).1]
    nofun
  | succ n ih =>
    obtain ⟨s, hs, h, hlen, hkeys, hpool⟩ := ih
    obtain ⟨p, hp, hrun⟩ := Option.bind_eq_some_iff.mp hs
    have hle : s.entries.popIndex ≤ s.entries.pool.length := h.size.trans_le h.le
    have hfresh : n ∉ s.entries.pool := fun hn => Nat.lt_irrefl n (hpool n hn)
    obtain ⟨b, q, hnew⟩ := EntryPool.newEntry_isSome h.sound hle hfresh (some ⟨some key, entry⟩)
    obtain ⟨-, hgrown, -⟩ := EntryPool.newEntry_eq h.sound hle hnew
    have hstep : stepWriteSet s (.newWriteSetEntry n key entry) =
        some ⟨q, (b, some key) :: s.live⟩ :=
      congrArg (LiveEntries.handOut KeyWriteSetEntry.key s (some ⟨some key, entry⟩)) hnew
    refine ⟨⟨q, (b, some key) :: s.live⟩, ?_, h.handOut hstep, ?_, ?_, fun a ha => ?_⟩
    · rw [List.range_succ, List.map_append, List.map_singleton]
      exact Option.bind_eq_some_iff.mpr ⟨p, hp, run_concat.mpr ⟨s, hrun, hstep⟩⟩
    · rw [List.length_cons, hlen]
    · exact List.forall_mem_cons.mpr ⟨rfl, hkeys⟩
    · rcases hgrown with hgrown | hgrown
      · exact (hpool a (hgrown ▸ ha)).trans (Nat.lt_succ_self n)
      · rw [hgrown] at ha
        rcases List.mem_append.mp ha with ha | ha
        · exact (hpool a ha).trans (Nat.lt_succ_self n)
        · exact List.mem_singleton.mp ha ▸ Nat.lt_succ_self n

/-- A search stops at its assertion when it meets a new object that has not been filled, finds a
used one with the key from before the last reset, and passes over everything when there are more
live entries than an `int` can count. -/
theorem entryPools_not_isStack :
    (∃ s, runReadSet [] [.newReadSetEntry 0] = some s ∧
      (s.live.find? fun e => e.2 = some (⟨[], 1⟩ : SetKey ℕ)) = none ∧
      s.entries.findInReadSet ⟨[], 1⟩ =
        .error "assert(entry->key_->table_name != nullptr)") ∧
    (∃ s, runReadSet [0]
        [.newReadSetEntry 1, .fill 0 ⟨[], 1⟩ default, .reset, .newReadSetEntry 1] = some s ∧
      (s.live.find? fun e => e.2 = some (⟨[], 1⟩ : SetKey ℕ)) = none ∧
      s.entries.findInReadSet ⟨[], 1⟩ = .ok (some 0)) ∧
    ∃ s, runWriteSet [] ((List.range (2 ^ 31 + 1)).map fun a =>
        .newWriteSetEntry a (⟨[], 1⟩ : SetKey ℕ) default) = some s ∧
      (s.live.find? fun e => e.2 = some ⟨[], 1⟩) ≠ none ∧
      s.entries.findInWriteSet ⟨[], 1⟩ = .ok none := by
  refine ⟨⟨_, rfl, rfl, rfl⟩, ⟨_, rfl, rfl, rfl⟩, ?_⟩
  obtain ⟨s, hs, h, hlen, hkeys, -⟩ :=
    exists_runWriteSet (⟨[], 1⟩ : SetKey ℕ) default (2 ^ 31 + 1)
  refine ⟨s, hs, ?_, ?_⟩
  · rw [ne_eq, List.find?_eq_none]
    intro hnone
    cases hlive : s.live with
    | nil => simp [hlive] at hlen
    | cons e es =>
      have he : e ∈ s.live := hlive ▸ List.mem_cons_self
      exact hnone e he (decide_eq_true (hkeys e he))
  · have hlast : s.entries.lastIndex = -2 ^ 31 := by
      rw [EntryPool.lastIndex, h.size, hlen]
      decide
    rw [EntryPool.findInWriteSet, EntryPool.find, hlast]
    rfl

end

end Fugue
