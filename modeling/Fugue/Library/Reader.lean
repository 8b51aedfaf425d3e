import Fugue.Library.Buffer
import Mathlib.Data.List.Infix

/-! Bytes that are read back at a running offset, and codes whose ends can be told from
themselves. -/

namespace Fugue

def unsignedOf : List UInt8 → ℕ
  | [] => 0
  | b :: bs => b.toNat + 256 * unsignedOf bs

def signedOf (bs : List UInt8) : ℤ := (unsignedOf bs : ℤ).bmod (256 ^ bs.length)

theorem unsignedOf_littleEndian (n : ℕ) (v : ℤ) :
    (unsignedOf (littleEndian n v) : ℤ) = v % 256 ^ n := by
  induction n generalizing v with
  | zero => exact (Int.emod_one v).symm
  | succ n ih =>
    have hbyte : ((UInt8.ofNat (v % 256).toNat).toNat : ℤ) = v % 256 := by
      have hpos : 0 ≤ v % 256 := Int.emod_nonneg v (by decide)
      have hlt : v % 256 < 256 := Int.emod_lt_of_pos v (by decide)
      rw [UInt8.toNat_ofNat', Nat.mod_eq_of_lt (by omega), Int.toNat_of_nonneg hpos]
    have hmul : (256 : ℤ) ^ (n + 1) = 256 * 256 ^ n := by rw [Int.pow_succ, Int.mul_comm]
    rw [littleEndian, unsignedOf, Int.natCast_add, Int.natCast_mul, hbyte, ih, hmul,
      Int.emod_def v (256 * 256 ^ n), Int.emod_def (v / 256), Int.emod_def v 256,
      ← Int.ediv_ediv_of_nonneg (by decide), Int.mul_assoc]
    omega

theorem signedOf_littleEndian {n : ℕ} {v : ℤ} (hlo : -(256 ^ n / 2) ≤ v) (hhi : v < 256 ^ n / 2) :
    signedOf (littleEndian n v) = v := by
  rw [signedOf, length_littleEndian, unsignedOf_littleEndian]
  have hcast : (256 : ℤ) ^ n = ((256 ^ n : ℕ) : ℤ) := (Int.natCast_pow 256 n).symm
  rw [hcast] at hlo hhi ⊢
  rw [Int.emod_bmod]
  apply Int.bmod_eq_of_le <;> omega

/-- The bytes that may be read: a read anywhere else fails. -/
abbrev View := ℕ → Option UInt8

namespace View

def read (view : View) (offset : ℕ) : ℕ → Option (List UInt8)
  | 0 => some []
  | n + 1 => do
    let b ← view offset
    let bs ← view.read (offset + 1) n
    return b :: bs

def Holds (view : View) (offset : ℕ) (bs : List UInt8) : Prop :=
  view.read offset bs.length = some bs

def window (buffer : Buffer) (start stop : ℕ) : View :=
  fun i => if start ≤ i ∧ i < stop then some (buffer i) else none

variable {view : View} {offset n : ℕ} {b : UInt8} {bs xs ys : List UInt8}

theorem length_of_read (h : view.read offset n = some bs) : bs.length = n := by
  induction n generalizing offset bs with
  | zero =>
    cases h
    rfl
  | succ n ih =>
    simp only [read, Option.bind_eq_bind, Option.bind_eq_some_iff] at h
    obtain ⟨b, -, rest, hrest, hbs⟩ := h
    cases hbs
    rw [List.length_cons, ih hrest]

theorem holds_cons :
    view.Holds offset (b :: bs) ↔ view offset = some b ∧ view.Holds (offset + 1) bs := by
  simp only [Holds, List.length_cons, read, Option.bind_eq_bind, Option.bind_eq_some_iff]
  constructor
  · rintro ⟨b', hb, rest, hrest, heq⟩
    cases heq
    exact ⟨hb, hrest⟩
  · rintro ⟨hb, hrest⟩
    exact ⟨b, hb, bs, hrest, rfl⟩

theorem holds_append :
    view.Holds offset (xs ++ ys) ↔ view.Holds offset xs ∧ view.Holds (offset + xs.length) ys := by
  induction xs generalizing offset with
  | nil => simp [Holds, read]
  | cons x xs ih =>
    rw [List.cons_append, holds_cons, holds_cons, ih, and_assoc, List.length_cons,
      Nat.add_right_comm, Nat.add_assoc]

theorem holds_of_forall (h : ∀ i (hi : i < bs.length), view (offset + i) = some bs[i]) :
    view.Holds offset bs := by
  induction bs generalizing offset with
  | nil => rfl
  | cons b bs ih =>
    apply holds_cons.mpr
    refine ⟨h 0 (Nat.zero_lt_succ _), ih fun i hi => ?_⟩
    have hnext := h (i + 1) (Nat.succ_lt_succ hi)
    rw [List.getElem_cons_succ] at hnext
    rw [← hnext, Nat.add_assoc, Nat.add_comm 1 i]

theorem holds_of_write {buffer : Buffer}
    (h : ∀ i, offset ≤ i → i < offset + bs.length → view i = some (buffer.write offset bs i)) :
    view.Holds offset bs := by
  apply holds_of_forall
  intro i hi
  rw [h (offset + i) (Nat.le_add_right offset i) (Nat.add_lt_add_left hi offset),
    Buffer.write_of_inside buffer offset hi]

theorem exists_holds (bs : List UInt8) : ∃ view : View, view.Holds 0 bs := by
  refine ⟨fun i => bs[i]?, holds_of_forall fun i hi => ?_⟩
  rw [Nat.zero_add, List.getElem?_eq_getElem hi]

/-- Wherever the bytes `bs` can be read, `f` returns `a` and the offset behind them, whatever is
around them. -/
def Recovers {α : Type*} (f : View → ℕ → Option (α × ℕ)) (bs : List UInt8) (a : α) : Prop :=
  ∀ view offset, View.Holds view offset bs → f view offset = some (a, offset + bs.length)

theorem Recovers.eq {α : Type*} {f : View → ℕ → Option (α × ℕ)} {a a' : α}
    (h : Recovers f xs a) (h' : Recovers f ys a') (hpre : xs <+: ys) : a = a' := by
  obtain ⟨view, hview⟩ := exists_holds ys
  obtain ⟨rest, rfl⟩ := hpre
  have hfront := h view 0 (holds_append.mp hview).1
  have hwhole := h' view 0 hview
  exact (Prod.mk.inj (Option.some.inj (hfront.symm.trans hwhole))).1

end View

section PrefixFree

variable {α β : Type*} {p : α → Prop} {code : α → List β}

/-- The code of no value goes on where that of another one ends. -/
def PrefixFree (p : α → Prop) (code : α → List β) : Prop :=
  ∀ ⦃a b⦄, p a → p b → code a <+: code b → a = b

namespace PrefixFree

theorem of_recovers {code : α → List UInt8} {f : View → ℕ → Option (α × ℕ)}
    (h : ∀ a, p a → View.Recovers f (code a) a) : PrefixFree p code :=
  fun _ _ ha hb hpre => (h _ ha).eq (h _ hb) hpre

theorem append (h : PrefixFree p code) {a b : α} {xs ys : List β} (ha : p a) (hb : p b)
    (hpre : code a ++ xs <+: code b ++ ys) : a = b ∧ xs <+: ys := by
  have hcode : code a <+: code b ∨ code b <+: code a :=
    List.prefix_or_prefix_of_prefix ((List.prefix_append _ xs).trans hpre)
      (List.prefix_append _ ys)
  have hab : a = b := by
    rcases hcode with hcode | hcode
    · exact h ha hb hcode
    · exact (h hb ha hcode).symm
  subst hab
  exact ⟨rfl, (List.prefix_append_right_inj _).mp hpre⟩

theorem flatMap (h : PrefixFree p code) (hne : ∀ a, p a → code a ≠ []) {xs ys : List α}
    (hx : ∀ a ∈ xs, p a) (hy : ∀ a ∈ ys, p a) (hpre : xs.flatMap code <+: ys.flatMap code) :
    xs <+: ys := by
  induction xs generalizing ys with
  | nil => exact List.nil_prefix
  | cons x xs ih =>
    have hpx := hx x List.mem_cons_self
    cases ys with
    | nil =>
      have hnil := List.prefix_nil.mp hpre
      exact absurd (List.append_eq_nil_iff.mp hnil).1 (hne x hpx)
    | cons y ys =>
      obtain ⟨rfl, hrest⟩ := h.append hpx (hy y List.mem_cons_self) hpre
      apply List.cons_prefix_cons.mpr
      exact ⟨rfl, ih (fun a ha => hx a (List.mem_cons_of_mem _ ha))
        (fun a ha => hy a (List.mem_cons_of_mem _ ha)) hrest⟩

end PrefixFree

end PrefixFree

end Fugue
