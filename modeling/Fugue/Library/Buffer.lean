import Mathlib.Data.List.GetD
import Mathlib.Data.Int.Notation
import Mathlib.Tactic.Common
import Mathlib.Tactic.Ring

/-! A buffer of bytes that is written at a running offset, and numbers as little-endian bytes. -/

namespace Fugue

/-- The low `n` bytes of a number in two's complement, the least one first. -/
def littleEndian : ℕ → ℤ → List UInt8
  | 0, _ => []
  | n + 1, v => UInt8.ofNat (v % 256).toNat :: littleEndian n (v / 256)

@[simp] theorem length_littleEndian (n : ℕ) (v : ℤ) : (littleEndian n v).length = n := by
  induction n generalizing v with
  | zero => rfl
  | succ n ih => simp [littleEndian, ih]

abbrev Buffer := ℕ → UInt8

namespace Buffer

def write (buffer : Buffer) (offset : ℕ) (bytes : List UInt8) : Buffer :=
  fun i => if offset ≤ i then bytes.getD (i - offset) (buffer i) else buffer i

theorem write_of_outside (buffer : Buffer) {offset i : ℕ} {bytes : List UInt8}
    (h : i < offset ∨ offset + bytes.length ≤ i) : buffer.write offset bytes i = buffer i := by
  unfold write
  split
  · rw [List.getD_eq_default]
    omega
  · rfl

theorem write_of_inside (buffer : Buffer) (offset : ℕ) {i : ℕ} {bytes : List UInt8}
    (h : i < bytes.length) : buffer.write offset bytes (offset + i) = bytes[i] := by
  unfold write
  rw [if_pos (Nat.le_add_right offset i), Nat.add_sub_cancel_left, List.getD_eq_getElem]

@[simp] theorem write_nil (buffer : Buffer) (offset : ℕ) : buffer.write offset [] = buffer := by
  funext i
  exact write_of_outside buffer (by simp; omega)

theorem write_append (buffer : Buffer) (offset : ℕ) (xs ys : List UInt8) :
    (buffer.write offset xs).write (offset + xs.length) ys = buffer.write offset (xs ++ ys) := by
  funext i
  rcases Nat.lt_or_ge i offset with hi | hi
  · rw [write_of_outside _ (.inl (by omega)), write_of_outside _ (.inl hi),
      write_of_outside _ (.inl hi)]
  obtain ⟨j, rfl⟩ := Nat.exists_eq_add_of_le hi
  rcases Nat.lt_or_ge j xs.length with hx | hx
  · rw [write_of_outside _ (.inl (by omega)), write_of_inside _ _ hx,
      write_of_inside _ _ (by simp; omega), List.getElem_append_left hx]
  obtain ⟨l, rfl⟩ := Nat.exists_eq_add_of_le hx
  rcases Nat.lt_or_ge l ys.length with hy | hy
  · rw [← Nat.add_assoc, write_of_inside _ _ hy, Nat.add_assoc,
      write_of_inside _ _ (by simp; omega), List.getElem_append_right (by omega)]
    simp
  · rw [write_of_outside _ (.inr (by omega)), write_of_outside _ (.inr (by omega)),
      write_of_outside _ (.inr (by simp; omega))]

/-- `f` writes the bytes `bs` at its offset and returns the offset behind them. -/
def Appends (f : Buffer → ℕ → Buffer × ℕ) (bs : List UInt8) : Prop :=
  ∀ buffer offset, f buffer offset = (buffer.write offset bs, offset + bs.length)

theorem Appends.append {f g : Buffer → ℕ → Buffer × ℕ} {xs ys : List UInt8} (hf : Appends f xs)
    (hg : Appends g ys) :
    Appends (fun buffer offset => g (f buffer offset).1 (f buffer offset).2) (xs ++ ys) := by
  intro buffer offset
  beta_reduce
  rw [hf buffer offset, hg, write_append, List.length_append, Nat.add_assoc]

end Buffer

end Fugue
