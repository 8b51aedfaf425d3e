import Fugue.Library.Buffer
import Fugue.LocalState

/-! The bytes of keys, records and write-set entries, and the lengths that are announced for them.
Numbers are stored in the order of a little-endian machine. -/

namespace Fugue

namespace Constant

def int64TLength : ℕ := 8
def intLength : ℕ := 4
def boolLength : ℕ := 1

end Constant

/-- A `std::string` whose size an `int` can hold. -/
structure Chars where
  data : List UInt8
  size_lt : data.length < 2 ^ 31
  deriving DecidableEq

inductive Key
  | stringKey (k : Chars)
  | intKey (k : Int64)
  deriving DecidableEq

inductive Record
  | stringRecord (data : Chars)
  | intRecord (data : Int64)
  deriving DecidableEq

/-- `int size = n`. -/
def intOfSize (n : ℕ) : ℤ := (n : ℤ).bmod (2 ^ 32)

/-- An `int` that is passed as a `size_t`. -/
def sizeOfInt (n : ℤ) : ℕ := (n % 2 ^ 64).toNat

/-- What the functions for strings, `StringKey`, `StringRecord` and the table name of a `SetKey`,
have in common. -/
def serializeString (data : List UInt8) (buffer : Buffer) (offset : ℕ) : Buffer × ℕ :=
  let size := intOfSize data.length
  let buffer := buffer.write offset (littleEndian Constant.intLength size)
  let offset := offset + Constant.intLength
  (buffer.write offset (data.take (sizeOfInt size)), (offset + size : ℤ).toNat)

def serializeInt64 (v : ℤ) (buffer : Buffer) (offset : ℕ) : Buffer × ℕ :=
  (buffer.write offset (littleEndian Constant.int64TLength v), offset + Constant.int64TLength)

def serializeBool (b : Bool) (buffer : Buffer) (offset : ℕ) : Buffer × ℕ :=
  (buffer.write offset (littleEndian Constant.boolLength b.toInt), offset + Constant.boolLength)

namespace Key

def serializeLength : Key → ℕ
  | .stringKey k => k.data.length + Constant.intLength
  | .intKey _ => Constant.int64TLength

def serializeToBuffer : Key → Buffer → ℕ → Buffer × ℕ
  | .stringKey k => serializeString k.data
  | .intKey k => serializeInt64 k.toInt

end Key

namespace Record

def serializeLength : Record → ℕ
  | .stringRecord data => data.data.length + Constant.intLength
  | .intRecord _ => Constant.int64TLength

def serializeToBuffer : Record → Buffer → ℕ → Buffer × ℕ
  | .stringRecord data => serializeString data.data
  | .intRecord data => serializeInt64 data.toInt

end Record

namespace SetKey

def serializeLength (key : SetKey Key) : ℕ :=
  key.tableName.length + Constant.intLength + key.key.serializeLength

def serializeToBuffer (key : SetKey Key) (buffer : Buffer) (offset : ℕ) : Buffer × ℕ :=
  let (buffer, offset) := serializeString key.tableName buffer offset
  key.key.serializeToBuffer buffer offset

end SetKey

namespace WriteSetEntry

/-- The record is read through its address, which is null for a deleted version. -/
def serializeLength (memory : Addr → Record) (entry : WriteSetEntry) : Option ℕ :=
  entry.record.map fun a =>
    Constant.intLength + Constant.boolLength + (memory a).serializeLength

def serializeToBuffer (memory : Addr → Record) (entry : WriteSetEntry) (buffer : Buffer)
    (offset : ℕ) : Option (Buffer × ℕ) :=
  let (buffer, offset) := serializeInt64 entry.version buffer offset
  let (buffer, offset) := serializeBool entry.isDeleted buffer offset
  entry.record.map fun a => (memory a).serializeToBuffer buffer offset

end WriteSetEntry

namespace KeyWriteSetEntry

def serializeLength (memory : Addr → Record) (o : KeyWriteSetEntry Key) : Option ℕ := do
  let key ← o.key
  let length ← o.entry.serializeLength memory
  return key.serializeLength + length

def serializeToBuffer (memory : Addr → Record) (o : KeyWriteSetEntry Key) (buffer : Buffer)
    (offset : ℕ) : Option (Buffer × ℕ) := do
  let key ← o.key
  let (buffer, offset) := key.serializeToBuffer buffer offset
  o.entry.serializeToBuffer memory buffer offset

end KeyWriteSetEntry

def serializeLengths (memory : Addr → Record) : List (KeyWriteSetEntry Key) → Option ℕ
  | [] => some 0
  | o :: os => do
    let length ← o.serializeLength memory
    let rest ← serializeLengths memory os
    return length + rest

def serializeEntries (memory : Addr → Record) :
    List (KeyWriteSetEntry Key) → Buffer → ℕ → Option (Buffer × ℕ)
  | [], buffer, offset => some (buffer, offset)
  | o :: os, buffer, offset => do
    let (buffer, offset) ← o.serializeToBuffer memory buffer offset
    serializeEntries memory os buffer offset

section

open Buffer

/-- The bytes of a string: its size, then its characters. -/
def stringBytes (data : List UInt8) : List UInt8 :=
  littleEndian Constant.intLength data.length ++ data

theorem serializeString_appends {data : List UInt8} (h : data.length < 2 ^ 31) :
    Appends (serializeString data) (stringBytes data) := by
  have hsize : intOfSize data.length = data.length := by
    unfold intOfSize
    rw [Int.bmod_eq_of_le] <;> omega
  have hcount : sizeOfInt data.length = data.length := by
    unfold sizeOfInt
    omega
  intro buffer offset
  have hoff : ((offset + Constant.intLength : ℕ) + (data.length : ℤ)).toNat =
      offset + (Constant.intLength + data.length) := by
    omega
  simp only [serializeString, stringBytes, hsize, hcount, hoff, List.take_length]
  rw [← write_append, length_littleEndian, List.length_append, length_littleEndian]

theorem serializeInt64_appends (v : ℤ) :
    Appends (serializeInt64 v) (littleEndian Constant.int64TLength v) := by
  intro buffer offset
  rw [serializeInt64, length_littleEndian]

theorem serializeBool_appends (b : Bool) :
    Appends (serializeBool b) (littleEndian Constant.boolLength b.toInt) := by
  intro buffer offset
  rw [serializeBool, length_littleEndian]

def Key.bytes : Key → List UInt8
  | .stringKey k => stringBytes k.data
  | .intKey k => littleEndian Constant.int64TLength k.toInt

def Record.bytes : Record → List UInt8
  | .stringRecord data => stringBytes data.data
  | .intRecord data => littleEndian Constant.int64TLength data.toInt

def SetKey.bytes (key : SetKey Key) : List UInt8 := stringBytes key.tableName ++ key.key.bytes

@[simp] theorem length_stringBytes (data : List UInt8) :
    (stringBytes data).length = data.length + Constant.intLength := by
  rw [stringBytes, List.length_append, length_littleEndian, Nat.add_comm]

@[simp] theorem Key.length_bytes (k : Key) : k.bytes.length = k.serializeLength := by
  cases k with
  | stringKey k => exact length_stringBytes k.data
  | intKey k => exact length_littleEndian _ _

@[simp] theorem Record.length_bytes (r : Record) : r.bytes.length = r.serializeLength := by
  cases r with
  | stringRecord data => exact length_stringBytes data.data
  | intRecord data => exact length_littleEndian _ _

@[simp] theorem SetKey.length_bytes (key : SetKey Key) :
    key.bytes.length = key.serializeLength := by
  rw [bytes, List.length_append, length_stringBytes, Key.length_bytes, serializeLength]

theorem Key.serializeToBuffer_appends (k : Key) : Appends k.serializeToBuffer k.bytes := by
  cases k with
  | stringKey k => exact serializeString_appends k.size_lt
  | intKey k => exact serializeInt64_appends _

theorem Record.serializeToBuffer_appends (r : Record) : Appends r.serializeToBuffer r.bytes := by
  cases r with
  | stringRecord data => exact serializeString_appends data.size_lt
  | intRecord data => exact serializeInt64_appends _

theorem SetKey.serializeToBuffer_appends {key : SetKey Key}
    (h : key.tableName.length < 2 ^ 31) : Appends key.serializeToBuffer key.bytes := by
  have hname := serializeString_appends h
  have hkey := key.key.serializeToBuffer_appends
  intro buffer offset
  simp only [serializeToBuffer, bytes, hname buffer offset, hkey _ _, write_append,
    List.length_append, Nat.add_assoc]

def Exceeds (extra : ℕ) (memory : Addr → Record) (os : List (KeyWriteSetEntry Key)) : Prop :=
  ∃ n bs, serializeLengths memory os = some n ∧ bs.length = n + extra ∧
    ∀ buffer offset, serializeEntries memory os buffer offset =
      some (buffer.write offset bs, offset + bs.length)

def KeyWriteSetEntry.Named (o : KeyWriteSetEntry Key) : Prop :=
  ∃ key, o.key = some key ∧ key.tableName.length < 2 ^ 31

variable {memory : Addr → Record} {o : KeyWriteSetEntry Key} {os : List (KeyWriteSetEntry Key)}

def KeyWriteSetEntry.bytes (o : KeyWriteSetEntry Key) (key : SetKey Key) (r : Record) :
    List UInt8 :=
  key.bytes ++ (littleEndian Constant.int64TLength o.entry.version ++
    (littleEndian Constant.boolLength o.entry.isDeleted.toInt ++ r.bytes))

theorem KeyWriteSetEntry.serializeToBuffer_eq {key : SetKey Key} (hkey : o.key = some key)
    (hname : key.tableName.length < 2 ^ 31) {a : Addr} (hr : o.entry.record = some a)
    (buffer : Buffer) (offset : ℕ) :
    o.serializeToBuffer memory buffer offset =
      some (buffer.write offset (o.bytes key (memory a)),
        offset + (o.bytes key (memory a)).length) := by
  have hkapp := SetKey.serializeToBuffer_appends hname
  have hrapp := (memory a).serializeToBuffer_appends
  simp only [serializeToBuffer, WriteSetEntry.serializeToBuffer, hkey, hr, Option.map_some,
    Option.bind_eq_bind, Option.bind_some, hkapp _ _, serializeInt64_appends _ _ _,
    serializeBool_appends _ _ _, hrapp _ _, Nat.add_assoc, ← List.length_append, write_append,
    List.append_assoc, bytes]

/-- The version is announced as an `int` and written as an `int64_t`. -/
theorem KeyWriteSetEntry.serialize (hk : o.Named) {a : Addr} (hr : o.entry.record = some a) :
    ∃ n bs, o.serializeLength memory = some n ∧ bs.length = n + 4 ∧
      ∀ buffer offset, o.serializeToBuffer memory buffer offset =
        some (buffer.write offset bs, offset + bs.length) := by
  obtain ⟨key, hkey, hname⟩ := hk
  refine ⟨key.serializeLength + (Constant.intLength + Constant.boolLength +
    (memory a).serializeLength), o.bytes key (memory a), ?_, ?_,
    serializeToBuffer_eq hkey hname hr⟩
  · simp [serializeLength, WriteSetEntry.serializeLength, hkey, hr]
  · simp only [bytes, List.length_append, length_littleEndian, SetKey.length_bytes,
      Record.length_bytes, Constant.int64TLength, Constant.intLength, Constant.boolLength]
    omega

theorem Exceeds.nil : Exceeds 0 memory [] := by
  refine ⟨0, [], rfl, rfl, fun buffer offset => ?_⟩
  rw [Buffer.write_nil]
  rfl

theorem Exceeds.cons {extra : ℕ} (h : Exceeds extra memory os) (hk : o.Named) {a : Addr}
    (hr : o.entry.record = some a) : Exceeds (extra + 4) memory (o :: os) := by
  obtain ⟨n, bs, hn, hlen, hwrite⟩ := h
  obtain ⟨n', bs', hn', hlen', hwrite'⟩ :=
    @KeyWriteSetEntry.serialize memory o hk a hr
  refine ⟨n' + n, bs' ++ bs, ?_, ?_, fun buffer offset => ?_⟩
  · simp [serializeLengths, hn, hn']
  · rw [List.length_append, hlen, hlen']
    omega
  · simp only [serializeEntries, hwrite', Option.bind_eq_bind, Option.bind_some, hwrite,
      Buffer.write_append, List.length_append, Nat.add_assoc]

theorem exceeds_of_records (hk : ∀ o ∈ os, o.Named) (hr : ∀ o ∈ os, o.entry.record ≠ none) :
    Exceeds (4 * os.length) memory os := by
  induction os with
  | nil => exact .nil
  | cons o os ih =>
    obtain ⟨a, ha⟩ := Option.ne_none_iff_exists'.mp (hr o List.mem_cons_self)
    have hrest := ih (fun o ho => hk o (List.mem_cons_of_mem _ ho))
      (fun o ho => hr o (List.mem_cons_of_mem _ ho))
    exact hrest.cons (hk o List.mem_cons_self) ha

theorem Exceeds.records {extra : ℕ} (h : Exceeds extra memory os) :
    ∀ o ∈ os, o.entry.record ≠ none := by
  obtain ⟨n, -, hn, -⟩ := h
  induction os generalizing n with
  | nil => simp
  | cons o os ih =>
    simp only [serializeLengths, Option.bind_eq_bind, Option.bind_eq_some_iff,
      KeyWriteSetEntry.serializeLength, WriteSetEntry.serializeLength, Option.map_eq_some_iff] at hn
    obtain ⟨-, ⟨-, -, -, ⟨a, ha, -⟩, -⟩, rest, hrest, -⟩ := hn
    intro o' ho'
    rcases List.mem_cons.mp ho' with rfl | ho'
    · simp [ha]
    · exact ih rest hrest o' ho'

theorem Exceeds.unique {extra extra' : ℕ} (h : Exceeds extra memory os)
    (h' : Exceeds extra' memory os) : extra = extra' := by
  obtain ⟨n, bs, hn, hlen, hwrite⟩ := h
  obtain ⟨n', bs', hn', hlen', hwrite'⟩ := h'
  have hsame := Option.some.inj ((hwrite (fun _ => 0) 0).symm.trans (hwrite' (fun _ => 0) 0))
  have hoff := (Prod.mk.inj hsame).2
  obtain rfl := Option.some.inj (hn.symm.trans hn')
  omega

end

end Fugue
