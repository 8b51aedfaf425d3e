import Fugue.Library.Reader
import Fugue.Serialization

namespace Fugue

inductive KeyType
  | string
  | int
  deriving DecidableEq

inductive RecordType
  | string
  | int
  deriving DecidableEq

/-- `std::string::assign`. A negative `int` is passed as a `size_t` beyond `max_size`, for which
it throws, and any other `int` is below `2 ^ 31`. -/
def assign (view : View) (offset size : ℕ) : Option Chars :=
  if h : size < 2 ^ 31 then
    Option.pmap Chars.mk (view.read offset size) fun _ hbytes =>
      (View.length_of_read hbytes).trans_lt h
  else none

/-- What `StringKey` and `StringRecord` have in common. -/
def deserializeString (view : View) (offset : ℕ) : Option (Chars × ℕ) := do
  let size ← (view.read offset Constant.intLength).map signedOf
  let offset := offset + Constant.intLength
  let data ← assign view offset (sizeOfInt size)
  return (data, (offset + size : ℤ).toNat)

def deserializeInt64 (view : View) (offset : ℕ) : Option (Int64 × ℕ) := do
  let v ← (view.read offset Constant.int64TLength).map signedOf
  return (Int64.ofInt v, offset + Constant.int64TLength)

namespace Key

def type : Key → KeyType
  | .stringKey _ => .string
  | .intKey _ => .int

/-- Overwrites the key: only its type matters. -/
def deserializeFromBuffer : Key → View → ℕ → Option (Key × ℕ)
  | .stringKey _, view, offset =>
    (deserializeString view offset).map fun (k, offset) => (.stringKey k, offset)
  | .intKey _, view, offset =>
    (deserializeInt64 view offset).map fun (k, offset) => (.intKey k, offset)

end Key

namespace Record

def type : Record → RecordType
  | .stringRecord _ => .string
  | .intRecord _ => .int

def deserializeFromBuffer : Record → View → ℕ → Option (Record × ℕ)
  | .stringRecord _, view, offset =>
    (deserializeString view offset).map fun (data, offset) => (.stringRecord data, offset)
  | .intRecord _, view, offset =>
    (deserializeInt64 view offset).map fun (data, offset) => (.intRecord data, offset)

end Record

inductive SerializableType
  | key (type : KeyType)
  | record (type : RecordType)
  deriving DecidableEq

inductive Serializable
  | key (k : Key)
  | record (r : Record)
  deriving DecidableEq

namespace Serializable

def type : Serializable → SerializableType
  | .key k => .key k.type
  | .record r => .record r.type

def serializeLength : Serializable → ℕ
  | .key k => k.serializeLength
  | .record r => r.serializeLength

def serializeToBuffer : Serializable → Buffer → ℕ → Buffer × ℕ
  | .key k => k.serializeToBuffer
  | .record r => r.serializeToBuffer

def deserializeFromBuffer : Serializable → View → ℕ → Option (Serializable × ℕ)
  | .key k, view, offset =>
    (k.deserializeFromBuffer view offset).map fun (k, offset) => (.key k, offset)
  | .record r, view, offset =>
    (r.deserializeFromBuffer view offset).map fun (r, offset) => (.record r, offset)

end Serializable

def serializeAll : List Serializable → Buffer → ℕ → Buffer × ℕ
  | [], buffer, offset => (buffer, offset)
  | v :: vs, buffer, offset =>
    let (buffer, offset) := v.serializeToBuffer buffer offset
    serializeAll vs buffer offset

def deserializeAll : List Serializable → View → ℕ → Option (List Serializable × ℕ)
  | [], _, offset => some ([], offset)
  | target :: targets, view, offset => do
    let (v, offset) ← target.deserializeFromBuffer view offset
    let (vs, offset) ← deserializeAll targets view offset
    return (v :: vs, offset)

section

open Buffer View

theorem deserializeString_recovers (data : Chars) :
    Recovers deserializeString (stringBytes data.data) data := by
  intro view offset hview
  obtain ⟨hsize, hdata⟩ := holds_append.mp hview
  rw [Holds, length_littleEndian] at hsize
  rw [Holds, length_littleEndian] at hdata
  have hlt := data.size_lt
  have hhalf : (256 : ℤ) ^ Constant.intLength / 2 = 2147483648 := by decide
  have hint : signedOf (littleEndian Constant.intLength data.data.length) =
      data.data.length := by
    apply signedOf_littleEndian <;> rw [hhalf] <;> omega
  have hcount : sizeOfInt data.data.length = data.data.length := by
    unfold sizeOfInt
    omega
  have hassign : assign view (offset + Constant.intLength) data.data.length = some data := by
    rw [assign, dif_pos hlt]
    simp only [hdata, Option.pmap_some]
  have hoff : ((offset + Constant.intLength : ℕ) + (data.data.length : ℤ)).toNat =
      offset + (stringBytes data.data).length := by
    rw [length_stringBytes]
    omega
  simp only [deserializeString, hsize, Option.map_some, Option.bind_eq_bind, Option.bind_some,
    hint, hcount, hassign, hoff, Option.pure_def]

theorem deserializeInt64_recovers (v : Int64) :
    Recovers deserializeInt64 (littleEndian Constant.int64TLength v.toInt) v := by
  intro view offset hview
  rw [Holds, length_littleEndian] at hview
  have hlo := v.le_toInt
  have hhi := v.toInt_lt
  have hhalf : (256 : ℤ) ^ Constant.int64TLength / 2 = 9223372036854775808 := by decide
  have hint : signedOf (littleEndian Constant.int64TLength v.toInt) = v.toInt := by
    apply signedOf_littleEndian <;> rw [hhalf] <;> omega
  simp only [deserializeInt64, hview, Option.map_some, Option.bind_eq_bind, Option.bind_some,
    hint, Int64.ofInt_toInt, length_littleEndian, Option.pure_def]

theorem Key.deserializeFromBuffer_recovers {target k : Key} (h : target.type = k.type) :
    Recovers target.deserializeFromBuffer k.bytes k := by
  intro view offset hview
  cases k with
  | stringKey k =>
    cases target with
    | stringKey _ =>
      rw [deserializeFromBuffer, deserializeString_recovers k view offset hview]
      rfl
    | intKey _ => cases h
  | intKey k =>
    cases target with
    | stringKey _ => cases h
    | intKey _ =>
      rw [deserializeFromBuffer, deserializeInt64_recovers k view offset hview]
      rfl

theorem Record.deserializeFromBuffer_recovers {target r : Record} (h : target.type = r.type) :
    Recovers target.deserializeFromBuffer r.bytes r := by
  intro view offset hview
  cases r with
  | stringRecord data =>
    cases target with
    | stringRecord _ =>
      rw [deserializeFromBuffer, deserializeString_recovers data view offset hview]
      rfl
    | intRecord _ => cases h
  | intRecord data =>
    cases target with
    | stringRecord _ => cases h
    | intRecord _ =>
      rw [deserializeFromBuffer, deserializeInt64_recovers data view offset hview]
      rfl

namespace Serializable

def bytes : Serializable → List UInt8
  | .key k => k.bytes
  | .record r => r.bytes

@[simp] theorem length_bytes (v : Serializable) : v.bytes.length = v.serializeLength := by
  cases v with
  | key k => exact k.length_bytes
  | record r => exact r.length_bytes

theorem serializeToBuffer_appends (v : Serializable) : Appends v.serializeToBuffer v.bytes := by
  cases v with
  | key k => exact k.serializeToBuffer_appends
  | record r => exact r.serializeToBuffer_appends

theorem deserializeFromBuffer_recovers {target v : Serializable} (h : target.type = v.type) :
    Recovers target.deserializeFromBuffer v.bytes v := by
  intro view offset hview
  cases v with
  | key k =>
    cases target with
    | key target =>
      have hk := Key.deserializeFromBuffer_recovers (SerializableType.key.inj h)
      rw [deserializeFromBuffer, hk view offset hview]
      rfl
    | record _ => cases h
  | record r =>
    cases target with
    | key _ => cases h
    | record target =>
      have hr := Record.deserializeFromBuffer_recovers (SerializableType.record.inj h)
      rw [deserializeFromBuffer, hr view offset hview]
      rfl

end Serializable

theorem length_flatMap_bytes (vs : List Serializable) :
    (vs.flatMap Serializable.bytes).length = (vs.map Serializable.serializeLength).sum := by
  induction vs with
  | nil => rfl
  | cons v vs ih =>
    rw [List.flatMap_cons, List.length_append, ih, Serializable.length_bytes, List.map_cons,
      List.sum_cons]

theorem serializeAll_appends (vs : List Serializable) :
    Appends (serializeAll vs) (vs.flatMap Serializable.bytes) := by
  induction vs with
  | nil =>
    intro buffer offset
    rw [List.flatMap_nil, write_nil]
    rfl
  | cons v vs ih => exact v.serializeToBuffer_appends.append ih

theorem deserializeAll_recovers {vs targets : List Serializable}
    (h : targets.map Serializable.type = vs.map Serializable.type) :
    Recovers (deserializeAll targets) (vs.flatMap Serializable.bytes) vs := by
  induction vs generalizing targets with
  | nil =>
    obtain rfl := List.map_eq_nil_iff.mp h
    intro view offset _
    rfl
  | cons v vs ih =>
    cases targets with
    | nil => cases h
    | cons target targets =>
      obtain ⟨hv, hvs⟩ := List.cons.inj h
      intro view offset hview
      obtain ⟨hhead, htail⟩ := holds_append.mp hview
      have hfirst := Serializable.deserializeFromBuffer_recovers hv view offset hhead
      have hrest := ih hvs view (offset + v.bytes.length) htail
      simp only [deserializeAll, hfirst, hrest, Option.bind_eq_bind, Option.bind_some,
        Option.pure_def, List.flatMap_cons, List.length_append, Nat.add_assoc]

/-- Values that are serialized in order are deserialized in order by objects of the same types,
between the same offsets. Nothing outside is written, and nothing outside is read: the view may
show anything else there, or nothing. -/
theorem stream_round_trip {values targets : List Serializable}
    (h : targets.map Serializable.type = values.map Serializable.type) (buffer : Buffer)
    (start : ℕ) :
    ∃ after stop, serializeAll values buffer start = (after, stop) ∧
      stop = start + (values.map Serializable.serializeLength).sum ∧
      (∀ i, i < start ∨ stop ≤ i → after i = buffer i) ∧
      ∀ view : View, (∀ i, start ≤ i → i < stop → view i = some (after i)) →
        deserializeAll targets view start = some (values, stop) := by
  have hlen := length_flatMap_bytes values
  have hwrite := serializeAll_appends values buffer start
  refine ⟨_, _, hwrite, congrArg (start + ·) hlen, fun i hi => ?_, fun view hview => ?_⟩
  · exact write_of_outside buffer hi
  · have hholds : view.Holds start (values.flatMap Serializable.bytes) := holds_of_write hview
    exact deserializeAll_recovers h view start hholds

theorem stream_round_trip_sample :
    let values : List Serializable :=
      [.key (.stringKey ⟨[], by decide⟩), .key (.intKey (-2)),
        .record (.stringRecord ⟨[1, 0, 0, 0, 255], by decide⟩), .record (.intRecord 7)]
    let targets : List Serializable :=
      [.key (.stringKey ⟨[9], by decide⟩), .key (.intKey 0),
        .record (.stringRecord ⟨[], by decide⟩), .record (.intRecord 5)]
    ∃ after stop, serializeAll values (fun _ => 170) 3 = (after, stop) ∧ stop = 32 ∧
      after 2 = 170 ∧ deserializeAll targets (window after 3 stop) 3 = some (values, stop) := by
  intro values targets
  have htypes : targets.map Serializable.type = values.map Serializable.type := by decide
  obtain ⟨after, stop, hwrite, hstop, hframe, hread⟩ :=
    stream_round_trip htypes (fun _ => 170) 3
  refine ⟨after, stop, hwrite, hstop, hframe 2 (Or.inl (by decide)), hread _ ?_⟩
  intro i hlo hhi
  exact if_pos ⟨hlo, hhi⟩

end

end Fugue
