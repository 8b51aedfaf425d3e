import Fugue.Deserialization

namespace Fugue

structure LoggedWrite where
  key : SetKey Key
  version : ℤ
  isDeleted : Bool
  record : Record
  deriving DecidableEq

structure Tables where
  keyType : TableName → KeyType
  recordType : TableName → RecordType

variable {tables : Tables} {memory : Addr → Record}

namespace KeyWriteSetEntry

def logged (memory : Addr → Record) (o : KeyWriteSetEntry Key) : Option LoggedWrite := do
  let key ← o.key
  let a ← o.entry.record
  return ⟨key, o.entry.version, o.entry.isDeleted, memory a⟩

end KeyWriteSetEntry

/-- The values have the types that the tables prescribe, and the sizes that the code can hold. -/
structure LoggedWrite.Over (tables : Tables) (w : LoggedWrite) : Prop where
  tableName : w.key.tableName.length < 2 ^ 31
  key : w.key.key.type = tables.keyType w.key.tableName
  record : w.record.type = tables.recordType w.key.tableName
  version : -2 ^ 63 ≤ w.version ∧ w.version < 2 ^ 63

def KeyWriteSetEntry.Over (tables : Tables) (memory : Addr → Record) (o : KeyWriteSetEntry Key) :
    Prop :=
  ∃ w, o.logged memory = some w ∧ w.Over tables

def serializedBytes (memory : Addr → Record) (os : List (KeyWriteSetEntry Key)) :
    Option (List UInt8) :=
  (serializeEntries memory os (fun _ => 0) 0).map fun (buffer, offset) =>
    (List.range offset).map buffer

section

open Buffer View

def readInt (length : ℕ) (view : View) (offset : ℕ) : Option (ℤ × ℕ) :=
  (view.read offset length).map fun bytes => (signedOf bytes, offset + length)

theorem readInt_recovers {length : ℕ} {v : ℤ} (hlo : -(256 ^ length / 2) ≤ v)
    (hhi : v < 256 ^ length / 2) :
    Recovers (readInt length) (littleEndian length v) v := by
  intro view offset hview
  rw [Holds, length_littleEndian] at hview
  rw [readInt, hview, Option.map_some, signedOf_littleEndian hlo hhi, length_littleEndian]

theorem stringBytes_prefixFree :
    PrefixFree (fun data : List UInt8 => data.length < 2 ^ 31) stringBytes := by
  intro data data' h h' hpre
  have hsame := (deserializeString_recovers ⟨data, h⟩).eq (deserializeString_recovers ⟨data', h'⟩)
    hpre
  exact congrArg Chars.data hsame

theorem version_prefixFree :
    PrefixFree (fun v : ℤ => -2 ^ 63 ≤ v ∧ v < 2 ^ 63) (littleEndian Constant.int64TLength) := by
  apply PrefixFree.of_recovers
  rintro v ⟨hlo, hhi⟩
  have hhalf : (256 : ℤ) ^ Constant.int64TLength / 2 = 9223372036854775808 := by decide
  apply readInt_recovers <;> rw [hhalf] <;> omega

theorem isDeleted_prefixFree :
    PrefixFree (fun _ : Bool => True) fun b => littleEndian Constant.boolLength b.toInt := by
  intro b b' _ _ hpre
  have hrecovers : ∀ b : Bool, Recovers (readInt Constant.boolLength)
      (littleEndian Constant.boolLength b.toInt) b.toInt := by
    intro b
    apply readInt_recovers <;> cases b <;> decide
  have hint := (hrecovers b).eq (hrecovers b') hpre
  cases b <;> cases b' <;> simp_all

theorem Key.bytes_prefixFree (t : KeyType) : PrefixFree (fun k => Key.type k = t) Key.bytes := by
  intro k k' hk hk' hpre
  have hrecovers := Key.deserializeFromBuffer_recovers (hk.trans hk'.symm)
  exact (Key.deserializeFromBuffer_recovers (Eq.refl k.type)).eq hrecovers hpre

theorem Record.bytes_prefixFree (t : RecordType) :
    PrefixFree (fun r => Record.type r = t) Record.bytes := by
  intro r r' hr hr' hpre
  have hrecovers := Record.deserializeFromBuffer_recovers (hr.trans hr'.symm)
  exact (Record.deserializeFromBuffer_recovers (Eq.refl r.type)).eq hrecovers hpre

namespace LoggedWrite

def bytes (w : LoggedWrite) : List UInt8 :=
  w.key.bytes ++ (littleEndian Constant.int64TLength w.version ++
    (littleEndian Constant.boolLength w.isDeleted.toInt ++ w.record.bytes))

theorem bytes_ne_nil (w : LoggedWrite) : w.bytes ≠ [] := by
  intro h
  have hlen := congrArg List.length h
  simp [bytes, Constant.int64TLength] at hlen

/-- The name of the table comes first and settles how the rest is read. -/
theorem bytes_prefixFree (tables : Tables) : PrefixFree (Over tables) bytes := by
  intro w w' h h' hpre
  have hfields : ∀ w : LoggedWrite, w.bytes =
      stringBytes w.key.tableName ++ (w.key.key.bytes ++
        (littleEndian Constant.int64TLength w.version ++
          (littleEndian Constant.boolLength w.isDeleted.toInt ++ (w.record.bytes ++ [])))) := by
    intro w
    simp only [bytes, SetKey.bytes, List.append_assoc, List.append_nil]
  rw [hfields, hfields] at hpre
  obtain ⟨hname, hpre⟩ := stringBytes_prefixFree.append h.tableName h'.tableName hpre
  have hkeyType : w'.key.key.type = tables.keyType w.key.tableName := by
    rw [hname, h'.key]
  have hrecordType : w'.record.type = tables.recordType w.key.tableName := by
    rw [hname, h'.record]
  obtain ⟨hkey, hpre⟩ := (Key.bytes_prefixFree _).append h.key hkeyType hpre
  obtain ⟨hversion, hpre⟩ := version_prefixFree.append h.version h'.version hpre
  obtain ⟨hdeleted, hpre⟩ := isDeleted_prefixFree.append trivial trivial hpre
  obtain ⟨hrecord, -⟩ := (Record.bytes_prefixFree _).append h.record hrecordType hpre
  obtain ⟨⟨name, key⟩, version, isDeleted, record⟩ := w
  obtain ⟨⟨name', key'⟩, version', isDeleted', record'⟩ := w'
  simp_all

end LoggedWrite

variable {o : KeyWriteSetEntry Key} {os : List (KeyWriteSetEntry Key)} {w : LoggedWrite}
  {ws : List LoggedWrite}

theorem KeyWriteSetEntry.serializeToBuffer_logged (h : o.logged memory = some w)
    (hname : w.key.tableName.length < 2 ^ 31) (buffer : Buffer) (offset : ℕ) :
    o.serializeToBuffer memory buffer offset =
      some (buffer.write offset w.bytes, offset + w.bytes.length) := by
  simp only [logged, Option.bind_eq_bind, Option.bind_eq_some_iff, Option.pure_def,
    Option.some.injEq] at h
  obtain ⟨key, hkey, a, hrecord, rfl⟩ := h
  exact serializeToBuffer_eq hkey hname hrecord buffer offset

def Logs (memory : Addr → Record) (os : List (KeyWriteSetEntry Key)) (ws : List LoggedWrite) :
    Prop :=
  os.map (KeyWriteSetEntry.logged memory) = ws.map some

theorem exists_logs (h : ∀ o ∈ os, o.Over tables memory) :
    ∃ ws, Logs memory os ws ∧ ∀ w ∈ ws, w.Over tables := by
  induction os with
  | nil => exact ⟨[], rfl, by simp⟩
  | cons o os ih =>
    obtain ⟨w, hw, hover⟩ := h o List.mem_cons_self
    obtain ⟨ws, hws, hovers⟩ := ih fun o ho => h o (List.mem_cons_of_mem _ ho)
    refine ⟨w :: ws, ?_, List.forall_mem_cons.mpr ⟨hover, hovers⟩⟩
    rw [Logs, List.map_cons, List.map_cons, hw, hws]

theorem serializeEntries_logged (hlogs : Logs memory os ws) (h : ∀ w ∈ ws, w.Over tables)
    (buffer : Buffer) (offset : ℕ) :
    serializeEntries memory os buffer offset =
      some (buffer.write offset (ws.flatMap LoggedWrite.bytes),
        offset + (ws.flatMap LoggedWrite.bytes).length) := by
  induction os generalizing ws buffer offset with
  | nil =>
    obtain rfl := List.map_eq_nil_iff.mp (Eq.symm hlogs)
    rw [List.flatMap_nil, write_nil]
    rfl
  | cons o os ih =>
    cases ws with
    | nil => cases hlogs
    | cons w ws =>
      obtain ⟨hw, hws⟩ := List.cons.inj hlogs
      have hname := (h w List.mem_cons_self).tableName
      have hfirst := KeyWriteSetEntry.serializeToBuffer_logged hw hname buffer offset
      have hrest := ih hws (fun w hw => h w (List.mem_cons_of_mem _ hw))
        (buffer.write offset w.bytes) (offset + w.bytes.length)
      rw [serializeEntries, hfirst]
      simp only [Option.bind_eq_bind, Option.bind_some, hrest, write_append, List.flatMap_cons,
        List.length_append, Nat.add_assoc]

theorem serializedBytes_logged (hlogs : Logs memory os ws) (h : ∀ w ∈ ws, w.Over tables) :
    serializedBytes memory os = some (ws.flatMap LoggedWrite.bytes) := by
  rw [serializedBytes, serializeEntries_logged hlogs h, Option.map_some]
  congr 1
  apply List.ext_getElem
  · simp
  · intro i hi hi'
    have hread := write_of_inside (fun _ => 0) 0 hi'
    rw [Nat.zero_add] at hread
    rw [List.getElem_map, List.getElem_range, hread]

/-- Two write sets over the same tables, whose records may be at different addresses, have the
same bytes only if they have the same entries, and one has the first bytes of the other only if
it has its first entries. -/
theorem serializedBytes_determine {memory' : Addr → Record} {os' : List (KeyWriteSetEntry Key)}
    (h : ∀ o ∈ os, o.Over tables memory) (h' : ∀ o ∈ os', o.Over tables memory') :
    ∃ bytes bytes', serializedBytes memory os = some bytes ∧
      serializedBytes memory' os' = some bytes' ∧
      (bytes = bytes' → os.length = os'.length ∧
        os.map (KeyWriteSetEntry.logged memory) = os'.map (KeyWriteSetEntry.logged memory')) ∧
      (bytes <+: bytes' →
        os.map (KeyWriteSetEntry.logged memory) <+:
          os'.map (KeyWriteSetEntry.logged memory')) := by
  obtain ⟨ws, hws, hover⟩ := exists_logs h
  obtain ⟨ws', hws', hover'⟩ := exists_logs h'
  have hstream : ∀ {xs ys : List LoggedWrite}, (∀ w ∈ xs, w.Over tables) →
      (∀ w ∈ ys, w.Over tables) →
      xs.flatMap LoggedWrite.bytes <+: ys.flatMap LoggedWrite.bytes → xs <+: ys :=
    (LoggedWrite.bytes_prefixFree tables).flatMap fun w _ => w.bytes_ne_nil
  refine ⟨_, _, serializedBytes_logged hws hover, serializedBytes_logged hws' hover',
    fun heq => ?_, fun hpre => ?_⟩
  · have hle := hstream hover hover' (heq ▸ List.prefix_refl _)
    have hge := hstream hover' hover (heq ▸ List.prefix_refl _)
    have hsame : os.map (KeyWriteSetEntry.logged memory) =
        os'.map (KeyWriteSetEntry.logged memory') := by
      rw [hws, hws', hle.eq_of_length_le hge.length_le]
    have hlen := congrArg List.length hsame
    rw [List.length_map, List.length_map] at hlen
    exact ⟨hlen, hsame⟩
  · rw [hws, hws']
    exact (hstream hover hover' hpre).map some

theorem serializedBytes_determine_sample :
    let record : Record := .stringRecord ⟨[7], by decide⟩
    let first : Addr → KeyWriteSetEntry Key := fun a =>
      ⟨some ⟨[1], .intKey 5⟩, ⟨1, false, some a, none, false⟩⟩
    let second : KeyWriteSetEntry Key :=
      ⟨some ⟨[], .stringKey ⟨[1], by decide⟩⟩, ⟨2, true, some 0, none, false⟩⟩
    ∃ bytes bytes', serializedBytes (fun _ => record) [first 3] = some bytes ∧
      serializedBytes (fun _ => record) [first 4, second] = some bytes' ∧ bytes <+: bytes' ∧
      [first 3].map (KeyWriteSetEntry.logged fun _ => record) <+:
        [first 4, second].map (KeyWriteSetEntry.logged fun _ => record) := by
  intro record first second
  let tables : Tables := ⟨fun name => if name = [1] then .int else .string, fun _ => .string⟩
  have hfirst : ∀ a, (first a).Over tables fun _ => record := fun a =>
    ⟨⟨⟨[1], .intKey 5⟩, 1, false, record⟩, rfl, by decide, rfl, rfl, by decide⟩
  have hsecond : second.Over tables fun _ => record :=
    ⟨⟨⟨[], .stringKey ⟨[1], by decide⟩⟩, 2, true, record⟩, rfl, by decide, rfl, rfl, by decide⟩
  have hshorter : ∀ o ∈ [first 3], o.Over tables fun _ => record :=
    List.forall_mem_singleton.mpr (hfirst 3)
  have hlonger : ∀ o ∈ [first 4, second], o.Over tables fun _ => record :=
    List.forall_mem_cons.mpr ⟨hfirst 4, List.forall_mem_singleton.mpr hsecond⟩
  obtain ⟨bytes, bytes', hbytes, hbytes', -, hpre⟩ := serializedBytes_determine hshorter hlonger
  have hfront : bytes <+: bytes' := by
    have hshort : serializedBytes (fun _ => record) [first 3] =
        some [1, 0, 0, 0, 1, 5, 0, 0, 0, 0, 0, 0, 0, 1, 0, 0, 0, 0, 0, 0, 0, 0, 1, 0, 0, 0, 7] := by
      decide
    have hlong : serializedBytes (fun _ => record) [first 4, second] =
        some [1, 0, 0, 0, 1, 5, 0, 0, 0, 0, 0, 0, 0, 1, 0, 0, 0, 0, 0, 0, 0, 0, 1, 0, 0, 0, 7,
          0, 0, 0, 0, 1, 0, 0, 0, 1, 2, 0, 0, 0, 0, 0, 0, 0, 1, 1, 0, 0, 0, 7] := by
      decide
    obtain rfl := Option.some.inj (hbytes.symm.trans hshort)
    obtain rfl := Option.some.inj (hbytes'.symm.trans hlong)
    decide
  exact ⟨bytes, bytes', hbytes, hbytes', hfront, hpre hfront⟩

end

end Fugue
