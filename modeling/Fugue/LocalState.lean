import Fugue.Library.Pool
import Fugue.VersionDb

namespace Fugue

/-- The key is null until the entry is filled for the first time. -/
structure KeyReadSetEntry (K : Type) where
  key : Option (SetKey K)
  entry : ReadSetEntry

structure KeyWriteSetEntry (K : Type) where
  key : Option (SetKey K)
  entry : WriteSetEntry

variable {K : Type}

instance : Inhabited (KeyReadSetEntry K) := ⟨none, default⟩

instance : Inhabited (KeyWriteSetEntry K) := ⟨none, default⟩

abbrev KeyReadSetEntryPool (K : Type) := Pool (KeyReadSetEntry K)

abbrev KeyWriteSetEntryPool (K : Type) := Pool (KeyWriteSetEntry K)

namespace KeyReadSetEntryPool

/-- A new read-set entry is handed out unfilled; the caller fills it once its read returns. -/
def newReadSetEntry (p : KeyReadSetEntryPool K) : KeyReadSetEntryPool K := p.new

def fill (p : KeyReadSetEntryPool K) (i : ℕ) (key : SetKey K) (entry : ReadSetEntry) :
    KeyReadSetEntryPool K :=
  p.modify i fun _ => ⟨some key, entry⟩

def setUpdated (p : KeyReadSetEntryPool K) (i : ℕ) : KeyReadSetEntryPool K :=
  p.modify i fun o => { o with entry := { o.entry with isUpdated := true } }

def clearRelease (p : KeyReadSetEntryPool K) (i : ℕ) : KeyReadSetEntryPool K :=
  p.modify i fun o => { o with entry := { o.entry with needRelease := false } }

def entry (p : KeyReadSetEntryPool K) (i : ℕ) : ReadSetEntry := (p.get i).entry

def key (p : KeyReadSetEntryPool K) (i : ℕ) : Option (SetKey K) := (p.get i).key

def findInReadSet [DecidableEq K] (p : KeyReadSetEntryPool K) (key : SetKey K) : Option ℕ :=
  p.find fun o => o.key = some key

end KeyReadSetEntryPool

namespace KeyWriteSetEntryPool

def newWriteSetEntry (p : KeyWriteSetEntryPool K) (key : SetKey K) (version : ℤ)
    (isDeleted : Bool) (record : Option Addr) (readEntry : Option ℕ)
    (needPostProcessing : Bool) : KeyWriteSetEntryPool K :=
  p.new.modify p.popIndex fun _ =>
    ⟨some key, ⟨version, isDeleted, record, readEntry, needPostProcessing⟩⟩

/-- What `DeleteOperation` does to an entry that is already there. -/
def setDeleted (p : KeyWriteSetEntryPool K) (i : ℕ) : KeyWriteSetEntryPool K :=
  p.modify i fun o => { o with entry := { o.entry with isDeleted := true, record := none } }

def setPostProcessing (p : KeyWriteSetEntryPool K) (i : ℕ) : KeyWriteSetEntryPool K :=
  p.modify i fun o => { o with entry := { o.entry with needPostProcessing := true } }

def entry (p : KeyWriteSetEntryPool K) (i : ℕ) : WriteSetEntry := (p.get i).entry

def key (p : KeyWriteSetEntryPool K) (i : ℕ) : Option (SetKey K) := (p.get i).key

def findInWriteSet [DecidableEq K] (p : KeyWriteSetEntryPool K) (key : SetKey K) : Option ℕ :=
  p.find fun o => o.key = some key

end KeyWriteSetEntryPool

end Fugue
