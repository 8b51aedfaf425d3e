import Fugue.VersionDb

namespace Fugue

structure SimpleTxnIDGenerator where
  id : ℤ
  start : ℤ
  end_ : ℤ
  deriving DecidableEq

namespace SimpleTxnIDGenerator

def ofBase (base interval : ℤ) : SimpleTxnIDGenerator := ⟨base, base, base + interval⟩

def generateID (g : SimpleTxnIDGenerator) : ℤ × SimpleTxnIDGenerator :=
  let id := if g.id + 1 = g.end_ then g.start else g.id + 1
  (id, { g with id := id })

end SimpleTxnIDGenerator

/-- `Constant::TIME_PROVIDER_INTERVAL`. -/
def timeProviderInterval : ℤ := 1000

/-- `clock` are the readings of the system clock that are still to come. -/
structure LocalTimeProvider where
  timeValue : ℤ
  count : ℤ
  clock : ℕ → ℤ

namespace LocalTimeProvider

def ofClock (clock : ℕ → ℤ) : LocalTimeProvider := ⟨clock 0, 0, fun n => clock (n + 1)⟩

def getTime (p : LocalTimeProvider) : ℤ × LocalTimeProvider :=
  let p := if p.count = timeProviderInterval then
      { timeValue := max p.timeValue (p.clock 0), count := 0, clock := fun n => p.clock (n + 1) }
    else p
  (p.timeValue + p.count, { p with count := p.count + 1 })

def setTime (p : LocalTimeProvider) (time : ℤ) : LocalTimeProvider :=
  { p with timeValue := max (p.timeValue + p.count) time, count := 0 }

end LocalTimeProvider

structure LocalServices where
  generator : SimpleTxnIDGenerator
  provider : LocalTimeProvider

instance : Services LocalServices where
  generateID s := (s.generator.generateID.1, { s with generator := s.generator.generateID.2 })
  getTime s := (s.provider.getTime.1, { s with provider := s.provider.getTime.2 })
  setTime s time := { s with provider := s.provider.setTime time }

end Fugue
