/-!
# Measurements of stages

A recorder keeps finished stages in the order of finishing: how long each took
and, where memory was read, by how much it grew. Readings are handed in; the
recorder itself looks at no clock.
-/

namespace Semidefinite.Profile

/-- The growth from one reading of a byte count to another. Readings are taken as
signed 64-bit numbers. -/
def growth (earlier later : UInt64) : Int64 :=
  later.toInt64 - earlier.toInt64

def growth? (before after : Option UInt64) : Option Int64 :=
  match before, after with
  | some earlier, some later => some (growth earlier later)
  | _, _ => none

structure Measurement where
  stage : String
  nanoseconds : Nat
  before : Option UInt64
  after : Option UInt64
  growth : Option Int64

structure OpenStage where
  stage : String
  startedAt : Nat
  before : Option UInt64

/-- What a moment is known by: the clock, and memory if it is read. -/
structure Reading where
  nanoseconds : Nat
  memory : Option UInt64 := none

/-- The finished stages, first to last. -/
structure Recorder where
  stages : List Measurement

namespace Recorder

def empty : Recorder := ⟨[]⟩

def push (r : Recorder) (m : Measurement) : Recorder :=
  ⟨r.stages ++ [m]⟩

def start (stage : String) (now : Reading) : OpenStage :=
  ⟨stage, now.nanoseconds, now.memory⟩

def finish (r : Recorder) (s : OpenStage) (now : Reading) : Recorder :=
  r.push {
    stage := s.stage
    nanoseconds := now.nanoseconds - s.startedAt
    before := s.before
    after := now.memory
    growth := growth? s.before now.memory }

end Recorder

inductive MemoryError where
  | processNotFound (pid : Nat)
  deriving DecidableEq, Repr

namespace MemoryError

def code : MemoryError → String
  | processNotFound _ => "MEMORY_PROCESS_NOT_FOUND"

def message : MemoryError → String
  | e@(processNotFound pid) => "[" ++ e.code ++ "] Failed to locate process " ++ Nat.repr pid

end MemoryError

end Semidefinite.Profile
