import KuAsm.Notice

/-!
# Sessions

A session is what several compilations share: the numbers of labels and of heap values, the files
that were included, and what has been counted so far.  A new session counts from zero, so two
sessions never influence one another.

The numbers of labels and of heap values are taken never to run out: a session may make 2^32 of them
and more.  For the bytes of a frame, in contrast, 32 bits are a limit that is checked.
-/

namespace KuAsm

/-- What a session has counted. -/
structure Stats where
  /-- Functions compiled, those of the library included. -/
  functions : Nat := 0
  /-- Scopes opened. -/
  scopes : Nat := 0
  /-- Labels made. -/
  labels : Nat := 0
  /-- Heap values that got an id. -/
  heap : Nat := 0
  /-- Places where a heap value is released. -/
  frees : Nat := 0
  /-- Places where a function is called. -/
  calls : Nat := 0
deriving DecidableEq, Repr, Inhabited

/-- The report on what was counted. -/
def Stats.report (s : Stats) : String :=
  "Compilation Session Statistics:\n"
    ++ "  Functions compiled: " ++ toString s.functions ++ "\n"
    ++ "  Scopes opened: " ++ toString s.scopes ++ "\n"
    ++ "  Labels minted: " ++ toString s.labels ++ "\n"
    ++ "  Heap values: " ++ toString s.heap ++ "\n"
    ++ "  Deallocations emitted: " ++ toString s.frees ++ "\n"
    ++ "  Call sites emitted: " ++ toString s.calls ++ "\n"

/-- The state that compilations share. -/
structure Session where
  /-- The number of the next label. -/
  nextLabel : Nat := 0
  /-- The number of the next heap value. -/
  nextReclaim : Nat := 0
  /-- The files included so far. -/
  included : List String := []
  /-- What has been counted. -/
  stats : Stats := {}
  /-- The notices so far, the last one first. -/
  journal : List Notice := []
deriving DecidableEq, Repr, Inhabited

namespace Session

/-- A session in which nothing has happened. -/
def empty : Session := {}

/-- Make a label that no other label of the session is equal to. -/
def mintLabel (s : Session) (hint : String) : Label × Session :=
  (.fresh s.nextLabel hint,
    { s with nextLabel := s.nextLabel + 1, stats := { s.stats with labels := s.stats.labels + 1 } })

/-- Make an id for a new heap value. -/
def mintReclaim (s : Session) : ReclaimId × Session :=
  (⟨s.nextReclaim⟩,
    { s with nextReclaim := s.nextReclaim + 1, stats := { s.stats with heap := s.stats.heap + 1 } })

/-- Note a file as included: whether it was not so before, and the session afterwards. -/
def markIncluded (s : Session) (path : String) : Bool × Session :=
  if s.included.contains path then (false, s) else (true, { s with included := path :: s.included })

/-- Tell something. -/
def tell (s : Session) (n : Notice) : Session := { s with journal := n :: s.journal }

/-- Count a compiled function. -/
def recordFunction (s : Session) (name : String) : Session :=
  { s with stats := { s.stats with functions := s.stats.functions + 1 } }.tell
    (.functionLowered name)

/-- Count an opened scope. -/
def recordScope (s : Session) : Session :=
  { s with stats := { s.stats with scopes := s.stats.scopes + 1 } }

/-- Count a place where a heap value is released. -/
def recordFree (s : Session) : Session :=
  { s with stats := { s.stats with frees := s.stats.frees + 1 } }

/-- Count a place where a function is called. -/
def recordCall (s : Session) (name : String) : Session :=
  { s with stats := { s.stats with calls := s.stats.calls + 1 } }.tell (.callEmitted name)

/-- The notices at least as important as `least`, in the order they were made. -/
def notices (s : Session) (least : Severity) : List Notice :=
  (s.journal.filter (·.atLeast least)).reverse

end Session

end KuAsm
