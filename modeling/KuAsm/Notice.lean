import KuAsm.Frame.FreeSet
import KuAsm.Machine.Label
import KuAsm.Source.Location
import KuAsm.Text.Quoted

/-!
# Notices

While it works, the compiler tells what it does.  A `Notice` is such a remark; it has a severity,
the part of the program it comes from, and a wording.  Notices have no influence on the listing.
-/

namespace KuAsm

/-- How important a notice is, the most important first. -/
inductive Severity where
  | warn | info | debug | trace
deriving DecidableEq, Repr

namespace Severity

/-- The rank of a severity; a lower one is more important. -/
def rank : Severity → Nat
  | warn => 0 | info => 1 | debug => 2 | trace => 3

/-- The word of a severity. -/
def text : Severity → String
  | warn => "WARN" | info => "INFO" | debug => "DEBUG" | trace => "TRACE"

end Severity

/-- A remark on the work of the compiler. -/
inductive Notice where
  /-- The library is ready. -/
  | libraryRegistered (count : Nat)
  /-- A function has been compiled. -/
  | functionLowered (name : String)
  /-- A call has been emitted. -/
  | callEmitted (name : String)
  /-- A string literal has its place in the data. -/
  | literalPlaced (text : String) (label : Label)
  /-- A variable has become the owner of a heap value. -/
  | ownershipTaken (location : Location) (name : String) (id : ReclaimId)
  /-- A variable shares a heap value with its owner. -/
  | valueAliased (location : Location) (name : String) (id : ReclaimId)
  /-- A call has more arguments than the function has parameters. -/
  | extraArgument (location : Location) (name : String)
  /-- A file was included before. -/
  | alreadyIncluded (path : String)
  /-- The program has been compiled. -/
  | programLowered (scopes : Nat)
  /-- The listing has been written to a file. -/
  | listingWritten (path : String)
deriving DecidableEq, Repr

namespace Notice

/-- How important the notice is. -/
def severity : Notice → Severity
  | valueAliased .. | extraArgument .. => .warn
  | listingWritten .. => .info
  | callEmitted .. => .trace
  | _ => .debug

/-- The part of the program that the notice names as its origin. -/
def origin : Notice → String
  | libraryRegistered _ | programLowered _ => "kuc::codegen"
  | functionLowered _ | callEmitted _ => "kuc::core::session"
  | literalPlaced .. => "kuc::core::sections"
  | ownershipTaken .. | valueAliased .. => "kuc::codegen::reclaim"
  | extraArgument .. => "kuc::codegen::call"
  | alreadyIncluded _ => "kuc::codegen::stmt"
  | listingWritten _ => "kuc"

/-- The wording of the notice. -/
def message : Notice → String
  | libraryRegistered n => toString n ++ " built-ins registered"
  | functionLowered name => "function `" ++ name ++ "` lowered"
  | callEmitted name => "call site emitted: " ++ name
  | literalPlaced s l => "literal " ++ Text.quoted s ++ " placed at " ++ l.text
  | ownershipTaken l name id =>
    l.text ++ ": `" ++ name ++ "` takes ownership of " ++ id.text
  | valueAliased l name id =>
    l.text ++ ": `" ++ name ++ "` aliases a heap value owned elsewhere (" ++ id.text
      ++ "); the binding borrows it and will not reclaim it"
  | extraArgument l name =>
    l.text ++ ": extra argument to `" ++ name ++ "` is evaluated and discarded"
  | alreadyIncluded path => "`" ++ path ++ "` already included"
  | programLowered n => "program lowered; " ++ toString n ++ " scopes"
  | listingWritten path => "wrote " ++ path

/-- Whether the notice is at least as important as `s`. -/
def atLeast (s : Severity) (n : Notice) : Bool := decide (n.severity.rank ≤ s.rank)

end Notice

end KuAsm
