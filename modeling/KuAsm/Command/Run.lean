import KuAsm.Command.Arguments
import KuAsm.Command.Obstacle
import KuAsm.Compile
import KuAsm.Source.Outline
import KuAsm.Source.Reading
import KuAsm.Text.ControlSequence

/-!
# What the command does

The command reads one file and writes at most one.  Everything between is a function from the text
of the first to an `Action`, which says what is shown, and what is written where.

* `Invocation.action` gives the action of a command line.
* `Ending.obstructed` adds why a file could not be written.
-/

namespace KuAsm

/-- How the command ends. -/
structure Ending where
  /-- The exit code of the process. -/
  exitCode : UInt32
  /-- What goes to the standard output. -/
  shown : String
  /-- What goes to the standard error output. -/
  told : String
deriving DecidableEq, Repr, Inhabited

/-- What the command has to do. -/
inductive Action where
  /-- Show something and end. -/
  | finish (e : Ending)
  /-- Write a text to a file, and end as that succeeds or fails.  What stood in the way is still to
  be told in the second case. -/
  | write (path text : String) (done failed : Ending)
deriving DecidableEq, Repr

/-- The name and version of the command. -/
def versionText : String := "kuc 0.1.0\n"

/-- The help of the command. -/
def helpText : String :=
  "ku code generator (32-bit x86 NASM)\n"
    ++ "\n"
    ++ "Usage: kuc [OPTIONS] <AST>\n"
    ++ "\n"
    ++ "Arguments:\n"
    ++ "  <AST>  AST of the program, as emitted by the frontend\n"
    ++ "\n"
    ++ "Options:\n"
    ++ "  -o, --output <FILE>  Write the assembly here instead of next to the input\n"
    ++ "      --ast            Print the parsed AST\n"
    ++ "      --asm            Print the generated assembly\n"
    ++ "      --stats          Print compilation statistics\n"
    ++ "      --no-comments    Leave `;` comments out of the output\n"
    ++ "      --entry <ENTRY>  Entry point symbol [default: _start]\n"
    ++ "  -v, --verbose...     More logging (repeat for trace)\n"
    ++ "  -h, --help           Print help\n"
    ++ "  -V, --version        Print version\n"

/-- The path with another extension.  What stands behind the last point of the file name is the
extension, unless the point is the first character of the name. -/
def withExtension (path extension : String) : String :=
  let chars := path.toList.reverse
  let name := chars.takeWhile (· ≠ '/')
  let directory := chars.drop name.length
  let stem := (name.dropWhile (· ≠ '.')).drop 1
  String.ofList ((if stem = [] then name else stem) ++ directory).reverse ++ "." ++ extension

/-- The least important notices that are told. -/
def Request.severity (r : Request) : Severity :=
  match r.verbosity with
  | 0 => .warn
  | 1 => .debug
  | _ => .trace

/-- The text with the lines after the first four blanks in. -/
def hanging (s : String) : String :=
  String.ofList (s.toList.flatMap fun c =>
    if c = '\n' then ['\n', ' ', ' ', ' ', ' '] else [c])

/-- The lines of a notice.  Commands to a terminal that a name in it may hold are left out. -/
def Notice.record (n : Notice) : String :=
  Text.withoutControls ("[" ++ n.severity.text.pushn ' ' (5 - n.severity.text.length) ++ " " ++
    n.origin ++ "] " ++ hanging n.message ++ "\n")

/-- The lines of the notices of a session. -/
def Request.log (r : Request) (s : Session) : String :=
  String.join ((s.notices r.severity).map Notice.record)

/-- The end of a command that could not read its program. -/
def Ending.unreadable : Ending := ⟨1, "", "Error\n"⟩

/-- The end of a command that met an obstacle. -/
def Ending.obstructed (e : Ending) (o : Obstacle) : Ending :=
  { e with told := e.told ++ "Error: " ++ o.text ++ "\n" }

/-- What a request has to do, given the text of the file that holds the program. -/
def Request.action (r : Request) (source : Option String) : Action :=
  match source.bind fun s => (Program.read s).toOption with
  | none => .finish .unreadable
  | some program =>
    let tree := if r.showTree then program.outline.text ++ "\n" else ""
    match compileIn .empty ⟨r.comments, r.entry⟩ program with
    | (.error (.rejected d), session) =>
      .finish ⟨1, tree, r.log session ++ r.source ++ ": error: " ++ d.message ++ "\n"⟩
    | (.error (.fault f), session) => .finish ⟨101, tree, r.log session ++ f.message ++ "\n"⟩
    | (.ok assembly, session) =>
      let shown := tree ++ (if r.showListing then assembly.text else "")
      let output := r.output.getD (withExtension r.source "asm")
      let told := r.log (session.tell (.listingWritten output))
        ++ (if r.showStats then assembly.stats.report ++ "\n" else "")
      .write output assembly.text ⟨0, shown, told⟩ ⟨1, shown, r.log session⟩

/-- What a command line has to do.  `read` gives the text of a file. -/
def Invocation.action (read : String → Option String) : Invocation → Action
  | compile r => r.action (read r.source)
  | version => .finish ⟨0, versionText, ""⟩
  | help => .finish ⟨0, helpText, ""⟩
  | misuse => .finish ⟨2, "", "usage"⟩

end KuAsm
