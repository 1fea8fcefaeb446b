/-!
# The arguments of the command

The words of a command line are taken from left to right, and the first one that settles the matter
does: a question for the version or for help, or a word that cannot be understood.

* A long option is `--name`; its value follows behind `=` or as the next word.
* Short options are letters behind one `-`; the value of the last one follows at once, behind `=`,
  or as the next word.
* Only a switch that counts may be given twice.
* Behind `--` every word is a path.  So is a single `-`.

`Invocation.ofWords` gives what a command line asks for.
-/

namespace KuAsm

/-- A compilation as the command line describes it. -/
structure Request where
  /-- The file that holds the program. -/
  source : String
  /-- The file the listing goes to. -/
  output : Option String
  /-- Whether to show the outline of the program. -/
  showTree : Bool
  /-- Whether to show the listing. -/
  showListing : Bool
  /-- Whether to show what was counted. -/
  showStats : Bool
  /-- Whether the listing has comments. -/
  comments : Bool
  /-- The symbol at which the process starts. -/
  entry : String
  /-- How much to tell on the way. -/
  verbosity : Nat
deriving DecidableEq, Repr, Inhabited

/-- What a command line asks for. -/
inductive Invocation where
  | compile (r : Request)
  | version
  | help
  /-- The words cannot be understood. -/
  | misuse
deriving DecidableEq, Repr

/-- An option that stands for itself. -/
inductive Switch where
  | tree | listing | stats | plain | verbose | version | help
deriving DecidableEq, Repr

/-- An option that a value belongs to. -/
inductive Setting where
  | output | entry
deriving DecidableEq, Repr

/-- An option. -/
inductive Flag where
  | switch (s : Switch)
  | setting (s : Setting)
deriving DecidableEq, Repr

namespace Flag

/-- The option of a long name. -/
def ofName? : String → Option Flag
  | "output" => some (setting .output)
  | "entry" => some (setting .entry)
  | "ast" => some (switch .tree)
  | "asm" => some (switch .listing)
  | "stats" => some (switch .stats)
  | "no-comments" => some (switch .plain)
  | "verbose" => some (switch .verbose)
  | "version" => some (switch .version)
  | "help" => some (switch .help)
  | _ => none

/-- The option of a letter. -/
def ofLetter? : Char → Option Flag
  | 'o' => some (setting .output)
  | 'v' => some (switch .verbose)
  | 'V' => some (switch .version)
  | 'h' => some (switch .help)
  | _ => none

end Flag

/-- What the words so far have said. -/
structure Given where
  /-- The file that holds the program. -/
  source : Option String := none
  /-- The file the listing goes to. -/
  output : Option String := none
  /-- The symbol at which the process starts. -/
  entry : Option String := none
  /-- The switches, each as often as it was given. -/
  switches : List Switch := []
deriving DecidableEq, Repr, Inhabited

namespace Given

/-- Take a path.  There is one, and it is not empty. -/
def path (g : Given) (word : String) : Except Invocation Given :=
  if word = "" ∨ g.source.isSome then .error .misuse else .ok { g with source := some word }

/-- Take a switch. -/
def switch (g : Given) : Switch → Except Invocation Given
  | .version => .error .version
  | .help => .error .help
  | .verbose => .ok { g with switches := .verbose :: g.switches }
  | s =>
    if g.switches.contains s then .error .misuse else .ok { g with switches := s :: g.switches }

/-- Take the value of a setting.  A file name is not empty. -/
def setting (g : Given) (value : String) : Setting → Except Invocation Given
  | .output =>
    if value = "" ∨ g.output.isSome then .error .misuse else .ok { g with output := some value }
  | .entry => if g.entry.isSome then .error .misuse else .ok { g with entry := some value }

/-- The request, if a path was given. -/
def request? (g : Given) : Option Request :=
  g.source.map fun source =>
    { source
      output := g.output
      showTree := g.switches.contains .tree
      showListing := g.switches.contains .listing
      showStats := g.switches.contains .stats
      comments := !g.switches.contains .plain
      entry := g.entry.getD "_start"
      verbosity := g.switches.count .verbose }

end Given

/-- How the words after the current one are to be understood. -/
inductive Expecting where
  /-- Options and paths. -/
  | anything
  /-- The value of a setting. -/
  | value (s : Setting)
  /-- Paths alone. -/
  | paths
deriving DecidableEq, Repr

/-- Take a long option, given without its dashes: the part in front of `=`, and the value behind it
if there is one. -/
def takeLong (g : Given) (name : String) (value : Option String) :
    Except Invocation (Given × Expecting) :=
  match Flag.ofName? name, value with
  | some (.switch s), none => do .ok (← g.switch s, .anything)
  | some (.setting s), some v => do .ok (← g.setting v s, .anything)
  | some (.setting s), none => .ok (g, .value s)
  | some (.switch _), some _ | none, _ => .error .misuse

/-- Take the letters behind a dash. -/
def takeLetters (g : Given) : List Char → Except Invocation (Given × Expecting)
  | [] => .ok (g, .anything)
  | c :: cs =>
    match Flag.ofLetter? c with
    | some (.switch s) => do takeLetters (← g.switch s) cs
    | some (.setting s) =>
      match cs with
      | [] => .ok (g, .value s)
      | '=' :: v => do .ok (← g.setting (String.ofList v) s, .anything)
      | v => do .ok (← g.setting (String.ofList v) s, .anything)
    | none => .error .misuse

/-- Take one word. -/
def takeWord (g : Given) (expecting : Expecting) (word : String) :
    Except Invocation (Given × Expecting) :=
  match expecting, word.toList with
  | .paths, _ => do .ok (← g.path word, .paths)
  | .value s, ['-'] => do .ok (← g.setting word s, .anything)
  | .value _, '-' :: _ => .error .misuse
  | .value s, _ => do .ok (← g.setting word s, .anything)
  | .anything, ['-', '-'] => .ok (g, .paths)
  | .anything, '-' :: '-' :: cs =>
    let name := cs.takeWhile (· ≠ '=')
    takeLong g (String.ofList name)
      (if name.length < cs.length then some (String.ofList (cs.drop (name.length + 1))) else none)
  | .anything, '-' :: c :: cs => takeLetters g (c :: cs)
  | .anything, _ => do .ok (← g.path word, .anything)

/-- Take the words of a command line one after the other. -/
def takeWords (g : Given) (expecting : Expecting) : List String → Except Invocation Given
  | [] => match expecting with
    | .value _ => .error .misuse
    | _ => .ok g
  | w :: ws => do
    let (g, expecting) ← takeWord g expecting w
    takeWords g expecting ws

/-- What a command line asks for. -/
def Invocation.ofWords (words : List String) : Invocation :=
  match takeWords {} .anything words with
  | .error i => i
  | .ok g => match g.request? with
    | some r => .compile r
    | none => .misuse

end KuAsm
