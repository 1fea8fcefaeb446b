import KuAsm.Proofs.Demand
import KuAsm.Proofs.Growth

/-!
# Accounts of what is counted

A session counts functions, scopes, labels, calls and releases while code is being made.  The code
is written later, and some of it is not written at all.  For each feature that is counted,
`State.ahead` says by how much the count is ahead of what is written.

Two features are never counted, and so no code may show them: lines of plain text and comments that
are not accepted (`Feature.foreign`), and in expressions calls of the operating system
(`Feature.system`).  What a comment may say is a parameter.  Most comments are the compiler's own,
the others have a name or a path of the program in them.

## Main definitions

* `Feature.count`: how often a piece of a listing shows a feature.
* `Code.IsDull`: code that shows no feature, has no label and loads no string.
* `Node.names`: the names and paths of a node that a comment may have in it.
* `Remarks q T`: what the compiler says of names that satisfy `T` does not show the feature `q`.
-/

namespace KuAsm

open Asm Reg Lower

/-! ### Features -/

/-- What a session counts and a listing shows. -/
inductive Feature where
  /-- The return at the end of a function. -/
  | function
  /-- The clearing of a new frame. -/
  | frame
  /-- The definition of the size of a frame. -/
  | size
  /-- A call of a function. -/
  | call
  /-- A release of a heap value. -/
  | free
  /-- A label that has no number of its own.  No line shows one. -/
  | label
  /-- A line of plain text, or a comment that is not accepted.  None is counted. -/
  | foreign (ok : String → Bool)
  /-- A call of the operating system.  None is counted. -/
  | system

/-- Whether a line defines a label as a number. -/
def Line.isConstant : Line → Bool
  | constant .. => true
  | _ => false

/-- Whether a line says itself what it means, and is no comment whose text is not accepted. -/
def Line.isCode (ok : String → Bool) : Line → Bool
  | verbatim _ => false
  | comment t => ok t
  | _ => true

/-- The code has no line of plain text, and comments as accepted. -/
def Code.IsCode (ok : String → Bool) (code : Code) : Prop := code.all (Line.isCode ok) = true

/-- No section of the listing has a line of plain text. -/
structure Listing.IsCode (ok : String → Bool) (l : Listing) : Prop where
  data : Code.IsCode ok l.data
  functions : Code.IsCode ok l.functions
  program : Code.IsCode ok l.program

/-- Whether a line calls a function. -/
def Line.isCall : Line → Bool
  | instr (.call _) => true
  | _ => false

namespace Feature

/-- What a session has counted of a feature. -/
def counted (q : Feature) (s : Session) : Int :=
  match q with
  | function => s.stats.functions
  | frame | size => s.stats.scopes
  | call => s.stats.calls
  | free => s.stats.frees
  | label => s.stats.labels - s.nextLabel
  | foreign _ | system => 0

/-- Whether a line shows a feature, given the line behind it. -/
def isShown (q : Feature) (line : Line) (next : Option Line) : Bool :=
  match q with
  | function => line = bare .ret
  | frame => line = bare .fillWords
  | size => line.isConstant
  | call => line.isCall
  | free => next = some kernel && line = mov eax (.imm Convention.sysUnmap)
  | label => false
  | foreign ok => !line.isCode ok
  | system => line = kernel

/-- How often a piece of a listing shows a feature. -/
def count (q : Feature) : Code → Nat
  | [] => 0
  | line :: rest => (q.isShown line rest.head?).toNat + q.count rest

/-- Once for the given feature, and never for another one. -/
def once : Feature → Feature → Int
  | function, function | frame, frame | size, size | call, call | free, free => 1
  | _, _ => 0

/-- A comment does not show the feature. -/
def Accepts : Feature → String → Prop
  | foreign ok, text => ok text = true
  | _, _ => True

end Feature

variable {q : Feature} {a b code : Code} {m n : Int} {T : String → Prop}

/-- A line that shows no feature. -/
def Line.isOrdinary : Line → Bool
  | instr (.bare .ret) | instr (.bare .fillWords) | instr (.call _) | instr .kernel | constant .. =>
    false
  | comment _ | verbatim _ => false
  | _ => true

theorem Feature.isShown_of_isOrdinary {line : Line} (h : line.isOrdinary = true)
    {next : Option Line} (hnext : next ≠ some kernel) : q.isShown line next = false := by
  cases q with
  | function => exact decide_eq_false fun heq => by subst heq; cases h
  | frame => exact decide_eq_false fun heq => by subst heq; cases h
  | size => cases line <;> first | rfl | cases h
  | call =>
    cases line with
    | instr i => cases i <;> first | rfl | cases h
    | _ => rfl
  | free => exact Bool.and_eq_false_imp.2 fun heq => absurd (of_decide_eq_true heq) hnext
  | label => rfl
  | foreign ok => cases line <;> first | rfl | cases h
  | system => exact decide_eq_false fun heq => by subst heq; cases h

theorem Feature.isShown_comment {text : String} (h : q.Accepts text) (next : Option Line) :
    q.isShown (.comment text) next = false := by
  cases q with
  | foreign ok => exact congrArg (!·) h
  | free => exact Bool.and_false _
  | _ => rfl

/-- What two pieces show together, if the second does not begin in the middle of a call of the
system. -/
theorem Feature.count_append (hb : b.head? ≠ some kernel) (a : Code) :
    q.count (a ++ b) = q.count a + q.count b := by
  induction a with
  | nil => exact (Nat.zero_add _).symm
  | cons line a ih =>
    have hshown : q.isShown line (a ++ b).head? = q.isShown line a.head? := by
      cases a with
      | cons next a => rfl
      | nil =>
        cases q with
        | free =>
          have hnext : decide (b.head? = some kernel) = false := decide_eq_false hb
          exact (congrArg (· && _) hnext).trans rfl
        | _ => rfl
    show (q.isShown line (a ++ b).head?).toNat + q.count (a ++ b) = _ + _ + _
    rw [hshown, ih, Nat.add_assoc]

theorem Code.opens_append (ha : a.head? ≠ some kernel) (hb : b.head? ≠ some kernel) :
    (a ++ b).head? ≠ some kernel := by
  cases a with
  | nil => exact hb
  | cons line a => exact ha

/-- The code shows a feature `n` times, and does not begin in the middle of a call of the system. -/
structure Code.Shows (q : Feature) (code : Code) (n : Int) : Prop where
  opens : code.head? ≠ some kernel
  count_eq : (q.count code : Int) = n

namespace Code.Shows

theorem nil : Shows q [] 0 := ⟨nofun, rfl⟩

theorem eq (h : Shows q code m) (hn : m = n) : Shows q code n := hn ▸ h

theorem append (ha : Shows q a m) (hb : Shows q b n) : Shows q (a ++ b) (m + n) := by
  refine ⟨opens_append ha.opens hb.opens, ?_⟩
  rw [Feature.count_append hb.opens, ← ha.count_eq, ← hb.count_eq]
  exact Int.natCast_add ..

/-- Ordinary lines and accepted comments show nothing. -/
theorem zero (h : ∀ line ∈ code, line.isOrdinary = true ∨ ∃ text, line = .comment text ∧
    q.Accepts text) : Shows q code 0 := by
  induction code with
  | nil => exact nil
  | cons line code ih =>
    obtain ⟨hline, hcode⟩ := List.forall_mem_cons.1 h
    refine ⟨?_, ?_⟩
    · rintro heq
      cases heq
      rcases hline with hline | ⟨_, hline, -⟩ <;> cases hline
    · have hrest := (ih hcode).count_eq
      have hshown : q.isShown line code.head? = false := by
        rcases hline with hline | ⟨text, rfl, htext⟩
        · exact Feature.isShown_of_isOrdinary hline (ih hcode).opens
        · exact Feature.isShown_comment htext _
      show (((q.isShown line code.head?).toNat + q.count code : Nat) : Int) = 0
      rw [hshown, Int.natCast_add, hrest]
      rfl

theorem ordinary (h : code.all Line.isOrdinary = true) : Shows q code 0 :=
  zero fun line hline => .inl (List.all_eq_true.1 h line hline)

end Code.Shows

/-- A line that shows no feature and has no label. -/
def Line.isPlain (line : Line) : Bool :=
  line.isOrdinary && line.defines.isEmpty && line.refers.isEmpty

/-- Comments are accepted, and all other lines are plain. -/
def Code.IsDull (q : Feature) (code : Code) : Prop :=
  ∀ line ∈ code, line.isPlain = true ∨ ∃ text, line = .comment text ∧ q.Accepts text

namespace Code.IsDull

theorem nil : IsDull q [] := List.forall_mem_nil _

theorem plain (h : code.all Line.isPlain = true) : IsDull q code :=
  fun line hline => .inl (List.all_eq_true.1 h line hline)

theorem append (ha : IsDull q a) (hb : IsDull q b) : IsDull q (a ++ b) :=
  List.forall_mem_append.2 ⟨ha, hb⟩

theorem note {text : String} (h : q.Accepts text) (c : Bool) :
    IsDull q (if c then [.comment text] else []) := by
  split
  · exact fun line hline => .inr ⟨text, List.mem_singleton.1 hline, h⟩
  · exact nil

theorem load (r : Reg) (x : Mem) : IsDull q [load r x] := by
  unfold Asm.load
  split <;> exact plain rfl

theorem store (x : Mem) (r : Reg) : IsDull q [store x r] := by
  unfold Asm.store
  split <;> exact plain rfl

theorem chase (depth : Nat) : IsDull q (Convention.chase depth).1 := by
  unfold Convention.chase
  split
  · exact nil
  · refine List.forall_mem_cons.2 ⟨.inl rfl, fun line hline => ?_⟩
    rw [List.eq_of_mem_replicate hline]
    exact .inl rfl

theorem integerCode (op : BinaryOp) : IsDull q (integerCode op) := by
  cases op <;> exact plain rfl

theorem negateCode (ty : ScalarType) : IsDull q (negateCode ty) := by
  cases ty <;> exact plain rfl

theorem pushArguments :
    ∀ {slots : List Slot} {code : Code}, Convention.pushArguments slots = .ok code → IsDull q code
  | [], code, h => by
    cases h
    exact nil
  | x :: rest, code, h => by
    obtain ⟨more, m, hmore, -, rfl⟩ := Convention.pushArguments_cons_eq_ok.1 h
    exact (pushArguments hmore).append (plain rfl)

variable (h : IsDull q code)
include h

theorem shows : Shows q code 0 := Shows.zero fun line hline =>
  (h line hline).imp_left fun hplain => (Bool.and_eq_true_iff.1 (Bool.and_eq_true_iff.1 hplain).1).1

theorem defines : Code.defines code = [] := List.flatMap_eq_nil_iff.2 fun line hline => by
  rcases h line hline with hplain | ⟨_, rfl, -⟩
  · exact List.isEmpty_iff.1 (Bool.and_eq_true_iff.1 (Bool.and_eq_true_iff.1 hplain).1).2
  · rfl

theorem refers : Code.refers code = [] := List.flatMap_eq_nil_iff.2 fun line hline => by
  rcases h line hline with hplain | ⟨_, rfl, -⟩
  · exact List.isEmpty_iff.1 (Bool.and_eq_true_iff.1 hplain).2
  · rfl

theorem loads : Code.loads code = [] := Code.loads_eq_nil h.refers

end Code.IsDull

namespace Code.Shows

/-- The code of a call shows one call. -/
theorem call {slots : List Slot} {depth : Nat} {entry : Label}
    (h : Convention.call slots depth entry = .ok code) : Shows q code (q.once .call) := by
  obtain ⟨pushes, bytes, hpushes, -, rfl⟩ := Convention.call_eq_ok h
  have hcall : Shows q [push (Convention.chase depth).2, Asm.call entry, add esp (.imm bytes)]
      (q.once .call) := by
    cases q <;> exact ⟨nofun, rfl⟩
  exact (((IsDull.pushArguments hpushes).append (.chase depth)).shows.append hcall).eq
    (Int.zero_add _)

/-- The prologue of a block clears a frame. -/
theorem blockPrologue (l : Label) : Shows q (Convention.blockPrologue l) (q.once .frame) := by
  cases q <;> exact ⟨nofun, rfl⟩

/-- The prologue of a function clears a frame. -/
theorem functionPrologue (l : Label) : Shows q (Convention.functionPrologue l) (q.once .frame) := by
  cases q <;> exact ⟨nofun, rfl⟩

/-- The epilogue of a function returns. -/
theorem functionEpilogue : Shows q Convention.functionEpilogue (q.once .function) := by
  cases q <;> exact ⟨nofun, rfl⟩

theorem constant (l : Label) (value : Nat) : Shows q [.constant l value] (q.once .size) := by
  cases q <;> exact ⟨nofun, rfl⟩

end Code.Shows

/-! ### Names -/

/-- The feature is shown neither by what the compiler says on its own account, nor by what it says
of names and paths that satisfy `T`. -/
structure Remarks (q : Feature) (T : String → Prop) : Prop where
  declared : ∀ {name}, T name → ∀ ty : ScalarType, q.Accepts (":" ++ name ++ "/" ++ ty.name)
  unchanged : ∀ {name}, T name → q.Accepts ("`" ++ name ++ "` assigned to itself")
  called : ∀ {name}, T name → q.Accepts ("call " ++ name)
  defined : ∀ {name}, T name → q.Accepts ("fn " ++ name)
  included : ∀ {path}, T path → q.Accepts ("include " ++ path)
  library : ∀ p : Primitive, T p.name
  owned : ∀ id : ReclaimId, q.Accepts ("owns " ++ id.text)
  freed : ∀ id : ReclaimId, q.Accepts ("free " ++ id.text)
  kept : ∀ id : ReclaimId, q.Accepts ("keep " ++ id.text)
  decimal : ∀ v : Single, q.Accepts ("dec " ++ v.remark)
  copied : q.Accepts "copy returned string"
  program : q.Accepts "program scope"

/-- The feature may be one that no comment shows. -/
theorem Remarks.any (h : ∀ text, q.Accepts text) : Remarks q fun _ => True := by
  constructor <;> intros <;> first | trivial | exact h _

mutual

/-- The names and paths of a node that a comment may have in it: of variables that are declared or
assigned, of functions that are defined or called, and of files that are included. -/
def Node.names : Node → List String
  | .mk form _ => form.names

/-- The names and paths of a form. -/
def Form.names : Form → List String
  | .binary _ left right => left.names ++ right.names
  | .signed _ value => value.names
  | .call name args => name :: Node.namesAll args
  | .function name _ _ body => name :: Node.namesAll body
  | .declare name _ value => name :: Node.namesOption value
  | .assign name value => name :: value.names
  | .store address value => address.names ++ value.names
  | .cast value _ _ => value.names
  | .conditional condition body otherwise =>
    condition.names ++ (Node.namesAll body ++ otherwise.names)
  | .whileLoop condition body => condition.names ++ Node.namesAll body
  | .forLoop start condition step body =>
    start.names ++ (condition.names ++ (step.names ++ Node.namesAll body))
  | .ret value => Node.namesOption value
  | .included path program => path :: Node.namesAll program
  | _ => []

/-- The names and paths of a list of nodes. -/
def Node.namesAll : List Node → List String
  | [] => []
  | n :: ns => n.names ++ Node.namesAll ns

/-- The names and paths of a node that may be missing. -/
def Node.namesOption : Option Node → List String
  | none => []
  | some n => n.names

/-- The names and paths behind the block of a conditional. -/
def Otherwise.names : Otherwise → List String
  | .absent => []
  | .chained n => n.names
  | .block body => Node.namesAll body

end

/-- A function is found under its name. -/
theorem Scope.name_of_getFunction? {sc : Scope} {name : String} {f : Signature}
    (h : sc.getFunction? name = some f) : f.name = name := by
  simpa using List.find?_some h

/-! ### Getting ahead -/

/-- How often a listing shows a feature. -/
def Listing.count (l : Listing) (q : Feature) : Nat :=
  q.count l.data + q.count l.functions + q.count l.program

theorem Listing.count_append (h : code.head? ≠ some kernel) (l : Listing) (x : Section) :
    (l.append x code).count q = l.count q + q.count code := by
  unfold Listing.append Listing.count
  cases x <;> simp only [Feature.count_append h] <;> omega

/-- By how much the count of a feature is ahead of what is written. -/
def State.ahead (s : State) (q : Feature) : Int := q.counted s.session - s.listing.count q

/-! ### Counting -/

section

variable (s : Session)

theorem Feature.counted_mintLabel (hint : String) :
    q.counted (s.mintLabel hint).2 = q.counted s := by
  cases q with
  | label =>
    simp only [Feature.counted, Session.mintLabel]
    omega
  | _ => rfl

theorem Feature.counted_tell (n : Notice) : q.counted (s.tell n) = q.counted s := by cases q <;> rfl

theorem Feature.counted_recordCall (name : String) :
    q.counted (s.recordCall name) = q.counted s + q.once .call := by
  cases q <;> simp [Feature.counted, Feature.once, Session.recordCall, Session.tell]

theorem Feature.counted_recordFree : q.counted s.recordFree = q.counted s + q.once .free := by
  cases q <;> simp [Feature.counted, Feature.once, Session.recordFree]

theorem Feature.counted_recordFunction (name : String) :
    q.counted (s.recordFunction name) = q.counted s + q.once .function := by
  cases q <;> simp [Feature.counted, Feature.once, Session.recordFunction, Session.tell]

theorem Feature.counted_recordScope :
    q.counted s.recordScope = q.counted s + (q.once .frame + q.once .size) := by
  cases q <;> simp [Feature.counted, Feature.once, Session.recordScope]

end

/-! ### Features of lines -/

/-- A feature that the next line does not matter for is counted line by line. -/
theorem Feature.count_eq_countP {p : Line → Bool} (h : ∀ line next, q.isShown line next = p line)
    (code : Code) : q.count code = code.countP p := by
  induction code with
  | nil => rfl
  | cons line code ih =>
    show (q.isShown line code.head?).toNat + q.count code = _
    rw [h, ih, List.countP_cons, Nat.add_comm]
    cases p line <;> rfl

/-- Code that does not show a call of the operating system has none. -/
theorem Code.Shows.count_kernel (h : code.Shows .system 0) : code.count kernel = 0 := by
  have hcount := h.count_eq
  rw [Feature.count_eq_countP (p := (· == kernel)) fun _ _ => rfl] at hcount
  exact Int.ofNat.inj hcount

end KuAsm
