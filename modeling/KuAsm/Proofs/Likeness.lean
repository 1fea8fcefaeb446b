import Mathlib.Data.List.Forall2
import KuAsm.Compile
import KuAsm.Proofs.Action
import KuAsm.Proofs.ScopePath

/-!
# Compilations that are alike

A program may spell its variables in another way, be written at other places or be spread over other
files, and it may be compiled with comments or without, in a new session or behind other programs.
Compiling it then goes through other states, but these are alike: numbers start where the other
session ended and counts are added to its counts, comments are left out, the scopes of the program
have the same variables under the other names, and everything else is the same, except for notices,
for the files that were included and for the names of parameters, which nobody asks for behind the
head of a function.  This module says what it means that states are alike, and that two actions
*mirror* each other, which is to end in the same way from states that are alike.

The scopes of the library are left aside: they have the same variables in both compilations, and no
search comes through them.  The one label that needs care is the default one, which stands in for
the frame of a scope that does not exist.  It is never made: the first label of a session is that of
the frame of the main program.

## Main definitions

* `Node.respell`: a node with its variables in another spelling, and without places.
* `Likeness`: in which respects two compilations may differ.
* `Likeness.code`, `Likeness.lowered` and so on: what stands in the other compilation for something
  of the one.
* `State.Alike`: two states that differ in these respects.
* `Mirrors`: two actions that end in the same way.

## Main statements

* `ScopeTree.Alike.lookup`: a search finds the same scope in trees that are alike.
* `Mirrors.resolveVariable`, `Mirrors.declareVariable`: where names of variables matter.
-/

namespace KuAsm

open Lower

variable {p q : Scope → Bool}

/-! ### Programs -/

/-- A parameter in another spelling. -/
def Param.respell (ρ : String → String) (p : Param) : Param := { p with name := ρ p.name }

mutual

/-- A node with its variables in another spelling, and without places. -/
def Node.respell (ρ : String → String) : Node → Node
  | .mk (.var name) _ => .unplaced (.var (ρ name))
  | .mk (.binary op left right) _ => .unplaced (.binary op (left.respell ρ) (right.respell ρ))
  | .mk (.signed sign value) _ => .unplaced (.signed sign (value.respell ρ))
  | .mk (.step name op fixity) _ => .unplaced (.step (ρ name) op fixity)
  | .mk (.call name args) _ => .unplaced (.call name (Node.respellAll ρ args))
  | .mk (.function name params ret body) _ =>
    .unplaced (.function name (params.map (Param.respell ρ)) ret (Node.respellAll ρ body))
  | .mk (.declare name ty (some value)) _ =>
    .unplaced (.declare (ρ name) ty (some (value.respell ρ)))
  | .mk (.declare name ty none) _ => .unplaced (.declare (ρ name) ty none)
  | .mk (.assign name value) _ => .unplaced (.assign (ρ name) (value.respell ρ))
  | .mk (.store address value) _ => .unplaced (.store (address.respell ρ) (value.respell ρ))
  | .mk (.addressOf name) _ => .unplaced (.addressOf (ρ name))
  | .mk (.cast value ty mode) _ => .unplaced (.cast (value.respell ρ) ty mode)
  | .mk (.conditional condition body otherwise) _ =>
    .unplaced (.conditional (condition.respell ρ) (Node.respellAll ρ body) (otherwise.respell ρ))
  | .mk (.whileLoop condition body) _ =>
    .unplaced (.whileLoop (condition.respell ρ) (Node.respellAll ρ body))
  | .mk (.forLoop start condition step body) _ =>
    .unplaced (.forLoop (start.respell ρ) (condition.respell ρ) (step.respell ρ)
      (Node.respellAll ρ body))
  | .mk (.ret (some value)) _ => .unplaced (.ret (some (value.respell ρ)))
  | .mk (.included path program) _ => .unplaced (.included path (Node.respellAll ρ program))
  | .mk form _ => .unplaced form

/-- A list of nodes in another spelling. -/
def Node.respellAll (ρ : String → String) : List Node → List Node
  | [] => []
  | n :: ns => n.respell ρ :: Node.respellAll ρ ns

/-- What follows the block of a conditional, in another spelling. -/
def Otherwise.respell (ρ : String → String) : Otherwise → Otherwise
  | .absent => .absent
  | .chained n => .chained (n.respell ρ)
  | .block body => .block (Node.respellAll ρ body)

end

/-- A program in another spelling. -/
def Program.respell (ρ : String → String) (p : Program) : Program := ⟨Node.respellAll ρ p.body⟩

/-! ### Renumbering -/

/-- The label with `k` added to its number. -/
def Label.shift (k : Nat) (l : Label) : Label := { l with number := k + l.number }

/-- Whether a line is a comment. -/
def Line.isComment : Line → Bool
  | comment _ => true
  | _ => false

/-- The operand with its label replaced. -/
def Operand.relabel (f : Label → Label) : Operand → Operand
  | label l => label (f l)
  | words l => words (f l)
  | reg r => reg r
  | imm n => imm n
  | bits w => bits w
  | mem m => mem m

/-- The instruction with its labels replaced. -/
def Instr.relabel (f : Label → Label) : Instr → Instr
  | mov d s => mov (d.relabel f) (s.relabel f)
  | movzx d s => movzx d (s.relabel f)
  | push s => push (s.relabel f)
  | arith op d s => arith op (d.relabel f) (s.relabel f)
  | unary op d => unary op (d.relabel f)
  | jmp l => jmp (f l)
  | jcc c l => jcc c (f l)
  | call l => call (f l)
  | i => i

/-- The line with its labels replaced. -/
def Line.relabel (f : Label → Label) : Line → Line
  | instr i => instr (i.relabel f)
  | label l => label (f l)
  | constant l n => constant (f l) n
  | bytes l data => bytes (f l) data
  | comment t => comment t
  | verbatim t => verbatim t

/-- What two compilations have counted together. -/
def Stats.plus (a b : Stats) : Stats :=
  ⟨a.functions + b.functions, a.scopes + b.scopes, a.labels + b.labels, a.heap + b.heap,
    a.frees + b.frees, a.calls + b.calls⟩

/-! ### Failures -/

/-- A cause with the name of a variable in another spelling. -/
def Cause.respell (ρ : String → String) : Cause → Cause
  | .unresolvedSymbol .variable name => .unresolvedSymbol .variable (ρ name)
  | .duplicateDeclaration .variable name => .duplicateDeclaration .variable (ρ name)
  | c => c

theorem Cause.respell_id (c : Cause) : c.respell id = c := by
  unfold Cause.respell
  split <;> rfl

/-- The same failure, but for the spelling of a variable and for the place. -/
def Failure.Respells (ρ : String → String) : Failure → Failure → Prop
  | .rejected d, .rejected d' => d'.cause = d.cause.respell ρ
  | .fault f, .fault f' => f' = f
  | _, _ => False

/-! ### What stands for what -/

/-- In which respects two compilations may differ. -/
structure Likeness where
  /-- The session that is behind the other one: its numbers start where that one ended, and its
  counts are added. -/
  behind : Session
  /-- The name that a variable has in the other one. -/
  spell : String → String
  injective : Function.Injective spell
  /-- How many scopes there are after the library is set up. -/
  library : Nat
  /-- Which places of the other program may stand for a place of the one. -/
  place : Location → Location → Prop

/-- The same failure, but for the spelling of a variable and for a place that may differ. -/
def Failure.Alike (Λ : Likeness) : Failure → Failure → Prop
  | .rejected d, .rejected d' => d'.cause = d.cause.respell Λ.spell ∧ Λ.place d.location d'.location
  | .fault f, .fault f' => f' = f
  | _, _ => False

namespace Likeness

variable (Λ : Likeness)

/-- The label in the place of another one.  The default label stays as it is. -/
def label (l : Label) : Label := if l = default then l else l.shift Λ.behind.nextLabel

/-- The line in the place of another one.  A comment is left out. -/
def line? (l : Line) : Option Line := if l.isComment then none else some (l.relabel Λ.label)

/-- A piece of code in the place of another one. -/
def code (c : Code) : Code := c.filterMap Λ.line?

/-- The id in the place of another one. -/
def reclaim (i : ReclaimId) : ReclaimId := ⟨Λ.behind.nextReclaim + i.number⟩

/-- What a value carries. -/
def ownership : Ownership → Ownership
  | .plain => .plain
  | .fresh i => .fresh (Λ.reclaim i)
  | .borrowed i => .borrowed (Λ.reclaim i)

/-- The value in the place of another one. -/
def lowered (v : Lowered) : Lowered := ⟨v.ty, Λ.ownership v.ownership, Λ.code v.code⟩

/-- The variable in the place of another one. -/
def var (v : Variable) : Variable :=
  { v with name := Λ.spell v.name, reclaim := v.reclaim.map Λ.reclaim }

/-- The exit of a function body. -/
def functionExit (m : FunctionExit) : FunctionExit :=
  { m with returnLabel := Λ.label m.returnLabel }

/-- The exits of a loop body. -/
def loopExit (m : LoopExit) : LoopExit := ⟨Λ.label m.top, Λ.label m.next, Λ.label m.exit⟩

/-- The frame of a function. -/
def functionFrame (f : FunctionFrame) : FunctionFrame :=
  { f with exit := Λ.functionExit f.exit, skip := Λ.label f.skip }

/-- The frame of a round. -/
def loopFrame (f : LoopFrame) : LoopFrame := ⟨f.scope, Λ.loopExit f.exits, Λ.label f.done⟩

/-- The entries of a free set. -/
def entries (es : List (ReclaimId × Staged)) : List (ReclaimId × Staged) :=
  es.map fun e => (Λ.reclaim e.1, e.2)

/-- The free set in the place of another one. -/
def freeSet (s : FreeSet) : FreeSet :=
  ⟨Λ.entries s.entries, List.pairwise_map.2 (s.ascending.imp fun h => Nat.add_lt_add_left h _)⟩

/-- The listing in the place of another one. -/
def listing (l : Listing) : Listing :=
  ⟨Λ.code l.data, Λ.code l.functions, Λ.code l.program, l.literals.map fun x => (x.1, Λ.label x.2)⟩

/-- The session in the place of another one, with any notices and files. -/
def session (s : Session) (journal : List Notice) (included : List String) : Session where
  nextLabel := Λ.behind.nextLabel + s.nextLabel
  nextReclaim := Λ.behind.nextReclaim + s.nextReclaim
  included := included
  stats := Λ.behind.stats.plus s.stats
  journal := journal

/-- The scope is one of the program: the outermost one, which the program shares with the library,
or one that is opened after the library is set up. -/
def InProgram (i : Nat) : Prop := i = 0 ∨ Λ.library ≤ i

end Likeness

/-- The second one is what the function makes of the first one. -/
def Via {α β : Type} (f : α → β) (a : α) (b : β) : Prop := b = f a

theorem Via.option {α β : Type} {f : α → β} (x : Option α) : Option.Rel (Via f) x (x.map f) := by
  cases x with
  | none => exact .none
  | some a => exact .some rfl

/-- Two signatures that differ in the numbers of labels and in the names of parameters. -/
structure Signature.Alike (Λ : Likeness) (f g : Signature) : Prop where
  name : g.name = f.name
  ret : g.ret = f.ret
  types : g.params.map Param.ty = f.params.map Param.ty
  entry : g.entry = Λ.label f.entry
  returnLabel : g.returnLabel = Λ.label f.returnLabel

/-- Two scopes of the program that differ in numbers and in the spelling of variables. -/
structure Scope.Alike (Λ : Likeness) (a b : Scope) : Prop where
  parent : b.parent = a.parent
  vars : b.vars = a.vars.map Λ.var
  functions : List.Forall₂ (Signature.Alike Λ) a.functions b.functions
  used : b.used = a.used
  freeSet : b.freeSet = Λ.freeSet a.freeSet
  function : b.function = a.function.map Λ.functionExit
  loop : b.loop = a.loop.map Λ.loopExit
  frameSize : b.frameSize = Λ.label a.frameSize
  inside : ∀ p, a.parent = some p → Λ.InProgram p

/-- Two trees of scopes in which those of the program are alike. -/
structure ScopeTree.Alike (Λ : Likeness) (t u : ScopeTree) : Prop where
  size : u.size = t.size
  library : Λ.library ≤ t.size
  scope : ∀ i, Λ.InProgram i → (t.scope i).Alike Λ (u.scope i)

/-- Two sessions past the first label that differ in numbers, in notices and in the files that were
included, which `I` relates. -/
inductive Session.Alike (Λ : Likeness) (I : List String → List String → Prop) (s : Session) :
    Session → Prop
  | mk {journal included} : I s.included included → 0 < s.nextLabel →
    s.Alike Λ I (Λ.session s journal included)

/-- Two states in a scope of the program that are alike. -/
structure State.Alike (Λ : Likeness) (I : List String → List String → Prop) (s t : State) :
    Prop where
  session : s.session.Alike Λ I t.session
  listing : t.listing = Λ.listing s.listing
  tree : s.tree.Alike Λ t.tree
  current : t.current = s.current
  root : s.root = 0 ∧ t.root = 0
  target : t.target = s.target
  comments : t.comments = false
  inside : Λ.InProgram s.current

/-- Two runs that end alike: both well, with results that `R` relates, or both not. -/
inductive EndsAlike (Λ : Likeness) (J : List String → List String → Prop) {α β : Type}
    (R : α → β → Prop) : EStateM.Result Failure State α → EStateM.Result Failure State β → Prop
  | ok {a b s t} : R a b → s.Alike Λ J t → EndsAlike Λ J R (.ok a s) (.ok b t)
  | error {e e' s t} : e.Alike Λ e' → t.session.stats = Λ.behind.stats.plus s.session.stats →
    EndsAlike Λ J R (.error e s) (.error e' t)

/-- Two actions that end alike from states that are alike.  Before, `I` relates the files that were
included, and afterwards `J`. -/
def Mirrors (Λ : Likeness) (I J : List String → List String → Prop) {α β : Type} (R : α → β → Prop)
    (x : Lower α) (y : Lower β) : Prop :=
  ∀ s t, s.Alike Λ I t → EndsAlike Λ J R (x s) (y t)

/-- Two results that are alike: both values, which `R` relates, or both errors, which `E`
relates. -/
inductive ResultsAlike {ε α β : Type} (E : ε → ε → Prop) (R : α → β → Prop) :
    Except ε α → Except ε β → Prop
  | ok {a b} : R a b → ResultsAlike E R (.ok a) (.ok b)
  | error {e e'} : E e e' → ResultsAlike E R (.error e) (.error e')

namespace Likeness

variable (Λ : Likeness)

/-! ### Labels and ids -/

@[simp] theorem label_default : Λ.label default = default := if_pos rfl

/-- A label that is made after the first one is renumbered. -/
theorem label_fresh {n : Nat} (hn : 0 < n) (hint : String) :
    Λ.label (.fresh n hint) = .fresh (Λ.behind.nextLabel + n) hint := by
  refine if_neg fun h => ?_
  have hzero : n = 0 := congrArg Label.number h
  omega

theorem reclaim_inj {i j : ReclaimId} : Λ.reclaim i = Λ.reclaim j ↔ i = j := by
  obtain ⟨i⟩ := i
  obtain ⟨j⟩ := j
  simp [reclaim]

theorem reclaim_beq (i j : ReclaimId) : (Λ.reclaim i == Λ.reclaim j) = (i == j) :=
  Bool.eq_iff_iff.2 (by simp [reclaim_inj])

theorem ownership_inj {a b : Ownership} : Λ.ownership a = Λ.ownership b ↔ a = b := by
  cases a <;> cases b <;> simp [ownership, reclaim_inj]

/-! ### Code -/

@[simp] theorem code_append (a b : Code) : Λ.code (a ++ b) = Λ.code a ++ Λ.code b :=
  List.filterMap_append

theorem code_note {note : Code} (h : Code.IsNote note) : Λ.code note = [] := by
  rcases h with rfl | ⟨text, rfl⟩ <;> rfl

@[simp] theorem code_load (r : Reg) (m : Mem) : Λ.code [Asm.load r m] = [Asm.load r m] := by
  unfold Asm.load
  split <;> rfl

@[simp] theorem code_store (m : Mem) (r : Reg) : Λ.code [Asm.store m r] = [Asm.store m r] := by
  unfold Asm.store
  split <;> rfl

@[simp] theorem code_chase (depth : Nat) :
    Λ.code (Convention.chase depth).1 = (Convention.chase depth).1 := by
  unfold Convention.chase
  split
  · rfl
  · show Asm.mov Reg.esi Reg.ebp :: Λ.code (List.replicate depth _) = _
    have hup : Λ.line? (Asm.mov Reg.esi (Mem.dword Reg.esi 0)) =
      some (Asm.mov Reg.esi (Mem.dword Reg.esi 0)) := rfl
    rw [code, List.filterMap_replicate_of_some hup]

theorem code_pushArguments :
    ∀ {slots : List Slot} {c : Code}, Convention.pushArguments slots = .ok c → Λ.code c = c
  | [], c, h => by
    cases h
    rfl
  | x :: rest, c, h => by
    obtain ⟨more, m, hmore, -, rfl⟩ := Convention.pushArguments_cons_eq_ok.1 h
    rw [code_append, code_pushArguments hmore]
    rfl

theorem call_label (slots : List Slot) (depth : Nat) (entry : Label) :
    Convention.call slots depth (Λ.label entry) = (Convention.call slots depth entry).map
    Λ.code := by
  unfold Convention.call
  cases hpushes : Convention.pushArguments slots with
  | error f => rfl
  | ok pushes =>
    cases Convention.cleanupBytes slots.length with
    | error f => rfl
    | ok bytes =>
      show Except.ok _ = Except.ok (Λ.code (pushes ++ (Convention.chase depth).1 ++ _))
      rw [code_append, code_append, Λ.code_pushArguments hpushes, code_chase]
      rfl

theorem lowered_plain (ty : ScalarType) {c c' : Code} (h : c' = Λ.code c) :
    Lowered.plain ty c' = Λ.lowered (.plain ty c) :=
  congrArg (Lowered.plain ty) h

theorem contains_map_reclaim (keep : List ReclaimId) (i : ReclaimId) :
    (keep.map Λ.reclaim).contains (Λ.reclaim i) = keep.contains i := by
  induction keep with
  | nil => rfl
  | cons j keep ih => rw [List.map_cons, List.contains_cons, List.contains_cons, reclaim_beq, ih]

/-! ### Free sets and listings -/

theorem entries_insertEntry (i : ReclaimId) (e : Staged) : ∀ es : List (ReclaimId × Staged),
    FreeSet.insertEntry (Λ.reclaim i) e (Λ.entries es) = Λ.entries (FreeSet.insertEntry i e es)
  | [] => rfl
  | x :: xs => by
    show FreeSet.insertEntry _ _ ((Λ.reclaim x.1, x.2) :: Λ.entries xs) =
      Λ.entries (FreeSet.insertEntry i e (x :: xs))
    unfold FreeSet.insertEntry
    have hlt : (Λ.reclaim i).number < (Λ.reclaim x.1).number ↔ i.number < x.1.number := by
      unfold reclaim
      dsimp only
      omega
    simp only [hlt, reclaim_inj]
    split
    · rfl
    · split
      · rfl
      · exact congrArg _ (entries_insertEntry i e xs)

theorem freeSet_insert (s : FreeSet) (i : ReclaimId) (e : Staged) :
    (Λ.freeSet s).insert (Λ.reclaim i) e = Λ.freeSet (s.insert i e) :=
  FreeSet.mk.injEq .. ▸ Λ.entries_insertEntry i e s.entries

theorem freeSet_erase (s : FreeSet) (i : ReclaimId) :
    (Λ.freeSet s).erase (Λ.reclaim i) = Λ.freeSet (s.erase i) := by
  refine FreeSet.mk.injEq .. ▸ ?_
  show (Λ.entries s.entries).filter _ = Λ.entries (s.entries.filter _)
  unfold entries
  rw [List.filter_map]
  refine congrArg _ (List.filter_congr fun x _ => ?_)
  show (Λ.reclaim x.1 != Λ.reclaim i) = (x.1 != i)
  rw [bne, bne, reclaim_beq]

theorem var_stage (v : Variable) (s : FreeSet) :
    (Λ.var v).stage (Λ.freeSet s) = Λ.freeSet (v.stage s) := by
  obtain ⟨name, ty, slot, sizeCell, id⟩ := v
  cases id with
  | none => rfl
  | some i =>
    cases sizeCell with
    | none => rfl
    | some cell => exact Λ.freeSet_insert s i _

theorem var_lent (v : Variable) : (Λ.var v).lent = Λ.ownership v.lent := by
  obtain ⟨name, ty, slot, sizeCell, id⟩ := v
  cases id <;> rfl

theorem listing_append (l : Listing) (x : Section) (c : Code) :
    (Λ.listing l).append x (Λ.code c) = Λ.listing (l.append x c) := by
  unfold Listing.append
  cases x <;> simp [listing]

theorem listing_literal? (l : Listing) (text : String) :
    (Λ.listing l).literal? text = (l.literal? text).map Λ.label := by
  unfold Listing.literal? listing
  rw [List.find?_map]
  show Option.map _ (Option.map _ (l.literals.find? _)) = _
  rw [Option.map_map, Option.map_map]
  rfl

theorem listing_assemble (l : Listing) (entry : String) :
    (Λ.listing l).assemble entry = Λ.code (l.assemble entry) := by
  unfold Listing.assemble
  simp only [code_append]
  rfl

end Likeness

/-! ### Scopes that are alike -/

theorem Signature.Alike.length_params {Λ : Likeness} {f g : Signature} (h : f.Alike Λ g) :
    g.params.length = f.params.length := by
  simpa using congrArg List.length h.types

namespace Scope.Alike

variable {Λ : Likeness} {a b : Scope}

theorem fresh {p : Nat} (hp : Λ.InProgram p) (l : Label) :
    (Scope.fresh (some p) l).Alike Λ (.fresh (some p) (Λ.label l)) :=
  ⟨rfl, rfl, .nil, rfl, rfl, rfl, rfl, rfl, fun _ h => Option.some.inj h ▸ hp⟩

theorem default : (default : Scope).Alike Λ default :=
  ⟨rfl, rfl, .nil, rfl, rfl, rfl, rfl, Λ.label_default.symm, nofun⟩

/-- A variable is found under its other name. -/
theorem getVariable? (h : a.Alike Λ b) (name : String) :
    b.getVariable? (Λ.spell name) = (a.getVariable? name).map Λ.var := by
  unfold Scope.getVariable?
  rw [h.vars, List.find?_map]
  refine congrArg _ (congrArg (List.find? · _) (funext fun v => ?_))
  exact Bool.eq_iff_iff.2 (by simp [Likeness.var, Λ.injective.eq_iff])

theorem getFunction? (h : a.Alike Λ b) (name : String) :
    Option.Rel (Signature.Alike Λ) (a.getFunction? name) (b.getFunction? name) := by
  have hf := h.functions
  unfold Scope.getFunction?
  generalize a.functions = fs, b.functions = gs at hf
  induction hf with
  | nil => exact .none
  | cons hfg _ ih =>
    rw [List.find?_cons, List.find?_cons, hfg.name]
    split
    · exact .some hfg
    · exact ih

theorem isSome_getFunction? (h : a.Alike Λ b) (name : String) :
    (b.getFunction? name).isSome = (a.getFunction? name).isSome := by
  have hrel := h.getFunction? name
  generalize a.getFunction? name = x, b.getFunction? name = y at hrel
  cases hrel <;> rfl

theorem reserve (h : a.Alike Λ b) (size : Nat) :
    ResultsAlike Eq (fun x y => y.1 = x.1 ∧ x.2.Alike Λ y.2) (a.reserve size) (b.reserve size) := by
  unfold Scope.reserve
  rw [h.used]
  split
  · exact .error rfl
  · exact .ok ⟨rfl, { h with used := rfl }⟩

theorem addVariable (h : a.Alike Λ b) (v : Variable) :
    { a with vars := a.vars ++ [v] }.Alike Λ { b with vars := b.vars ++ [Λ.var v] } :=
  { h with vars := by simp [h.vars] }

/-- A variable is declared under its other name, or refused under it. -/
theorem declareVariable (h : a.Alike Λ b) (name : String) (ty : ScalarType) {l l' : Location}
    (hl : Λ.place l l') :
      ResultsAlike (Failure.Alike Λ) (fun x y => y.1 = Λ.var x.1 ∧ x.2.Alike Λ y.2)
      (a.declareVariable name ty l) (b.declareVariable (Λ.spell name) ty l') := by
  unfold Scope.declareVariable
  rw [h.getVariable?, Option.isSome_map]
  split
  · exact .error ⟨rfl, hl⟩
  · have hslot := h.reserve ty.size
    generalize a.reserve ty.size = x, b.reserve ty.size = y at hslot
    cases hslot with
    | error he => exact .error he.symm
    | @ok x y hxy =>
      obtain ⟨slot, a⟩ := x
      obtain ⟨slot', b⟩ := y
      obtain ⟨rfl, hab⟩ := hxy
      dsimp only
      split
      · have hcell := hab.reserve 4
        generalize a.reserve 4 = x, b.reserve 4 = y at hcell
        cases hcell with
        | error he => exact .error he.symm
        | @ok x y hxy =>
          obtain ⟨cell, a⟩ := x
          obtain ⟨cell', b⟩ := y
          obtain ⟨rfl, hab⟩ := hxy
          exact .ok ⟨rfl, hab.addVariable _⟩
      · exact .ok ⟨rfl, hab.addVariable _⟩

theorem declareFunction (h : a.Alike Λ b) {f g : Signature} (hfg : f.Alike Λ g) {l l' : Location}
    (hl : Λ.place l l') :
    ResultsAlike (Failure.Alike Λ) (Scope.Alike Λ) (a.declareFunction f l)
    (b.declareFunction g l') := by
  unfold Scope.declareFunction
  rw [hfg.name, h.isSome_getFunction?]
  split
  · exact .error ⟨rfl, hl⟩
  · exact .ok { h with functions := List.rel_append h.functions (.cons hfg .nil) }

theorem pendingFrees (h : a.Alike Λ b) : b.pendingFrees = Λ.freeSet a.pendingFrees := by
  have hsorted :=
    List.map_mergeSort (r := fun v w : Variable => decide (v.slot.offset ≤ w.slot.offset))
    (s := fun v w : Variable => decide (v.slot.offset ≤ w.slot.offset)) (f := Λ.var)
    (l := a.vars.filter (·.reclaim.isSome)) fun _ _ _ _ => rfl
  have howners : b.owners = a.owners.map Λ.var := by
    unfold Scope.owners
    rw [hsorted, h.vars, List.filter_map]
    exact congrArg (List.mergeSort · _)
      (congrArg _ (List.filter_congr fun v _ => Option.isSome_map))
  unfold Scope.pendingFrees
  rw [howners, h.freeSet, List.foldl_map]
  generalize a.freeSet = pending
  induction a.owners generalizing pending with
  | nil => rfl
  | cons v vs ih =>
    rw [List.foldl_cons, List.foldl_cons, Λ.var_stage]
    exact ih _

theorem owns (h : a.Alike Λ b) (i : ReclaimId) : b.owns (Λ.reclaim i) = a.owns i := by
  unfold Scope.owns
  rw [h.vars, List.any_map]
  refine congrArg a.vars.any (funext fun v => ?_)
  show (v.reclaim.map Λ.reclaim == some (Λ.reclaim i)) = (v.reclaim == some i)
  cases v.reclaim with
  | none => rfl
  | some j => exact Λ.reclaim_beq j i

theorem bind (h : a.Alike Λ b) (name : String) (i : ReclaimId) :
    (a.bind name i).Alike Λ (b.bind (Λ.spell name) (Λ.reclaim i)) := by
  refine { h with vars := ?_ }
  show b.vars.map _ = (a.vars.map _).map _
  rw [h.vars, List.map_map, List.map_map]
  refine List.map_congr_left fun v _ => ?_
  show (if Λ.spell v.name == Λ.spell name then _ else _) = Λ.var (if v.name == name then _ else _)
  by_cases hv : v.name = name
  · simp [hv, Likeness.var]
  · simp [hv, Λ.injective.eq_iff, Likeness.var]

end Scope.Alike

/-! ### Trees that are alike -/

namespace ScopeTree.Alike

variable {Λ : Likeness} {t u : ScopeTree} {i : Nat}

theorem push (h : t.Alike Λ u) (hi : Λ.InProgram i) (l : Label) :
    (t.push (some i) l).Alike Λ (u.push (some i) (Λ.label l)) := by
  refine ⟨?_, ?_, fun j hj => ?_⟩
  · rw [size_push, size_push, h.size]
  · rw [size_push]
    exact Nat.le_succ_of_le h.library
  · rcases Nat.lt_trichotomy j t.size with hlt | rfl | hgt
    · rw [scope_push_of_lt _ _ hlt, scope_push_of_lt _ _ (h.size ▸ hlt)]
      exact h.scope j hj
    · rw [scope_push_size, ← h.size, scope_push_size]
      exact .fresh hi l
    · rw [scope_of_le (by rw [size_push]; exact hgt),
        scope_of_le (by rw [size_push, h.size]; exact hgt)]
      exact .default

theorem set (h : t.Alike Λ u) (i : ScopeId) {a b : Scope} (hab : a.Alike Λ b) :
    (t.set i a).Alike Λ (u.set i b) := by
  refine ⟨?_, ?_, fun j hj => ?_⟩
  · rw [size_set, size_set, h.size]
  · rw [size_set]
    exact h.library
  · by_cases hi : j = i
    · subst hi
      by_cases hlt : j < t.size
      · rw [scope_set_self _ hlt, scope_set_self _ (h.size ▸ hlt)]
        exact hab
      · rw [scope_of_le (by simpa using hlt), scope_of_le (by simpa [h.size] using hlt)]
        exact .default
    · rw [scope_set_of_ne _ hi, scope_set_of_ne _ hi]
      exact h.scope j hj

theorem pathWithin (h : t.Alike Λ u) : ∀ (n : Nat) {i : Nat}, Λ.InProgram i →
    u.pathWithin n i = t.pathWithin n i ∧ ∀ j ∈ t.pathWithin n i, Λ.InProgram j
  | 0, _, _ => ⟨rfl, fun _ hj => nomatch hj⟩
  | n + 1, i, hi => by
    unfold ScopeTree.pathWithin
    rw [(h.scope i hi).parent]
    cases hp : (t.scope i).parent with
    | none => exact ⟨rfl, fun j hj => List.mem_singleton.1 hj ▸ hi⟩
    | some p =>
      obtain ⟨hpath, hmem⟩ := h.pathWithin n ((h.scope i hi).inside p hp)
      refine ⟨congrArg _ hpath, fun j hj => ?_⟩
      rcases List.mem_cons.1 hj with rfl | hj
      · exact hi
      · exact hmem j hj

theorem path (h : t.Alike Λ u) (hi : Λ.InProgram i) : u.path i = t.path i := by
  unfold ScopeTree.path
  rw [h.size]
  exact (h.pathWithin _ hi).1

/-- What lies around a scope of the program is of the program. -/
theorem inProgram_of_mem_path (h : t.Alike Λ u) (hi : Λ.InProgram i) {j : Nat} (hj : j ∈ t.path i) :
    Λ.InProgram j :=
  (h.pathWithin _ hi).2 j hj

theorem chain (h : t.Alike Λ u) (hi : Λ.InProgram i) (depth : Nat) :
    u.chain i depth = t.chain i depth := by
  unfold ScopeTree.chain
  rw [h.path hi]

theorem find (h : t.Alike Λ u) (hi : Λ.InProgram i) (hpq : ∀ a b : Scope, a.Alike Λ b → q b = p a) :
    u.find i q = t.find i p := by
  have hagree (d j : Nat) (hj : (t.path i)[d]? = some j) : q (u.scope j) = p (t.scope j) :=
    hpq _ _ (h.scope j (h.inProgram_of_mem_path hi (List.mem_of_getElem? hj)))
  refine Option.ext fun r => ?_
  rw [find_eq_some_iff, find_eq_some_iff, h.path hi]
  refine and_congr_right fun hr => ?_
  rw [hagree _ _ hr]
  refine and_congr_right fun _ => forall_congr' fun d => forall_congr' fun j =>
      imp_congr_right fun _ =>
    forall_congr' fun hj => ?_
  rw [hagree _ _ hj]

theorem inProgram_of_find (h : t.Alike Λ u) (hi : Λ.InProgram i) {r : Resolved}
    (hr : t.find i p = some r) : Λ.InProgram r.scope :=
  h.inProgram_of_mem_path hi (List.mem_of_getElem? (find_eq_some_iff.1 hr).1)

/-- A search for something that scopes hold finds it in the same scope. -/
theorem lookup (h : t.Alike Λ u) (hi : Λ.InProgram i) {α β : Type} {R : α → β → Prop}
    {f : Scope → Option α} {g : Scope → Option β} (hpq : ∀ a b : Scope, a.Alike Λ b → q b = p a)
    (hfg : ∀ a b : Scope, a.Alike Λ b → Option.Rel R (f a) (g b)) :
    Option.Rel (fun x y => y.1 = x.1 ∧ Λ.InProgram x.1.scope ∧ R x.2 y.2)
      (do let r ← t.find i p
          let x ← f (t.scope r.scope)
          some (r, x))
      (do let r ← u.find i q
          let y ← g (u.scope r.scope)
          some (r, y)) := by
  rw [h.find hi hpq]
  cases hr : t.find i p with
  | none => exact .none
  | some r =>
    have hin := h.inProgram_of_find hi hr
    have hrel := hfg _ _ (h.scope _ hin)
    show Option.Rel _ ((f (t.scope r.scope)).bind _) ((g (u.scope r.scope)).bind _)
    generalize f (t.scope r.scope) = x, g (u.scope r.scope) = y at hrel
    cases hrel with
    | none => exact .none
    | some hxy => exact .some ⟨rfl, hin, hxy⟩

theorem depthToRoot (h : t.Alike Λ u) (hi : Λ.InProgram i) : u.depthToRoot i = t.depthToRoot i := by
  unfold ScopeTree.depthToRoot
  rw [h.find (p := fun s => s.parent.isNone) hi fun a b hab => congrArg Option.isNone hab.parent]

end ScopeTree.Alike

/-! ### Actions that mirror each other -/

/-- What has been counted is added to what was counted behind. -/
theorem State.Alike.stats {Λ : Likeness} {I : List String → List String → Prop} {s t : State}
    (h : s.Alike Λ I t) : t.session.stats = Λ.behind.stats.plus s.session.stats := by
  have hsession := h.session
  generalize t.session = σ at hsession
  cases hsession
  rfl

namespace Mirrors

variable {Λ : Likeness} {I J K : List String → List String → Prop} {α β γ δ : Type}
  {R : α → β → Prop} {S : γ → δ → Prop} {l l' : Location}

theorem pure {a : α} {b : β} (h : R a b) : Mirrors Λ I I R (Pure.pure a) (Pure.pure b) :=
  fun _ _ hst => .ok h hst

theorem pureVia {φ : α → β} {a : α} {b : β} (h : b = φ a) :
    Mirrors Λ I I (Via φ) (Pure.pure a) (Pure.pure b) := pure h

theorem bind {x : Lower α} {y : Lower β} {f : α → Lower γ} {g : β → Lower δ}
    (hxy : Mirrors Λ I J R x y)
    (hfg : ∀ a b, R a b → Mirrors Λ J K S (f a) (g b)) : Mirrors Λ I K S (x >>= f) (y >>= g) := by
  intro s t hst
  have hends := hxy s t hst
  show EndsAlike Λ K S (EStateM.bind x f s) (EStateM.bind y g t)
  unfold EStateM.bind
  generalize x s = p, y t = q at hends
  cases hends with
  | ok hab hst' => exact hfg _ _ hab _ _ hst'
  | error he hstats => exact .error he hstats

/-- Two actions the result of one of which is known from that of the other, and what is done with
it. -/
theorem next {x : Lower α} {y : Lower β} {φ : α → β} {f : α → Lower γ} {g : β → Lower δ}
    (hxy : Mirrors Λ I J (Via φ) x y) (hfg : ∀ a, Mirrors Λ J K S (f a) (g (φ a))) :
    Mirrors Λ I K S (x >>= f) (y >>= g) :=
  hxy.bind fun a b (hab : b = φ a) => hab ▸ hfg a

theorem reject {c c' : Cause} (hl : Λ.place l l') (h : c' = c.respell Λ.spell) :
    Mirrors Λ I J R (Lower.reject c l) (Lower.reject c' l') :=
  fun _ _ hst => .error ⟨h, hl⟩ hst.stats

theorem checkedAlike {x : Except Fault α} {y : Except Fault β} (h : ResultsAlike Eq R x y) :
    Mirrors Λ I I R (Lower.checked x) (Lower.checked y) := by
  cases h with
  | ok hab => exact pure hab
  | error he => exact fun _ _ hst => .error he.symm hst.stats

theorem checkedVia {x : Except Fault α} {y : Except Fault β} {φ : α → β} (h : y = x.map φ) :
    Mirrors Λ I I (Via φ) (Lower.checked x) (Lower.checked y) := by
  subst h
  exact checkedAlike (by cases x <;> constructor <;> rfl)

theorem checked (x : Except Fault α) : Mirrors Λ I I (Via id) (Lower.checked x) (Lower.checked x) :=
  checkedVia (by cases x <;> rfl)

theorem accepted {x : Except Failure α} {y : Except Failure β}
    (h : ResultsAlike (Failure.Alike Λ) R x y) :
    Mirrors Λ I I R (Lower.accepted x) (Lower.accepted y) := by
  cases h with
  | ok hab => exact pure hab
  | error he => exact fun _ _ hst => .error he hst.stats

theorem ite {c : Prop} [Decidable c] {x x' : Lower α} {y y' : Lower β} (hx : Mirrors Λ I J R x y)
    (hy : Mirrors Λ I J R x' y') : Mirrors Λ I J R (if c then x else x') (if c then y else y') := by
  split
  · exact hx
  · exact hy

theorem get : Mirrors Λ I I (State.Alike Λ I) (MonadState.get : Lower State) MonadState.get :=
  fun _ _ h => .ok h h

theorem modify {f g : State → State} (h : ∀ s t : State, s.Alike Λ I t → (f s).Alike Λ I (g t)) :
    Mirrors Λ I I (Via id) (modify f : Lower PUnit) (modify g) :=
  fun s t hst => .ok rfl (h s t hst)

theorem forM {f g : α → Lower PUnit} :
    ∀ as : List α, (∀ a ∈ as, Mirrors Λ I I (Via id) (f a) (g a)) →
    Mirrors Λ I I (Via id) (as.forM f) (as.forM g)
  | [], _ => pure rfl
  | a :: as, h =>
    next (h a List.mem_cons_self) fun _ => forM as fun b hb => h b (List.mem_cons_of_mem _ hb)

/-! ### The session and the listing -/

theorem withSession {f : Session → α × Session} {g : Session → β × Session}
    (h : ∀ s t : Session, s.Alike Λ I t → R (f s).1 (g t).1 ∧ (f s).2.Alike Λ J (g t).2) :
    Mirrors Λ I J R (Lower.withSession f) (Lower.withSession g) := by
  intro s t hst
  obtain ⟨hR, hsession⟩ := h _ _ hst.session
  exact .ok hR { hst with session := hsession }

theorem weaken {x : Lower α} {y : Lower β} (hI : ∀ a b, I a b → J a b) (h : Mirrors Λ J K R x y) :
    Mirrors Λ I K R x y := by
  intro s t hst
  have hsession (σ : Session) :
    s.session.Alike Λ I σ → s.session.Alike Λ J σ := fun ⟨hab, hs⟩ => .mk (hI _ _ hab) hs
  exact h s t { hst with session := hsession _ hst.session }

/-- A file that was included in both compilations before, or in neither. -/
theorem markIncluded {path : String} (hseen : ∀ a b, I a b → (path ∈ b ↔ path ∈ a))
    (hold : ∀ a b, I a b → path ∈ a → J a b)
    (hnew : ∀ a b, I a b → path ∉ a → J (path :: a) (path :: b)) :
    Mirrors Λ I J (Via id) (Lower.withSession (·.markIncluded path))
    (Lower.withSession (·.markIncluded path)) := by
  refine withSession fun s t hst => ?_
  obtain ⟨hI, hs⟩ := hst
  unfold Session.markIncluded
  simp only [List.contains_iff_mem, Likeness.session, hseen _ _ hI]
  split
  · next hmem => exact ⟨rfl, .mk (hold _ _ hI hmem) hs⟩
  · next hmem => exact ⟨rfl, .mk (hnew _ _ hI hmem) hs⟩

theorem mintLabel (hint : String) :
    Mirrors Λ I I (Via Λ.label) (Lower.mintLabel hint) (Lower.mintLabel hint) :=
  withSession fun _ _ ⟨hI, hs⟩ => ⟨(Λ.label_fresh hs hint).symm, .mk hI (Nat.succ_pos _)⟩

theorem mintReclaim : Mirrors Λ I I (Via Λ.reclaim) Lower.mintReclaim Lower.mintReclaim :=
  withSession fun _ _ ⟨hI, hs⟩ => ⟨rfl, .mk hI hs⟩

theorem tell (n n' : Notice) : Mirrors Λ I I (Via id) (Lower.tell n) (Lower.tell n') :=
  withSession fun _ _ ⟨hI, hs⟩ => ⟨rfl, .mk hI hs⟩

/-- The other compilation has no comments, whatever they would say. -/
theorem remark (text text' : String) :
    Mirrors Λ I I (Via Λ.code) (Lower.remark text) (Lower.remark text') := by
  refine bind get fun s t h => pure ?_
  show (if t.comments then _ else _) = Λ.code _
  rw [h.comments, Λ.code_note (isNote_of_remark (s := s) (t := s) rfl).1]
  rfl

theorem emit {c c' : Code} (h : c' = Λ.code c) :
    Mirrors Λ I I (Via id) (Lower.emit c) (Lower.emit c') :=
  modify fun s t hst => { hst with
    listing := by
      show t.listing.append t.target c' = _
      rw [hst.listing, hst.target, h, Λ.listing_append] }

theorem place (text : String) :
    Mirrors Λ I I (Via Λ.label) (Lower.place text) (Lower.place text) := by
  intro s t hst
  have hsession := hst.session
  show EndsAlike Λ I (Via Λ.label) (.ok (s.listing.place s.session text).1 { s with
      listing := (s.listing.place s.session text).2.1
      session := (s.listing.place s.session text).2.2 })
    (.ok (t.listing.place t.session text).1 { t with
      listing := (t.listing.place t.session text).2.1
      session := (t.listing.place t.session text).2.2 })
  rw [hst.listing]
  generalize t.session = σ at hsession
  obtain ⟨hI, hs⟩ := hsession
  unfold Listing.place
  rw [Λ.listing_literal?]
  cases s.listing.literal? text with
  | some label => exact .ok rfl { hst with session := .mk hI hs, listing := rfl }
  | none =>
    have hlabel := (Λ.label_fresh hs "str").symm
    refine .ok hlabel { hst with session := .mk hI (Nat.succ_pos _), listing := ?_ }
    show Listing.mk (Λ.code s.listing.data ++
      [.bytes (.fresh (Λ.behind.nextLabel + s.session.nextLabel) "str") _]) _ _
      (_ ++ [(text, .fresh (Λ.behind.nextLabel + s.session.nextLabel) "str")]) = _
    rw [hlabel]
    simp only [Likeness.listing, Λ.code_append, List.map_append]
    rfl

/-! ### The current scope -/

theorem scope : Mirrors Λ I I (Scope.Alike Λ) Lower.scope Lower.scope := by
  refine bind get fun s t h => pure ?_
  rw [h.current]
  exact h.tree.scope _ h.inside

theorem setScope {a b : Scope} (hab : a.Alike Λ b) :
    Mirrors Λ I I (Via id) (Lower.setScope a) (Lower.setScope b) :=
  modify fun s t h => { h with
    tree := by
      rw [h.current]
      exact h.tree.set s.current hab }

theorem reserve (size : Nat) : Mirrors Λ I I (Via id) (Lower.reserve size) (Lower.reserve size) :=
  bind scope fun _ _ hab => bind (checkedAlike (hab.reserve size)) fun _ _ hxy =>
    next (setScope hxy.2) fun _ => pure hxy.1

theorem declareVariable (name : String) (ty : ScalarType) (hl : Λ.place l l') :
    Mirrors Λ I I (Via Λ.var) (Lower.declareVariable name ty l)
    (Lower.declareVariable (Λ.spell name) ty l') :=
  bind scope fun _ _ hab => bind (accepted (hab.declareVariable name ty hl)) fun _ _ hxy =>
    next (setScope hxy.2) fun _ => pure hxy.1

theorem own (name : String) (i : ReclaimId) :
    Mirrors Λ I I (Via id) (Lower.own name i) (Lower.own (Λ.spell name) (Λ.reclaim i)) :=
  bind scope fun _ _ hab => setScope (hab.bind name i)

theorem frameSlot (slot : Slot) :
    Mirrors Λ I I (Via id) (Lower.frameSlot slot) (Lower.frameSlot slot) := checked _

/-- A scope that is opened is one of the program. -/
theorem pushScope (l : Label) :
    Mirrors Λ I I (fun i j => j = i ∧ Λ.InProgram i) (Lower.pushScope l)
    (Lower.pushScope (Λ.label l)) := by
  intro s t h
  have hsession (σ : Session) :
      s.session.Alike Λ I σ → s.session.recordScope.Alike Λ I σ.recordScope :=
    fun ⟨hI, hs⟩ => .mk hI hs
  refine .ok ⟨h.tree.size, .inr h.tree.library⟩
    { h with session := hsession _ h.session, tree := ?_ }
  rw [h.current]
  exact h.tree.push h.inside l

/-! ### Names -/

theorem resolveVariable (name : String) (hl : Λ.place l l') :
    Mirrors Λ I I (Via fun x => (x.1, Λ.var x.2)) (Lower.resolveVariable name l)
      (Lower.resolveVariable (Λ.spell name) l') := by
  refine bind get fun s t h => ?_
  have hfind (a b : Scope) (hab : a.Alike Λ b) :
      Option.Rel (Via Λ.var) (a.getVariable? name) (b.getVariable? (Λ.spell name)) := by
    rw [hab.getVariable?]
    exact Via.option _
  have hlookup : Option.Rel _ (s.tree.lookupVariable s.current name)
      (t.tree.lookupVariable s.current (Λ.spell name)) :=
    h.tree.lookup h.inside (fun a b hab => by rw [hab.getVariable?, Option.isSome_map]) hfind
  rw [h.current]
  generalize s.tree.lookupVariable s.current name = x,
    t.tree.lookupVariable s.current (Λ.spell name) = y at hlookup
  cases hlookup with
  | none => exact reject hl rfl
  | some hxy => exact pure (Prod.ext hxy.1 hxy.2.2)

theorem resolveFunction (name : String) (hl : Λ.place l l') :
    Mirrors Λ I I (fun x y => y.1 = x.1 ∧ x.2.Alike Λ y.2) (Lower.resolveFunction name l)
      (Lower.resolveFunction name l') := by
  refine bind get fun s t h => ?_
  have hlookup :
      Option.Rel _ (s.tree.lookupFunction s.current name) (t.tree.lookupFunction s.current name) :=
    h.tree.lookup h.inside (fun _ _ hab => hab.isSome_getFunction? name) fun _ _ hab =>
      hab.getFunction? name
  rw [h.current]
  generalize s.tree.lookupFunction s.current name = x, t.tree.lookupFunction s.current name =
    y at hlookup
  cases hlookup with
  | none => exact reject hl rfl
  | some hxy => exact pure ⟨hxy.1, hxy.2.2⟩

theorem enclosingLoop (statement : String) (hl : Λ.place l l') :
    Mirrors Λ I I (Via fun x => (x.1, Λ.loopExit x.2)) (Lower.enclosingLoop statement l)
      (Lower.enclosingLoop statement l') := by
  refine bind get fun s t h => ?_
  have hlookup : Option.Rel _ (s.tree.lookupLoop s.current) (t.tree.lookupLoop s.current) :=
    h.tree.lookup (R := Via Λ.loopExit) h.inside
      (fun a b hab => by rw [hab.loop, hab.function, Option.isSome_map, Option.isSome_map])
      fun a b hab => by rw [hab.loop]; exact Via.option _
  rw [h.current]
  generalize s.tree.lookupLoop s.current = x, t.tree.lookupLoop s.current = y at hlookup
  cases hlookup with
  | none => exact reject hl rfl
  | some hxy => exact pure (Prod.ext hxy.1 hxy.2.2)

theorem libraryFunction? (name : String) :
    Mirrors Λ I I (Option.Rel (Signature.Alike Λ)) (Lower.libraryFunction? name)
    (Lower.libraryFunction? name) := by
  refine bind get fun s t h => pure ?_
  rw [h.root.1, h.root.2]
  exact (h.tree.scope 0 (.inl rfl)).getFunction? name

theorem depthToRoot : Mirrors Λ I I (Via id) Lower.depthToRoot Lower.depthToRoot := by
  refine bind get fun s t h => pure ?_
  rw [h.current]
  exact h.tree.depthToRoot h.inside

theorem expect (ty : ScalarType) (hl : Λ.place l l') {x y : Lower Lowered}
    (h : Mirrors Λ I I (Via Λ.lowered) x y) :
    Mirrors Λ I I (Via Λ.lowered) (Lower.expect ty l x) (Lower.expect ty l' y) :=
  next h fun _ => ite (pure rfl) (reject hl rfl)

end Mirrors

end KuAsm
