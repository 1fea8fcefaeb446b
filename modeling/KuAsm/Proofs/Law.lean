import KuAsm.Proofs.Action
import KuAsm.Proofs.Induction

/-!
# Properties of all actions

Many things that can be said of an action hold of a sequence if they hold of its parts.  A property
of this kind is a *law*, once it is shown of the few actions that everything else is made of.  This
module derives from that what holds of compiling an expression, of releasing heap values and of
leaving frames, so that it need not be said again for each law.

## Main statements

* `Lower.CheckingLaw.evaluate`: a law that admits rejecting holds of compiling any expression.
* `Lower.WritingLaw.unwind`: a law that admits writing holds of leaving frames.
* `Lower.StatementLaw.leaveFunction`: a law that admits both holds of returning from a function.
-/

namespace KuAsm.Lower

variable {Φ : ∀ {α : Type}, Lower α → Prop} {α β : Type}

/-- A property of actions that holds of a sequence if it holds of its parts, and that holds of the
basic actions of an expression but for rejecting it. -/
structure Law (Φ : ∀ {α : Type}, Lower α → Prop) : Prop where
  pure : ∀ {α : Type} (a : α), Φ (pure a : Lower α)
  bind : ∀ {α β : Type} {x : Lower α} {f : α → Lower β}, Φ x → (∀ a, Φ (f a)) → Φ (x >>= f)
  /-- Reading the state. -/
  read : ∀ {β : Type} {f : State → Lower β}, (∀ s, Φ (f s)) → Φ (get >>= f)
  fault : ∀ {α : Type} (f : Fault), Φ (throw (.fault f) : Lower α)
  mintLabel : ∀ hint, Φ (mintLabel hint)
  tell : ∀ n, Φ (tell n)
  recordCall : ∀ name, Φ (withSession fun s => ((), s.recordCall name))
  recordFree : Φ (withSession fun s => ((), s.recordFree))
  reserve : ∀ size, Φ (reserve size)
  place : ∀ text, Φ (place text)
  registerFresh : Φ registerFresh
  /-- Runs that end with a fault and change nothing do not matter. -/
  weaken : ∀ {α : Type} {x y : Lower α}, (∀ s a t, x s = .ok a t → y s = .ok a t) →
    (∀ s d t, x s ≠ .error (.rejected d) t) → (∀ s f t, x s = .error (.fault f) t → t = s) →
    Φ y → Φ x

namespace Law

variable (h : Law Φ)
include h

/-! ### Basic actions -/

omit h in
theorem ite (_ : Law Φ) {c : Prop} [Decidable c] {x y : Lower α} (hx : Φ x) (hy : Φ y) :
    Φ (if c then x else y) := by
  split
  · exact hx
  · exact hy

theorem checked (x : Except Fault α) : Φ (checked x) := by
  cases x with
  | ok a => exact h.pure a
  | error f => exact h.fault f

theorem frameSlot (x : Slot) : Φ (frameSlot x) := h.checked _

theorem remark (text : String) : Φ (remark text) := h.read fun _ => h.pure _

theorem libraryFunction? (name : String) : Φ (libraryFunction? name) := h.read fun _ => h.pure _

theorem depthToRoot : Φ depthToRoot := h.read fun _ => h.pure _

theorem forM {f : β → Lower PUnit} (hf : ∀ b, Φ (f b)) : ∀ bs : List β, Φ (bs.forM f)
  | [] => h.pure _
  | b :: bs => h.bind (hf b) fun _ => forM hf bs

theorem mapM {f : α → Lower β} (hf : ∀ a, Φ (f a)) : ∀ as : List α, Φ (as.mapM f : Lower (List β))
  | [] => h.pure _
  | a :: as => by
    rw [List.mapM_cons]
    exact h.bind (hf a) fun _ => h.bind (mapM hf as) fun _ => h.pure _

/-! ### Heap values and calls -/

theorem release (base : Reg) (id : ReclaimId) (e : Staged) : Φ (release base id e) :=
  h.bind (h.mintLabel _) fun _ => h.bind (h.remark _) fun _ => h.bind (h.checked _) fun _ =>
    h.bind (h.checked _) fun _ => h.bind h.recordFree fun _ => h.pure _

theorem releaseAll (keep : List ReclaimId) : ∀ entries, Φ (releaseAll keep entries)
  | [] => h.pure _
  | (id, e) :: rest => by
    have hrest : ∀ code, Φ (Lower.releaseAll keep rest >>= fun more => Pure.pure (code ++ more)) :=
      fun _ => h.bind (releaseAll keep rest) fun _ => h.pure _
    unfold Lower.releaseAll
    exact h.ite (h.bind (h.remark _) hrest) (h.bind (h.release _ id e) hrest)

theorem releaseOld (base : Reg) (x : Variable) (cell : Slot) : Φ (releaseOld base x cell) := by
  unfold Lower.releaseOld
  cases x.reclaim with
  | none => exact h.pure _
  | some id => exact h.release _ _ _

theorem stageArguments : ∀ count args, Φ (stageArguments count args)
  | _, [] => by
    unfold Lower.stageArguments
    exact h.pure _
  | 0, a :: rest => by
    unfold Lower.stageArguments
    exact h.bind (stageArguments 0 rest) fun _ => h.pure _
  | count + 1, a :: rest => by
    unfold Lower.stageArguments
    exact h.bind (h.reserve _) fun _ => h.bind (h.frameSlot _) fun _ =>
      h.bind (stageArguments count rest) fun _ => h.pure _

theorem invoke (f : Signature) (depth : Nat) (args : List Lowered) : Φ (invoke f depth args) := by
  refine h.bind (h.stageArguments _ _) fun _ => h.bind (h.remark _) fun _ =>
    h.bind (h.checked _) fun _ => h.bind (h.recordCall _) fun _ => ?_
  exact h.ite (h.bind h.registerFresh fun _ => h.pure _) (h.pure _)

/-! ### Parts of expressions -/

theorem literal (v : Literal) : Φ (literal v) := by
  cases v with
  | number v => exact h.pure _
  | decimal v => exact h.bind (h.remark _) fun _ => h.pure _
  | char v => exact h.pure _
  | bool v => exact h.pure _
  | str v => exact h.bind (h.place _) fun _ => h.pure _

theorem loadSize (base : Reg) (v : Variable) : Φ (loadSize base v) := by
  unfold Lower.loadSize
  cases v.sizeCell with
  | none => exact h.pure _
  | some cell => exact h.bind (h.checked _) fun _ => h.pure _

theorem decimalCode (op : BinaryOp) : Φ (decimalCode op) := by
  refine h.ite (h.bind (h.mintLabel _) fun _ => h.pure _) ?_
  cases op.floatPair? with
  | none => exact h.pure _
  | some pair => exact h.pure _

/-! ### Results of functions -/

theorem ownedResult (v : Lowered) (copying : Copying) : Φ (ownedResult v copying) := by
  refine h.ite (h.pure _) (h.bind (h.libraryFunction? _) fun f => ?_)
  cases f with
  | none => exact h.pure _
  | some f =>
    exact h.bind (h.mintLabel _) fun _ => h.bind (h.reserve _) fun _ =>
        h.bind (h.frameSlot _) fun _ =>
      h.bind (h.remark _) fun _ => h.bind h.depthToRoot fun _ => h.bind (h.checked _) fun _ =>
        h.bind (h.recordCall _) fun _ => h.pure _

theorem resultCode (depth : Nat) (m : FunctionExit) : Φ (resultCode depth m) :=
  h.bind (h.checked _) fun _ => h.ite (h.bind (h.checked _) fun _ => h.pure _) (h.pure _)

theorem fetchResult (m : FunctionExit) : Φ (fetchResult m) :=
  h.bind (h.frameSlot _) fun _ => h.ite (h.bind (h.frameSlot _) fun _ => h.pure _) (h.pure _)

theorem paramOperands (params : List Param) : Φ (paramOperands params) :=
  h.read fun _ => h.mapM (fun _ => h.frameSlot _) _

theorem otherwiseLabel (exit : Label) (o : Otherwise) : Φ (o.label exit) := by
  cases o with
  | absent => exact h.pure _
  | chained n => exact h.mintLabel _
  | block body => exact h.mintLabel _

end Law

/-- A law that also holds of rejecting a program. -/
structure CheckingLaw (Φ : ∀ {α : Type}, Lower α → Prop) : Prop extends Law Φ where
  reject : ∀ {α : Type} (c : Cause) (l : Location), Φ (Lower.reject c l : Lower α)

namespace CheckingLaw

variable (h : CheckingLaw Φ)
include h

/-! ### Names and types -/

theorem resolveVariable (name : String) (l : Location) : Φ (resolveVariable name l) := by
  refine h.read fun s => ?_
  cases s.tree.lookupVariable s.current name with
  | none => exact h.reject _ _
  | some x => exact h.pure _

theorem resolveFunction (name : String) (l : Location) : Φ (resolveFunction name l) := by
  refine h.read fun s => ?_
  cases s.tree.lookupFunction s.current name with
  | none => exact h.reject _ _
  | some x => exact h.pure _

theorem expect {ty : ScalarType} {l : Location} {x : Lower Lowered} (hx : Φ x) :
    Φ (expect ty l x) :=
  h.bind hx fun _ => h.ite (h.pure _) (h.reject _ _)

theorem resolveCall (name : String) (count : Nat) (l : Location) : Φ (resolveCall name count l) :=
  h.bind (h.resolveFunction _ _) fun _ => h.ite (h.reject _ _) (h.pure _)

theorem enclosingLoop (statement : String) (l : Location) : Φ (enclosingLoop statement l) := by
  refine h.read fun s => ?_
  cases s.tree.lookupLoop s.current with
  | none => exact h.reject _ _
  | some x => exact h.pure _

/-! ### Expressions -/

theorem readVariable (name : String) (l : Location) : Φ (readVariable name l) :=
  h.bind (h.resolveVariable _ _) fun _ => h.bind (h.checked _) fun _ =>
    h.bind (h.loadSize _ _) fun _ => h.pure _

theorem addressOf (name : String) (l : Location) : Φ (addressOf name l) :=
  h.bind (h.resolveVariable _ _) fun _ => h.bind (h.checked _) fun _ => h.pure _

theorem concat (left right : Lowered) (l : Location) : Φ (concat left right l) := by
  refine h.bind (h.libraryFunction? _) fun f => ?_
  cases f with
  | none => exact h.reject _ _
  | some f => exact h.bind h.depthToRoot fun _ => h.invoke _ _ _

theorem combine (op : BinaryOp) (left right : Lowered) (l : Location) :
    Φ (combine op left right l) :=
  h.ite (h.reject _ _) (h.ite (h.concat _ _ _) (h.ite (h.reject _ _)
    (h.ite (h.bind (h.decimalCode _) fun _ => h.pure _) (h.pure _))))

theorem applySign (sign : Sign) (v : Lowered) (l : Location) : Φ (applySign sign v l) := by
  refine h.ite (h.reject _ _) ?_
  cases sign with
  | plus => exact h.pure _
  | minus => exact h.pure _

theorem stepVariable (name : String) (op : StepOp) (fixity : Fixity) (l : Location) :
    Φ (stepVariable name op fixity l) := by
  refine h.bind (h.resolveVariable _ _) fun ⟨r, v⟩ =>
    h.ite (h.reject _ _) (h.bind (h.checked _) fun _ => ?_)
  cases fixity with
  | leading => exact h.pure _
  | trailing => exact h.pure _

theorem applyCast (v : Lowered) (ty : ScalarType) (mode : CastMode) (l : Location) :
    Φ (applyCast v ty mode l) := by
  cases mode with
  | deref => exact h.ite (h.reject _ _) (h.pure _)
  | immediate => exact h.pure _

theorem evaluateCases :
    ExpressionCases (fun n => Φ n.evaluate)
      (fun ns => ∀ name params, Φ (Node.evaluateArgs name params ns)) where
  constant hv := by
    rw [Node.evaluate_literal hv]
    exact h.literal _
  var := h.readVariable _ _
  binary hleft hright := by
    unfold Node.evaluate
    exact h.bind hleft fun _ => h.bind hright fun _ => h.combine _ _ _ _
  signed hvalue := by
    unfold Node.evaluate
    exact h.bind hvalue fun _ => h.applySign _ _ _
  step := h.stepVariable _ _ _ _
  call hargs := by
    unfold Node.evaluate
    exact h.bind (h.resolveCall _ _ _) fun ⟨_, f⟩ =>
      h.bind (hargs _ f.params) fun _ => h.invoke _ _ _
  addressOf := h.addressOf _ _
  cast hvalue := by
    unfold Node.evaluate
    exact h.bind hvalue fun _ => h.applyCast _ _ _ _
  misplaced hform := by
    rw [Node.evaluate_misplaced hform]
    exact h.reject _ _
  nil name params := by
    unfold Node.evaluateArgs
    exact h.pure _
  cons hn hns name params := by
    cases params with
    | nil =>
      unfold Node.evaluateArgs
      exact h.bind (h.tell _) fun _ => h.bind hn fun _ => h.bind (hns name []) fun _ => h.pure _
    | cons p params =>
      unfold Node.evaluateArgs
      exact h.bind (h.expect hn) fun _ => h.bind (hns name params) fun _ => h.pure _

/-- A law holds of compiling any expression. -/
theorem evaluate (n : Node) : Φ n.evaluate := h.evaluateCases.node n

/-- A law holds of compiling the arguments of a call. -/
theorem evaluateArgs (name : String) (params : List Param) (args : List Node) :
    Φ (Node.evaluateArgs name params args) :=
  h.evaluateCases.list args name params

theorem evaluateOr (value : Option Node) (ty : ScalarType) : Φ (Node.evaluateOr value ty) := by
  cases value with
  | none => exact h.literal _
  | some v => exact h.expect (h.evaluate v)

end CheckingLaw

/-- A law that also holds of writing. -/
structure WritingLaw (Φ : ∀ {α : Type}, Lower α → Prop) : Prop extends Law Φ where
  emit : ∀ code, Φ (emit code)

namespace WritingLaw

variable (h : WritingLaw Φ)
include h

/-! ### Leaving frames -/

theorem sweep (id : ScopeId) (keep : List ReclaimId) : Φ (sweep id keep) :=
  h.read fun _ => h.bind (h.releaseAll keep _) fun _ => h.emit _

theorem exitFrame (id : ScopeId) (keep : List ReclaimId) : Φ (exitFrame id keep) :=
  h.bind (h.sweep id keep) fun _ => h.emit _

theorem defineFrameSize (id : ScopeId) : Φ (defineFrameSize id) :=
  h.read fun _ => h.bind (h.checked _) fun _ => h.emit _

theorem unwind (frames : Nat) (keep : List ReclaimId) : Φ (unwind frames keep) :=
  h.read fun _ => h.forM (fun _ => h.exitFrame _ keep) _

theorem replaceString (x : Variable) (cell : Slot) (depth : Nat) {v : Lowered} {l : Location}
    (htake : Φ (takeOwnership v.ownership x.name l)) : Φ (replaceString x cell depth v l) :=
  h.bind htake fun _ => h.bind (h.releaseOld _ _ _) fun _ => h.bind (h.checked _) fun _ =>
    h.bind (h.checked _) fun _ => h.emit _

theorem openProgram : Φ openProgram :=
  h.read fun _ => h.bind (h.remark _) fun _ => h.read fun _ => h.emit _

theorem closeProgram (jumped : Bool) : Φ (closeProgram jumped) := by
  refine h.read fun s => ?_
  have hend := h.bind (h.emit [Asm.mov Reg.eax (.imm Convention.sysExit), Asm.xor Reg.ebx Reg.ebx,
    Asm.kernel]) fun _ => h.bind (h.defineFrameSize s.root) fun _ =>
      h.read (f := fun t => tell (.programLowered t.tree.size)) fun _ => h.tell _
  cases jumped with
  | true => exact hend
  | false => exact h.bind (h.exitFrame _ _) fun _ => hend

end WritingLaw

/-- A law that holds of rejecting a program and of writing. -/
structure StatementLaw (Φ : ∀ {α : Type}, Lower α → Prop) : Prop extends CheckingLaw Φ, WritingLaw Φ

namespace StatementLaw

variable (h : StatementLaw Φ)
include h

/-! ### Statements -/

theorem leaveLoop (l : Location) : Φ (leaveLoop l) :=
  h.bind (h.enclosingLoop _ l) fun _ => h.bind (h.unwind _ _) fun _ => h.emit _

theorem nextRound (l : Location) : Φ (nextRound l) :=
  h.bind (h.enclosingLoop _ l) fun _ => h.bind (h.unwind _ _) fun _ => h.emit _

theorem leaveFunction (l : Location) {value : ScalarType → Lower Lowered}
    (hvalue : ∀ ty, Φ (value ty)) : Φ (leaveFunction l value) := by
  refine h.read fun s => ?_
  cases s.tree.lookupFunctionExit s.current with
  | none => exact h.reject _ _
  | some x =>
    exact h.bind (hvalue _) fun v => h.read fun s' => h.bind (h.ownedResult _ _) fun code =>
      h.bind (h.resultCode _ _) fun _ => h.bind (h.emit _) fun _ => h.bind (h.unwind _ _) fun _ =>
        h.bind (h.sweep _ _) fun _ => h.emit _

theorem assign (name : String) (l : Location) {value : ScalarType → Lower Lowered}
    (htake : ∀ o x, Φ (takeOwnership o x l)) (hvalue : ∀ ty, Φ (value ty)) :
    Φ (assign name l value) := by
  refine h.bind (h.resolveVariable _ _) fun ⟨r, x⟩ => h.bind (hvalue _) fun v => ?_
  cases x.sizeCell with
  | none => exact h.bind (h.checked _) fun _ => h.emit _
  | some cell =>
    exact h.ite (h.bind (h.remark _) fun _ => h.emit _) (h.replaceString x cell _ (htake _ _))

theorem storeAt {address value : Lower Lowered} (ha : Φ address) (hv : Φ value) (l : Location) :
    Φ (storeAt address value l) :=
  h.bind ha fun _ => h.ite (h.reject _ _) (h.bind hv fun _ => h.emit _)

theorem branchUnless (target : Label) (l : Location) {condition : Lower Lowered}
    (hc : Φ condition) : Φ (branchUnless target l condition) :=
  h.bind hc fun _ => h.ite (h.reject _ _) (h.emit _)

theorem functionBody (l : Location) {statements : Lower Bool} (hs : Φ statements)
    (exit : FunctionExit) : Φ (functionBody l statements exit) := by
  refine h.bind hs fun jumped => ?_
  cases jumped with
  | true => exact h.pure _
  | false => exact h.leaveFunction l fun _ => h.literal _

end StatementLaw

/-! ### The library -/

end KuAsm.Lower

namespace KuAsm

/-- An action that does nothing but make labels, place literals and check numbers. -/
inductive Lower.IsModest : {α : Type} → Lower α → Prop
  | pure {α : Type} (a : α) : IsModest (pure a : Lower α)
  | bind {α β : Type} {x : Lower α} {f : α → Lower β} :
    IsModest x → (∀ a, IsModest (f a)) → IsModest (x >>= f)
  | checked {α : Type} (x : Except Fault α) : IsModest (checked x)
  | mintLabel (hint : String) : IsModest (mintLabel hint)
  | place (text : String) : IsModest (place text)

/-- A law holds of every modest action. -/
theorem Lower.Law.modest {Φ : ∀ {α : Type}, Lower α → Prop} (h : Lower.Law Φ) {α : Type}
    {x : Lower α} (hx : x.IsModest) : Φ x := by
  induction hx with
  | pure a => exact h.pure a
  | bind _ _ hx hf => exact h.bind hx hf
  | checked x => exact h.checked x
  | mintLabel hint => exact h.mintLabel hint
  | place text => exact h.place text

namespace Primitive

variable {α β : Type}

/-- A part of a body of the library as an action. -/
def Body.lift (x : Body α) : Lower α := fun s =>
  match x.run (s.session, s.listing) with
  | .ok (a, session, listing) => .ok a { s with session, listing }
  | .error f => .error (.fault f) s

/-- A body never rejects anything. -/
theorem Body.lift_ne_rejected (x : Body α) (s : State) (d : Diagnostic) (t : State) :
    Body.lift x s ≠ .error (.rejected d) t := by
  unfold Body.lift
  cases x.run (s.session, s.listing) <;> exact fun h => nomatch h

/-- A body that stops leaves the state as it was. -/
theorem Body.lift_eq_fault {x : Body α} {s t : State} {f : Fault}
    (h : Body.lift x s = .error (.fault f) t) : t = s := by
  unfold Body.lift at h
  cases hx : x.run (s.session, s.listing) with
  | ok z =>
    rw [hx] at h
    cases h
  | error g =>
    rw [hx] at h
    cases h
    rfl

/-- A part of a body that does what a modest action does, if it ends well. -/
def Body.IsModest (x : Body α) : Prop :=
  ∃ y : Lower α, y.IsModest ∧ ∀ s a t, Body.lift x s = .ok a t → y s = .ok a t

theorem Body.IsModest.of_lift {x : Body α} (h : (Body.lift x).IsModest) : Body.IsModest x :=
  ⟨_, h, fun _ _ _ hx => hx⟩

/-- What a body does in two steps.  If it fails, nothing is done. -/
theorem Body.lift_bind (x : Body α) (f : α → Body β) (s : State) :
    Body.lift (x >>= f) s = match (Body.lift x >>= fun a => Body.lift (f a)) s with
      | .ok b t => .ok b t
      | .error e _ => .error e s := by
  show _ = match EStateM.bind (Body.lift x) (fun a => Body.lift (f a)) s with
    | .ok b t => EStateM.Result.ok b t
    | .error e _ => EStateM.Result.error e s
  unfold EStateM.bind Body.lift
  rw [StateT.run_bind]
  cases x.run (s.session, s.listing) with
  | error e => rfl
  | ok z =>
    show (match (f z.1).run z.2 with
      | .ok (b, session, listing) => EStateM.Result.ok b { s with session, listing }
      | .error e => EStateM.Result.error (Failure.fault e) s) = _
    cases hrest : (f z.1).run z.2 with
    | error e => simp only [hrest]
    | ok w => simp only [hrest]

theorem Body.lift_bind_eq_ok {x : Body α} {f : α → Body β} {s t : State} {b : β}
    (h : Body.lift (x >>= f) s = .ok b t) :
    ∃ a u, Body.lift x s = .ok a u ∧ Body.lift (f a) u = .ok b t := by
  rw [Body.lift_bind] at h
  split at h
  · next hbind =>
    cases h
    exact Lower.bind_eq_ok.1 hbind
  · cases h

theorem lift_argument (args : List Mem) (index : Nat) :
    Body.lift (argument args index) =
      Lower.checked (match args[index]? with
        | some m => .ok m
        | none => .error (.outOfBounds args.length index)) := by
  unfold argument
  cases args[index]? <;> rfl

theorem Body.IsModest.bind {x : Body α} {f : α → Body β} (hx : Body.IsModest x)
    (hf : ∀ a, Body.IsModest (f a)) : Body.IsModest (x >>= f) := by
  obtain ⟨y, hy, hxy⟩ := hx
  obtain ⟨g, hg⟩ := Classical.skolem.1 hf
  refine ⟨y >>= g, .bind hy fun a => (hg a).1, ?_⟩
  intro s b t h
  obtain ⟨a, u, hxa, hfa⟩ := Body.lift_bind_eq_ok h
  exact Lower.bind_eq_ok.2 ⟨a, u, hxy _ _ _ hxa, (hg a).2 _ _ _ hfa⟩

theorem Body.IsModest.pure (a : α) : Body.IsModest (pure a) := .of_lift (Lower.IsModest.pure a)

theorem Body.IsModest.argument (args : List Mem) (index : Nat) :
    Body.IsModest (argument args index) :=
  .of_lift (lift_argument args index ▸ Lower.IsModest.checked _)

theorem Body.IsModest.label (hint : String) : Body.IsModest (label hint) :=
  .of_lift (Lower.IsModest.mintLabel hint)

theorem Body.IsModest.literal (text : String) : Body.IsModest (literal text) :=
  .of_lift (Lower.IsModest.place text)

theorem Body.IsModest.measure (src : Mem) : Body.IsModest (measure src) :=
  .bind (.label _) fun _ => .bind (.label _) fun _ => .pure _

/-- The bodies of the library only make labels and place literals. -/
theorem body_isModest (p : Primitive) (args : List Mem) : Body.IsModest (p.body args) := by
  cases p with
  | len => exact .bind (.argument _ _) fun _ => .measure _
  | append =>
    exact .bind (.argument _ _) fun _ => .bind (.argument _ _) fun _ => .bind (.measure _) fun _ =>
      .bind (.measure _) fun _ => .pure _
  | slice =>
    exact .bind (.argument _ _) fun _ => .bind (.argument _ _) fun _ =>
        .bind (.argument _ _) fun _ =>
      .bind (.label _) fun _ => .pure _
  | syscall =>
    exact .bind (.argument _ _) fun _ => .bind (.argument _ _) fun _ =>
        .bind (.argument _ _) fun _ =>
      .bind (.argument _ _) fun _ => .pure _
  | key => exact .pure _
  | out =>
    exact .bind (.argument _ _) fun _ => .bind (.literal _) fun _ => .bind (.measure _)
      fun _ => .pure _
  | dup => exact .bind (.argument _ _) fun _ => .bind (.measure _) fun _ => .pure _

end Primitive

namespace Lower

/-- The body of a function of the library: its instructions, and the store of its result. -/
theorem primitiveBody_eq (p : Primitive) (exit : FunctionExit) :
    primitiveBody p exit =
      (do let args ← paramOperands p.params
          let code ← Primitive.Body.lift (p.body args)
          let result ← resultCode 0 exit
          emit (code ++ result)) := by
  unfold primitiveBody
  congr 1
  funext args s
  show (checked ((p.body args).run (s.session, s.listing)) >>= _) s =
    EStateM.bind (Primitive.Body.lift (p.body args)) _ s
  rw [EStateM.bind, Primitive.Body.lift]
  cases (p.body args).run (s.session, s.listing) with
  | error f => rfl
  | ok y => rfl

theorem WritingLaw.primitiveBody {Φ : ∀ {α : Type}, Lower α → Prop} (h : WritingLaw Φ)
    (p : Primitive) (exit : FunctionExit) : Φ (primitiveBody p exit) := by
  rw [primitiveBody_eq]
  refine h.bind (h.paramOperands _) fun args => h.bind ?_ fun _ =>
    h.bind (h.resultCode 0 exit) fun _ => h.emit _
  obtain ⟨y, hy, hrun⟩ := p.body_isModest args
  exact h.weaken hrun (Primitive.Body.lift_ne_rejected _)
    (fun _ _ _ => Primitive.Body.lift_eq_fault) (h.modest hy)

end Lower

end KuAsm
