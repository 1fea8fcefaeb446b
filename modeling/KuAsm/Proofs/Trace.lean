import KuAsm.Proofs.Growth

/-!
# What happens in the course of a compilation

A compilation runs from one state to another.  The trace of a compilation lists what it meets on the
way: the statements and expressions it comes to, each with the state it finds, and the heap values
it uses up.  A compilation that stops with a failure has a trace up to that point.

An expression is compiled before its code is written.  With it stands how many lines will be written
before its own first line, counted from the end of the section at that time.

## Main statements

* `Node.traceAll` is the trace of a statement list, and `Program.trace` the trace of a program.
* `MeetsQuietly.fragments`: all that an expression adds to a trace are expressions.
* `Lower.TraceLaw.lowerUnit`: what can be said of actions and their traces, if it can be said of the
  parts, can be said of compiling a program.
-/

namespace KuAsm

open Lower Asm

variable {ev : Event} {form : Form} {body : Lower Bool} {s : State}

/-- What a compilation meets. -/
inductive Event where
  /-- A statement, and the state in which it is come to. -/
  | statement (n : Node) (s : State)
  /-- An expression, the state in which it is come to, and the number of lines that will be written
  before its code. -/
  | expression (e : Node) (s : State) (ahead : Nat)
  /-- The end of a statement list, and the state there. -/
  | finish (s : State)
  /-- A new heap value that an existing variable takes over, so that its id is not needed any
  more. -/
  | spent (id : ReclaimId)

/-- The state of an event between two statements. -/
def Event.between? : Event → Option State
  | statement _ s => some s
  | finish s => some s
  | _ => none

/-- The id that an event uses up. -/
def Event.spent? : Event → Option ReclaimId
  | spent id => some id
  | _ => none

/-- What is listed after an action has ended well: nothing, if it does not. -/
def Lower.after {α β : Type} (x : Lower α) (s : State) (f : α → State → List β) : List β :=
  match x s with
  | .ok a t => f a t
  | .error _ _ => []

theorem Lower.after_ok {α β : Type} {x : Lower α} {t : State} {a : α} (h : x s = .ok a t)
    (f : α → State → List β) : x.after s f = f a t := by
  unfold Lower.after
  rw [h]

/-! ### Expressions -/

mutual

/-- The expressions in an expression, which is compiled from the state `s` and whose code will stand
behind `ahead` lines.  The code of a part follows the code of the parts before it and the line that
puts their value away. -/
def Node.fragments : Node → State → Nat → List Event
  | .mk (.binary op left right) l, s, ahead =>
    .expression (.mk (.binary op left right) l) s ahead :: (left.fragments s ahead
      ++ left.evaluate.after s fun a t => right.fragments t (ahead + a.code.length + 1))
  | .mk (.signed sign value) l, s, ahead =>
    .expression (.mk (.signed sign value) l) s ahead :: value.fragments s ahead
  | .mk (.call name args) l, s, ahead =>
    .expression (.mk (.call name args) l) s ahead ::
      (resolveCall name args.length l).after s fun x t =>
        Node.fragmentsAll name x.2.params args t ahead
  | .mk (.cast value ty mode) l, s, ahead =>
    .expression (.mk (.cast value ty mode) l) s ahead :: value.fragments s ahead
  | n, s, ahead => [.expression n s ahead]

/-- The expressions in the arguments of a call of `name`. -/
def Node.fragmentsAll (name : String) : List Param → List Node → State → Nat → List Event
  | _, [], _, _ => []
  | p :: params, arg :: args, s, ahead =>
    arg.fragments s ahead ++ (expect p.ty arg.location arg.evaluate).after s fun a t =>
      Node.fragmentsAll name params args t (ahead + a.code.length + 1)
  | [], arg :: args, s, ahead =>
    (tell (.extraArgument arg.location name)).after s fun _ t =>
      arg.fragments t ahead ++ arg.evaluate.after t fun a u =>
        Node.fragmentsAll name [] args u (ahead + a.code.length)

end

/-- The expressions in an optional expression. -/
def Node.fragmentsOr (value : Option Node) (s : State) (ahead : Nat) : List Event :=
  match value with
  | some v => v.fragments s ahead
  | none => []

/-! ### Statements -/

/-- The code of an assignment: none, if a string variable is assigned to itself. -/
def Variable.assignedItself (x : Variable) (v : Lowered) : Bool :=
  x.sizeCell.isSome && decide (x.reclaim.map Ownership.borrowed = some v.ownership)

/-- What the assignment of a value uses up. -/
def Variable.spends (x : Variable) (v : Lowered) : List Event :=
  match x.sizeCell, v.ownership with
  | some _, .fresh id => [.spent id]
  | _, _ => []

mutual

/-- The trace of a statement. -/
def Node.trace : Node → State → List Event
  | .mk (.function name params ret body) l, s =>
    .statement (.mk (.function name params ret body) l) s ::
      (openFunction name params ret l).after s fun _ t => Node.traceAll body t
  | .mk (.declare name ty value) l, s =>
    .statement (.mk (.declare name ty value) l) s ::
      (remark (":" ++ name ++ "/" ++ ty.name)).after s fun note _ =>
        Node.fragmentsOr value s note.length
  | .mk (.assign name value) l, s =>
    .statement (.mk (.assign name value) l) s ::
      (resolveVariable name l).after s fun x t =>
        (expect x.2.ty value.location value.evaluate).after t fun v _ =>
          if x.2.assignedItself v then [] else value.fragments t 0 ++ x.2.spends v
  | .mk (.store address value) l, s =>
    .statement (.mk (.store address value) l) s :: (address.fragments s 0
      ++ address.evaluate.after s fun a t => value.fragments t (a.code.length + 1))
  | .mk (.conditional condition body otherwise) l, s =>
    .statement (.mk (.conditional condition body otherwise) l) s ::
      (mintLabel "if_exit").after s fun exit t => (otherwise.label exit).after t fun next u =>
        condition.fragments u 0
          ++ (branchUnless next condition.location condition.evaluate).after u fun _ v =>
            openBlock.after v fun _ w => Node.traceAll body w
              ++ (Node.executeAll false body).after w fun jumped x =>
                (closeBlock (!jumped)).after x fun _ y => otherwise.trace exit next y
  | .mk (.whileLoop condition body) l, s =>
    .statement (.mk (.whileLoop condition body) l) s ::
      openLoop.after s fun f t => condition.fragments t 0
        ++ (branchUnless f.done condition.location condition.evaluate).after t fun _ u =>
          Node.traceAll body u
  | .mk (.forLoop start condition step body) l, s =>
    .statement (.mk (.forLoop start condition step body) l) s ::
      openBlock.after s fun _ t => start.trace t ++ start.execute.after t fun _ u =>
        .finish u :: openLoop.after u fun f v => condition.fragments v 0
          ++ (branchUnless f.done condition.location condition.evaluate).after v fun _ w =>
            Node.traceAll body w ++ (Node.executeAll false body).after w fun _ x =>
              (emit [.label f.exits.next]).after x fun _ y => step.trace y
                ++ step.execute.after y fun _ z => [.finish z]
  | .mk (.included path program) l, s =>
    .statement (.mk (.included path program) l) s ::
      (withSession (·.markIncluded path)).after s fun new t =>
        if new then (remark ("include " ++ path)).after t fun note u => (emit note).after u
            fun _ v =>
          Node.traceAll program v
        else []
  | .mk (.ret value) l, s => .statement (.mk (.ret value) l) s :: Node.fragmentsOr value s 0
  | .mk (.call name args) l, s =>
    .statement (.mk (.call name args) l) s :: Node.fragments (.mk (.call name args) l) s 0
  | .mk (.step name op fixity) l, s =>
    .statement (.mk (.step name op fixity) l) s :: Node.fragments (.mk (.step name op fixity) l) s 0
  | n, s => [.statement n s]

/-- The trace of a statement list. -/
def Node.traceAll : List Node → State → List Event
  | [], s => [.finish s]
  | n :: ns, s => n.trace s ++ n.execute.after s fun _ t => Node.traceAll ns t

/-- The trace of what follows the block of a conditional. -/
def Otherwise.trace (exit next : Label) : Otherwise → State → List Event
  | .absent, _ => []
  | .block body, s =>
    (emit [jmp exit, .label next]).after s fun _ t => openBlock.after t fun _ u =>
      Node.traceAll body u
  | .chained (.mk (.conditional condition body otherwise) _), s =>
    (emit [jmp exit, .label next]).after s fun _ t => (otherwise.label exit).after t fun next u =>
      condition.fragments u 0
        ++ (branchUnless next condition.location condition.evaluate).after u fun _ v =>
          openBlock.after v fun _ w => Node.traceAll body w
            ++ (Node.executeAll false body).after w fun jumped x =>
              (closeBlock (!jumped)).after x fun _ y => otherwise.trace exit next y
  | .chained _, _ => []

end

/-! ### Kinds of events -/

theorem Lower.mem_after {α β : Type} {x : Lower α} {f : α → State → List β} {b : β} :
    b ∈ x.after s f ↔ ∃ a t, x s = .ok a t ∧ b ∈ f a t := by
  unfold Lower.after
  cases x s with
  | ok a t =>
    constructor
    · intro h
      exact ⟨a, t, rfl, h⟩
    · rintro ⟨_, _, h, hb⟩
      cases h
      exact hb
  | error e t => simp

theorem Node.fragments_literal {v : Literal} (h : form.literal? = some v) (l : Location) (s : State)
    (ahead : Nat) : Node.fragments (.mk form l) s ahead = [.expression (.mk form l) s ahead] := by
  cases form <;> cases h <;> rfl

theorem Node.fragments_misplaced (h : form.isExpression = false) (l : Location) (s : State)
    (ahead : Nat) : Node.fragments (.mk form l) s ahead = [.expression (.mk form l) s ahead] := by
  cases form <;> first | rfl | cases h

theorem Node.trace_misplaced (h : form.isStatement = false) (l : Location) (s : State) :
    Node.trace (.mk form l) s = [.statement (.mk form l) s] := by
  cases form <;> first | rfl | cases h

theorem Otherwise.trace_misplaced (h : form.isConditional = false) (exit next : Label)
    (l : Location) (s : State) : (Otherwise.chained (.mk form l)).trace exit next s = [] := by
  cases form <;> first | rfl | cases h

/-- The state in which something is met. -/
def Event.state? : Event → Option State
  | statement _ s | expression _ s _ | finish s => some s
  | spent _ => none

theorem Event.state?_of_between? (h : ev.between? = some s) : ev.state? = some s := by
  cases ev with
  | statement n u => exact h
  | finish u => exact h
  | expression e u ahead => cases h
  | spent id => cases h

/-- A search through a trace finds an event and its state. -/
theorem Event.exists_of_any {es : List Event} {f : Event → Option State} {q : State → Bool}
    (h : (es.any fun ev => (f ev).any q) = true) :
    ∃ ev s, ev ∈ es ∧ f ev = some s ∧ q s = true := by
  obtain ⟨ev, hev, hany⟩ := List.any_eq_true.1 h
  obtain ⟨s, hs, hq⟩ := (Option.any_eq_true _ _).1 hany
  exact ⟨ev, s, hev, hs, hq⟩

theorem Event.spent?_of_between? (h : ev.between? = some s) : ev.spent? = none := by
  cases ev with
  | spent id => cases h
  | statement | finish | expression => rfl

/-- All that is met are expressions, in states that differ quietly from the one at the start. -/
def MeetsQuietly (trace : State → List Event) : Prop :=
  ∀ s, ∀ ev ∈ trace s, ∃ e u ahead, ev = .expression e u ahead ∧ (s.Formed → s.Quiet u)

namespace MeetsQuietly

variable {α : Type} {trace trace' : State → List Event}

theorem nothing : MeetsQuietly fun _ => [] := fun _ _ hev => nomatch hev

theorem expression (n : Node) (ahead : Nat) : MeetsQuietly fun s => [.expression n s ahead] :=
  fun s _ hev => ⟨n, s, ahead, List.mem_singleton.1 hev, fun _ => .refl s⟩

theorem append (h : MeetsQuietly trace) (k : MeetsQuietly trace') :
    MeetsQuietly fun s => trace s ++ trace' s := by
  intro s ev hev
  rcases List.mem_append.1 hev with hev | hev
  · exact h s ev hev
  · exact k s ev hev

theorem after {x : Lower α} {rest : α → State → List Event} (hx : x.IsQuiet)
    (hrest : ∀ a, MeetsQuietly (rest a)) : MeetsQuietly fun s => x.after s rest := by
  intro s ev hev
  obtain ⟨a, t, hrun, hev⟩ := mem_after.1 hev
  obtain ⟨e, u, ahead, rfl, hu⟩ := hrest a t ev hev
  refine ⟨e, u, ahead, rfl, fun hs => ?_⟩
  have ht := hx s a t hs hrun
  exact ht.trans (hu (ht.formed hs))

theorem quiet (h : MeetsQuietly trace) {u : State} (hs : s.Formed) (hev : ev ∈ trace s)
    (hu : ev.state? = some u) : s.Quiet u := by
  obtain ⟨e, v, ahead, rfl, hv⟩ := h s ev hev
  cases hu
  exact hv hs

end MeetsQuietly

theorem Node.fragments_meetsQuietlyCases :
    ExpressionCases (fun n => ∀ ahead, MeetsQuietly fun s => n.fragments s ahead)
      (fun ns => ∀ name params ahead, MeetsQuietly fun s =>
        Node.fragmentsAll name params ns s ahead) where
  constant h ahead := by
    simp only [Node.fragments_literal h]
    exact .expression _ ahead
  var ahead := .expression _ ahead
  binary hleft hright ahead := by
    unfold Node.fragments
    exact .append (.expression _ ahead)
      (.append (hleft ahead) (.after (Node.evaluate_quiet _) fun _ => hright _))
  signed hvalue ahead := by
    unfold Node.fragments
    exact .append (.expression _ ahead) (hvalue ahead)
  step ahead := .expression _ ahead
  call hargs ahead := by
    unfold Node.fragments
    exact .append (.expression _ ahead) (.after (IsQuiet.law.resolveCall _ _ _) fun x =>
      hargs _ x.2.params ahead)
  addressOf ahead := .expression _ ahead
  cast hvalue ahead := by
    unfold Node.fragments
    exact .append (.expression _ ahead) (hvalue ahead)
  misplaced h ahead := by
    simp only [Node.fragments_misplaced h]
    exact .expression _ ahead
  nil name params ahead := by
    unfold Node.fragmentsAll
    exact .nothing
  cons hn hns name params ahead := by
    unfold Node.fragmentsAll
    cases params with
    | nil =>
      exact .after (IsQuiet.tell _) fun _ =>
        .append (hn ahead) (.after (Node.evaluate_quiet _) fun _ => hns name [] _)
    | cons p params =>
      exact .append (hn ahead) (.after (IsQuiet.law.expect (Node.evaluate_quiet _)) fun _ =>
        hns name params _)

/-- The parts of an expression are met in states that differ quietly. -/
theorem MeetsQuietly.fragments (n : Node) (ahead : Nat) :
    MeetsQuietly fun s => n.fragments s ahead :=
  Node.fragments_meetsQuietlyCases.node n ahead

theorem MeetsQuietly.fragmentsOr (value : Option Node) (ahead : Nat) :
    MeetsQuietly fun s => Node.fragmentsOr value s ahead := by
  cases value with
  | none => exact .nothing
  | some n => exact .fragments n ahead

/-- Everything before the statements of a program: the library and the prologue of the program. -/
def lowerPreamble : Lower Unit := do
  registerLibrary
  openProgram

/-- The trace of a program that is compiled in a session. -/
def Program.trace (p : Program) (session : Session) (comments : Bool) : List Event :=
  lowerPreamble.after (.start session comments) fun _ s => Node.traceAll p.body s

/-! ### Properties of actions and their traces -/

/-- What an assignment meets: the expressions in its value, and the heap value that it spends. -/
def Node.assignTrace (name : String) (l : Location) (value : Node) (s : State) : List Event :=
  (resolveVariable name l).after s fun x t => (expect x.2.ty value.location value.evaluate).after t
      fun v _ =>
    if x.2.assignedItself v then [] else value.fragments t 0 ++ x.2.spends v

/-- What an assignment meets is in its value, or is spent by it. -/
theorem Node.mem_assignTrace {name : String} {l : Location} {value : Node}
    (h : ev ∈ Node.assignTrace name l value s) : ev.state? = none ∨ ev ∈ value.fragments s 0 := by
  obtain ⟨x, t, hx, hev⟩ := mem_after.1 h
  obtain ⟨-, rfl⟩ := resolveVariable_eq_ok.1 hx
  obtain ⟨v, u, -, hmet⟩ := mem_after.1 hev
  by_cases hself : x.2.assignedItself v = true
  · rw [if_pos hself] at hmet
    cases hmet
  · rw [if_neg hself] at hmet
    rcases List.mem_append.1 hmet with hvalue | hspent
    · exact .inr hvalue
    · unfold Variable.spends at hspent
      split at hspent
      · rw [List.mem_singleton.1 hspent]
        exact .inl rfl
      · cases hspent

theorem Node.mem_fragments_of_mem_assignTrace {name : String} {l : Location} {value : Node}
    {u : State} (hev : ev ∈ Node.assignTrace name l value s) (hu : ev.state? = some u) :
    ev ∈ value.fragments s 0 := by
  rcases Node.mem_assignTrace hev with hnone | hvalue
  · rw [hnone] at hu
    cases hu
  · exact hvalue

theorem Node.quiet_of_mem_assignTrace {name : String} {l : Location} {value : Node} {u : State}
    (hs : s.Formed) (hev : ev ∈ Node.assignTrace name l value s) (hu : ev.state? = some u) :
    s.Quiet u :=
  (MeetsQuietly.fragments value 0).quiet hs (Node.mem_fragments_of_mem_assignTrace hev hu) hu

/-- A unit is compiled in three parts. -/
theorem lowerUnit_eq (p : Program) :
    lowerUnit p = lowerPreamble >>= fun _ => Node.executeAll false p.body >>= closeProgram := by
  unfold lowerUnit lowerProgram lowerPreamble
  rewrite [bind_assoc]
  rfl

namespace Lower

theorem guarded_bind {α : Type} (target : Label) (l : Location) (condition : Lower Lowered)
    (body : Lower Bool) (k : Unit → Lower α) :
    guarded target l condition body >>= k = branchUnless target l condition >>= fun _ =>
      openBlock >>= fun _ => body >>= fun jumped => closeBlock (!jumped) >>= k := by
  unfold guarded block
  simp only [bind_assoc]

/-- A law `Φ` of actions and a property `Ψ` of actions with traces.  An action has `Ψ` with a trace
of nothing but expressions if `Φ` holds of it, and a sequence has it with the traces of its parts
one after another. -/
structure TraceLaw (Φ : ∀ {α : Type}, Lower α → Prop)
    (Ψ : ∀ {α : Type}, Lower α → (State → List Event) → Prop) : Prop extends StatementLaw Φ where
  openBlock : Φ openBlock
  closeBlock : ∀ reachable, Φ (closeBlock reachable)
  openLoop : Φ openLoop
  openFunction : ∀ name params ret l, Φ (openFunction name params ret l)
  library : ∀ p : Primitive, Φ (defineFunction p.name p.params p.ret .internal (primitiveBody p))
  declare : ∀ name ty l value, Φ (declare name ty l (Node.evaluateOr value ty))
  markIncluded : ∀ path, Φ (withSession (·.markIncluded path))
  expressions : ∀ {α : Type} {x : Lower α} {tr : State → List Event}, Φ x → MeetsQuietly tr → Ψ x tr
  sequence : ∀ {α β : Type} {x : Lower α} {f : α → Lower β} {tr : State → List Event}
    {rest : α → State → List Event},
    Ψ x tr → (∀ a, Ψ (f a) (rest a)) → Ψ (x >>= f) fun s => tr s ++ x.after s rest
  before : ∀ {α β : Type} {x : Lower α} {f : α → Lower β} {tr : State → List Event},
    Ψ x tr → (∀ a, Φ (f a)) → Ψ (x >>= f) tr
  /-- The state at the start in front of a trace. -/
  cons : ∀ {α : Type} {x : Lower α} {tr : State → List Event} {ev : State → Event},
    (∀ s, (ev s).between? = some s) → Ψ x tr → Ψ x fun s => ev s :: tr s
  assign : ∀ name l value,
    Ψ (assign name l fun ty => expect ty value.location value.evaluate)
    (Node.assignTrace name l value)
  /-- The end of a function, after what its body meets. -/
  function : ∀ name params ret l {statements : Lower Bool} {tr tr' : State → List Event},
    statements.IsGrowing → Ψ statements tr →
    Ψ (Lower.openFunction name params ret l >>= fun g => functionBody l statements g.exit) tr' →
    Ψ (defineFunction name params ret l (functionBody l statements)) tr'

namespace TraceLaw

variable {Φ : ∀ {α : Type}, Lower α → Prop}
  {Ψ : ∀ {α : Type}, Lower α → (State → List Event) → Prop}
  {α β : Type} {x : Lower α} {f : α → Lower β} {tr tr' : State → List Event} (h : TraceLaw Φ Ψ)
include h

theorem nothing (hx : Φ x) : Ψ x fun _ => [] := h.expressions hx .nothing

theorem after {rest : α → State → List Event} (hx : Φ x) (hf : ∀ a, Ψ (f a) (rest a)) :
    Ψ (x >>= f) fun s => x.after s rest :=
  h.sequence (h.nothing hx) hf

theorem statement (n : Node) (hx : Ψ x tr) : Ψ x fun s => .statement n s :: tr s :=
  h.cons (fun _ => rfl) hx

theorem finish (hx : Ψ x tr) : Ψ x fun s => .finish s :: tr s := h.cons (fun _ => rfl) hx

omit h in
theorem choice (_ : TraceLaw Φ Ψ) {c : Prop} [Decidable c] {y : Lower α} (hx : Ψ x tr)
    (hy : Ψ y tr') : Ψ (if c then x else y) fun s => if c then tr s else tr' s := by
  by_cases hc : c
  · simp only [hc, if_true]
    exact hx
  · simp only [hc, if_false]
    exact hy

theorem closeLoop (f : LoopFrame) : Φ (closeLoop f) :=
  h.bind (h.exitFrame _ _) fun _ => h.bind (h.emit _) fun _ => h.bind (h.emit _) fun _ =>
    h.bind (h.closeBlock _) fun _ => h.emit _

/-- A branch on a condition, in front of what it guards. -/
theorem branch (target : Label) (l : Location) (condition : Node) {f : Unit → Lower β}
    (hf : ∀ a, Ψ (f a) tr) : Ψ (branchUnless target l condition.evaluate >>= f) fun s =>
      condition.fragments s 0 ++ (branchUnless target l condition.evaluate).after s
        fun _ t => tr t :=
  h.sequence (h.expressions (h.branchUnless _ _ (h.evaluate _)) (.fragments condition 0)) hf

theorem block (hbody : Ψ body tr) :
    Ψ (block body) fun s => Lower.openBlock.after s fun _ t => tr t :=
  h.after h.openBlock fun _ => h.before hbody fun _ => h.closeBlock _

/-- A block that a condition guards, in front of what follows it. -/
theorem guarded (target : Label) (l : Location) (condition : Node) {k : Unit → Lower β}
    (hbody : Ψ body tr) (hk : ∀ a, Ψ (k a) tr') :
    Ψ (guarded target l condition.evaluate body >>= k) fun s =>
      condition.fragments s 0 ++ (branchUnless target l condition.evaluate).after s fun _ t =>
        Lower.openBlock.after t fun _ u => tr u ++ body.after u fun jumped v =>
          (Lower.closeBlock (!jumped)).after v fun _ w => tr' w := by
  rw [guarded_bind]
  exact h.branch _ _ _ fun _ => h.after h.openBlock fun _ => h.sequence hbody fun _ =>
    h.after (h.closeBlock _) fun _ => hk _

/-- A loop, with what its body and the statement after every round meet. -/
theorem loop (l : Location) (condition : Node) {post : Lower Bool} (hbody : Ψ body tr)
    (hpost : Ψ post tr') : Ψ (loop l condition.evaluate body post) fun s => Lower.openLoop.after s
    fun f t =>
      condition.fragments t 0 ++ (branchUnless f.done l condition.evaluate).after t fun _ u =>
        tr u ++ body.after u fun _ v => (Lower.emit [.label f.exits.next]).after v fun _ w =>
          tr' w ++ post.after w fun _ x => [.finish x] :=
  h.after h.openLoop fun f => h.branch _ _ _ fun _ => h.sequence hbody fun _ =>
      h.after (h.emit _) fun _ =>
    h.sequence hpost fun _ => h.finish (h.nothing (h.closeLoop f))

/-- The definition of a function, with what its body meets. -/
theorem defineFunction (name : String) (params : List Param) (ret : ScalarType) (l : Location)
    {statements : Lower Bool} (hgrows : statements.IsGrowing) (hs : Ψ statements tr) :
    Ψ (defineFunction name params ret l (functionBody l statements)) fun s =>
      (Lower.openFunction name params ret l).after s fun _ t => tr t := by
  refine h.function name params ret l hgrows hs (h.after (h.openFunction _ _ _ _) fun g => ?_)
  refine h.before hs fun jumped => ?_
  cases jumped with
  | true => exact h.pure _
  | false => exact h.leaveFunction l fun _ => h.literal _

theorem executeCases :
    StatementCases (fun n => Ψ n.execute n.trace) (fun ns => ∀ jumped,
      Ψ (Node.executeAll jumped ns) (Node.traceAll ns))
      (fun o => ∀ exit next, Ψ (o.execute exit next) (o.trace exit next)) where
  function hbody := by
    unfold Node.execute
    exact h.statement _
      (h.before (h.defineFunction _ _ _ _ (Node.executeAll_grows false _) (hbody false))
        fun _ => h.pure _)
  declare := by
    unfold Node.execute
    refine h.statement _ (h.before (h.expressions (h.declare _ _ _ _) ?_) fun _ => h.pure _)
    intro s ev hev
    obtain ⟨note, t, -, hev⟩ := mem_after.1 hev
    exact MeetsQuietly.fragmentsOr _ _ s ev hev
  assign := by
    unfold Node.execute
    exact h.statement _ (h.before (h.assign _ _ _) fun _ => h.pure _)
  store := by
    unfold Node.execute
    exact h.statement _ (h.before (h.expressions (h.storeAt (h.evaluate _) (h.evaluate _) _)
      (.append (.fragments _ _) (.after (Node.evaluate_quiet _) fun _ => .fragments _ _))) fun _ =>
      h.pure _)
  conditional hbody hrest := by
    unfold Node.execute
    exact h.statement _ (h.after (h.mintLabel _) fun exit => h.after (h.otherwiseLabel _ _)
        fun next =>
      h.guarded _ _ _ (hbody false) fun _ => h.before (hrest exit next) fun _ => h.pure _)
  whileLoop hbody := by
    unfold Node.execute
    refine h.statement _ (h.before ?_ fun _ => h.pure _)
    exact h.after h.openLoop fun f => h.branch _ _ _ fun _ => h.before (hbody false) fun _ =>
      h.bind (h.emit _) fun _ => h.bind (h.pure _) fun _ => h.closeLoop f
  forLoop hstart hstep hbody := by
    unfold Node.execute
    refine h.statement _ (h.before (h.block (h.sequence hstart fun _ => ?_)) fun _ => h.pure _)
    exact h.finish (h.before (h.loop _ _ (hbody false) hstep) fun _ => h.pure _)
  included hprogram := by
    unfold Node.execute
    refine h.statement _ (h.after (h.markIncluded _) fun new => h.choice ?_ ?_)
    · exact h.after (h.remark _) fun _ => h.after (h.emit _) fun _ => h.before (hprogram false)
        fun _ => h.pure _
    · exact h.nothing (h.bind (h.tell _) fun _ => h.pure _)
  breakLoop := h.statement _ (h.nothing (h.bind (h.leaveLoop _) fun _ => h.pure _))
  continueLoop := h.statement _ (h.nothing (h.bind (h.nextRound _) fun _ => h.pure _))
  ret :=
    h.statement _ (h.expressions (h.bind (h.leaveFunction _ (h.evaluateOr _)) fun _ => h.pure _)
      (.fragmentsOr _ _))
  call := by
    unfold Node.execute
    exact h.statement _ (h.expressions (h.bind (h.evaluate _) fun _ => h.bind (h.emit _) fun _ =>
      h.pure _) (.fragments _ _))
  step :=
    h.statement _ (h.expressions (h.bind (h.stepVariable _ _ _ _) fun _ => h.bind (h.emit _)
      fun _ => h.pure _) (.fragments _ _))
  misplaced hform := by
    rw [Node.execute_misplaced hform]
    show Ψ _ fun s => Node.trace _ s
    simp only [Node.trace_misplaced hform]
    exact h.statement _ (h.nothing (h.reject _ _))
  nil jumped := by
    unfold Node.executeAll
    exact h.finish (h.nothing (h.pure _))
  cons hn hns jumped := by
    unfold Node.executeAll
    exact h.sequence hn fun jumped => hns jumped
  absent exit next := h.nothing (h.emit _)
  block hbody exit next := by
    unfold Otherwise.execute
    exact h.after (h.emit _) fun _ => h.before (h.block (hbody false)) fun _ => h.emit _
  chained hbody hrest exit next := by
    unfold Otherwise.execute
    exact h.after (h.emit _) fun _ => h.after (h.otherwiseLabel _ _) fun next =>
      h.guarded _ _ _ (hbody false) fun _ => hrest exit next
  misplacedElse hform exit next := by
    rw [Otherwise.execute_misplaced hform]
    show Ψ _ fun s => Otherwise.trace _ _ _ s
    simp only [Otherwise.trace_misplaced hform]
    exact h.nothing (h.bind (h.emit _) fun _ => h.reject _ _)

/-- A trace law holds of compiling a statement list and its trace. -/
theorem executeAll (jumped : Bool) (ns : List Node) :
    Ψ (Node.executeAll jumped ns) (Node.traceAll ns) :=
  h.executeCases.list ns jumped

theorem registerLibrary : Φ registerLibrary := h.bind (h.forM h.library _) fun _ => h.tell _

theorem lowerPreamble : Φ lowerPreamble := h.bind h.registerLibrary fun _ => h.openProgram

/-- A trace law holds of compiling a program and its trace. -/
theorem lowerUnit (p : Program) :
    Ψ (lowerUnit p) fun s => KuAsm.lowerPreamble.after s fun _ t => Node.traceAll p.body t := by
  rw [lowerUnit_eq]
  exact h.after h.lowerPreamble fun _ => h.before (h.executeAll false p.body) fun jumped =>
    h.closeProgram jumped

end TraceLaw

end Lower

end KuAsm
