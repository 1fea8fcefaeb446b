import KuAsm.Primitive

/-!
# Which programs are accepted

The rules of the language, without anything of how a program is compiled.  A place in a program is
described by the layers around it, innermost first: which variables and functions each declares, and
whether it is the body of a loop or of a function.  Statements change the innermost layer, and files
are included at most once.

## Main definitions

* `HasType Γ e τ`: the expression `e` is of type `τ` where the layers `Γ` are.
* `Accepts E n F`: the statement `n` may stand in the situation `E`, and `F` is the situation after
  it.
* `Program.IsAccepted`: the statements of a program may stand inside the library.
-/

namespace KuAsm

/-! ### Layers -/

/-- What a layer is the body of. -/
inductive Marker where
  /-- Nothing in particular. -/
  | plain
  /-- A loop. -/
  | loop
  /-- A function with a result of this type. -/
  | function (ret : ScalarType)
deriving DecidableEq, Repr

/-- The types of the parameters and of the result of a function. -/
structure Prototype where
  /-- The types of the parameters. -/
  params : List ScalarType
  /-- The type of the result. -/
  ret : ScalarType
deriving DecidableEq, Repr

/-- What is declared in one layer. -/
structure Layer where
  /-- The variables and their types. -/
  vars : List (String × ScalarType)
  /-- The functions. -/
  functions : List (String × Prototype)
  /-- What the layer is the body of. -/
  marker : Marker
deriving DecidableEq, Repr

namespace Layer

/-- A layer in which nothing is declared yet. -/
def fresh (marker : Marker) : Layer := ⟨[], [], marker⟩

/-- A layer with one variable more. -/
def withVariable (b : Layer) (name : String) (ty : ScalarType) : Layer :=
  { b with vars := b.vars ++ [(name, ty)] }

/-- A layer with one function more. -/
def withFunction (b : Layer) (name : String) (f : Prototype) : Layer :=
  { b with functions := b.functions ++ [(name, f)] }

/-- The layer of a function body, which declares the parameters. -/
def body (params : List Param) (ret : ScalarType) : Layer :=
  ⟨params.map fun p => (p.name, p.ty), [], .function ret⟩

/-- The outermost layer, which holds the library. -/
def library : Layer :=
  ⟨[], Primitive.all.map fun p => (p.name, ⟨p.params.map (·.ty), p.ret⟩), .plain⟩

end Layer

/-- The layers around a place, innermost first. -/
abbrev Context := List Layer

namespace Context

/-- The type of a variable: what the innermost layer that declares the name says. -/
def varType? (Γ : Context) (name : String) : Option ScalarType :=
  Γ.findSome? fun b => b.vars.lookup name

/-- The prototype of a function: what the innermost layer that declares the name says. -/
def function? (Γ : Context) (name : String) : Option Prototype :=
  Γ.findSome? fun b => b.functions.lookup name

/-- The type of the result of the innermost function. -/
def result? (Γ : Context) : Option ScalarType :=
  Γ.findSome? fun b => match b.marker with
    | .function ret => some ret
    | _ => none

/-- There is a loop around a place, and no function between them. -/
inductive InLoop : Context → Prop
  | here {b : Layer} {Γ : Context} : b.marker = .loop → InLoop (b :: Γ)
  | outer {b : Layer} {Γ : Context} : b.marker = .plain → InLoop Γ → InLoop (b :: Γ)

end Context

/-! ### Expressions -/

/-- The type of the result of an operator for two operands of a type it applies to. -/
inductive Operates : BinaryOp → ScalarType → ScalarType → Prop
  | arithmetic {op : BinaryOp} {τ : ScalarType} : op ∈ [.add, .sub, .mul, .div, .rem] →
    τ ∈ [.integer, .decimal] → Operates op τ τ
  | joining : Operates .add .string .string
  | logical {op : BinaryOp} : op ∈ [.and, .or] → Operates op .boolean .boolean
  | ordering {op : BinaryOp} {τ : ScalarType} : op ∈ [.lt, .gt, .le, .ge] →
    τ ∈ [.integer, .decimal, .character] → Operates op τ .boolean
  | equality {op : BinaryOp} {τ : ScalarType} : op ∈ [.eq, .ne] →
    τ ∈ [.integer, .decimal, .character, .boolean] → Operates op τ .boolean

mutual

/-- The expression is of the type, in the layers `Γ`. -/
inductive HasType (Γ : Context) : Node → ScalarType → Prop
  | number {v l} : HasType Γ (.mk (.number v) l) .integer
  | decimal {v l} : HasType Γ (.mk (.decimal v) l) .decimal
  | char {v l} : HasType Γ (.mk (.char v) l) .character
  | bool {v l} : HasType Γ (.mk (.bool v) l) .boolean
  | str {v l} : HasType Γ (.mk (.str v) l) .string
  | var {name l τ} : Γ.varType? name = some τ → HasType Γ (.mk (.var name) l) τ
  | binary {op left right l τ ρ} : HasType Γ left τ → HasType Γ right τ → Operates op τ ρ →
    HasType Γ (.mk (.binary op left right) l) ρ
  | signed {sign value l τ} : HasType Γ value τ → τ ∈ [.integer, .decimal] →
    HasType Γ (.mk (.signed sign value) l) τ
  | step {name op fixity l τ} : Γ.varType? name = some τ → τ ∈ [.integer, .character] →
    HasType Γ (.mk (.step name op fixity) l) τ
  /-- There may be more arguments than parameters; those are of any type. -/
  | call {name args l f types} : Γ.function? name = some f → HaveTypes Γ args types →
    f.params <+: types → HasType Γ (.mk (.call name args) l) f.ret
  | addressOf {name l τ} : Γ.varType? name = some τ → HasType Γ (.mk (.addressOf name) l) .integer
  | deref {value ty l τ} : HasType Γ value τ → τ ∈ [.integer, .string] →
    HasType Γ (.mk (.cast value ty .deref) l) ty
  | immediate {value ty l τ} : HasType Γ value τ → HasType Γ (.mk (.cast value ty .immediate) l) ty

/-- The expressions of a list are of the types of another list, one by one. -/
inductive HaveTypes (Γ : Context) : List Node → List ScalarType → Prop
  | nil : HaveTypes Γ [] []
  | cons {n ns τ types} : HasType Γ n τ → HaveTypes Γ ns types → HaveTypes Γ (n :: ns) (τ :: types)

end

/-- An expression that may be left out is of the type, if it is there. -/
def HasTypeOr (Γ : Context) (value : Option Node) (τ : ScalarType) : Prop :=
  ∀ e, value = some e → HasType Γ e τ

/-! ### Statements -/

/-- The layers around a statement, and the files included before it. -/
structure Situation where
  /-- The layers, innermost first. -/
  context : Context
  /-- The included files. -/
  included : List String
deriving DecidableEq, Repr

mutual

/-- The statement may stand in the first situation, and the second one is the situation after it. -/
inductive Accepts : Situation → Node → Situation → Prop
  /-- The function is declared before its body is looked at, and the body knows it. -/
  | function {b Γ inc name params ret body l E} :
    name ∉ b.functions.map (·.1) → (params.map Param.name).Nodup →
    AcceptsAll ⟨.body params ret :: b.withFunction name ⟨params.map (·.ty), ret⟩ :: Γ, inc⟩ body E →
    Accepts ⟨b :: Γ, inc⟩ (.mk (.function name params ret body) l)
      ⟨b.withFunction name ⟨params.map (·.ty), ret⟩ :: Γ, E.included⟩
  /-- The value does not know the variable yet. -/
  | declare {b Γ inc name ty value l} : HasTypeOr (b :: Γ) value ty → name ∉ b.vars.map (·.1) →
    Accepts ⟨b :: Γ, inc⟩ (.mk (.declare name ty value) l) ⟨b.withVariable name ty :: Γ, inc⟩
  | assign {Γ inc name value l τ} : Γ.varType? name = some τ → HasType Γ value τ →
    Accepts ⟨Γ, inc⟩ (.mk (.assign name value) l) ⟨Γ, inc⟩
  | store {Γ inc address value l τ} : HasType Γ address .integer → HasType Γ value τ →
    Accepts ⟨Γ, inc⟩ (.mk (.store address value) l) ⟨Γ, inc⟩
  | conditional {Γ inc condition body otherwise l E F} : HasType Γ condition .boolean →
    AcceptsAll ⟨.fresh .plain :: Γ, inc⟩ body E → AcceptsElse ⟨Γ, E.included⟩ otherwise F →
    Accepts ⟨Γ, inc⟩ (.mk (.conditional condition body otherwise) l) F
  | whileLoop {Γ inc condition body l E} : HasType (.fresh .loop :: Γ) condition .boolean →
    AcceptsAll ⟨.fresh .loop :: Γ, inc⟩ body E →
    Accepts ⟨Γ, inc⟩ (.mk (.whileLoop condition body) l) ⟨Γ, E.included⟩
  /-- The statement after every round stands behind the body. -/
  | forLoop {Γ inc start condition step body l E F G} : Accepts ⟨.fresh .plain :: Γ, inc⟩ start E →
    HasType (.fresh .loop :: E.context) condition .boolean →
    AcceptsAll ⟨.fresh .loop :: E.context, E.included⟩ body F → Accepts F step G →
    Accepts ⟨Γ, inc⟩ (.mk (.forLoop start condition step body) l) ⟨Γ, G.included⟩
  | breakLoop {Γ inc l} : Γ.InLoop → Accepts ⟨Γ, inc⟩ (.mk .breakLoop l) ⟨Γ, inc⟩
  | continueLoop {Γ inc l} : Γ.InLoop → Accepts ⟨Γ, inc⟩ (.mk .continueLoop l) ⟨Γ, inc⟩
  | ret {Γ inc value l τ} : Γ.result? = some τ → HasTypeOr Γ value τ →
    Accepts ⟨Γ, inc⟩ (.mk (.ret value) l) ⟨Γ, inc⟩
  | included {Γ inc path program l E} : path ∉ inc → AcceptsAll ⟨Γ, path :: inc⟩ program E →
    Accepts ⟨Γ, inc⟩ (.mk (.included path program) l) E
  | again {Γ inc path program l} : path ∈ inc →
    Accepts ⟨Γ, inc⟩ (.mk (.included path program) l) ⟨Γ, inc⟩
  | call {Γ inc name args l τ} : HasType Γ (.mk (.call name args) l) τ →
    Accepts ⟨Γ, inc⟩ (.mk (.call name args) l) ⟨Γ, inc⟩
  | step {Γ inc name op fixity l τ} : HasType Γ (.mk (.step name op fixity) l) τ →
    Accepts ⟨Γ, inc⟩ (.mk (.step name op fixity) l) ⟨Γ, inc⟩

/-- The statements of a list may stand one behind the other. -/
inductive AcceptsAll : Situation → List Node → Situation → Prop
  | nil {E} : AcceptsAll E [] E
  | cons {E n F ns G} : Accepts E n F → AcceptsAll F ns G → AcceptsAll E (n :: ns) G

/-- What follows the block of a conditional may stand there: nothing, a block, or a conditional. -/
inductive AcceptsElse : Situation → Otherwise → Situation → Prop
  | absent {E} : AcceptsElse E .absent E
  | block {Γ inc body E} : AcceptsAll ⟨.fresh .plain :: Γ, inc⟩ body E →
    AcceptsElse ⟨Γ, inc⟩ (.block body) ⟨Γ, E.included⟩
  | chained {E condition body otherwise l F} :
    Accepts E (.mk (.conditional condition body otherwise) l) F →
    AcceptsElse E (.chained (.mk (.conditional condition body otherwise) l)) F

end

/-! ### The rules, read backwards -/

section

variable {E F : Situation} {l : Location}

theorem accepts_function_iff {b : Layer} {Γ : Context} (hE : E.context = b :: Γ) {name : String}
    {params : List Param} {ret : ScalarType} {body : List Node} :
    Accepts E (.mk (.function name params ret body) l) F ↔
      (name ∉ b.functions.map (·.1) ∧ (params.map Param.name).Nodup) ∧ ∃ G,
        AcceptsAll ⟨.body params ret :: b.withFunction name ⟨params.map (·.ty), ret⟩ :: Γ,
          E.included⟩ body G ∧
        F = ⟨b.withFunction name ⟨params.map (·.ty), ret⟩ :: Γ, G.included⟩ := by
  obtain ⟨context, inc⟩ := E
  subst hE
  constructor
  · intro h
    cases h with
    | function hname hparams hbody => exact ⟨⟨hname, hparams⟩, _, hbody, rfl⟩
  · rintro ⟨⟨hname, hparams⟩, G, hbody, rfl⟩
    exact .function hname hparams hbody

theorem accepts_declare_iff {b : Layer} {Γ : Context} (hE : E.context = b :: Γ) {name : String}
    {ty : ScalarType} {value : Option Node} :
    Accepts E (.mk (.declare name ty value) l) F ↔
      HasTypeOr E.context value ty ∧ name ∉ b.vars.map (·.1) ∧
        F = ⟨b.withVariable name ty :: Γ, E.included⟩ := by
  obtain ⟨context, inc⟩ := E
  subst hE
  constructor
  · intro h
    cases h with
    | declare hvalue hname => exact ⟨hvalue, hname, rfl⟩
  · rintro ⟨hvalue, hname, rfl⟩
    exact .declare hvalue hname

theorem accepts_assign_iff {name : String} {value : Node} :
    Accepts E (.mk (.assign name value) l) F ↔
      ∃ τ, E.context.varType? name = some τ ∧ HasType E.context value τ ∧ F = E := by
  constructor
  · intro h
    cases h with
    | assign hτ hvalue => exact ⟨_, hτ, hvalue, rfl⟩
  · rintro ⟨τ, hτ, hvalue, rfl⟩
    exact .assign hτ hvalue

theorem accepts_store_iff {address value : Node} :
    Accepts E (.mk (.store address value) l) F ↔
      HasType E.context address .integer ∧ (∃ τ, HasType E.context value τ) ∧ F = E := by
  constructor
  · intro h
    cases h with
    | store haddress hvalue => exact ⟨haddress, ⟨_, hvalue⟩, rfl⟩
  · rintro ⟨haddress, ⟨τ, hvalue⟩, rfl⟩
    exact .store haddress hvalue

theorem accepts_conditional_iff {condition : Node} {body : List Node} {otherwise : Otherwise} :
    Accepts E (.mk (.conditional condition body otherwise) l) F ↔
      HasType E.context condition .boolean ∧ ∃ G,
        AcceptsAll ⟨.fresh .plain :: E.context, E.included⟩ body G ∧
        AcceptsElse ⟨E.context, G.included⟩ otherwise F := by
  constructor
  · intro h
    cases h with
    | conditional hc hbody hrest => exact ⟨hc, _, hbody, hrest⟩
  · rintro ⟨hc, G, hbody, hrest⟩
    exact .conditional hc hbody hrest

theorem accepts_whileLoop_iff {condition : Node} {body : List Node} :
    Accepts E (.mk (.whileLoop condition body) l) F ↔
      HasType (.fresh .loop :: E.context) condition .boolean ∧ ∃ G,
        AcceptsAll ⟨.fresh .loop :: E.context, E.included⟩ body G ∧
        F = ⟨E.context, G.included⟩ := by
  constructor
  · intro h
    cases h with
    | whileLoop hc hbody => exact ⟨hc, _, hbody, rfl⟩
  · rintro ⟨hc, G, hbody, rfl⟩
    exact .whileLoop hc hbody

theorem accepts_forLoop_iff {start condition step : Node} {body : List Node} :
    Accepts E (.mk (.forLoop start condition step body) l) F ↔
      ∃ G, Accepts ⟨.fresh .plain :: E.context, E.included⟩ start G ∧
        HasType (.fresh .loop :: G.context) condition .boolean ∧ ∃ H I,
          AcceptsAll ⟨.fresh .loop :: G.context, G.included⟩ body H ∧ Accepts H step I ∧
          F = ⟨E.context, I.included⟩ := by
  constructor
  · intro h
    cases h with
    | forLoop hstart hc hbody hstep => exact ⟨_, hstart, hc, _, _, hbody, hstep, rfl⟩
  · rintro ⟨G, hstart, hc, H, I, hbody, hstep, rfl⟩
    exact .forLoop hstart hc hbody hstep

theorem accepts_breakLoop_iff :
    Accepts E (.mk .breakLoop l) F ↔ E.context.InLoop ∧ F = E := by
  constructor
  · intro h
    cases h with
    | breakLoop hloop => exact ⟨hloop, rfl⟩
  · rintro ⟨hloop, rfl⟩
    exact .breakLoop hloop

theorem accepts_continueLoop_iff :
    Accepts E (.mk .continueLoop l) F ↔ E.context.InLoop ∧ F = E := by
  constructor
  · intro h
    cases h with
    | continueLoop hloop => exact ⟨hloop, rfl⟩
  · rintro ⟨hloop, rfl⟩
    exact .continueLoop hloop

theorem accepts_ret_iff {value : Option Node} :
    Accepts E (.mk (.ret value) l) F ↔
      ∃ τ, E.context.result? = some τ ∧ HasTypeOr E.context value τ ∧ F = E := by
  constructor
  · intro h
    cases h with
    | ret hτ hvalue => exact ⟨_, hτ, hvalue, rfl⟩
  · rintro ⟨τ, hτ, hvalue, rfl⟩
    exact .ret hτ hvalue

theorem accepts_included_iff {path : String} {program : List Node} :
    Accepts E (.mk (.included path program) l) F ↔
      if path ∈ E.included then F = E else
      AcceptsAll ⟨E.context, path :: E.included⟩ program F := by
  constructor
  · intro h
    cases h with
    | included hnew hprogram =>
      rw [if_neg hnew]
      exact hprogram
    | again hold => rw [if_pos hold]
  · intro h
    by_cases hpath : path ∈ E.included
    · rw [if_pos hpath] at h
      subst h
      exact .again hpath
    · rw [if_neg hpath] at h
      exact .included hpath h

theorem accepts_call_iff {name : String} {args : List Node} :
    Accepts E (.mk (.call name args) l) F ↔
      (∃ τ, HasType E.context (.mk (.call name args) l) τ) ∧ F = E := by
  constructor
  · intro h
    cases h with
    | call hcall => exact ⟨⟨_, hcall⟩, rfl⟩
  · rintro ⟨⟨τ, hcall⟩, rfl⟩
    exact .call hcall

theorem accepts_step_iff {name : String} {op : StepOp} {fixity : Fixity} :
    Accepts E (.mk (.step name op fixity) l) F ↔
      (∃ τ, HasType E.context (.mk (.step name op fixity) l) τ) ∧ F = E := by
  constructor
  · intro h
    cases h with
    | step hstep => exact ⟨⟨_, hstep⟩, rfl⟩
  · rintro ⟨⟨τ, hstep⟩, rfl⟩
    exact .step hstep

theorem acceptsElse_block_iff {body : List Node} :
    AcceptsElse E (.block body) F ↔
      ∃ G, AcceptsAll ⟨.fresh .plain :: E.context, E.included⟩ body G ∧
      F = ⟨E.context, G.included⟩ := by
  constructor
  · intro h
    cases h with
    | block hbody => exact ⟨_, hbody, rfl⟩
  · rintro ⟨G, hbody, rfl⟩
    exact .block hbody

theorem acceptsElse_chained_iff {condition : Node} {body : List Node} {otherwise : Otherwise} :
    AcceptsElse E (.chained (.mk (.conditional condition body otherwise) l)) F ↔
      HasType E.context condition .boolean ∧ ∃ G,
        AcceptsAll ⟨.fresh .plain :: E.context, E.included⟩ body G ∧
        AcceptsElse ⟨E.context, G.included⟩ otherwise F := by
  rw [← accepts_conditional_iff (l := l)]
  constructor
  · intro h
    cases h with
    | chained h => exact h
  · exact .chained

end

/-- The statements of the program may stand inside the library, where nothing is included yet. -/
def Program.IsAccepted (p : Program) : Prop :=
  ∃ E, AcceptsAll ⟨[.library], []⟩ p.body E

end KuAsm
