import KuAsm.Lowering.Walk

/-!
# Induction over a program

One type of node serves for expressions and statements, and a node of the wrong kind is refused.
The two structures of this module collect what has to be shown of each construct, so that a property
of all programs is proved by filling in one field per construct.

## Main statements

* `ExpressionCases.node`, `ExpressionCases.list`: a property of every expression and every argument
  list.
* `StatementCases.node`, `StatementCases.list`, `StatementCases.rest`: a property of every
  statement, every statement list, and whatever follows the block of a conditional.
* `Node.evaluate_misplaced`, `Node.execute_misplaced`: what is no expression, or no statement, is
  refused as such.
-/

namespace KuAsm

open Lower

variable {form : Form}

/-! ### The nodes of a program -/

mutual

/-- A node and all nodes in it. -/
def Node.nodes : Node → List Node
  | .mk form l => .mk form l :: form.nodes

/-- The nodes in a form. -/
def Form.nodes : Form → List Node
  | .binary _ left right => left.nodes ++ right.nodes
  | .signed _ value | .assign _ value | .cast value _ _ => value.nodes
  | .call _ args => Node.nodesAll args
  | .function _ _ _ body => Node.nodesAll body
  | .declare _ _ value | .ret value => Node.nodesOption value
  | .store address value => address.nodes ++ value.nodes
  | .conditional condition body otherwise =>
    condition.nodes ++ (Node.nodesAll body ++ otherwise.nodes)
  | .whileLoop condition body => condition.nodes ++ Node.nodesAll body
  | .forLoop start condition step body =>
    start.nodes ++ (condition.nodes ++ (step.nodes ++ Node.nodesAll body))
  | .included _ program => Node.nodesAll program
  | _ => []

/-- The nodes of a list. -/
def Node.nodesAll : List Node → List Node
  | [] => []
  | n :: ns => n.nodes ++ Node.nodesAll ns

/-- The nodes of a node that may be missing. -/
def Node.nodesOption : Option Node → List Node
  | none => []
  | some n => n.nodes

/-- The nodes behind the block of a conditional. -/
def Otherwise.nodes : Otherwise → List Node
  | .absent => []
  | .chained n => n.nodes
  | .block body => Node.nodesAll body

end

/-- All nodes of a program, those of included files among them. -/
def Program.nodes (p : Program) : List Node := Node.nodesAll p.body

/-! ### Kinds of nodes -/

/-- The constant that a form is, if it is one. -/
def Form.literal? : Form → Option Literal
  | number v => some (.number v)
  | decimal v => some (.decimal v)
  | char v => some (.char v)
  | bool v => some (.bool v)
  | str v => some (.str v)
  | _ => none

/-- Whether a form may stand for a value. -/
def Form.isExpression : Form → Bool
  | number _ | decimal _ | char _ | bool _ | str _ | var _ | binary .. | signed .. | step
    .. | call ..
  | addressOf _ | cast .. => true
  | _ => false

/-- Whether a form may stand in a statement list. -/
def Form.isStatement : Form → Bool
  | function .. | declare .. | assign .. | store .. | conditional .. | whileLoop .. | forLoop ..
  | included .. | breakLoop | continueLoop | ret _ | call .. | step .. => true
  | _ => false

/-- Whether a form is a conditional. -/
def Form.isConditional : Form → Bool
  | conditional .. => true
  | _ => false

theorem Node.evaluate_literal {v : Literal} (h : form.literal? = some v) (l : Location) :
    (Node.mk form l).evaluate = literal v := by
  cases form <;> cases h <;> rfl

/-- What is no expression is refused as one. -/
theorem Node.evaluate_misplaced (h : form.isExpression = false) (l : Location) :
    (Node.mk form l).evaluate = reject (.misplacedNode form.name "expression") l := by
  cases form <;> first | rfl | cases h

/-- What is no statement is refused as one. -/
theorem Node.execute_misplaced (h : form.isStatement = false) (l : Location) :
    (Node.mk form l).execute = reject (.misplacedNode form.name "statement") l := by
  cases form <;> first | rfl | cases h

/-- Only a conditional may follow the block of a conditional without a block of its own. -/
theorem Otherwise.execute_misplaced (h : form.isConditional = false) (exit next : Label)
    (l : Location) : (Otherwise.chained (.mk form l)).execute exit next =
      (do emit [Asm.jmp exit, .label next]
          reject (.misplacedNode form.name "else-if") l) := by
  cases form <;> first | rfl | cases h

/-! ### Expressions -/

/-- What has to be shown of each kind of expression, for a property `P` of nodes and `Q` of argument
lists. -/
structure ExpressionCases (P : Node → Prop) (Q : List Node → Prop) : Prop where
  constant : ∀ {form v l}, form.literal? = some v → P (.mk form l)
  var : ∀ {name l}, P (.mk (.var name) l)
  binary : ∀ {op left right l}, P left → P right → P (.mk (.binary op left right) l)
  signed : ∀ {sign value l}, P value → P (.mk (.signed sign value) l)
  step : ∀ {name op fixity l}, P (.mk (.step name op fixity) l)
  call : ∀ {name args l}, Q args → P (.mk (.call name args) l)
  addressOf : ∀ {name l}, P (.mk (.addressOf name) l)
  cast : ∀ {value ty mode l}, P value → P (.mk (.cast value ty mode) l)
  misplaced : ∀ {form l}, form.isExpression = false → P (.mk form l)
  nil : Q []
  cons : ∀ {n ns}, P n → Q ns → Q (n :: ns)

section

variable {P : Node → Prop} {Q : List Node → Prop} (h : ExpressionCases P Q)
include h

mutual

/-- A property of every expression. -/
theorem ExpressionCases.node : ∀ n, P n
  | .mk form _ => by
    cases form with
    | number | decimal | char | bool | str => exact h.constant rfl
    | var => exact h.var
    | binary _ left right => exact h.binary (ExpressionCases.node left) (ExpressionCases.node right)
    | signed _ value => exact h.signed (ExpressionCases.node value)
    | step => exact h.step
    | call _ args => exact h.call (ExpressionCases.list args)
    | addressOf => exact h.addressOf
    | cast value => exact h.cast (ExpressionCases.node value)
    | _ => exact h.misplaced rfl

/-- A property of every argument list. -/
theorem ExpressionCases.list : ∀ ns, Q ns
  | [] => h.nil
  | n :: ns => h.cons (ExpressionCases.node n) (ExpressionCases.list ns)

end

end

/-! ### Statements -/

/-- What has to be shown of each kind of statement, for a property `P` of nodes, `Q` of statement
lists, and `R` of what follows the block of a conditional. -/
structure StatementCases (P : Node → Prop) (Q : List Node → Prop) (R : Otherwise → Prop) :
    Prop where
  function : ∀ {name params ret body l}, Q body → P (.mk (.function name params ret body) l)
  declare : ∀ {name ty value l}, P (.mk (.declare name ty value) l)
  assign : ∀ {name value l}, P (.mk (.assign name value) l)
  store : ∀ {address value l}, P (.mk (.store address value) l)
  conditional : ∀ {condition body otherwise l}, Q body → R otherwise →
    P (.mk (.conditional condition body otherwise) l)
  whileLoop : ∀ {condition body l}, Q body → P (.mk (.whileLoop condition body) l)
  forLoop : ∀ {start condition step body l}, P start → P step → Q body →
    P (.mk (.forLoop start condition step body) l)
  included : ∀ {path program l}, Q program → P (.mk (.included path program) l)
  breakLoop : ∀ {l}, P (.mk .breakLoop l)
  continueLoop : ∀ {l}, P (.mk .continueLoop l)
  ret : ∀ {value l}, P (.mk (.ret value) l)
  call : ∀ {name args l}, P (.mk (.call name args) l)
  step : ∀ {name op fixity l}, P (.mk (.step name op fixity) l)
  misplaced : ∀ {form l}, form.isStatement = false → P (.mk form l)
  nil : Q []
  cons : ∀ {n ns}, P n → Q ns → Q (n :: ns)
  absent : R .absent
  block : ∀ {body}, Q body → R (.block body)
  chained : ∀ {condition body otherwise l}, Q body → R otherwise →
    R (.chained (.mk (.conditional condition body otherwise) l))
  misplacedElse : ∀ {form l}, form.isConditional = false → R (.chained (.mk form l))

section

variable {P : Node → Prop} {Q : List Node → Prop} {R : Otherwise → Prop} (h : StatementCases P Q R)
include h

mutual

/-- A property of every statement. -/
theorem StatementCases.node : ∀ n, P n
  | .mk form _ => by
    cases form with
    | function _ _ _ body => exact h.function (StatementCases.list body)
    | declare => exact h.declare
    | assign => exact h.assign
    | store => exact h.store
    | conditional _ body otherwise =>
      exact h.conditional (StatementCases.list body) (StatementCases.rest otherwise)
    | whileLoop _ body => exact h.whileLoop (StatementCases.list body)
    | forLoop start _ step body =>
      exact h.forLoop (StatementCases.node start) (StatementCases.node step)
        (StatementCases.list body)
    | included _ program => exact h.included (StatementCases.list program)
    | breakLoop => exact h.breakLoop
    | continueLoop => exact h.continueLoop
    | ret => exact h.ret
    | call => exact h.call
    | step => exact h.step
    | _ => exact h.misplaced rfl

/-- A property of every statement list. -/
theorem StatementCases.list : ∀ ns, Q ns
  | [] => h.nil
  | n :: ns => h.cons (StatementCases.node n) (StatementCases.list ns)

/-- A property of whatever follows the block of a conditional. -/
theorem StatementCases.rest : ∀ o, R o
  | .absent => h.absent
  | .block body => h.block (StatementCases.list body)
  | .chained (.mk form _) => by
    cases form with
    | conditional _ body otherwise =>
      exact h.chained (StatementCases.list body) (StatementCases.rest otherwise)
    | _ => exact h.misplacedElse rfl

end

end

end KuAsm
