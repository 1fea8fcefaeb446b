import KuAsm.Source.Node

/-!
# Equality of programs

`Node.same` compares two trees node by node, places included.  It is written out by recursion on the
first tree.
-/

namespace KuAsm

mutual

/-- Whether two nodes are equal. -/
def Node.same : Node → Node → Bool
  | .mk f l, .mk g k => Form.same f g && l == k

/-- Whether two forms are equal. -/
def Form.same : Form → Form → Bool
  | .number a, .number b => a == b
  | .decimal a, .decimal b => a == b
  | .char a, .char b => a == b
  | .str a, .str b => a == b
  | .bool a, .bool b => a == b
  | .var a, .var b => a == b
  | .binary o a b, .binary p c d => o == p && Node.same a c && Node.same b d
  | .signed s a, .signed t b => s == t && Node.same a b
  | .step n o f, .step m p g => n == m && o == p && f == g
  | .call n as, .call m bs => n == m && Node.sameList as bs
  | .function n ps r b, .function m qs t c => n == m && ps == qs && r == t && Node.sameList b c
  | .declare n t v, .declare m u w => n == m && t == u && Node.sameOption v w
  | .assign n v, .assign m w => n == m && Node.same v w
  | .store a v, .store b w => Node.same a b && Node.same v w
  | .addressOf a, .addressOf b => a == b
  | .cast v t m, .cast w u n => Node.same v w && t == u && m == n
  | .conditional c b o, .conditional d e p =>
    Node.same c d && Node.sameList b e && Otherwise.same o p
  | .whileLoop c b, .whileLoop d e => Node.same c d && Node.sameList b e
  | .forLoop i c s b, .forLoop j d t e =>
    Node.same i j && Node.same c d && Node.same s t && Node.sameList b e
  | .breakLoop, .breakLoop => true
  | .continueLoop, .continueLoop => true
  | .ret v, .ret w => Node.sameOption v w
  | .included p b, .included q c => p == q && Node.sameList b c
  | _, _ => false

/-- Whether two continuations of a conditional are equal. -/
def Otherwise.same : Otherwise → Otherwise → Bool
  | .absent, .absent => true
  | .chained a, .chained b => Node.same a b
  | .block a, .block b => Node.sameList a b
  | _, _ => false

/-- Whether two lists of nodes are equal. -/
def Node.sameList : List Node → List Node → Bool
  | [], [] => true
  | a :: as, b :: bs => Node.same a b && Node.sameList as bs
  | _, _ => false

/-- Whether two optional nodes are equal. -/
def Node.sameOption : Option Node → Option Node → Bool
  | none, none => true
  | some a, some b => Node.same a b
  | _, _ => false

end

/-- Whether two programs are equal. -/
def Program.same (p q : Program) : Bool := Node.sameList p.body q.body

end KuAsm
