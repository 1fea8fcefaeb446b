import KuAsm.Proofs.Values
import KuAsm.Source.Reading

/-!
# Programs read back

A program is written as one object, and what is written reads as the same program.  A node is
written with its form first and its place last; reading takes the members one by one, so it is
enough to know what each of them reads as.

Two things can go wrong, and are excluded here.  A decimal literal that is not finite has no
numeral, and the shortest digits of a finite one have to read back.  And the reader has room for 127
lists and objects inside one another, while a program may nest deeper.

## Main definitions

* `Node.decimals`, `Program.decimals`: the decimal literals of a program.
* `Form.children`: the nodes directly inside a node.

## Main statements

* `formOf?_members`: the members of a form read as the form, if its children read back.
* `Node.ofJsonWithin?_toJson`: the value of a node reads as the node.
* `scanNode_render`: the text of a node reads as the node.
* `read_write`: the text of a program reads as the program.
-/

namespace KuAsm

open Json

variable {c : Node} {x : Single}

/-! ### Parts of a program -/

mutual

/-- The decimal literals of a node. -/
def Node.decimals : Node → List Single
  | .mk f _ => f.decimals

/-- The decimal literals of a form. -/
def Form.decimals : Form → List Single
  | .decimal v => [v]
  | .binary _ l r => l.decimals ++ r.decimals
  | .signed _ v => v.decimals
  | .call _ args => Node.decimalsAll args
  | .function _ _ _ body => Node.decimalsAll body
  | .declare _ _ v => Node.decimalsOption v
  | .assign _ v => v.decimals
  | .store a v => a.decimals ++ v.decimals
  | .cast v _ _ => v.decimals
  | .conditional c body o => c.decimals ++ (Node.decimalsAll body ++ o.decimals)
  | .whileLoop c body => c.decimals ++ Node.decimalsAll body
  | .forLoop i c s body => i.decimals ++ (c.decimals ++ (s.decimals ++ Node.decimalsAll body))
  | .ret v => Node.decimalsOption v
  | .included _ body => Node.decimalsAll body
  | _ => []

/-- The decimal literals of what follows a conditional. -/
def Otherwise.decimals : Otherwise → List Single
  | .absent => []
  | .chained n => n.decimals
  | .block body => Node.decimalsAll body

/-- The decimal literals of a list of nodes. -/
def Node.decimalsAll : List Node → List Single
  | [] => []
  | n :: ns => n.decimals ++ Node.decimalsAll ns

/-- The decimal literals of an optional node. -/
def Node.decimalsOption : Option Node → List Single
  | none => []
  | some n => n.decimals

end

/-- The decimal literals of a program. -/
def Program.decimals (p : Program) : List Single := Node.decimalsAll p.body

/-- The nodes of what follows a conditional. -/
def Otherwise.children : Otherwise → List Node
  | .absent => []
  | .chained n => [n]
  | .block body => body

/-- The nodes directly inside a node. -/
def Form.children : Form → List Node
  | .binary _ l r => [l, r]
  | .signed _ v | .assign _ v | .cast v _ _ => [v]
  | .call _ ns | .function _ _ _ ns | .included _ ns => ns
  | .declare _ _ v | .ret v => v.toList
  | .store a v => [a, v]
  | .conditional c body o => c :: (body ++ o.children)
  | .whileLoop c body => c :: body
  | .forLoop i c s body => i :: c :: s :: body
  | _ => []

theorem Node.decimalsAll_eq (ns : List Node) : Node.decimalsAll ns = ns.flatMap Node.decimals := by
  induction ns with
  | nil =>
    unfold Node.decimalsAll
    rfl
  | cons n ns ih =>
    unfold Node.decimalsAll
    rw [ih, List.flatMap_cons]

theorem Otherwise.decimals_eq (o : Otherwise) : o.decimals = o.children.flatMap Node.decimals := by
  cases o <;> simp [Otherwise.decimals, Otherwise.children, Node.decimalsAll_eq]

theorem Node.decimalsOption_eq (v : Option Node) :
    Node.decimalsOption v = v.toList.flatMap Node.decimals := by
  cases v <;> simp [Node.decimalsOption]

/-- The decimal literals of a node are those of the nodes inside it, unless it is one itself. -/
theorem Form.decimals_eq (f : Form) (hf : ∀ v, f ≠ .decimal v) :
    f.decimals = f.children.flatMap Node.decimals := by
  cases f <;> first
    | exact absurd rfl (hf _)
    | simp [Form.decimals, Form.children, Node.decimalsAll_eq, Node.decimalsOption_eq,
      Otherwise.decimals_eq]

theorem Form.mem_decimals {f : Form} (hc : c ∈ f.children) (hx : x ∈ c.decimals) :
    x ∈ f.decimals := by
  rw [Form.decimals_eq f]
  · exact List.mem_flatMap.2 ⟨c, hc, hx⟩
  · rintro v rfl
    cases hc

theorem Node.toJsonList_eq (ns : List Node) : Node.toJsonList ns = ns.map Node.toJson := by
  induction ns with
  | nil =>
    unfold Node.toJsonList
    rfl
  | cons n ns ih =>
    unfold Node.toJsonList
    rw [ih, List.map_cons]

theorem Node.depth_le_itemsDepth {ns : List Node} (hc : c ∈ ns) :
    c.toJson.depth ≤ Value.itemsDepth (Node.toJsonList ns) :=
  Value.depth_le_itemsDepth (by rw [Node.toJsonList_eq]; exact List.mem_map_of_mem hc)

theorem Otherwise.depth_le {o : Otherwise} (hc : c ∈ o.children) :
    c.toJson.depth ≤ o.toJson.depth := by
  cases o with
  | absent => cases hc
  | chained n =>
    obtain rfl := List.mem_singleton.1 hc
    simp only [Otherwise.toJson, Value.depth, Value.membersDepth]
    omega
  | block body =>
    have hle : c.toJson.depth ≤ Value.itemsDepth (Node.toJsonList body) :=
      Node.depth_le_itemsDepth hc
    simp only [Otherwise.toJson, Value.depth, Value.membersDepth]
    omega

theorem Node.depth_le_toJsonOption {v : Option Node} (hc : c ∈ v.toList) :
    c.toJson.depth ≤ (Node.toJsonOption v).depth := by
  cases v with
  | none => cases hc
  | some n =>
    obtain rfl := List.mem_singleton.1 hc
    exact Nat.le_refl _

/-- The nodes inside a node nest less deep. -/
theorem Form.depth_le {f : Form} (hc : c ∈ f.children) :
    c.toJson.depth ≤ Value.membersDepth f.members := by
  have hlist :
      ∀ {ns : List Node}, c ∈ ns → c.toJson.depth ≤ Value.itemsDepth (Node.toJsonList ns) :=
    Node.depth_le_itemsDepth
  cases f <;> simp only [Form.children, List.mem_cons, List.mem_append, List.not_mem_nil, or_false]
    at hc <;>
    simp only [Form.members, Value.membersDepth, Value.depth]
  case binary => rcases hc with rfl | rfl <;> omega
  case signed => subst hc; omega
  case assign => subst hc; omega
  case cast => subst hc; omega
  case store => rcases hc with rfl | rfl <;> omega
  case call => have hle := hlist hc; omega
  case function => have hle := hlist hc; omega
  case included => have hle := hlist hc; omega
  case declare => have hle := Node.depth_le_toJsonOption hc; omega
  case ret => have hle := Node.depth_le_toJsonOption hc; omega
  case conditional =>
    rcases hc with rfl | hc | hc
    · omega
    · have hle := hlist hc; omega
    · have hle := Otherwise.depth_le hc; omega
  case whileLoop =>
    rcases hc with rfl | hc
    · omega
    · have hle := hlist hc; omega
  case forLoop =>
    rcases hc with rfl | rfl | rfl | hc
    · omega
    · omega
    · omega
    · have hle := hlist hc; omega

/-! ### Values of nodes -/

/-- The members of a form open with its kind, and none of them is a place. -/
theorem Form.members_shape (f : Form) :
    (∃ v ms, f.members = ("type", v) :: ms) ∧ ∀ m ∈ f.members, m.1 ≠ "location" := by
  cases f <;> simp [Form.members]

/-- A decimal literal is finite, and its digits read back. -/
def Single.ReadsBack (x : Single) : Prop :=
  x.isFinite = true ∧ (Numeral.ofSingle x).single? = some x

theorem Single.ReadsBack.written (hx : x.ReadsBack) : x.toJson.Written := by
  unfold Single.toJson
  rw [if_pos hx.1]
  refine .number (Numeral.written_ofSingle x) ?_
  have hsingle := hx.2
  unfold Numeral.single? at hsingle
  unfold Numeral.isOutOfRange
  cases hinteger : (Numeral.ofSingle x).integer? with
  | some i => rfl
  | none =>
    rw [hinteger] at hsingle
    obtain ⟨r, hr, -⟩ := Option.map_eq_some_iff.1 hsingle
    rw [hr]
    rfl

theorem Single.ReadsBack.ofJson? (hx : x.ReadsBack) : Single.ofJson? x.toJson = some x := by
  unfold Single.toJson
  rw [if_pos hx.1]
  exact hx.2

end KuAsm

namespace KuAsm.Json

/-- Integers of 64 bits are written values. -/
theorem Value.written_int {i : Int} (hlow : -9223372036854775808 ≤ i)
    (hhigh : i ≤ 18446744073709551615) : (Value.int i).Written := by
  refine .number (Numeral.written_ofInt i) ?_
  unfold Numeral.isOutOfRange
  rw [Numeral.integer?_ofInt hlow hhigh]
  rfl

theorem Value.integer?_int {i : Int} (hlow : -9223372036854775808 ≤ i)
    (hhigh : i ≤ 18446744073709551615) :
    (Value.int i).integer? = some i := Numeral.integer?_ofInt hlow hhigh

end KuAsm.Json

namespace KuAsm

open Json

variable {f : Form} {ms : List (String × Value)} {rest : List Char} {fuel : Nat} {n : Node}

theorem Location.toJson_written (l : Location) : l.toJson.Written := by
  have hword : ∀ k : UInt32, (Value.nat k.toNat).Written := fun k =>
    Value.written_int (by omega) (by have hlt := k.toNat_lt; omega)
  refine .record fun m hm => ?_
  rcases List.mem_cons.1 hm with rfl | hm
  · exact hword l.line
  · obtain rfl := List.mem_singleton.1 hm
    exact hword l.col

theorem natBelow?_nat {bound n : Nat} (hn : n < bound) (hbound : bound ≤ 18446744073709551616) :
    natBelow? bound (.nat n) = some n := by
  unfold natBelow? Value.nat
  rw [Value.integer?_int (by omega) (by omega)]
  exact if_pos hn

theorem natBelow?_word (k : UInt32) : natBelow? UInt32.size (.nat k.toNat) = some k.toNat :=
  natBelow?_nat k.toNat_lt (by decide)

theorem Location.ofJson?_toJson (l : Location) : Location.ofJson? l.toJson = some l := by
  simp [Location.ofJson?, Location.toJson, required?, unique?, natBelow?_word]

theorem Param.ofJson?_toJson (p : Param) : Param.ofJson? p.toJson = some p := by
  simp [Param.ofJson?, Param.toJson, required?, unique?, Value.text?, wordOf?,
    ScalarType.ofName?_name]

theorem mapM_toJson {α : Type} {write : α → Value} {read : Value → Option α} {as : List α}
    (h : ∀ a ∈ as, read (write a) = some a) : (as.map write).mapM read = some as := by
  induction as with
  | nil => rfl
  | cons a as ih =>
    rw [List.map_cons, List.mapM_cons, h a List.mem_cons_self, ih fun b hb =>
      h b (List.mem_cons_of_mem a hb)]
    rfl

section

variable {node : Value → Option Node}

theorem nodesOf?_toJsonList {ns : List Node} (h : ∀ c ∈ ns, node c.toJson = some c) :
    nodesOf? node (.list (Node.toJsonList ns)) = some ns := by
  rw [Node.toJsonList_eq]
  exact mapM_toJson h

/-- An optional node that is written reads back. -/
theorem nodeOption?_toJsonOption {v : Option Node} (h : ∀ c ∈ v.toList, node c.toJson = some c)
    {key : String} (hkey : unique? key ms = some (some (Node.toJsonOption v))) :
    nodeOption? node key ms = some v := by
  unfold nodeOption? optional?
  rw [hkey]
  cases v with
  | none =>
    unfold Node.toJsonOption
    rfl
  | some n =>
    have hn := h n (List.mem_singleton_self n)
    obtain ⟨f, l⟩ := n
    unfold Node.toJsonOption Node.toJson at *
    show (node (.record _)).map some = _
    rw [hn]
    rfl

/-- What follows a conditional reads back. -/
theorem otherwiseOf?_toJson {o : Otherwise} (h : ∀ c ∈ o.children, node c.toJson = some c)
    {key : String} (hkey : unique? key ms = some (some o.toJson)) :
    ∃ v?, optional? key ms = some v? ∧ (v?.elim (some .absent) (otherwiseOf? node)) = some o := by
  unfold optional?
  rw [hkey]
  cases o with
  | absent =>
    unfold Otherwise.toJson
    exact ⟨none, rfl, rfl⟩
  | chained n =>
    unfold Otherwise.toJson
    refine ⟨_, rfl, ?_⟩
    show (node n.toJson).map Otherwise.chained = _
    rw [h n (List.mem_singleton_self n)]
    rfl
  | block body =>
    have hbody : nodesOf? node (.list (Node.toJsonList body)) = some body := nodesOf?_toJsonList h
    unfold Otherwise.toJson
    refine ⟨_, rfl, ?_⟩
    show (nodesOf? node (.list (Node.toJsonList body))).map Otherwise.block = _
    rw [hbody]
    rfl

theorem int32?_int (v : Int32) : int32? (.int v.toInt) = some v := by
  have hlow := v.le_toInt
  have hhigh := v.toInt_lt
  unfold int32?
  rw [Value.integer?_int (by omega) (by omega)]
  dsimp only
  rw [if_pos ⟨by omega, by omega⟩, Int32.ofInt_toInt]

/-- The members of a form read as the form, if its decimal literals and its children read back. -/
theorem formOf?_members (f : Form) (hnode : ∀ c ∈ f.children, node c.toJson = some c)
    (hdecimals : ∀ x ∈ f.decimals, x.ReadsBack) : formOf? node f.members = some f := by
  cases f <;> simp only [Form.children, List.forall_mem_cons, List.forall_mem_append] at hnode <;>
    unfold Form.members
  case number v =>
    show (int32? (.int v.toInt)).map Form.number = _
    rw [int32?_int]
    rfl
  case decimal v =>
    show (Single.ofJson? v.toJson).map Form.decimal = _
    rw [(hdecimals v (by simp [Form.decimals])).ofJson?]
    rfl
  case char v =>
    show (natBelow? 256 (.nat v.toNat)).map (fun n => Form.char (UInt8.ofNat n)) = _
    rw [natBelow?_nat v.toNat_lt (by decide), Option.map_some, UInt8.ofNat_toNat]
  case str v => rfl
  case bool v => rfl
  case var name => rfl
  case binary op left right =>
    show (do
      some (Form.binary (← BinaryOp.ofKeyword? op.symbol) (← node left.toJson)
        (← node right.toJson))) = _
    rw [BinaryOp.ofKeyword?_symbol, hnode.1, hnode.2.1]
    rfl
  case signed sign value =>
    show (do some (Form.signed (← Sign.ofKeyword? sign.symbol) (← node value.toJson))) = _
    rw [Sign.ofKeyword?_symbol, hnode.1]
    rfl
  case step name op fixity =>
    show (do
      some (Form.step name (← StepOp.ofKeyword? op.keyword)
        (← Fixity.ofKeyword? fixity.keyword))) = _
    rw [StepOp.ofKeyword?_keyword, Fixity.ofKeyword?_keyword]
    rfl
  case call name args =>
    show (do some (Form.call name (← nodesOf? node (.list (Node.toJsonList args))))) = _
    rw [nodesOf?_toJsonList hnode]
    rfl
  case function name params ret body =>
    show (do
      some (Form.function name (← (params.map Param.toJson).mapM Param.ofJson?)
        (← ScalarType.ofName? ret.name) (← nodesOf? node (.list (Node.toJsonList body))))) = _
    rw [mapM_toJson fun p _ => p.ofJson?_toJson, ScalarType.ofName?_name, nodesOf?_toJsonList hnode]
    rfl
  case declare name ty value =>
    have hvalue : nodeOption? node "value" (Form.declare name ty value).members = some value :=
      nodeOption?_toJsonOption hnode (by unfold Form.members; rfl)
    show (do some (Form.declare name (← ScalarType.ofName? ty.name)
      (← nodeOption? node "value" (Form.declare name ty value).members))) = _
    rw [hvalue, ScalarType.ofName?_name]
    rfl
  case assign name value =>
    show (do some (Form.assign name (← node value.toJson))) = _
    rw [hnode.1]
    rfl
  case store address value =>
    show (do some (Form.store (← node address.toJson) (← node value.toJson))) = _
    rw [hnode.1, hnode.2.1]
    rfl
  case addressOf name => rfl
  case cast value ty mode =>
    show (do
      some (Form.cast (← node value.toJson) (← ScalarType.ofName? ty.name)
        (← CastMode.ofKeyword? mode.keyword))) = _
    rw [hnode.1, ScalarType.ofName?_name, CastMode.ofKeyword?_keyword]
    rfl
  case conditional condition body otherwise =>
    obtain ⟨v?, hfound, hrest⟩ := otherwiseOf?_toJson hnode.2.2 (by unfold Form.members; rfl :
      unique? "otherwise" (Form.conditional condition body otherwise).members =
        some (some otherwise.toJson))
    refine (congrArg (Option.bind · _) hfound).trans ?_
    cases v? with
    | none =>
      obtain rfl := Option.some.inj hrest
      show (do
        some (Form.conditional (← node condition.toJson)
          (← nodesOf? node (.list (Node.toJsonList body))) .absent)) = _
      rw [hnode.1, nodesOf?_toJsonList hnode.2.1]
      rfl
    | some v =>
      show (do
        let rest ← otherwiseOf? node v
        some (Form.conditional (← node condition.toJson)
          (← nodesOf? node (.list (Node.toJsonList body))) rest)) = _
      rw [show otherwiseOf? node v = some otherwise from hrest, hnode.1,
        nodesOf?_toJsonList hnode.2.1]
      rfl
  case whileLoop condition body =>
    show (do
      some (Form.whileLoop (← node condition.toJson)
        (← nodesOf? node (.list (Node.toJsonList body))))) = _
    rw [hnode.1, nodesOf?_toJsonList hnode.2]
    rfl
  case forLoop start condition step body =>
    show (do some (Form.forLoop (← node start.toJson) (← node condition.toJson) (← node step.toJson)
      (← nodesOf? node (.list (Node.toJsonList body))))) = _
    rw [hnode.1, hnode.2.1, hnode.2.2.1, nodesOf?_toJsonList hnode.2.2.2]
    rfl
  case breakLoop => rfl
  case continueLoop => rfl
  case ret value =>
    have hvalue : nodeOption? node "value" (Form.ret value).members = some value :=
      nodeOption?_toJsonOption hnode (by unfold Form.members; rfl)
    show (nodeOption? node "value" (Form.ret value).members).map Form.ret = _
    rw [hvalue]
    rfl
  case included path program =>
    show (do some (Form.included path (← nodesOf? node (.list (Node.toJsonList program))))) = _
    rw [nodesOf?_toJsonList hnode]
    rfl

end

/-- The members of a form are written values, if its decimal literals read back and its children are
written values. -/
theorem Form.members_written (hchildren : ∀ c ∈ f.children, c.toJson.Written)
    (hdecimals : ∀ x ∈ f.decimals, x.ReadsBack) : ∀ m ∈ f.members, m.2.Written := by
  have hlist : ∀ {ns : List Node}, (∀ c ∈ ns, c.toJson.Written) →
      (Value.list (Node.toJsonList ns)).Written := by
    intro ns hns
    refine .list fun v hv => ?_
    rw [Node.toJsonList_eq] at hv
    obtain ⟨c, hc, rfl⟩ := List.mem_map.1 hv
    exact hns c hc
  have hoption : ∀ {v : Option Node}, (∀ c ∈ v.toList, c.toJson.Written) →
      (Node.toJsonOption v).Written := by
    intro v hv
    cases v with
    | none => exact .null
    | some n => exact hv n (List.mem_singleton_self n)
  have hotherwise : ∀ {o : Otherwise}, (∀ c ∈ o.children, c.toJson.Written) → o.toJson.Written := by
    intro o ho
    cases o with
    | absent => exact .null
    | chained n =>
      exact .record fun m hm => List.mem_singleton.1 hm ▸ ho n (List.mem_singleton_self n)
    | block body => exact .record fun m hm => List.mem_singleton.1 hm ▸ hlist ho
  have hparams : ∀ ps : List Param, (Value.list (ps.map Param.toJson)).Written := by
    intro ps
    refine .list fun v hv => ?_
    obtain ⟨p, -, rfl⟩ := List.mem_map.1 hv
    exact .record (List.forall_mem_cons.2 ⟨.text _, List.forall_mem_cons.2 ⟨.text _, nofun⟩⟩)
  cases f <;>
    simp only [Form.children, List.forall_mem_cons, List.forall_mem_append] at hchildren <;>
    simp only [Form.members, List.forall_mem_cons]
  case number v =>
    have hlow := v.le_toInt
    have hhigh := v.toInt_lt
    exact ⟨.text _, Value.written_int (by omega) (by omega), nofun⟩
  case decimal v => exact ⟨.text _, (hdecimals v (by simp [Form.decimals])).written, nofun⟩
  case char v =>
    have hlt := v.toNat_lt
    exact ⟨.text _, Value.written_int (by omega) (by omega), nofun⟩
  case str v => exact ⟨.text _, .text _, nofun⟩
  case bool v => exact ⟨.text _, .bool _, nofun⟩
  case var name => exact ⟨.text _, .text _, nofun⟩
  case binary op left right => exact ⟨.text _, .text _, hchildren.1, hchildren.2.1, nofun⟩
  case signed sign value => exact ⟨.text _, .text _, hchildren.1, nofun⟩
  case step name op fixity => exact ⟨.text _, .text _, .text _, .text _, nofun⟩
  case call name args => exact ⟨.text _, .text _, hlist hchildren, nofun⟩
  case function name params ret body =>
    exact ⟨.text _, .text _, hparams params, .text _, hlist hchildren, nofun⟩
  case declare name ty value => exact ⟨.text _, .text _, .text _, hoption hchildren, nofun⟩
  case assign name value => exact ⟨.text _, .text _, hchildren.1, nofun⟩
  case store address value => exact ⟨.text _, hchildren.1, hchildren.2.1, nofun⟩
  case addressOf name => exact ⟨.text _, .text _, nofun⟩
  case cast value ty mode => exact ⟨.text _, hchildren.1, .text _, .text _, nofun⟩
  case conditional condition body otherwise =>
    exact ⟨.text _, hchildren.1, hlist hchildren.2.1, hotherwise hchildren.2.2, nofun⟩
  case whileLoop condition body => exact ⟨.text _, hchildren.1, hlist hchildren.2, nofun⟩
  case forLoop start condition step body =>
    exact ⟨.text _, hchildren.1, hchildren.2.1, hchildren.2.2.1, hlist hchildren.2.2.2, nofun⟩
  case breakLoop => exact ⟨.text _, nofun⟩
  case continueLoop => exact ⟨.text _, nofun⟩
  case ret value => exact ⟨.text _, hoption hchildren, nofun⟩
  case included path program => exact ⟨.text _, .text _, hlist hchildren, nofun⟩

theorem Node.depth_mk (f : Form) (l : Location) :
    Value.membersDepth f.members < (Node.mk f l).toJson.depth := by
  unfold Node.toJson Value.depth
  exact Nat.lt_succ_of_le (Value.membersDepth_le fun m hm =>
    Value.depth_le_membersDepth (List.mem_append_left _ hm))

/-- What holds of a node if it holds of the nodes inside it holds of every node. -/
theorem Node.byChildren {P : Node → Prop} (h : ∀ f l, (∀ c ∈ f.children, P c) → P (.mk f l))
    (n : Node) : P n := by
  have hdepth : ∀ (d : Nat) (n : Node), n.toJson.depth ≤ d → P n := by
    intro d
    induction d with
    | zero =>
      rintro ⟨f, l⟩ hd
      exact absurd (Node.depth_mk f l) (by omega)
    | succ d ih =>
      rintro ⟨f, l⟩ hd
      refine h f l fun c hc => ih c ?_
      have hlt := Node.depth_mk f l
      have hle := Form.depth_le hc
      omega
  exact hdepth _ n (Nat.le_refl _)

/-- The value of a node is a written value. -/
theorem Node.toJson_written (hdecimals : ∀ x ∈ n.decimals, x.ReadsBack) : n.toJson.Written := by
  induction n using Node.byChildren with
  | h f l ih =>
    have hform : ∀ x ∈ f.decimals, x.ReadsBack :=
      fun x hx => hdecimals x (by unfold Node.decimals; exact hx)
    have hmembers :=
      Form.members_written (fun c hc => ih c hc fun x hx => hform x (Form.mem_decimals hc hx)) hform
    unfold Node.toJson
    refine .record fun m hm => ?_
    rcases List.mem_append.1 hm with hm | hm
    · exact hmembers m hm
    · obtain rfl := List.mem_singleton.1 hm
      exact l.toJson_written

/-- The value of a node reads as the node. -/
theorem Node.ofJsonWithin?_toJson (hdecimals : ∀ x ∈ n.decimals, x.ReadsBack) {d : Nat}
    (hd : n.toJson.depth ≤ d) : Node.ofJsonWithin? d n.toJson = some n := by
  induction n using Node.byChildren generalizing d with
  | h f l ih =>
    have hform : ∀ x ∈ f.decimals, x.ReadsBack :=
      fun x hx => hdecimals x (by unfold Node.decimals; exact hx)
    have hlt := Node.depth_mk f l
    obtain ⟨d, rfl⟩ : ∃ k, d = k + 1 := ⟨d - 1, by omega⟩
    have hread : formOf? (Node.ofJsonWithin? d) f.members = some f :=
      formOf?_members f (fun c hc => by
        have hle := Form.depth_le hc
        exact ih c hc (fun x hx => hform x (Form.mem_decimals hc hx)) (by omega)) hform
    have hkeys := f.members_shape.2
    have hothers :
        (f.members ++ [("location", l.toJson)]).filter (·.1 != "location") = f.members := by
      rw [List.filter_append, List.filter_eq_self.2 fun m hm => by simpa using hkeys m hm]
      exact List.append_nil _
    have hplace :
        unique? "location" (f.members ++ [("location", l.toJson)]) = some (some l.toJson) := by
      unfold unique?
      rw [List.filter_append, List.filter_eq_nil_iff.2 fun m hm => by simpa using hkeys m hm]
      rfl
    unfold Node.toJson
    rw [Node.ofJsonWithin?, hplace, hothers, hread]
    show (Location.ofJson? l.toJson).bind _ = _
    rw [l.ofJson?_toJson]
    rfl

/-! ### Texts of nodes -/

/-- A number of 32 bits reads as the number. -/
theorem scanWord32_render (k : UInt32) (hrest : AfterValue rest) :
    scanWord32 ((Value.nat k.toNat).render ++ rest) = .ok (k, rest) := by
  have hlt := k.toNat_lt
  have hwritten := Numeral.written_ofInt k.toNat
  have hrange : (Numeral.ofInt k.toNat).isOutOfRange = false := by
    unfold Numeral.isOutOfRange
    rw [Numeral.integer?_ofInt (by omega) (by omega)]
    rfl
  have hscan := scanNumeral_render hwritten hrange hrest
  obtain ⟨c, cs, hrender, hc⟩ := hwritten.head
  have htext : (Value.nat k.toNat).render = c :: cs := by
    unfold Value.nat Value.int Value.render
    exact hrender
  rw [hrender, List.cons_append] at hscan
  rw [htext, List.cons_append, scanWord32, skipBlanks_cons (numeralHead hc).1]
  dsimp only
  rw [if_pos hc, hscan]
  have hword : natBelow? UInt32.size (.number (.ofInt k.toNat)) = some k.toNat := natBelow?_word k
  dsimp only [Bind.bind, Except.bind]
  rw [hword]
  exact congrArg (fun k => Except.ok (k, rest)) UInt32.ofNat_toNat

/-- A place reads as the place. -/
theorem scanLocation_render (l : Location) (hfuel : 3 ≤ fuel) (rest : List Char) :
    scanLocation fuel (l.toJson.render ++ rest) = .ok (l, rest) := by
  obtain ⟨k, hk⟩ : ∃ k, fuel = k + 1 + 1 + 1 := ⟨fuel - 3, by omega⟩
  have htext : l.toJson.render ++ rest =
      '\x7b' :: (quote "line" ++ (':' :: ((Value.nat l.line.toNat).render ++ (',' ::
        (quote "col" ++ (':' :: ((Value.nat l.col.toNat).render ++ '\x7d' :: rest))))))) := by
    simp [Location.toJson, Value.render, Value.renderMembers]
  have hline : ∀ cs, AfterValue cs →
      locationMember fuel (none, none) "line" (':' :: ((Value.nat l.line.toNat).render ++ cs)) =
        .ok ((some l.line, none), cs) := by
    intro cs hcs
    show (scanWord32 ((Value.nat l.line.toNat).render ++ cs)).bind _ = _
    rw [scanWord32_render l.line hcs]
    rfl
  have hcol : ∀ cs, AfterValue cs →
      locationMember fuel (some l.line, none) "col"
        (':' :: ((Value.nat l.col.toNat).render ++ cs)) = .ok ((some l.line, some l.col), cs) := by
    intro cs hcs
    show (scanWord32 ((Value.nat l.col.toNat).render ++ cs)).bind _ = _
    rw [scanWord32_render l.col hcs]
    rfl
  have hmembers : ∀ n, foldMembers false (locationMember fuel) (n + 1 + 1 + 1) true (none, none)
      (quote "line" ++ (':' ::
        ((Value.nat l.line.toNat).render ++
          (',' :: (quote "col" ++ (':' :: ((Value.nat l.col.toNat).render ++
            '\x7d' :: rest))))))) = .ok ((some l.line, some l.col), rest) := by
    intro n
    rw [foldMembers_first, hline _ (.comma _)]
    show foldMembers false (locationMember fuel) (n + 1 + 1) false _ _ = _
    rw [foldMembers_next, hcol _ (.brace rest)]
    exact foldMembers_close false rest
  rw [htext]
  show (foldMembers false (locationMember fuel) fuel true (none, none) _).bind _ = _
  have hrun := hmembers k
  rw [← hk] at hrun
  rw [hrun]
  rfl

/-- A member of a node that is not its place is kept as it is. -/
theorem nodeMember_render {s : Option Location × List (String × Value)} {m : String × Value}
    (hkey : m.1 ≠ "location")
    (hwritten : m.2.Written) (hfuel : m.2.render.length < fuel)
    (hdepth : m.2.depth ≤ nestingLimit - 3)
    (hrest : AfterValue rest) :
    nodeMember fuel s m.1 (':' :: (m.2.render ++ rest)) = .ok ((s.1, m :: s.2), rest) := by
  rw [nodeMember, if_neg hkey]
  show (readValue false fuel (nestingLimit - 3) (m.2.render ++ rest)).bind _ = _
  rw [hwritten.read hfuel hdepth hrest]
  rfl

/-- The text of a node: the members of its form, and its place. -/
theorem Node.render_mk (f : Form) (l : Location) (rest : List Char) :
    (Node.mk f l).toJson.render ++ rest = '\x7b' :: (Value.renderMembers f.members ++
      ',' :: (quote "location" ++ (':' :: (l.toJson.render ++ '\x7d' :: rest)))) := by
  obtain ⟨⟨v, ms, hmembers⟩, -⟩ := f.members_shape
  rw [Node.toJson, hmembers, List.cons_append, Value.render, Value.renderMembers_cons,
    Value.renderMembers_cons]
  simp [Value.membersTail, Value.renderMember]

/-- The members of a node that were read make up the node. -/
theorem nodeOfMembers?_members (hdecimals : ∀ x ∈ f.decimals, x.ReadsBack) (l : Location) :
    nodeOfMembers? (some l, f.members.reverse) = some (.mk f l) := by
  have hdepth : Value.membersDepth f.members ≤ Value.membersDepth f.members.reverse :=
    Value.membersDepth_le fun m hm => Value.depth_le_membersDepth (List.mem_reverse.2 hm)
  have hread :
      formOf? (Node.ofJsonWithin? (Value.membersDepth f.members.reverse)) f.members = some f :=
    formOf?_members f (fun c hc =>
      Node.ofJsonWithin?_toJson (fun x hx => hdecimals x (Form.mem_decimals hc hx))
      (Nat.le_trans (Form.depth_le hc) hdepth)) hdecimals
  unfold nodeOfMembers?
  rw [List.reverse_reverse, hread]
  rfl

/-- Reading the members of a form keeps them, the last one first. -/
theorem foldMembers_form (hwritten : ∀ m ∈ f.members, m.2.Written)
    (hfuel : (Value.renderMembers f.members).length < fuel)
    (hdepth : Value.membersDepth f.members ≤ nestingLimit - 3) (hrest : AfterValue rest) (k : Nat) :
    foldMembers false (nodeMember fuel) (f.members.length + k) true (none, [])
      (Value.renderMembers f.members ++ rest) =
        foldMembers false (nodeMember fuel) k false (none, f.members.reverse) rest := by
  obtain ⟨⟨v, ms, hmembers⟩, hkeys⟩ := f.members_shape
  have hlong := (Value.length_renderMembers f.members).2
  have hnode : ∀ m ∈ f.members, ∀ (s : Option Location × List (String × Value)) (cs : List Char),
      True → AfterValue cs → nodeMember fuel s m.1 (':' :: (m.2.render ++ cs)) =
        .ok ((s.1, m :: s.2), cs) ∧ True := by
    intro m hm s cs _ hcs
    refine ⟨nodeMember_render (hkeys m hm) (hwritten m hm) (Nat.lt_of_le_of_lt (hlong m hm) hfuel)
      ?_ hcs, trivial⟩
    exact Nat.le_trans (Value.depth_le_membersDepth hm) hdepth
  have hcollect : ∀ (ks acc : List (String × Value)),
      ks.foldl (fun (s : Option Location × List (String × Value)) m =>
        (s.1, m :: s.2)) (none, acc) = (none, ks.reverse ++ acc) := by
    intro ks
    induction ks with
    | nil => exact fun acc => rfl
    | cons k ks ih =>
      intro acc
      rw [List.foldl_cons, ih, List.reverse_cons, List.append_assoc]
      rfl
  rw [hmembers] at hnode ⊢
  refine (foldMembers_begin hnode hrest k trivial).trans ?_
  rw [hcollect, List.append_nil]

/-- The text of a node reads as the node. -/
theorem scanNode_render (hdecimals : ∀ x ∈ n.decimals, x.ReadsBack)
    (hfuel : n.toJson.render.length < fuel)
    (hdepth : n.toJson.depth ≤ nestingLimit - 2) (rest : List Char) :
    scanNode fuel (n.toJson.render ++ rest) = .ok (n, rest) := by
  obtain ⟨f, l⟩ := n
  have hform : ∀ x ∈ f.decimals, x.ReadsBack :=
    fun x hx => hdecimals x (by unfold Node.decimals; exact hx)
  have hwritten := Form.members_written (fun c hc => Node.toJson_written fun x hx =>
    hform x (Form.mem_decimals hc hx)) hform
  have hlt := Node.depth_mk f l
  have hcount := (Value.length_renderMembers f.members).1
  have hlength := congrArg List.length (Node.render_mk f l [])
  simp only [List.length_append, List.length_cons, List.length_nil] at hlength
  have hplace : nodeMember fuel (none, f.members.reverse) "location"
      (':' :: (l.toJson.render ++ '\x7d' :: rest)) =
        .ok ((some l, f.members.reverse), '\x7d' :: rest) := by
    show (scanLocation fuel (l.toJson.render ++ '\x7d' :: rest)).bind _ = _
    rw [scanLocation_render l (by omega)]
    rfl
  obtain ⟨k, hk⟩ : ∃ k, fuel = f.members.length + (k + 1 + 1) :=
    ⟨fuel - f.members.length - 2, by omega⟩
  have hrun := foldMembers_form hwritten (by omega : _ < fuel) (by omega)
    (.comma (quote "location" ++ (':' :: (l.toJson.render ++ '\x7d' :: rest)))) (k + 1 + 1)
  rw [← hk, foldMembers_next, hplace] at hrun
  replace hrun := hrun.trans (foldMembers_close false rest)
  rw [Node.render_mk]
  show (foldMembers false (nodeMember fuel) fuel true (none, []) _).bind _ = _
  rw [hrun]
  dsimp only [Except.bind]
  rw [nodeOfMembers?_members hform]

/-! ### Texts of programs -/

/-- The text of a body reads as the body. -/
theorem scanBody_render {ns : List Node} (hdecimals : ∀ n ∈ ns, ∀ x ∈ n.decimals, x.ReadsBack)
    (hfuel : (Value.list (Node.toJsonList ns)).render.length < fuel)
    (hdepth : (Value.list (Node.toJsonList ns)).depth ≤ nestingLimit - 1) (rest : List Char) :
    scanBody fuel ((Value.list (Node.toJsonList ns)).render ++ rest) = .ok (ns, rest) := by
  have hwritten : ∀ n ∈ ns, n.toJson.Written := fun n hn => Node.toJson_written (hdecimals n hn)
  have htext : (Value.list (Node.toJsonList ns)).render =
      '[' :: (separate (fun n => n.toJson.render) ns ++ [']']) := by
    rw [Value.render, Value.renderItems_eq_separate, Node.toJsonList_eq]
    cases ns <;> simp [separate, List.flatMap_map]
  have hitems : ∀ v ∈ Node.toJsonList ns, v.Written := by simpa [Node.toJsonList_eq] using hwritten
  obtain ⟨hcount, hlong⟩ := Value.length_renderItems hitems
  have hmem : ∀ n ∈ ns, n.toJson ∈ Node.toJsonList ns := fun n hn => by
    rw [Node.toJsonList_eq]
    exact List.mem_map_of_mem hn
  rw [Value.depth] at hdepth
  rw [Value.render, List.length_append, List.length_cons, List.length_singleton] at hfuel
  rw [Node.toJsonList_eq, List.length_map, ← Node.toJsonList_eq] at hcount
  have hread :
      ∀ n ∈ ns, ∀ cs, AfterValue cs → scanNode fuel (n.toJson.render ++ cs) = .ok (n, cs) := by
    intro n hn cs _
    have hshort := hlong _ (hmem n hn)
    have hle := Value.depth_le_itemsDepth (hmem n hn)
    exact scanNode_render (hdecimals n hn) (by omega) (by omega) cs
  rw [htext, List.cons_append, List.append_assoc, List.singleton_append]
  show (foldItems _ fuel true [] _).bind _ = _
  rw [foldItems_collect (fun n hn => (hwritten n hn).opens) hread (by omega) rest]
  show Except.ok (ns.reverse.reverse, rest) = _
  rw [List.reverse_reverse]

/-- The text of a program reads as the program, if its decimal literals read back and it does not
nest too deep. -/
theorem read_write {p : Program} (hfinite : ∀ x ∈ p.decimals, x.isFinite = true)
    (hprinted : ∀ x ∈ p.decimals, (Numeral.ofSingle x).single? = some x)
    (hdepth : p.toJson.depth ≤ nestingLimit) : Program.read p.write = .ok p := by
  obtain ⟨ns⟩ := p
  have hdecimals : ∀ n ∈ ns, ∀ x ∈ n.decimals, x.ReadsBack := by
    intro n hn x hx
    have hmem : x ∈ (Program.mk ns).decimals := by
      rw [Program.decimals, Node.decimalsAll_eq]
      exact List.mem_flatMap.2 ⟨n, hn, hx⟩
    exact ⟨hfinite x hmem, hprinted x hmem⟩
  have htext : (Program.mk ns).write.toList =
      '\x7b' :: (quote "body" ++
        (':' :: ((Value.list (Node.toJsonList ns)).render ++ ['\x7d']))) := by
    simp [Program.write, Value.compact, Program.toJson, Value.render, Value.renderMembers]
  rw [Program.toJson, Value.depth, Value.membersDepth, Value.membersDepth, Nat.max_zero] at hdepth
  have hlength := congrArg List.length htext
  simp only [List.length_append, List.length_cons, List.length_nil] at hlength
  generalize hfuel : (Program.mk ns).write.toList.length = fuel at hlength
  have hbody : programMember (fuel + 1) none "body"
      (':' :: ((Value.list (Node.toJsonList ns)).render ++ ['\x7d'])) =
        .ok (some ns, ['\x7d']) := by
    show (scanBody (fuel + 1) ((Value.list (Node.toJsonList ns)).render ++ ['\x7d'])).bind _ = _
    rw [scanBody_render hdecimals (by omega) (Nat.le_sub_one_of_lt hdepth)]
    rfl
  have hscan : scanProgram (fuel + 1) (Program.mk ns).write.toList = .ok (⟨ns⟩, []) := by
    rw [htext]
    show (foldMembers false (programMember (fuel + 1)) (fuel + 1) true none _).bind _ = _
    rw [foldMembers_first, hbody, hlength]
    rfl
  unfold Program.read
  dsimp only
  rw [hfuel, hscan]
  rfl

/-- A decimal literal that has no finite binary expansion, a variable without a value, a conditional
with both kinds of what may follow, a string that needs escapes, and a place on the last line there
is. -/
def sampled : Program :=
  ⟨[.mk (.declare "x" .decimal (some (.mk (.decimal ⟨0x3dcccccd⟩) ⟨1, 9⟩))) ⟨1, 1⟩,
    .mk (.declare "s" .string none) ⟨2, 1⟩,
    .mk (.conditional (.mk (.bool true) ⟨3, 4⟩) [.mk .breakLoop ⟨3, 9⟩]
      (.chained (.mk (.conditional (.mk (.bool false) ⟨4, 9⟩) []
        (.block [.mk (.ret none) ⟨5, 3⟩])) ⟨4, 6⟩))) ⟨3, 1⟩,
    .mk (.assign "s" (.mk (.str "\"π\n\x01𝔸") ⟨4294967295, 0⟩)) .internal]⟩

/-- It reads back. -/
theorem read_write_sampled :
    sampled.decimals = [⟨0x3dcccccd⟩] ∧ (Numeral.ofSingle ⟨0x3dcccccd⟩).render = "0.1".toList ∧
    sampled.toJson.depth = 9 ∧ Program.read sampled.write = .ok sampled := by
  have hdecimals : sampled.decimals = [⟨0x3dcccccd⟩] := by decide +kernel
  refine ⟨hdecimals, by decide +kernel, by decide +kernel, read_write ?_ ?_ (by decide +kernel)⟩ <;>
    rw [hdecimals]
  · decide +kernel
  · decide +kernel

end KuAsm
