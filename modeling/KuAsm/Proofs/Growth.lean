import KuAsm.Proofs.Law
import KuAsm.Proofs.ScopePath
import KuAsm.Proofs.Spacing

/-!
# What an action may change

Compiling only ever adds.  This module says what each action leaves as it is, in two steps.

* `State.Quiet s t`: the state `t` differs from `s` only by bytes reserved and values noted in the
  current scope, by literals, and by counters.  Expressions are compiled quietly.
* `State.Grows s t`: names may have been declared in the current scope, scopes may have been opened
  inside it, and lines may have been written.  Statements are compiled with growth alone; the scope
  and the section that are being worked in are the same afterwards.  Variables get slots of their
  own, and the frames of the scopes that were opened have been given sizes.

## Main statements

* `Node.evaluate_quiet`: compiling an expression is quiet.
* `Node.execute_grows`: compiling a statement grows the state.

`State.Formed` is what all states of a compilation have in common.
-/

namespace KuAsm

variable {l : Location} {body : Lower Bool} {i : Nat} {sc : Scope} {s t u : State} {name : String}
  {a : Unit}

/-- The tree of scopes hangs together, and the current scope is one of its scopes. -/
structure State.Formed (s : State) : Prop where
  ordered : s.tree.Ordered
  current_lt : s.current < s.tree.size
  root_eq : s.root = 0

namespace State

variable {s t u : State}

/-! ### The current scope -/

theorem here_withScope (hs : s.Formed) (sc : Scope) : (s.withScope sc).here = sc :=
  ScopeTree.scope_set_self sc hs.current_lt

theorem scope_withScope_of_ne (sc : Scope) (hi : i ≠ s.current) :
    (s.withScope sc).tree.scope i = s.tree.scope i :=
  ScopeTree.scope_set_of_ne sc hi

theorem Formed.here_mem (hs : s.Formed) : s.here ∈ s.tree.scopes := s.tree.scope_mem hs.current_lt

/-- A compilation starts with the outermost scope alone. -/
theorem formed_start (session : Session) (comments : Bool) : (start session comments).Formed where
  ordered := by
    refine ⟨fun i p hi hp => ?_, fun i hi _ => Nat.lt_one_iff.1 hi⟩
    obtain rfl := Nat.lt_one_iff.1 hi
    cases hp
  current_lt := Nat.zero_lt_one
  root_eq := rfl

theorem Formed.parent_withScope (hs : s.Formed) (hsc : sc.parent = s.here.parent) (i : Nat) :
    ((s.withScope sc).tree.scope i).parent = (s.tree.scope i).parent := by
  by_cases hi : i = s.current
  · subst hi
    have hself : (s.withScope sc).tree.scope s.current = sc := here_withScope hs sc
    rw [hself, hsc]
    rfl
  · rw [scope_withScope_of_ne sc hi]

/-- Changing a scope without giving it another parent keeps the tree together. -/
theorem Formed.withScope (hs : s.Formed) (hsc : sc.parent = s.here.parent) :
    (s.withScope sc).Formed := by
  have hparent := hs.parent_withScope hsc
  have hsize : (s.withScope sc).tree.size = s.tree.size := ScopeTree.size_set ..
  refine ⟨⟨?_, ?_⟩, ?_, hs.root_eq⟩
  · intro i p hi hp
    exact hs.ordered.parent_lt i p (hsize ▸ hi) (hparent i ▸ hp)
  · intro i hi hp
    exact hs.ordered.eq_zero i (hsize ▸ hi) (hparent i ▸ hp)
  · rw [hsize]
    exact hs.current_lt

/-- The scope around a scope is a scope of the tree. -/
theorem Formed.parent_lt (hs : s.Formed) (hi : i < s.tree.size) :
    (s.tree.scope i).parent.getD s.root < s.tree.size := by
  cases hp : (s.tree.scope i).parent with
  | none =>
    rw [Option.getD_none, hs.root_eq]
    exact Nat.lt_of_le_of_lt (Nat.zero_le i) hi
  | some p => exact Nat.lt_trans (hs.ordered.parent_lt i p hi hp) hi

/-- Opening a scope inside the current one keeps the tree together. -/
theorem Formed.push (hs : s.Formed) (l : Label) : (s.tree.push (some s.current) l).Ordered := by
  refine ⟨?_, ?_⟩
  · intro i p hi hp
    rw [ScopeTree.size_push] at hi
    rcases Nat.lt_succ_iff_lt_or_eq.1 hi with hlt | rfl
    · rw [ScopeTree.scope_push_of_lt _ _ hlt] at hp
      exact hs.ordered.parent_lt i p hlt hp
    · rw [ScopeTree.scope_push_size] at hp
      cases hp
      exact hs.current_lt
  · intro i hi hp
    rw [ScopeTree.size_push] at hi
    rcases Nat.lt_succ_iff_lt_or_eq.1 hi with hlt | rfl
    · rw [ScopeTree.scope_push_of_lt _ _ hlt] at hp
      exact hs.ordered.eq_zero i hlt hp
    · rw [ScopeTree.scope_push_size] at hp
      cases hp

end State

/-! ### Quiet changes -/

/-- Two scopes in which the same names are declared and the same exits stand. -/
structure Scope.SameNames (a b : Scope) : Prop where
  parent : b.parent = a.parent
  vars : b.vars = a.vars
  functions : b.functions = a.functions
  function : b.function = a.function
  loop : b.loop = a.loop
  frameSize : b.frameSize = a.frameSize

theorem Scope.SameNames.refl (a : Scope) : a.SameNames a := ⟨rfl, rfl, rfl, rfl, rfl, rfl⟩

theorem Scope.SameNames.trans {a b c : Scope} (h : a.SameNames b) (k : b.SameNames c) :
    a.SameNames c :=
  ⟨k.parent.trans h.parent, k.vars.trans h.vars, k.functions.trans h.functions,
    k.function.trans h.function, k.loop.trans h.loop, k.frameSize.trans h.frameSize⟩

/-- The data of the second listing are those of the first and the bytes of more literals. -/
def Listing.Pools (a b : Listing) : Prop :=
  ∃ pool, b.data = a.data ++ pool ∧ ∀ line ∈ pool, ∃ l bytes, line = .bytes l bytes

theorem Listing.Pools.of_eq {a b : Listing} (h : b.data = a.data) : a.Pools b :=
  ⟨[], by rw [h, List.append_nil], fun _ hline => nomatch hline⟩

theorem Listing.Pools.trans {a b c : Listing} (h : a.Pools b) (k : b.Pools c) : a.Pools c := by
  obtain ⟨pool, hpool, hbytes⟩ := h
  obtain ⟨more, hmore, hbytes'⟩ := k
  refine ⟨pool ++ more, by rw [hmore, hpool, List.append_assoc], fun line hline => ?_⟩
  rcases List.mem_append.1 hline with hline | hline
  · exact hbytes line hline
  · exact hbytes' line hline

/-- The state `t` differs from `s` only by bytes reserved and values noted in the current scope, by
literals and by counters. -/
structure State.Quiet (s t : State) : Prop where
  current : t.current = s.current
  root : t.root = s.root
  target : t.target = s.target
  comments : t.comments = s.comments
  size : t.tree.size = s.tree.size
  others : ∀ i : Nat, i ≠ s.current → t.tree.scope i = s.tree.scope i
  here : s.here.SameNames t.here
  used : s.here.used ≤ t.here.used
  functions : t.listing.functions = s.listing.functions
  program : t.listing.program = s.listing.program
  data : s.listing.Pools t.listing
  literals : s.listing.literals <+: t.listing.literals
  included : t.session.included = s.session.included
  labels : s.session.nextLabel ≤ t.session.nextLabel
  reclaims : s.session.nextReclaim ≤ t.session.nextReclaim

namespace State.Quiet

variable {s t u : State}

theorem refl (s : State) : s.Quiet s :=
  ⟨rfl, rfl, rfl, rfl, rfl, fun _ _ => rfl, .refl _, Nat.le_refl _, rfl, rfl, .of_eq rfl,
    List.prefix_refl _, rfl, Nat.le_refl _, Nat.le_refl _⟩

theorem trans (h : s.Quiet t) (k : t.Quiet u) : s.Quiet u where
  current := k.current.trans h.current
  root := k.root.trans h.root
  target := k.target.trans h.target
  comments := k.comments.trans h.comments
  size := k.size.trans h.size
  others i hi := (k.others i (by rw [h.current]; exact hi)).trans (h.others i hi)
  here := h.here.trans k.here
  used := Nat.le_trans h.used k.used
  functions := k.functions.trans h.functions
  program := k.program.trans h.program
  data := h.data.trans k.data
  literals := h.literals.trans k.literals
  included := k.included.trans h.included
  labels := Nat.le_trans h.labels k.labels
  reclaims := Nat.le_trans h.reclaims k.reclaims

/-- After a quiet change every scope still has its names. -/
theorem sameNames (h : s.Quiet t) (i : Nat) : (s.tree.scope i).SameNames (t.tree.scope i) := by
  by_cases hi : i = s.current
  · subst hi
    have hhere := h.here
    unfold State.here at hhere
    rw [h.current] at hhere
    exact hhere
  · rw [h.others i hi]
    exact .refl _

theorem formed (h : s.Quiet t) (hs : s.Formed) : t.Formed := by
  refine ⟨⟨?_, ?_⟩, ?_, h.root.trans hs.root_eq⟩
  · intro i p hi hp
    rw [h.size] at hi
    rw [(h.sameNames i).parent] at hp
    exact hs.ordered.parent_lt i p hi hp
  · intro i hi hp
    rw [h.size] at hi
    rw [(h.sameNames i).parent] at hp
    exact hs.ordered.eq_zero i hi hp
  · rw [h.current, h.size]
    exact hs.current_lt

/-- A change of the current scope that keeps its names is quiet. -/
theorem withScope (hs : s.Formed) (hn : s.here.SameNames sc) (hu : s.here.used ≤ sc.used) :
    s.Quiet (s.withScope sc) := by
  have hhere : (s.withScope sc).here = sc := here_withScope hs sc
  refine ⟨rfl, rfl, rfl, rfl, ScopeTree.size_set .., ?_, ?_, ?_, rfl, rfl, .of_eq rfl,
    List.prefix_refl _, rfl, Nat.le_refl _, Nat.le_refl _⟩
  · intro i hi
    exact scope_withScope_of_ne sc hi
  · rw [hhere]
    exact hn
  · rw [hhere]
    exact hu

/-- A change of the session that includes no file and takes nothing back is quiet. -/
theorem withSession {session : Session} (hi : session.included = s.session.included)
    (hl : s.session.nextLabel ≤ session.nextLabel)
    (hr : s.session.nextReclaim ≤ session.nextReclaim) : s.Quiet { s with session } :=
  ⟨rfl, rfl, rfl, rfl, rfl, fun _ _ => rfl, .refl _, Nat.le_refl _, rfl, rfl, .of_eq rfl,
    List.prefix_refl _, hi, hl, hr⟩

/-- Placing a literal is quiet. -/
theorem place (s : State) (text : String) :
    s.Quiet { s with
      listing := (s.listing.place s.session text).2.1
      session := (s.listing.place s.session text).2.2 } := by
  unfold Listing.place
  split
  · exact .refl _
  · refine ⟨rfl, rfl, rfl, rfl, rfl, fun _ _ => rfl, .refl _, Nat.le_refl _, rfl, rfl, ⟨_, rfl, ?_⟩,
      List.prefix_append _ _, rfl, Nat.le_succ _, Nat.le_refl _⟩
    intro line hline
    exact ⟨_, _, List.mem_singleton.1 hline⟩

end State.Quiet

/-- A quiet action: whatever state it is run in, it ends in one that differs quietly. -/
def Lower.IsQuiet {α : Type} (x : Lower α) : Prop :=
  ∀ s a t, s.Formed → x s = .ok a t → s.Quiet t

namespace Lower

variable {α β : Type}

theorem IsQuiet.bind {x : Lower α} {f : α → Lower β} (hx : x.IsQuiet)
    (hf : ∀ a, (f a).IsQuiet) : (x >>= f).IsQuiet := by
  intro s b t hs h
  obtain ⟨a, u, hxa, hfa⟩ := bind_eq_ok.1 h
  have hsu := hx s a u hs hxa
  exact hsu.trans (hf a u b t (hsu.formed hs) hfa)

theorem IsQuiet.pure (a : α) : (pure a : Lower α).IsQuiet := by
  intro s b t hs h
  obtain ⟨rfl, rfl⟩ := pure_eq_ok.1 h
  exact .refl _

theorem IsQuiet.mintLabel (hint : String) : (mintLabel hint).IsQuiet := by
  intro s a t hs h
  obtain ⟨-, rfl⟩ := mintLabel_eq_ok.1 h
  exact .withSession rfl (Nat.le_succ _) (Nat.le_refl _)

theorem IsQuiet.mintReclaim : mintReclaim.IsQuiet := by
  intro s a t hs h
  obtain ⟨-, rfl⟩ := mintReclaim_eq_ok.1 h
  exact .withSession rfl (Nat.le_refl _) (Nat.le_succ _)

theorem IsQuiet.tell (n : Notice) : (tell n).IsQuiet := by
  intro s a t hs h
  obtain rfl := tell_eq_ok.1 h
  exact .withSession rfl (Nat.le_refl _) (Nat.le_refl _)

theorem IsQuiet.reserve (size : Nat) : (reserve size).IsQuiet := by
  intro s a t hs h
  obtain ⟨-, -, rfl⟩ := reserve_eq_ok.1 h
  exact .withScope hs ⟨rfl, rfl, rfl, rfl, rfl, rfl⟩ (Nat.le_add_right _ _)

theorem IsQuiet.checked (x : Except Fault α) : (checked x).IsQuiet := by
  intro s a t hs h
  obtain ⟨-, rfl⟩ := checked_eq_ok.1 h
  exact .refl _

theorem IsQuiet.remark (text : String) : (remark text).IsQuiet := by
  intro s a t hs h
  obtain ⟨-, rfl⟩ := remark_eq_ok.1 h
  exact .refl _

/-- Noting or dropping values to release in the current scope is quiet, if what follows is. -/
theorem IsQuiet.updateFreeSet (f : Scope → FreeSet) {x : Unit → Lower α} (hx : ∀ a, (x a).IsQuiet) :
    (scope >>= fun s => setScope { s with freeSet := f s } >>= x).IsQuiet := by
  intro s a t hs h
  have hq : s.Quiet (s.withScope { s.here with freeSet := f s.here }) :=
    .withScope hs ⟨rfl, rfl, rfl, rfl, rfl, rfl⟩ (Nat.le_refl _)
  exact hq.trans (hx _ _ _ _ (hq.formed hs) (changeScope_bind_eq_ok.1 h))

theorem IsQuiet.registerFresh : registerFresh.IsQuiet := by
  refine .bind .mintReclaim fun id => .bind (.reserve _) fun address => .bind (.reserve _)
    fun size => ?_
  refine .updateFreeSet (fun s => s.freeSet.insert id ⟨address, size⟩) fun _ => ?_
  exact .bind (.checked _) fun _ => .bind (.checked _) fun _ => .bind (.remark _) fun _ => .pure _

theorem IsQuiet.takeOwnership (o : Ownership) (name : String) (l : Location) :
    (takeOwnership o name l).IsQuiet := by
  cases o with
  | fresh id =>
    exact .updateFreeSet (fun s => s.freeSet.erase id) fun _ => .bind (.tell _) fun _ => .pure _
  | borrowed id => exact .bind (.tell _) fun _ => .pure _
  | plain => exact .pure _

/-- Quietness is a law that admits rejecting. -/
theorem IsQuiet.law : CheckingLaw @IsQuiet where
  pure := .pure
  bind := .bind
  read hf s b t hs h := hf s s b t hs (get_bind_eq_ok.1 h)
  fault f s a t hs h := (throw_eq_ok.1 h).elim
  reject c l s a t hs h := (reject_eq_ok.1 h).elim
  mintLabel := .mintLabel
  tell := .tell
  recordCall name s a t hs h := by
    obtain ⟨-, rfl⟩ := withSession_eq_ok.1 h
    exact .withSession rfl (Nat.le_refl _) (Nat.le_refl _)
  recordFree s a t hs h := by
    obtain ⟨-, rfl⟩ := withSession_eq_ok.1 h
    exact .withSession rfl (Nat.le_refl _) (Nat.le_refl _)
  reserve := .reserve
  place text s a t hs h := by
    obtain ⟨-, rfl⟩ := place_eq_ok.1 h
    exact .place s text
  registerFresh := .registerFresh
  weaken hrun _ _ hy s a t hs h := hy s a t hs (hrun s a t h)

/-- A property of the runs that end well, which quiet actions and writing have, is a law that admits
rejecting. -/
theorem StatementLaw.of_quiet {Φ : ∀ {α : Type}, Lower α → Prop}
    (quiet : ∀ {α : Type} {x : Lower α}, x.IsQuiet → Φ x)
    (bind : ∀ {α β : Type} {x : Lower α} {f : α → Lower β}, Φ x → (∀ a, Φ (f a)) → Φ (x >>= f))
    (runs : ∀ {α : Type} {x : Lower α},
      (∀ s a t, x s = .ok a t → ∃ y : Lower α, Φ y ∧ y s = .ok a t) → Φ x)
    (emit : ∀ code, Φ (Lower.emit code)) : StatementLaw Φ where
  pure a := quiet (.pure a)
  bind := bind
  read hf := runs fun s _ _ h => ⟨_, hf s, get_bind_eq_ok.1 h⟩
  fault f := quiet (IsQuiet.law.fault f)
  reject c l := quiet (IsQuiet.law.reject c l)
  mintLabel hint := quiet (.mintLabel hint)
  tell n := quiet (.tell n)
  recordCall name := quiet (IsQuiet.law.recordCall name)
  recordFree := quiet IsQuiet.law.recordFree
  reserve size := quiet (.reserve size)
  place text := quiet (IsQuiet.law.place text)
  registerFresh := quiet .registerFresh
  weaken hrun _ _ hy := runs fun s a t h => ⟨_, hy, hrun s a t h⟩
  emit := emit

end Lower

/-- Compiling an expression is quiet. -/
theorem Node.evaluate_quiet (n : Node) : n.evaluate.IsQuiet := Lower.IsQuiet.law.evaluate n

/-! ### Where values come from -/

/-- A value that carries nothing.  If it is a string, its size is zero. -/
structure Lowered.Bare (v : Lowered) : Prop where
  plain : v.ownership = .plain
  sizeless : v.ty = .string → ∃ code, v.code = code ++ [Asm.xor Reg.edx Reg.edx]

/-- An operator of the machine gives no string. -/
theorem BinaryOp.resultType_ne_string {op : BinaryOp} {ty : ScalarType} (h : op.accepts ty = true)
    (hjoin : ¬ (ty = .string ∧ op = .add)) : op.resultType ty ≠ .string := by
  cases ty <;> cases op <;> first | decide | exact absurd ⟨rfl, rfl⟩ hjoin | cases h

/-- What an action computes is bare, or it comes out of a call with which the action ends. -/
def Lower.Makes (x : Lower Lowered) : Prop :=
  ∀ s v t, s.Formed → x s = .ok v t →
    v.Bare ∨ ∃ f depth args u, s.Quiet u ∧ invoke f depth args u = .ok v t

namespace Lower.Makes

variable {v : Lowered} {ty : ScalarType}

theorem bind {α : Type} {x : Lower α} {f : α → Lower Lowered} (hx : x.IsQuiet)
    (hf : ∀ a, Makes (f a)) : Makes (x >>= f) := by
  intro s v t hs h
  obtain ⟨a, u, hxa, hfa⟩ := bind_eq_ok.1 h
  have hsu := hx s a u hs hxa
  rcases hf a u v t (hsu.formed hs) hfa with hbare | ⟨f, depth, args, w, huw, hcall⟩
  · exact .inl hbare
  · exact .inr ⟨f, depth, args, w, hsu.trans huw, hcall⟩

theorem pure (hv : v.Bare) : Makes (pure v) := by
  intro s w t hs h
  obtain ⟨rfl, -⟩ := pure_eq_ok.1 h
  exact .inl hv

theorem plain (h : ty ≠ .string) (code : Code) : Makes (Pure.pure (.plain ty code)) :=
  pure ⟨rfl, fun hty => absurd hty h⟩

theorem literal (v : Literal) : Makes (literal v) := by
  cases v with
  | decimal v => exact .bind (.remark _) fun _ => .plain (by decide) _
  | str v =>
    exact .bind (IsQuiet.law.place _) fun label =>
      .pure ⟨rfl, fun _ => ⟨[Asm.mov Reg.eax label], rfl⟩⟩
  | _ => exact .plain (by decide) _

theorem invoke (f : Signature) (depth : Nat) (args : List Lowered) : Makes (invoke f depth args) :=
  fun s _ _ _ h => .inr ⟨f, depth, args, s, .refl s, h⟩

theorem combine (op : BinaryOp) (left right : Lowered) (l : Location) :
    Makes (combine op left right l) := by
  intro s v t hs h
  rcases combine_eq_ok h with ⟨-, f, -, hcall⟩ | ⟨hjoin, hop, code, -, rfl⟩
  · exact Makes.invoke f _ _ s v t hs hcall
  · exact .inl ⟨rfl, fun hty => absurd hty (BinaryOp.resultType_ne_string hop hjoin)⟩

theorem applySign (sign : Sign) (v : Lowered) (l : Location) : Makes (applySign sign v l) := by
  intro s w t hs h
  obtain ⟨-, hty, code, -, rfl⟩ := applySign_eq_ok h
  refine .inl ⟨rfl, fun hstring => ?_⟩
  rw [show v.ty = .string from hstring] at hty
  cases hty

theorem applyCast (v : Lowered) (ty : ScalarType) (mode : CastMode) (l : Location) :
    Makes (applyCast v ty mode l) := by
  intro s w t hs h
  obtain ⟨-, code, -, rfl⟩ := applyCast_eq_ok h
  exact .inl ⟨rfl, fun hty => ⟨v.code ++ code, by rw [show ty = .string from hty]; rfl⟩⟩

theorem stepVariable (name : String) (op : StepOp) (fixity : Fixity) (l : Location) :
    Makes (stepVariable name op fixity l) := by
  refine .bind (IsQuiet.law.resolveVariable _ _) fun ⟨r, v⟩ => ?_
  dsimp only
  split
  · exact fun _ _ _ _ h => (reject_eq_ok.1 h).elim
  · rename_i hty
    have hne : v.ty ≠ .string := by
      intro h
      rw [h] at hty
      exact hty ⟨nofun, nofun⟩
    refine .bind (.checked _) fun m => ?_
    cases fixity with
    | leading => exact .plain hne _
    | trailing => exact .plain hne _

theorem evaluateCases :
    ExpressionCases (fun n => (∃ name l, n = .mk (.var name) l) ∨ n.evaluate.Makes) fun _ =>
    True where
  constant hv := .inr (by
    rw [Node.evaluate_literal hv]
    exact .literal _)
  var := .inl ⟨_, _, rfl⟩
  binary {_ left right _} _ _ := .inr (by
    unfold Node.evaluate
    exact .bind left.evaluate_quiet fun _ => .bind right.evaluate_quiet fun _ => .combine _ _ _ _)
  signed {_ value _} _ := .inr (by
    unfold Node.evaluate
    exact .bind value.evaluate_quiet fun _ => .applySign _ _ _)
  step := .inr (.stepVariable _ _ _ _)
  call _ := .inr (by
    unfold Node.evaluate
    exact .bind (IsQuiet.law.resolveCall _ _ _) fun _ =>
        .bind (IsQuiet.law.evaluateArgs _ _ _) fun _ =>
      .invoke _ _ _)
  addressOf := .inr
    (.bind (IsQuiet.law.resolveVariable _ _) fun _ => .bind (.checked _) fun _ =>
      .plain (by decide) _)
  cast {value _ _ _} _ := .inr (by
    unfold Node.evaluate
    exact .bind value.evaluate_quiet fun _ => .applyCast _ _ _ _)
  misplaced hform := .inr (by
    rw [Node.evaluate_misplaced hform]
    exact fun _ _ _ _ h => (reject_eq_ok.1 h).elim)
  nil := trivial
  cons _ _ := trivial

theorem ownership_ne_borrowed {x : Lower Lowered} (hx : x.Makes) (hs : s.Formed) (h : x s = .ok v t)
    (id : ReclaimId) : v.ownership ≠ .borrowed id := by
  rcases hx s v t hs h with hbare | ⟨f, depth, args, u, -, hcall⟩
  · rw [hbare.plain]
    nofun
  · obtain ⟨_, _, _, _, _, -, -, -, ⟨-, -, rfl⟩ | ⟨-, _, _, -, rfl⟩⟩ := invoke_eq_ok hcall <;> nofun

end Lower.Makes

/-- The value of anything but a variable is bare, or it comes out of a call. -/
theorem Node.var_or_makes (n : Node) : (∃ name l, n = .mk (.var name) l) ∨ n.evaluate.Makes :=
  Lower.Makes.evaluateCases.node n

/-- Only a variable lends its value. -/
theorem Node.eq_var_of_borrowed {n : Node} {v : Lowered} {id : ReclaimId} (hs : s.Formed)
    (h : n.evaluate s = .ok v t) (hv : v.ownership = .borrowed id) :
    ∃ name l, n = .mk (.var name) l :=
  n.var_or_makes.resolve_right fun hmakes => hmakes.ownership_ne_borrowed hs h id hv

/-! ### Growth -/

/-- The scope `b` is the scope `a` with more names declared and more bytes reserved. -/
structure Scope.Grows (a b : Scope) : Prop where
  parent : b.parent = a.parent
  frameSize : b.frameSize = a.frameSize
  function : b.function = a.function
  loop : b.loop = a.loop
  vars : a.vars <+: b.vars
  functions : a.functions <+: b.functions
  used : a.used ≤ b.used

theorem Scope.Grows.refl (a : Scope) : a.Grows a :=
  ⟨rfl, rfl, rfl, rfl, List.prefix_refl _, List.prefix_refl _, Nat.le_refl _⟩

theorem Scope.Grows.trans {a b c : Scope} (h : a.Grows b) (k : b.Grows c) : a.Grows c :=
  ⟨k.parent.trans h.parent, k.frameSize.trans h.frameSize, k.function.trans h.function,
    k.loop.trans h.loop, h.vars.trans k.vars, h.functions.trans k.functions,
    Nat.le_trans h.used k.used⟩

/-- The output of `t` is the output of `s` with lines added, and no counter went back. -/
structure State.Continues (s t : State) : Prop where
  root : t.root = s.root
  comments : t.comments = s.comments
  sections : ∀ x, s.listing.lines x <+: t.listing.lines x
  literals : s.listing.literals <+: t.listing.literals
  labels : s.session.nextLabel ≤ t.session.nextLabel
  reclaims : s.session.nextReclaim ≤ t.session.nextReclaim

theorem State.Continues.refl (s : State) : s.Continues s :=
  ⟨rfl, rfl, fun _ => List.prefix_refl _, List.prefix_refl _, Nat.le_refl _, Nat.le_refl _⟩

theorem State.Continues.trans (h : s.Continues t) (k : t.Continues u) : s.Continues u :=
  ⟨k.root.trans h.root, k.comments.trans h.comments, fun x => (h.sections x).trans (k.sections x),
    h.literals.trans k.literals, Nat.le_trans h.labels k.labels, Nat.le_trans h.reclaims k.reclaims⟩

/-- The output and the counters do not depend on where work goes on. -/
theorem State.Continues.moved (h : s.Continues t) (tree : ScopeTree) (current : ScopeId)
    (target : Section) : s.Continues { t with tree, current, target } :=
  ⟨h.root, h.comments, h.sections, h.literals, h.labels, h.reclaims⟩

theorem State.Quiet.continues (h : s.Quiet t) : s.Continues t := by
  refine ⟨h.root, h.comments, ?_, h.literals, h.labels, h.reclaims⟩
  intro x
  cases x with
  | data =>
    obtain ⟨pool, hpool, -⟩ := h.data
    exact ⟨pool, hpool.symm⟩
  | functions =>
    show s.listing.functions <+: t.listing.functions
    rewrite [h.functions]
    exact List.prefix_refl _
  | program =>
    show s.listing.program <+: t.listing.program
    rewrite [h.program]
    exact List.prefix_refl _

/-- The size of the frame of a scope is written down, as the scope has it. -/
def State.IsSized (s : State) (i : ScopeId) : Prop :=
  ∃ n, (s.tree.scope i).frameBytes = .ok n ∧
    .constant (s.tree.scope i).frameSize n ∈ s.listing.functions ++ s.listing.program

/-- The state `t` is reached from `s` by adding lines, names of the current scope, and scopes; work
goes on in the same scope and the same section. -/
structure State.Grows (s t : State) : Prop extends s.Continues t where
  current_lt : s.current < s.tree.size
  formed : t.Formed
  current : t.current = s.current
  target : t.target = s.target
  size : s.tree.size ≤ t.tree.size
  others : ∀ i : Nat, i < s.tree.size → i ≠ s.current → t.tree.scope i = s.tree.scope i
  here : s.here.Grows t.here
  /-- The variables of the current scope are kept apart. -/
  spaced : s.here.Spaced → t.here.Spaced
  /-- New scopes lie inside the current one.  They are left again, so their frames have sizes. -/
  inside : ∀ i : Nat, s.tree.size ≤ i → i < t.tree.size →
    s.current ∈ t.tree.path i ∧ (t.tree.scope i).Spaced ∧ (s.target ≠ .data → t.IsSized i)

/-- The state `t` works in a new scope inside the current scope of `s`. -/
structure State.Inner (s t : State) : Prop extends s.Continues t where
  formed : t.Formed
  current : t.current = s.tree.size
  parent : t.here.parent = some s.current
  target : s.target ≠ .data → t.target ≠ .data
  others : ∀ i : Nat, i < s.tree.size → t.tree.scope i = s.tree.scope i
  /-- The frames of new scopes have sizes, except that of the one at hand. -/
  inside : ∀ i : Nat, s.tree.size ≤ i → i < t.tree.size →
    s.current ∈ t.tree.path i ∧ (t.tree.scope i).Spaced ∧
    (s.target ≠ .data → i = t.current ∨ t.IsSized i)

namespace State

variable {s t u : State}

theorem IsSized.later (h : s.IsSized i) (hst : s.Continues t)
    (hscope : t.tree.scope i = s.tree.scope i) : t.IsSized i := by
  obtain ⟨n, hn, hmem⟩ := h
  unfold State.IsSized
  rw [hscope]
  refine ⟨n, hn, ?_⟩
  rcases List.mem_append.1 hmem with hmem | hmem
  · exact List.mem_append_left _ ((hst.sections .functions).subset hmem)
  · exact List.mem_append_right _ ((hst.sections .program).subset hmem)

theorem isSized_wrote {code : Code} {n : Nat} (hs : s.target ≠ .data)
    (hn : (s.tree.scope i).frameBytes = .ok n)
    (hmem : .constant (s.tree.scope i).frameSize n ∈ code) : (s.wrote code).IsSized i := by
  refine ⟨n, hn, ?_⟩
  show _ ∈ (s.listing.append s.target code).lines .functions ++
    (s.listing.append s.target code).lines .program
  cases htarget : s.target with
  | data => exact absurd htarget hs
  | functions => exact List.mem_append_left _ (List.mem_append_right _ hmem)
  | program => exact List.mem_append_right _ (List.mem_append_right _ hmem)

theorem Grows.refl (hs : s.Formed) : s.Grows s :=
  { Continues.refl s with
    current_lt := hs.current_lt, formed := hs, current := rfl, target := rfl, size := Nat.le_refl _
    others := fun _ _ _ => rfl, here := .refl _, spaced := id
    inside := fun _ hi hlt => absurd hlt (Nat.not_lt.2 hi) }

theorem Grows.scope_current (h : s.Grows t) : t.tree.scope s.current = t.here := by
  rw [← h.current]
  rfl

/-- After growth every old scope has grown, or is the same. -/
theorem Grows.scope (h : s.Grows t) (hi : i < s.tree.size) :
    (s.tree.scope i).Grows (t.tree.scope i) := by
  by_cases hc : i = s.current
  · rw [hc, h.scope_current]
    exact h.here
  · rw [h.others i hi hc]
    exact .refl _

theorem Grows.spaced_scope (h : s.Grows t) (hi : i < s.tree.size) (hs : (s.tree.scope i).Spaced) :
    (t.tree.scope i).Spaced := by
  by_cases hc : i = s.current
  · subst hc
    rw [h.scope_current]
    exact h.spaced hs
  · rw [h.others i hi hc]
    exact hs

/-- Growth leaves every old scope in its place. -/
theorem Grows.tree_path (h : s.Grows t) (hs : s.Formed) (hi : i < s.tree.size) :
    t.tree.path i = s.tree.path i :=
  hs.ordered.path_congr h.formed.ordered i hi (Nat.lt_of_lt_of_le hi h.size) fun _ hj =>
    (h.scope (Nat.lt_of_le_of_lt hj hi)).parent

theorem Grows.trans (h : s.Grows t) (k : t.Grows u) : s.Grows u :=
  { h.toContinues.trans k.toContinues with
    current_lt := h.current_lt
    formed := k.formed
    current := k.current.trans h.current
    target := k.target.trans h.target
    size := Nat.le_trans h.size k.size
    others := fun i hi hne =>
      (k.others i (Nat.lt_of_lt_of_le hi h.size) (by rw [h.current]; exact hne)).trans
        (h.others i hi hne)
    here := h.here.trans k.here
    spaced := fun hs => k.spaced (h.spaced hs)
    inside := fun i hi hlt => by
      by_cases hold : i < t.tree.size
      · obtain ⟨hin, hspaced, hsized⟩ := h.inside i hi hold
        have hne : i ≠ t.current := by
          rw [h.current]
          exact Nat.ne_of_gt (Nat.lt_of_lt_of_le h.current_lt hi)
        have hsame := k.others i hold hne
        rw [k.tree_path h.formed hold, hsame]
        exact ⟨hin, hspaced, fun htarget => (hsized htarget).later k.toContinues hsame⟩
      · rw [← h.current, ← h.target]
        exact k.inside i (Nat.le_of_not_lt hold) hlt }

theorem Quiet.grows (h : s.Quiet t) (hs : s.Formed) : s.Grows t :=
  { h.continues with
    current_lt := hs.current_lt
    formed := h.formed hs
    current := h.current
    target := h.target
    size := Nat.le_of_eq h.size.symm
    others := fun i _ hne => h.others i hne
    here := ⟨h.here.parent, h.here.frameSize, h.here.function, h.here.loop,
      h.here.vars ▸ List.prefix_refl _, h.here.functions ▸ List.prefix_refl _, h.used⟩
    spaced := fun hspaced => hspaced.grown h.here.vars h.used
    inside := fun _ hi hlt => absurd hlt (Nat.not_lt.2 (h.size ▸ hi)) }

theorem Continues.wrote (s : State) (code : Code) : s.Continues (s.wrote code) := by
  refine ⟨rfl, rfl, ?_, ?_, Nat.le_refl _, Nat.le_refl _⟩
  · intro x
    unfold State.wrote Listing.append
    cases s.target <;> cases x <;>
      first | exact List.prefix_append _ _ | exact List.prefix_refl _
  · unfold State.wrote Listing.append
    cases s.target <;> exact List.prefix_refl _

theorem Formed.wrote (hs : s.Formed) (code : Code) : (s.wrote code).Formed :=
  ⟨hs.ordered, hs.current_lt, hs.root_eq⟩

theorem Grows.wrote (hs : s.Formed) (code : Code) : s.Grows (s.wrote code) :=
  { Continues.wrote s code with
    current_lt := hs.current_lt, formed := hs.wrote code, current := rfl, target := rfl,
    size := Nat.le_refl _, others := fun _ _ _ => rfl, here := .refl _, spaced := id
    inside := fun _ hi hlt => absurd hlt (Nat.not_lt.2 hi) }

/-- More names in the current scope are growth. -/
theorem Grows.withScope (hs : s.Formed) (h : s.here.Grows sc)
    (hspaced : s.here.Spaced → sc.Spaced) : s.Grows (s.withScope sc) :=
  { Continues.refl s with
    current_lt := hs.current_lt
    formed := hs.withScope h.parent
    current := rfl
    target := rfl
    size := Nat.le_of_eq (ScopeTree.size_set ..).symm
    others := fun _ _ hne => scope_withScope_of_ne sc hne
    here := by
      rw [here_withScope hs sc]
      exact h
    spaced := by
      rw [here_withScope hs sc]
      exact hspaced
    inside := fun i hi hlt => by
      rw [show (s.withScope sc).tree.size = s.tree.size from ScopeTree.size_set ..] at hlt
      exact absurd hlt (Nat.not_lt.2 hi) }

theorem Inner.size_lt (h : s.Inner t) : s.tree.size < t.tree.size := by
  have hlt := h.formed.current_lt
  rw [h.current] at hlt
  exact hlt

theorem Inner.ne_current (h : s.Inner t) (hi : i < s.tree.size) : i ≠ t.current := by
  rw [h.current]
  exact Nat.ne_of_lt hi

theorem Formed.declared (hs : s.Formed) {ty : ScalarType} {v : Variable}
    (h : s.here.declareVariable name ty l = .ok (v, sc)) : (s.withScope sc).Formed := by
  obtain ⟨-, -, used, -, rfl⟩ := Scope.declareVariable_eq_ok h
  exact hs.withScope rfl

/-- Declaring a variable of the current scope is growth, if the variable is no string and can be
reached. -/
theorem Grows.declared (hs : s.Formed) {ty : ScalarType} {v : Variable} {base : Reg} {m : Mem}
    (hty : ty.isHeap = false) (h : s.here.declareVariable name ty l = .ok (v, sc))
    (hm : Mem.slot base ⟨s.here.used, ty.size⟩ = .ok m) : s.Grows (s.withScope sc) := by
  obtain ⟨-, rfl, used, hused, rfl⟩ := Scope.declareVariable_eq_ok h
  refine .withScope hs ⟨rfl, rfl, rfl, rfl, List.prefix_append _ _, List.prefix_refl _, hused⟩ ?_
  exact fun hspaced => hspaced.declared h hm none hty.symm rfl (Nat.le_refl _)

/-- Declaring a string is growth once the variable is made the owner of an id, with quiet changes in
between. -/
theorem Grows.bound (hs : s.Formed) {ty : ScalarType} {base : Reg} {m : Mem}
    (hty : ty.isHeap = true)
    (h : s.here.declareVariable name ty l = .ok (s.here.newVariable name ty, sc))
    (hm : Mem.slot base ⟨s.here.used, ty.size⟩ = .ok m) (hq : (s.withScope sc).Quiet t)
    (id : ReclaimId) : s.Grows (t.withScope (t.here.bind name id)) := by
  have hd := hs.declared h
  have ht := hq.formed hd
  have hsize : (s.withScope sc).tree.size = s.tree.size := ScopeTree.size_set ..
  have hdeclared := h
  obtain ⟨hnew, -, used, hused, rfl⟩ := Scope.declareVariable_eq_ok h
  have hnames := hq.here
  rw [here_withScope hs] at hnames
  have hbind := Scope.bind_append id hnames.vars (Scope.getVariable?_eq_none_iff.1 hnew)
  have hu := hq.used
  rw [here_withScope hs] at hu
  have hscope : s.here.Grows (t.here.bind name id) := by
    refine ⟨?_, ?_, ?_, ?_, ?_, ?_, ?_⟩
    · exact hnames.parent
    · exact hnames.frameSize
    · exact hnames.function
    · exact hnames.loop
    · rw [show t.here.bind name id = _ from hbind]
      exact List.prefix_append _ _
    · show s.here.functions <+: t.here.functions
      rewrite [hnames.functions]
      exact List.prefix_refl _
    · exact Nat.le_trans hused hu
  exact
    { (Continues.moved hq.continues ..) with
      current_lt := hs.current_lt
      formed := ht.withScope rfl
      current := hq.current
      target := hq.target
      size := by
        rewrite [show (t.withScope _).tree.size = t.tree.size from ScopeTree.size_set ..,
          hq.size, hsize]
        exact Nat.le_refl _
      others := fun i _ hne => by
        rw [scope_withScope_of_ne _ (by rw [hq.current]; exact hne), hq.others i hne]
        exact scope_withScope_of_ne _ hne
      here := by
        rw [here_withScope ht]
        exact hscope
      spaced := fun hspaced => by
        rw [here_withScope ht]
        exact hspaced.declared hdeclared hm (some id) hty.symm (congrArg Scope.vars hbind) hu
      inside := fun i hi hlt => by
        rw [show (t.withScope _).tree.size = t.tree.size from ScopeTree.size_set .., hq.size,
          hsize] at hlt
        exact absurd hlt (Nat.not_lt.2 hi) }

/-- Growth inside the new scope leads no further out. -/
theorem Inner.grow (h : s.Inner t) (k : t.Grows u) : s.Inner u where
  toContinues := h.toContinues.trans k.toContinues
  formed := k.formed
  current := k.current.trans h.current
  parent := k.here.parent.trans h.parent
  target htarget := k.target ▸ h.target htarget
  others i hi := by
    have hlt := Nat.lt_trans hi h.size_lt
    exact (k.others i hlt (h.ne_current hi)).trans (h.others i hi)
  inside i hi hlt := by
    by_cases hold : i < t.tree.size
    · obtain ⟨hin, hspaced, hsized⟩ := h.inside i hi hold
      rw [k.tree_path h.formed hold, k.current]
      refine ⟨hin, k.spaced_scope hold hspaced, fun htarget => ?_⟩
      by_cases hc : i = t.current
      · exact .inl hc
      · exact .inr (((hsized htarget).resolve_left hc).later k.toContinues (k.others i hold hc))
    · -- a still newer scope lies inside the new one, which lies inside the one around it
      obtain ⟨hin, hspaced, hsized⟩ := k.inside i (Nat.le_of_not_lt hold) hlt
      have hout := (h.inside t.current (Nat.le_of_eq h.current.symm) h.formed.current_lt).1
      rw [← k.tree_path h.formed h.formed.current_lt] at hout
      exact ⟨k.formed.ordered.mem_path_trans hlt hin hout, hspaced, fun htarget =>
        .inr (hsized (h.target htarget))⟩

theorem size_entered (s : State) (l : Label) : (s.entered l).tree.size = s.tree.size + 1 :=
  ScopeTree.size_push ..

theorem scope_entered_size (s : State) (l : Label) :
    (s.entered l).tree.scope s.tree.size = Scope.fresh (some s.current) l :=
  ScopeTree.scope_push_size ..

theorem here_entered (s : State) (l : Label) :
    (s.entered l).here = Scope.fresh (some s.current) l :=
  s.scope_entered_size l

theorem Formed.entered (hs : s.Formed) (l : Label) : (s.entered l).Formed := by
  refine ⟨hs.push l, ?_, hs.root_eq⟩
  rw [size_entered]
  exact Nat.lt_succ_self _

/-- A scope that was just opened is inside the one around it. -/
theorem Inner.entered (hs : s.Formed) (l : Label) : s.Inner (s.entered l) where
  root := rfl
  comments := rfl
  sections _ := List.prefix_refl _
  literals := List.prefix_refl _
  labels := Nat.le_succ _
  reclaims := Nat.le_refl _
  formed := hs.entered l
  current := rfl
  parent := congrArg Scope.parent (s.here_entered l)
  target htarget := htarget
  others _ hi := ScopeTree.scope_push_of_lt _ _ hi
  inside i hi hlt := by
    rw [size_entered] at hlt
    obtain rfl : i = s.tree.size := Nat.le_antisymm (Nat.le_of_lt_succ hlt) hi
    obtain ⟨hordered, hnew, _⟩ := hs.entered l
    have hpath : (s.entered l).tree.path s.tree.size = s.tree.size :: _ :=
      hordered.path_eq_cons hnew (congrArg Scope.parent (s.scope_entered_size l))
    rw [hpath, scope_entered_size]
    exact ⟨List.mem_cons_of_mem _ (hordered.mem_path_self (Nat.lt_trans hs.current_lt hnew)),
      .of_vars_nil rfl, fun _ => .inl rfl⟩

/-- A new scope is also inside an earlier state with the same scopes. -/
theorem Inner.rebase (h : u.Inner t) (hsu : s.Continues u) (htree : u.tree = s.tree)
    (hcurrent : u.current = s.current) (htarget : u.target = s.target) : s.Inner t where
  toContinues := hsu.trans h.toContinues
  formed := h.formed
  current := htree ▸ h.current
  parent := hcurrent ▸ h.parent
  target := htarget ▸ h.target
  others := htree ▸ h.others
  inside := htarget ▸ hcurrent ▸ htree ▸ h.inside

theorem Formed.targeted (h : s.Formed) (target : Section) : Formed { s with target } :=
  ⟨h.ordered, h.current_lt, h.root_eq⟩

/-- The text of a new scope may go to another section. -/
theorem Inner.targeted (hs : s.Formed) (l : Label) {target : Section} (htarget : target ≠ .data) :
    s.Inner { s.entered l with target } :=
  have h := Inner.entered hs l
  { h.toContinues.moved .. with
    formed := h.formed.targeted target
    current := h.current, parent := h.parent, target := fun _ => htarget
    others := h.others, inside := h.inside }

/-- Changes of the new scope lead no further out, if they leave it in its place. -/
theorem Inner.withScope (h : s.Inner t) (hp : sc.parent = t.here.parent) (hsc : sc.Spaced) :
    s.Inner (t.withScope sc) where
  toContinues := h.toContinues.moved ..
  formed := h.formed.withScope hp
  current := h.current
  parent := by
    rw [here_withScope h.formed]
    exact hp.trans h.parent
  target := h.target
  others i hi := (scope_withScope_of_ne sc (h.ne_current hi)).trans (h.others i hi)
  inside i hi hlt := by
    have hlt' := hlt
    rw [show (t.withScope sc).tree.size = t.tree.size from ScopeTree.size_set ..] at hlt'
    rw [h.formed.ordered.path_congr (h.formed.withScope hp).ordered i hlt' hlt fun j _ =>
      h.formed.parent_withScope hp j]
    obtain ⟨hin, hspaced, hsized⟩ := h.inside i hi hlt'
    by_cases hc : i = t.current
    · subst hc
      rw [show (t.withScope sc).tree.scope t.current = sc from here_withScope h.formed sc]
      exact ⟨hin, hsc, fun _ => .inl rfl⟩
    · have hsame := scope_withScope_of_ne sc hc
      rw [hsame]
      exact ⟨hin, hspaced, fun htarget => (hsized htarget).imp id fun h =>
        h.later (.moved (.refl t) ..) hsame⟩

/-- Going back from the new scope to the one around it, once its frame has a size. -/
theorem Inner.leave (hs : s.Formed) (h : s.Inner t)
    (hsized : s.target ≠ .data → t.IsSized t.current) :
    s.Grows { t with current := s.current, target := s.target } where
  toContinues := h.toContinues.moved ..
  current_lt := hs.current_lt
  formed := ⟨h.formed.ordered, Nat.lt_trans hs.current_lt h.size_lt, h.formed.root_eq⟩
  current := rfl
  target := rfl
  size := Nat.le_of_lt h.size_lt
  others i hi _ := h.others i hi
  here := by
    show s.here.Grows (t.tree.scope s.current)
    rw [h.others s.current hs.current_lt]
    exact .refl _
  spaced hspaced := by
    show (t.tree.scope s.current).Spaced
    rw [h.others s.current hs.current_lt]
    exact hspaced
  inside i hi hlt := by
    obtain ⟨hin, hspaced, hopen⟩ := h.inside i hi hlt
    refine ⟨hin, hspaced, fun htarget => ?_⟩
    rcases hopen htarget with rfl | hclosed
    · exact hsized htarget
    · exact hclosed

end State

/-- A growing action: whatever state it is run in, it ends in one that has grown. -/
def Lower.IsGrowing {α : Type} (x : Lower α) : Prop :=
  ∀ s a t, s.Formed → x s = .ok a t → s.Grows t

namespace Lower

variable {α β : Type}

theorem IsQuiet.growing {x : Lower α} (hx : x.IsQuiet) : x.IsGrowing :=
  fun s a t hs h => (hx s a t hs h).grows hs

theorem IsGrowing.bind {x : Lower α} {f : α → Lower β} (hx : x.IsGrowing)
    (hf : ∀ a, (f a).IsGrowing) : (x >>= f).IsGrowing := by
  intro s b t hs h
  obtain ⟨a, u, hxa, hfa⟩ := bind_eq_ok.1 h
  have hsu := hx s a u hs hxa
  exact hsu.trans (hf a u b t hsu.formed hfa)

theorem IsGrowing.pure (a : α) : (pure a : Lower α).IsGrowing := (IsQuiet.pure a).growing

theorem IsGrowing.emit (code : Code) : (emit code).IsGrowing := by
  intro s a t hs h
  obtain rfl := emit_eq_ok.1 h
  exact .wrote hs code

theorem IsGrowing.markIncluded (path : String) : (withSession (·.markIncluded path)).IsGrowing := by
  intro s a t hs h
  obtain ⟨-, rfl⟩ := withSession_eq_ok.1 h
  unfold Session.markIncluded
  split
  · exact .refl hs
  · exact
      { root := rfl, comments := rfl, sections := fun _ => List.prefix_refl _
        literals := List.prefix_refl _, labels := Nat.le_refl _, reclaims := Nat.le_refl _
        current_lt := hs.current_lt, formed := ⟨hs.ordered, hs.current_lt, hs.root_eq⟩
        current := rfl, target := rfl, size := Nat.le_refl _, others := fun _ _ _ => rfl
        here := .refl _, spaced := id
        inside := fun _ hi hlt => absurd hlt (Nat.not_lt.2 hi) }

/-- Growth is a law that admits rejecting and writing. -/
theorem IsGrowing.law : StatementLaw @IsGrowing :=
  .of_quiet IsQuiet.growing .bind (fun hx s a t hs h =>
    have ⟨_, hy, hrun⟩ := hx s a t h
    hy s a t hs hrun) .emit

/-! ### Declarations and assignments -/

theorem IsQuiet.getDM (id? : Option ReclaimId) : Lower.IsQuiet (id?.getDM Lower.mintReclaim) := by
  cases id? with
  | none => exact .mintReclaim
  | some id => exact .pure _

theorem IsGrowing.declare (name : String) (ty : ScalarType) (l : Location) {value : Lower Lowered}
    (hvalue : value.IsGrowing) : (declare name ty l value).IsGrowing := by
  intro s a t hs h
  cases hty : ty.isHeap with
  | false =>
    obtain ⟨v, u, sc, note, m, hv, hsc, -, hm, rfl⟩ := declare_plain_eq_ok hty h
    have hu := hvalue s v u hs hv
    have hd := State.Grows.declared hu.formed hty hsc hm
    exact (hu.trans hd).trans (.wrote hd.formed _)
  | true =>
    obtain ⟨v, u, sc, note, m, c, taken, id?, w, id, x, hv, hsc, -, hm, -, hw, hx, rfl⟩ :=
      declare_heap_eq_ok hty h
    have hu := hvalue s v u hs hv
    have hd := hu.formed.declared hsc
    have hw' := IsQuiet.takeOwnership _ _ _ _ _ _ hd hw
    have hx' := hw'.trans (IsQuiet.getDM id? _ _ _ (hw'.formed hd) hx)
    have hb := State.Grows.bound hu.formed hty hsc hm hx' id
    exact (hu.trans hb).trans (.wrote hb.formed _)

theorem IsGrowing.assign (name : String) (l : Location) {value : ScalarType → Lower Lowered}
    (hvalue : ∀ ty, (value ty).IsGrowing) : (assign name l value).IsGrowing :=
  law.assign name l (fun _ _ => (IsQuiet.takeOwnership _ _ _).growing) hvalue

/-! ### Blocks -/

/-- Opening a block leads into a new scope. -/
theorem openBlock_inner {id : ScopeId} (hs : s.Formed) (h : openBlock s = .ok id t) :
    s.Inner t ∧ id = t.current ∧ t.target = s.target := by
  obtain ⟨rfl, rfl⟩ := openBlock_eq_ok.1 h
  have hwrote :=
    State.Continues.wrote s (Convention.blockPrologue (.fresh s.session.nextLabel "frame"))
  refine ⟨?_, rfl, rfl⟩
  exact
    { State.Inner.entered (hs.wrote _) _ with
      sections := hwrote.sections
      literals := hwrote.literals }

/-- The frame of a scope gets its size when the scope is left. -/
theorem defineFrameSize_isSized {i : ScopeId} (hs : s.target ≠ .data)
    (h : defineFrameSize i s = .ok a t) : t.IsSized i := by
  obtain ⟨bytes, hbytes, rfl⟩ := defineFrameSize_eq_ok h
  exact State.isSized_wrote hs hbytes (List.mem_singleton_self _)

/-- Closing the block that was opened last leads back to the scope around it. -/
theorem closeBlock_grows {reachable : Bool} (hs : s.Formed) (ht : s.Inner t)
    (htarget : t.target = s.target) (h : closeBlock reachable t = .ok a u) : s.Grows u := by
  obtain ⟨v, w, hleave, hdef, rfl⟩ := closeBlock_eq_ok h
  have hv := IsGrowing.law.ite (IsGrowing.law.exitFrame _ _) (.pure _) t _ v ht.formed hleave
  have htw := hv.trans (IsGrowing.law.defineFrameSize _ _ _ _ hv.formed hdef)
  have hin := ht.grow htw
  have hparent : (w.tree.scope t.current).parent = some s.current := by
    rw [← htw.current]
    exact hin.parent
  rw [hparent]
  have hback := hin.leave hs fun hs =>
    htw.current.symm ▸ defineFrameSize_isSized (by rwa [hv.target, htarget]) hdef
  rw [← htarget, ← htw.target] at hback
  exact hback

theorem IsGrowing.block (hbody : body.IsGrowing) : (block body).IsGrowing := by
  intro s a t hs h
  obtain ⟨id, u, hopen, h₁⟩ := bind_eq_ok.1 h
  obtain ⟨jumped, v, hrun, hclose⟩ := bind_eq_ok.1 h₁
  obtain ⟨hin, -, htarget⟩ := openBlock_inner hs hopen
  have hv := hbody u jumped v hin.formed hrun
  exact closeBlock_grows hs (hin.grow hv) (hv.target.trans htarget) hclose

theorem IsGrowing.guarded (target : Label) (l : Location) {condition : Lower Lowered}
    (hc : condition.IsGrowing)
    (hbody : body.IsGrowing) : (guarded target l condition body).IsGrowing :=
  .bind (law.branchUnless target l hc) fun _ => .block hbody

/-! ### Loops -/

/-- Starting a round writes a label and leads into a new scope. -/
theorem openLoop_inner {f : LoopFrame} (hs : s.Formed) (h : openLoop s = .ok f t) :
    s.Inner t ∧ f.scope = t.current ∧ t.target = s.target := by
  obtain ⟨top, next, exit, done, u₁, u₂, u₃, u₄, id, v, htop, hnext, hexit, hdone, hopen, rfl,
    rfl⟩ := openLoop_eq_ok h
  have hu₁ := IsQuiet.mintLabel _ _ _ _ hs htop
  have hu₂ := hu₁.trans (IsQuiet.mintLabel _ _ _ _ (hu₁.formed hs) hnext)
  have hu₃ := hu₂.trans (IsQuiet.mintLabel _ _ _ _ (hu₂.formed hs) hexit)
  have hu₄ := hu₃.trans (IsQuiet.mintLabel _ _ _ _ (hu₃.formed hs) hdone)
  have htree : u₄.tree = s.tree := by
    rw [(mintLabel_eq_ok.1 hdone).2, (mintLabel_eq_ok.1 hexit).2, (mintLabel_eq_ok.1 hnext).2,
      (mintLabel_eq_ok.1 htop).2]
  have hu := (hu₄.grows hs).trans (.wrote (hu₄.formed hs) [.label top])
  obtain ⟨hin, hid, htarget⟩ := openBlock_inner hu.formed hopen
  have hin := hin.rebase hu.toContinues htree hu₄.current hu₄.target
  have hspaced := (hin.inside v.current (Nat.le_of_eq hin.current.symm) hin.formed.current_lt).2.1
  exact ⟨hin.withScope rfl (hspaced.grown rfl (Nat.le_refl _)), hid, htarget.trans hu₄.target⟩

theorem closeLoop_grows {f : LoopFrame} (hs : s.Formed) (ht : s.Inner t)
    (htarget : t.target = s.target) (h : closeLoop f t = .ok a u) : s.Grows u := by
  obtain ⟨t₁, t₂, hexit, hclose, rfl⟩ := closeLoop_eq_ok h
  have hg₁ := IsGrowing.law.exitFrame _ _ _ _ _ ht.formed hexit
  have hg₂ := hg₁.trans (.wrote hg₁.formed [Asm.jmp f.exits.top, .label f.done])
  have hg₃ := closeBlock_grows hs (ht.grow hg₂) (hg₂.target.trans htarget) hclose
  exact hg₃.trans (.wrote hg₃.formed _)

theorem IsGrowing.loop (l : Location) {condition : Lower Lowered} (hc : condition.IsGrowing)
    {post : Lower Bool} (hbody : body.IsGrowing) (hpost : post.IsGrowing) :
    (loop l condition body post).IsGrowing := by
  intro s a t hs h
  obtain ⟨f, u, v, _, w, _, x, hopen, hbranch, hrun, hstep, hclose⟩ := loop_eq_ok h
  obtain ⟨hin, -, htarget⟩ := openLoop_inner hs hopen
  have hg₁ := IsGrowing.law.branchUnless _ _ hc _ _ _ hin.formed hbranch
  have hg₂ := hg₁.trans (hbody _ _ _ hg₁.formed hrun)
  have hg₃ := hg₂.trans (.wrote hg₂.formed [.label f.exits.next])
  have hg₄ := hg₃.trans (hpost _ _ _ hg₃.formed hstep)
  exact closeLoop_grows hs (hin.grow hg₄) (hg₄.target.trans htarget) hclose

/-! ### Functions -/

theorem IsGrowing.bindParam (l : Location) (index : Nat) (p : Param) :
    (bindParam l index p).IsGrowing := by
  intro s a t hs h
  obtain ⟨sc, disp, m, hsc, -, hm, -, hadopt⟩ := bindParam_eq_ok h
  cases hty : p.ty.isHeap with
  | false =>
    obtain rfl := (adopt_plain_eq_ok hty).1 hadopt
    exact .declared hs hty hsc hm
  | true =>
    obtain ⟨u, id, hmint, rfl⟩ := (adopt_heap_eq_ok hty).1 hadopt
    exact .bound hs hty hsc hm (IsQuiet.mintReclaim _ _ _ (hs.declared hsc) hmint) id

theorem IsGrowing.bindParams (l : Location) :
    ∀ (index : Nat) (params : List Param), (bindParams l index params).IsGrowing
  | _, [] => .pure _
  | index, p :: rest =>
    .bind (.bindParam l index p) fun _ => .bind (IsGrowing.bindParams l (index + 1) rest)
      fun _ => .pure _

/-- Declaring a function is growth. -/
theorem IsGrowing.announce (name : String) (params : List Param) (ret : ScalarType) (l : Location) :
    (announce name params ret l).IsGrowing := by
  rintro s ⟨f, skip⟩ t hs h
  obtain ⟨-, -, -, rfl⟩ := announce_eq_ok h
  have hg : s.Grows (s.withScope { s.here with functions := s.here.functions ++ [f] }) :=
    .withScope hs ⟨rfl, rfl, rfl, rfl, List.prefix_refl _, List.prefix_append _ _, Nat.le_refl _⟩
      fun hspaced => hspaced.grown rfl (Nat.le_refl _)
  refine hg.trans (State.Quiet.grows ?_ hg.formed)
  exact .withSession rfl (Nat.le_add_right _ 3) (Nat.le_refl _)

/-- Opening a function body leads into a new scope. -/
theorem openBody_inner {f : Signature} {exit : FunctionExit} (hs : s.Formed)
    (h : openBody f s = .ok exit t) : s.Inner t := by
  obtain ⟨-, rfl⟩ := openBody_eq_ok h
  have hin : s.Inner { s.entered (.fresh s.session.nextLabel "frame") with target := .functions } :=
    .targeted hs _ nofun
  refine hin.withScope ?_ (.of_vars_nil rfl)
  exact (congrArg Scope.parent (State.here_entered s _)).symm

/-- The text of a function up to its body is written from a new scope. -/
theorem openFunction_inner {params : List Param} {ret : ScalarType} {g : FunctionFrame}
    (hs : s.Formed) (h : openFunction name params ret l s = .ok g t) :
    ∃ u, s.Grows u ∧ u.Inner t ∧ g.scope = t.current ∧ g.outer = u.current ∧
    g.target = u.target := by
  obtain ⟨f, skip, u, exit, v, note, copies, w, hannounce, hopen, -, hcopies, rfl, rfl⟩ :=
    openFunction_eq_ok h
  have hu := IsGrowing.announce _ _ _ _ _ _ _ hs hannounce
  have hv := openBody_inner hu.formed hopen
  have hw := IsGrowing.bindParams l 0 params _ _ _ hv.formed hcopies
  exact ⟨u, hu, (hv.grow hw).grow (.wrote hw.formed _), rfl, rfl, rfl⟩

/-- Writing the end of a function leads back to the scope that declares it. -/
theorem closeFunction_grows {g : FunctionFrame} (hs : s.Formed) (ht : s.Inner t)
    (hscope : g.scope = t.current)
    (houter : g.outer = s.current) (htarget : g.target = s.target)
    (h : closeFunction name g t = .ok a u) : s.Grows u := by
  obtain ⟨code, result, bytes, -, hbytes, hcode, rfl⟩ := closeFunction_eq_ok h
  rw [hscope] at hbytes hcode
  have hmem : .constant (t.tree.scope t.current).frameSize bytes ∈ code := by simp [hcode]
  have hleave := (ht.grow (.wrote ht.formed code)).leave hs fun hs =>
    State.isSized_wrote (ht.target hs) hbytes hmem
  rw [← houter, ← htarget] at hleave
  exact hleave.trans (State.Quiet.grows (.withSession rfl (Nat.le_refl _) (Nat.le_refl _))
    hleave.formed)

theorem IsGrowing.defineFunction (name : String) (params : List Param) (ret : ScalarType)
    (l : Location) {body : FunctionExit → Lower Unit} (hbody : ∀ exit, (body exit).IsGrowing) :
    (defineFunction name params ret l body).IsGrowing := by
  intro s a t hs h
  obtain ⟨g, v, hopen, h₁⟩ := bind_eq_ok.1 h
  obtain ⟨_, w, hrun, hclose⟩ := bind_eq_ok.1 h₁
  obtain ⟨u, hu, hin, hscope, houter, htarget⟩ := openFunction_inner hs hopen
  have hw := hbody _ _ _ _ hin.formed hrun
  exact hu.trans (closeFunction_grows hu.formed (hin.grow hw) (hscope.trans hw.current.symm) houter
    htarget hclose)

theorem IsGrowing.registerLibrary : registerLibrary.IsGrowing :=
  .bind (law.forM (fun p => .defineFunction _ _ _ _ (law.primitiveBody p)) _) fun _ => law.tell _

end Lower

/-! ### Going through a program -/

open Lower IsGrowing in
theorem Node.execute_growsCases :
    StatementCases (fun n => n.execute.IsGrowing)
      (fun ns => ∀ jumped, (Node.executeAll jumped ns).IsGrowing)
      (fun o => ∀ exit next, (o.execute exit next).IsGrowing) where
  function hbody := by
    unfold Node.execute
    exact .bind (.defineFunction _ _ _ _ (law.functionBody _ (hbody false))) fun _ => .pure _
  declare := by
    unfold Node.execute
    exact .bind (.declare _ _ _ (law.evaluateOr _ _)) fun _ => .pure _
  assign := by
    unfold Node.execute
    exact .bind (.assign _ _ fun _ => law.expect (law.evaluate _)) fun _ => .pure _
  store := by
    unfold Node.execute
    exact .bind (law.storeAt (law.evaluate _) (law.evaluate _) _) fun _ => .pure _
  conditional hbody hrest := by
    unfold Node.execute
    exact .bind (law.mintLabel _) fun exit => .bind (law.otherwiseLabel exit _) fun next =>
      .bind (.guarded _ _ (law.evaluate _) (hbody false)) fun _ => .bind (hrest exit next)
        fun _ => .pure _
  whileLoop hbody := by
    unfold Node.execute
    exact .bind (.loop _ (law.evaluate _) (hbody false) (.pure _)) fun _ => .pure _
  forLoop hstart hstep hbody := by
    unfold Node.execute
    exact .bind (.block (.bind hstart fun _ =>
      .bind (.loop _ (law.evaluate _) (hbody false) hstep) fun _ => .pure _)) fun _ => .pure _
  included hprogram := by
    unfold Node.execute
    refine .bind (.markIncluded _) fun new => law.ite ?_ ?_
    · exact .bind (law.remark _) fun _ => .bind (.emit _) fun _ => .bind (hprogram false)
        fun _ => .pure _
    · exact .bind (law.tell _) fun _ => .pure _
  breakLoop := .bind (law.leaveLoop _) fun _ => .pure _
  continueLoop := .bind (law.nextRound _) fun _ => .pure _
  ret := .bind (law.leaveFunction _ (law.evaluateOr _)) fun _ => .pure _
  call := by
    unfold Node.execute
    exact .bind (law.evaluate _) fun _ => .bind (.emit _) fun _ => .pure _
  step := .bind (law.stepVariable _ _ _ _) fun _ => .bind (.emit _) fun _ => .pure _
  misplaced h := by
    rw [Node.execute_misplaced h]
    exact law.reject _ _
  nil jumped := by
    unfold Node.executeAll
    exact .pure _
  cons hn hns jumped := by
    unfold Node.executeAll
    exact .bind hn fun jumped => hns jumped
  absent exit next := .emit _
  block hbody exit next := by
    unfold Otherwise.execute
    exact .bind (.emit _) fun _ => .bind (.block (hbody false)) fun _ => .emit _
  chained hbody hrest exit next := by
    unfold Otherwise.execute
    exact .bind (.emit _) fun _ => .bind (law.otherwiseLabel exit _) fun next =>
      .bind (.guarded _ _ (law.evaluate _) (hbody false)) fun _ => hrest exit next
  misplacedElse h exit next := by
    rw [Otherwise.execute_misplaced h]
    exact .bind (.emit _) fun _ => law.reject _ _

/-- Compiling a statement grows the state. -/
theorem Node.execute_grows (n : Node) : n.execute.IsGrowing := Node.execute_growsCases.node n

/-- Compiling a statement list grows the state. -/
theorem Node.executeAll_grows (jumped : Bool) (ns : List Node) :
    (Node.executeAll jumped ns).IsGrowing :=
  Node.execute_growsCases.list ns jumped

end KuAsm
