import KuAsm.Proofs.Decision
import KuAsm.Proofs.Layers

/-!
# Compiling an expression decides its type

The checks of an expression are spread over its compilation.  Each action that makes one is shown to
decide the question that the rules ask at this place, and the questions are put together along the
expression.

## Main statements

* `Lower.IsSteady`: an action that changes nothing the rules speak of; this is a law.
* `Node.evaluate_decides`: compiling an expression ends well exactly if the rules give it a type,
  and then with a value of this type.
-/

namespace KuAsm

open Lower

variable {P : ScalarType → Prop} {s : State}

/-- The type of a constant. -/
def Literal.ty : Literal → ScalarType
  | .number _ => .integer
  | .decimal _ => .decimal
  | .char _ => .character
  | .bool _ => .boolean
  | .str _ => .string

/-! ### Steady actions -/

/-- A steady action declares nothing and includes nothing. -/
def Lower.IsSteady {α : Type} (x : Lower α) : Prop :=
  ∀ s a t, s.Ready → x s = .ok a t → t.Ready ∧ t.situation = s.situation

namespace Lower

variable {α β : Type} {s t : State}

theorem IsQuiet.steady {x : Lower α} (hx : x.IsQuiet) : x.IsSteady := by
  intro s a t hs h
  have hquiet := hx s a t hs.formed h
  refine ⟨hs.grow (hquiet.grows hs.formed), ?_⟩
  unfold State.situation
  rw [hquiet.context hs.formed, hquiet.included]

theorem IsSteady.bind {x : Lower α} {f : α → Lower β} (hx : x.IsSteady) (hf : ∀ a, (f a).IsSteady) :
    (x >>= f).IsSteady := by
  intro s b u hs h
  obtain ⟨a, t, hxa, hfa⟩ := bind_eq_ok.1 h
  obtain ⟨ht, hsit⟩ := hx s a t hs hxa
  obtain ⟨hu, hsit'⟩ := hf a t b u ht hfa
  exact ⟨hu, hsit'.trans hsit⟩

theorem IsSteady.emit (code : Code) : (emit code).IsSteady := by
  intro s a t hs h
  have hgrows := IsGrowing.emit code s a t hs.formed h
  obtain rfl := emit_eq_ok.1 h
  exact ⟨hs.grow hgrows, rfl⟩

/-- Steadiness is a law that admits rejecting and writing. -/
theorem IsSteady.law : StatementLaw @IsSteady :=
  .of_quiet IsQuiet.steady .bind (fun hx s a t hs h =>
    have ⟨_, hy, hrun⟩ := hx s a t h
    hy s a t hs hrun) .emit

theorem IsSteady.situation {x : Lower α} {a : α} (hx : x.IsSteady) (hs : s.Ready)
    (h : x s = .ok a t) : t.situation = s.situation :=
  (hx s a t hs h).2

theorem IsSteady.context {x : Lower α} {a : α} (hx : x.IsSteady) (hs : s.Ready)
    (h : x s = .ok a t) : t.context = s.context :=
  congrArg Situation.context (hx.situation hs h)

theorem IsSteady.included {x : Lower α} {a : α} (hx : x.IsSteady) (hs : s.Ready)
    (h : x s = .ok a t) : t.session.included = s.session.included :=
  congrArg Situation.included (hx.situation hs h)

theorem IsSteady.ready {x : Lower α} {a : α} (hx : x.IsSteady) (hs : s.Ready)
    (h : x s = .ok a t) : t.Ready :=
  (hx s a t hs h).1

/-! ### Names -/

theorem resolveVariable_decides (name : String) (l : Location) (s : State) :
    (resolveVariable name l).Decides s (fun x => s.tree.lookupVariable s.current name = some x)
      fun x _ => x := by
  refine .read ?_
  cases s.tree.lookupVariable s.current name with
  | none => exact (Decides.reject _ _).congr fun _ => by simp
  | some y => exact (Decides.pure rfl).congr fun _ => by simp [eq_comm]

theorem resolveFunction_decides (name : String) (l : Location) (s : State) :
    (resolveFunction name l).Decides s (fun x => s.tree.lookupFunction s.current name = some x)
      fun x _ => x := by
  refine .read ?_
  cases s.tree.lookupFunction s.current name with
  | none => exact (Decides.reject _ _).congr fun _ => by simp
  | some y => exact (Decides.pure rfl).congr fun _ => by simp [eq_comm]

theorem resolveCall_decides (name : String) (count : Nat) (l : Location) (s : State) :
    (resolveCall name count l).Decides s
      (fun x => s.tree.lookupFunction s.current name = some x ∧ x.2.params.length ≤ count)
      fun x _ => x := by
  have hcount : ∀ x t, (if count < x.2.params.length then
        reject (.arityMismatch name x.2.params.length count) l else pure x :
        Lower (Resolved × Signature)).Decides t (fun y => ¬ count < x.2.params.length ∧ y = x)
          fun y _ => y :=
    fun x t => .guard fun _ => .pure rfl
  refine ((resolveFunction_decides name l s).bind fun x t _ => hcount x t).congr fun y => ?_
  constructor
  · rintro ⟨x, hx, hle, rfl⟩
    exact ⟨hx, Nat.le_of_not_lt hle⟩
  · rintro ⟨hy, hle⟩
    exact ⟨y, hy, Nat.not_lt_of_le hle, rfl⟩

theorem enclosingLoop_decides (statement : String) (l : Location) (s : State) :
    (enclosingLoop statement l).Decides s (fun x => s.tree.lookupLoop s.current = some x)
      fun x _ => x := by
  refine .read ?_
  cases s.tree.lookupLoop s.current with
  | none => exact (Decides.reject _ _).congr fun _ => by simp
  | some y => exact (Decides.pure rfl).congr fun _ => by simp [eq_comm]

/-! ### Expressions -/

theorem literal_ty {v : Literal} {w : Lowered} (h : literal v s = .ok w t) : w.ty = v.ty := by
  cases v with
  | number v =>
    rw [(pure_eq_ok.1 h).1]
    rfl
  | decimal v =>
    obtain ⟨note, u, -, h₁⟩ := bind_eq_ok.1 h
    rw [(pure_eq_ok.1 h₁).1]
    rfl
  | char v =>
    rw [(pure_eq_ok.1 h).1]
    rfl
  | bool v =>
    rw [(pure_eq_ok.1 h).1]
    rfl
  | str v =>
    obtain ⟨label, u, -, h₁⟩ := bind_eq_ok.1 h
    rw [(pure_eq_ok.1 h₁).1]
    rfl

theorem literal_decides (v : Literal) (s : State) :
    (literal v).Decides s (· = v.ty) fun w _ => w.ty :=
  .lenient (IsLenient.law.literal v) fun _ _ h => literal_ty h

theorem zero_decides (ty : ScalarType) (s : State) :
    (literal ty.zero).Decides s (· = ty) fun w _ => w.ty := by
  have hty : ty.zero.ty = ty := by cases ty <;> rfl
  exact (literal_decides ty.zero s).congr fun τ => by rw [hty]

/-- The result of a call has the type of the function. -/
theorem invoke_decides (f : Signature) (depth : Nat) (args : List Lowered) (s : State) :
    (invoke f depth args).Decides s (· = f.ret) fun v _ => v.ty := by
  refine .lenient (IsLenient.law.invoke f depth args) fun v t h => ?_
  obtain ⟨_, _, _, _, _, -, -, -, ⟨-, -, rfl⟩ | ⟨-, _, _, -, rfl⟩⟩ := invoke_eq_ok h <;> rfl

/-- The operators of the rules are the operators that are compiled: joining strings apart, those
that the tables of the operators admit. -/
theorem operates_iff (op : BinaryOp) (τ ρ : ScalarType) :
    Operates op τ ρ ↔
      if τ = .string ∧ op = .add then ρ = .string else op.accepts τ = true ∧
      ρ = op.resultType τ := by
  constructor
  · intro h
    cases h with
    | arithmetic hop hτ =>
      simp only [List.mem_cons, List.not_mem_nil, or_false] at hop hτ
      rcases hop with rfl | rfl | rfl | rfl | rfl <;> rcases hτ with rfl | rfl <;> decide
    | joining => decide
    | logical hop =>
      simp only [List.mem_cons, List.not_mem_nil, or_false] at hop
      rcases hop with rfl | rfl <;> decide
    | ordering hop hτ =>
      simp only [List.mem_cons, List.not_mem_nil, or_false] at hop hτ
      rcases hop with rfl | rfl | rfl | rfl <;> rcases hτ with rfl | rfl | rfl <;> decide
    | equality hop hτ =>
      simp only [List.mem_cons, List.not_mem_nil, or_false] at hop hτ
      rcases hop with rfl | rfl <;> rcases hτ with rfl | rfl | rfl | rfl <;> decide
  · intro h
    by_cases hjoin : τ = .string ∧ op = .add
    · rw [if_pos hjoin] at h
      obtain ⟨rfl, rfl⟩ := hjoin
      rw [h]
      exact .joining
    · rw [if_neg hjoin] at h
      obtain ⟨hacc, rfl⟩ := h
      -- one case for each row of the table
      cases op with
      | add | sub | mul | div | rem =>
        exact .arithmetic (by decide) (by cases τ <;> first | decide | cases hacc)
      | and | or =>
        obtain rfl : τ = .boolean := by
          simpa [BinaryOp.accepts, BinaryOp.isArithmetic, BinaryOp.isLogical] using hacc
        exact .logical (by decide)
      | lt | gt | le | ge =>
        exact .ordering (by decide) (by cases τ <;> first | decide | cases hacc)
      | eq | ne =>
        exact .equality (by decide) (by cases τ <;> first | decide | cases hacc)

/-- Strings can be joined, and the result is a string. -/
theorem concat_decides (hs : s.Ready) (left right : Lowered) (l : Location) :
    (concat left right l).Decides s (· = .string) fun v _ => v.ty := by
  obtain ⟨f, hf, hret⟩ := hs.joining
  refine .after (.read fun _ => .pure _) fun found t hfound => ?_
  obtain ⟨rfl, rfl⟩ := libraryFunction?_eq_ok.1 hfound
  rw [hf, ← hret]
  exact .read (invoke_decides _ _ _ _)

/-- Two values can be combined if they are of one type to which the operator applies. -/
theorem combine_decides (hs : s.Ready) (op : BinaryOp) (a b : Lowered) (l : Location) :
    (combine op a b l).Decides s (fun ρ => a.ty = b.ty ∧ Operates op a.ty ρ) fun v _ => v.ty := by
  refine (Decides.guard (P := fun ρ => Operates op a.ty ρ) fun _ => ?_).congr fun ρ => by simp
  by_cases hjoin : a.ty = .string ∧ op = .add
  · rw [if_pos hjoin]
    exact (concat_decides hs a b l).congr fun ρ => by rw [operates_iff, if_pos hjoin]
  · rw [if_neg hjoin]
    refine (Decides.guard (P := fun ρ => ρ = op.resultType a.ty) fun _ => ?_).congr fun ρ => by
      rw [operates_iff, if_neg hjoin]
      simp
    split
    · exact .after (IsLenient.law.decimalCode op) fun _ _ _ => .pure rfl
    · exact .pure rfl

theorem applySign_decides (sign : Sign) (v : Lowered) (l : Location) (s : State) :
    (applySign sign v l).Decides s (fun ρ => v.ty ∈ [.integer, .decimal] ∧ ρ = v.ty) fun w _ =>
    w.ty := by
  refine (Decides.guard (P := fun ρ => ρ = v.ty) fun _ => ?_).congr fun ρ => ?_
  · cases sign with
    | plus => exact .pure rfl
    | minus => exact .pure rfl
  · cases v.ty <;> simp [ScalarType.isArithmetic]

theorem applyCast_decides (v : Lowered) (ty : ScalarType) (mode : CastMode) (l : Location)
    (s : State) : (applyCast v ty mode l).Decides s
      (fun ρ => (mode = .deref → v.ty ∈ [.integer, .string]) ∧ ρ = ty) fun w _ => w.ty := by
  cases mode with
  | deref =>
    refine (Decides.guard (P := fun ρ => ρ = ty) fun _ => .pure rfl).congr fun ρ => ?_
    cases v.ty <;> simp
  | immediate => exact (Decides.pure (c := ty) rfl).congr fun ρ => by simp

theorem readVariable_decides (name : String) (l : Location) (s : State) :
    (readVariable name l).Decides s (fun τ => s.context.varType? name = some τ) fun v _ =>
    v.ty := by
  refine (Decides.bind (Q := fun x τ => τ = x.2.ty) (resolveVariable_decides name l s)
    fun x t _ => ?_).congr fun τ => ?_
  · exact .after (.checked _) fun _ _ _ => .after (IsLenient.law.loadSize _ _) fun _ _ _ =>
      .pure rfl
  · rw [State.varType?_context]
    cases s.tree.lookupVariable s.current name with
    | none => simp
    | some x => simp [eq_comm]

theorem addressOf_decides (name : String) (l : Location) (s : State) :
    (addressOf name l).Decides s (fun ρ => (∃ τ, s.context.varType? name = some τ) ∧ ρ = .integer)
      fun v _ => v.ty := by
  refine (Decides.bind (Q := fun _ ρ => ρ = .integer) (resolveVariable_decides name l s)
    fun x t _ => ?_).congr fun ρ => ?_
  · exact .after (.checked _) fun _ _ _ => .pure rfl
  · rw [State.varType?_context]
    cases s.tree.lookupVariable s.current name with
    | none => simp
    | some x => simp

theorem stepVariable_decides (name : String) (op : StepOp) (fixity : Fixity) (l : Location)
    (s : State) : (stepVariable name op fixity l).Decides s
      (fun τ => s.context.varType? name = some τ ∧ τ ∈ [.integer, .character]) fun v _ => v.ty := by
  refine (Decides.bind (Q := fun x τ => ¬ (x.2.ty ≠ .integer ∧ x.2.ty ≠ .character) ∧ τ = x.2.ty)
    (resolveVariable_decides name l s) fun x t _ => ?_).congr fun τ => ?_
  · refine .guard fun _ => .after (.checked _) fun _ _ _ => ?_
    cases fixity with
    | leading => exact .pure rfl
    | trailing => exact .pure rfl
  · rw [State.varType?_context]
    constructor
    · rintro ⟨x, hx, hty, rfl⟩
      refine ⟨by rw [hx]; rfl, ?_⟩
      cases hxty : x.2.ty <;> simp [hxty] at hty ⊢
    · rintro ⟨hτ, hmem⟩
      obtain ⟨x, hx, rfl⟩ := Option.map_eq_some_iff.1 hτ
      refine ⟨x, hx, ?_, rfl⟩
      cases hxty : x.2.ty <;> simp [hxty] at hmem ⊢

/-- A value that must be of a type decides whether it is. -/
theorem expect_decides {x : Lower Lowered} (ty : ScalarType) (l : Location)
    (hx : x.Decides s P fun v _ => v.ty) :
    (expect ty l x).Decides s (fun τ => P ty ∧ τ = ty) fun v _ => v.ty := by
  refine (Decides.bind (Q := fun τ ρ => τ = ty ∧ ρ = ty) hx fun v t _ => ?_).congr fun ρ => ?_
  · by_cases hty : v.ty = ty
    · rw [if_pos hty]
      exact (Decides.pure hty).congr fun ρ => by simp [hty]
    · rw [if_neg hty]
      exact (Decides.reject _ _).congr fun ρ => by simp [hty]
  · constructor
    · rintro ⟨τ, hτ, rfl, rfl⟩
      exact ⟨hτ, rfl⟩
    · rintro ⟨hty, rfl⟩
      exact ⟨ρ, hty, rfl, rfl⟩

end Lower

theorem HaveTypes.length_eq {Γ : Context} {ns : List Node} {types : List ScalarType}
    (h : HaveTypes Γ ns types) : types.length = ns.length := by
  induction ns generalizing types with
  | nil =>
    cases h
    rfl
  | cons n ns ih =>
    cases h with
    | cons _ hns => rw [List.length_cons, List.length_cons, ih hns]

/-- The first argument in front of the others. -/
theorem consArgs_decides {x : Lower Lowered} {name : String} {params : List Param} {ns : List Node}
    (hx : x.Decides s P fun v _ => v.ty) (hs : s.Ready) (hsteady : x.IsSteady)
    (hns : ∀ t, t.Ready → (Node.evaluateArgs name params ns).Decides t
      (fun types => HaveTypes t.context ns types ∧ (params.map Param.ty).take ns.length <+: types)
      fun vs _ => vs.map (·.ty)) :
    (x >>= fun v => Node.evaluateArgs name params ns >>= fun vs => pure (v :: vs)).Decides s
      (fun types => ∃ τ rest, P τ ∧ (HaveTypes s.context ns rest ∧
        (params.map Param.ty).take ns.length <+: rest) ∧ types = τ :: rest)
      fun vs _ => vs.map (·.ty) := by
  refine (Decides.bind (Q := fun τ types => ∃ rest, (HaveTypes s.context ns rest ∧
    (params.map Param.ty).take ns.length <+: rest) ∧ types = τ :: rest) hx fun v t hv => ?_).congr
      fun types => ?_
  · rw [← hsteady.context hs hv]
    exact Decides.bind (Q := fun rest types => types = v.ty :: rest) (hns t (hsteady.ready hs hv))
      fun vs u _ => .pure rfl
  · constructor
    · rintro ⟨τ, hτ, rest, hrest, rfl⟩
      exact ⟨τ, rest, hτ, hrest, rfl⟩
    · rintro ⟨τ, rest, hτ, hrest, rfl⟩
      exact ⟨τ, hτ, rest, hrest, rfl⟩

theorem Node.evaluate_decidesCases :
    ExpressionCases
      (fun n => ∀ s, s.Ready → n.evaluate.Decides s (HasType s.context n) fun v _ => v.ty)
      (fun ns => ∀ name params s, s.Ready →
        (Node.evaluateArgs name params ns).Decides s
          (fun types => HaveTypes s.context ns types ∧
            (params.map Param.ty).take ns.length <+: types)
          fun vs _ => vs.map (·.ty)) where
  constant {form v l} hv s _ := by
    rw [Node.evaluate_literal hv]
    refine (literal_decides v s).congr fun τ => ?_
    cases form <;> cases hv <;> exact ⟨fun h => by subst h; constructor, fun h => by cases h; rfl⟩
  var s _ := (readVariable_decides _ _ s).congr fun τ =>
    ⟨.var, fun h => by cases h; assumption⟩
  binary {op left right l} hleft hright s hs := by
    unfold Node.evaluate
    refine (Decides.bind (Q := fun τ ρ => ∃ σ, HasType s.context right σ ∧ τ = σ ∧ Operates op τ ρ)
      (hleft s hs) fun a t ha => ?_).congr fun ρ => ?_
    · have ht := (IsSteady.law.evaluate left).ready hs ha
      rw [← (IsSteady.law.evaluate left).context hs ha]
      refine Decides.bind (Q := fun σ ρ => a.ty = σ ∧ Operates op a.ty ρ) (hright t ht)
        fun b u hb => ?_
      exact combine_decides ((IsSteady.law.evaluate right).ready ht hb) op a b l
    · constructor
      · rintro ⟨τ, hl, σ, hr, rfl, hop⟩
        exact .binary hl hr hop
      · intro h
        cases h with
        | binary hl hr hop => exact ⟨_, hl, _, hr, rfl, hop⟩
  signed {sign value l} hvalue s hs := by
    unfold Node.evaluate
    refine (Decides.bind (Q := fun τ ρ => τ ∈ [.integer, .decimal] ∧ ρ = τ) (hvalue s hs)
      fun v t _ => applySign_decides sign v l t).congr fun ρ => ?_
    constructor
    · rintro ⟨τ, hτ, hmem, rfl⟩
      exact .signed hτ hmem
    · intro h
      cases h with
      | signed hτ hmem => exact ⟨_, hτ, hmem, rfl⟩
  step s _ := (stepVariable_decides _ _ _ _ s).congr fun τ =>
    ⟨fun h => .step h.1 h.2, fun h => by cases h with | step h₁ h₂ => exact ⟨h₁, h₂⟩⟩
  call {name args l} hargs s hs := by
    unfold Node.evaluate
    refine (Decides.bind (Q := fun x ρ => ∃ types, (HaveTypes s.context args types ∧
      (x.2.params.map Param.ty).take args.length <+: types) ∧ ρ = x.2.ret)
      (resolveCall_decides name args.length l s) fun x t hx => ?_).congr fun ρ => ?_
    · have hresolve := IsSteady.law.resolveCall name args.length l
      rw [← hresolve.context hs hx]
      exact Decides.bind (Q := fun _ ρ => ρ = x.2.ret)
        (hargs name x.2.params t (hresolve.ready hs hx))
        fun vs u _ => invoke_decides x.2 x.1.depth vs u
    · constructor
      · rintro ⟨x, ⟨hx, hle⟩, types, ⟨htypes, hpre⟩, rfl⟩
        rw [List.take_of_length_le (by rw [List.length_map]; exact hle)] at hpre
        exact .call (f := x.2.prototype) (by rw [State.function?_context, hx]; rfl) htypes hpre
      · intro h
        cases h with
        | call hf htypes hpre =>
          rw [State.function?_context] at hf
          obtain ⟨x, hx, rfl⟩ := Option.map_eq_some_iff.1 hf
          have hle : x.2.params.length ≤ args.length := by
            have hlength := hpre.length_le
            rw [htypes.length_eq] at hlength
            simpa [Signature.prototype] using hlength
          refine ⟨x, ⟨hx, hle⟩, _, ⟨htypes, ?_⟩, rfl⟩
          rw [List.take_of_length_le (by rw [List.length_map]; exact hle)]
          exact hpre
  addressOf s _ := (addressOf_decides _ _ s).congr fun τ => by
    constructor
    · rintro ⟨⟨τ, hτ⟩, rfl⟩
      exact .addressOf hτ
    · intro h
      cases h with
      | addressOf hτ => exact ⟨⟨_, hτ⟩, rfl⟩
  cast {value ty mode l} hvalue s hs := by
    unfold Node.evaluate
    refine (Decides.bind (Q := fun τ ρ => (mode = .deref → τ ∈ [.integer, .string]) ∧ ρ = ty)
      (hvalue s hs) fun v t _ => applyCast_decides v ty mode l t).congr fun ρ => ?_
    constructor
    · rintro ⟨τ, hτ, hmem, rfl⟩
      cases mode with
      | deref => exact .deref hτ (hmem rfl)
      | immediate => exact .immediate hτ
    · intro h
      cases h with
      | deref hτ hmem => exact ⟨_, hτ, fun _ => hmem, rfl⟩
      | immediate hτ => exact ⟨_, hτ, (fun h => by cases h), rfl⟩
  misplaced hform s _ := by
    rw [Node.evaluate_misplaced hform]
    refine (Decides.reject _ _).congr fun τ => ⟨False.elim, fun h => ?_⟩
    cases h <;> cases hform
  nil name params s _ := by
    unfold Node.evaluateArgs
    refine (Decides.pure (c := []) rfl).congr fun types => ?_
    constructor
    · rintro rfl
      exact ⟨.nil, List.nil_prefix⟩
    · rintro ⟨h, -⟩
      cases h
      rfl
  cons {n ns} hn hns name params s hs := by
    have heval := IsSteady.law.evaluate n
    cases params with
    | nil =>
      unfold Node.evaluateArgs
      refine (Decides.after (Q := fun types => HaveTypes s.context (n :: ns) types) (.tell _)
        fun _ t ht => ?_).congr fun types => by simp
      have htell := IsSteady.law.tell (.extraArgument n.location name)
      have hready := htell.ready hs ht
      rw [← htell.context hs ht]
      refine (consArgs_decides (hn t hready) hready heval (hns name [])).congr fun types => ?_
      constructor
      · rintro ⟨τ, rest, hτ, ⟨hrest, -⟩, rfl⟩
        exact .cons hτ hrest
      · intro h
        cases h with
        | cons hτ hrest => exact ⟨_, _, hτ, ⟨hrest, by simp⟩, rfl⟩
    | cons p params =>
      unfold Node.evaluateArgs
      refine (consArgs_decides (expect_decides p.ty n.location (hn s hs)) hs
        (IsSteady.law.expect heval) (hns name params)).congr fun types => ?_
      constructor
      · rintro ⟨τ, rest, ⟨hτ, rfl⟩, ⟨hrest, hpre⟩, rfl⟩
        exact ⟨.cons hτ hrest, List.cons_prefix_cons.2 ⟨rfl, hpre⟩⟩
      · rintro ⟨h, hpre⟩
        cases h with
        | cons hτ hrest =>
          obtain ⟨rfl, hrestpre⟩ := List.cons_prefix_cons.1 hpre
          exact ⟨_, _, ⟨hτ, rfl⟩, ⟨hrest, hrestpre⟩, rfl⟩

/-- Compiling an expression decides its type. -/
theorem Node.evaluate_decides (hs : s.Ready) (n : Node) :
    n.evaluate.Decides s (HasType s.context n) fun v _ => v.ty :=
  Node.evaluate_decidesCases.node n s hs

theorem Node.evaluateOr_decides (hs : s.Ready) (value : Option Node) (ty : ScalarType) :
    (Node.evaluateOr value ty).Decides s (fun τ => HasTypeOr s.context value ty ∧ τ = ty)
      fun v _ => v.ty := by
  cases value with
  | none =>
    exact (zero_decides ty s).congr fun τ => ⟨fun h => ⟨(fun e he => nomatch he), h⟩, fun h => h.2⟩
  | some e =>
    refine (expect_decides ty e.location (e.evaluate_decides hs)).congr fun τ => ?_
    refine and_congr_left fun _ => ⟨fun h e' he => ?_, fun h => h e rfl⟩
    cases he
    exact h

end KuAsm
