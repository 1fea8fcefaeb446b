import KuAsm.Proofs.Typing

/-!
# Compiling accepts the right programs

Compiling a statement decides whether the rules accept it, and what is known after it.  For a
statement that declares nothing, the situation after it is the one before it; a block leads back to
the context around it, and keeps what it has included.

## Main statements

* `Node.executeAll_decides`: compiling a statement list decides whether the rules accept it.
* `registerLibrary_situation`: after the library is set up, the context is the layer of the library.
* `compile_ok_iff_isAccepted`: a program compiles in a new session exactly if the rules accept it.
-/

namespace KuAsm

open Lower

variable {l : Location} {ty : ScalarType} {value : ScalarType → Lower Lowered}
  {P V : ScalarType → Prop} {B : Situation → Prop} {s : State} {name : String} {α : Type} {a : Unit}

namespace Lower

variable {α β : Type} {s t u : State} {Γ : Context} {b : Layer}

/-- A steady and lenient action decides nothing. -/
theorem Decides.steady {x : Lower α} (hx : x.IsSteady) (hlenient : x.IsLenient) (hs : s.Ready) :
    x.Decides s (· = s.situation) fun _ t => t.situation :=
  .lenient hlenient fun _ _ h => hx.situation hs h

end Lower

/-! ### Declarations -/

theorem Scope.declareVariable_eq_rejected {sc : Scope} {d : Diagnostic}
    (h : sc.declareVariable name ty l = .error (.rejected d)) : sc.getVariable? name ≠ none := by
  intro hnew
  rw [Scope.declareVariable_eq hnew] at h
  split at h <;> cases h

theorem Scope.declareFunction_eq_rejected {sc : Scope} {f : Signature} {d : Diagnostic}
    (h : sc.declareFunction f l = .error (.rejected d)) : sc.getFunction? f.name ≠ none := by
  unfold Scope.declareFunction at h
  split at h
  · rename_i hsome
    exact Option.isSome_iff_ne_none.1 hsome
  · cases h

namespace Lower

theorem accepted_eq_error {t : State} {x : Except Failure α} {e : Failure}
    (h : accepted x s = .error e t) : x = .error e := by
  cases x with
  | ok a => cases h
  | error f =>
    cases h
    rfl

variable {α β : Type} {s t u : State} {Γ : Context} {b : Layer}

/-- Declaring a variable decides whether its name is new. -/
theorem declareVariable_decides (hs : s.Ready) (hctx : s.context = b :: Γ) (name : String)
    (ty : ScalarType) (l : Location) :
    (declareVariable name ty l).Decides s
      (fun E => name ∉ b.vars.map (·.1) ∧ E = ⟨b.withVariable name ty :: Γ, s.session.included⟩)
      fun _ t => t.situation := by
  rw [← hs.formed.layer_here hctx, ← Scope.getVariable?_eq_none_iff_layer]
  refine ⟨fun v t h E => ?_, fun d t h E hE => ?_⟩
  · obtain ⟨sc, hsc, rfl⟩ := declareVariable_eq_ok.1 h
    obtain ⟨hnone, rfl, used, -, hsc'⟩ := Scope.declareVariable_eq_ok hsc
    have hlayer : sc.layer = s.here.layer.withVariable name ty := by
      simp [hsc', Scope.layer, Layer.withVariable, Scope.newVariable, Scope.marker]
    rw [State.situation_withScope hs.formed hctx sc (by rw [hsc']), hlayer]
    exact ⟨fun h => h.2, fun h => ⟨hnone, h⟩⟩
  · rw [declareVariable_apply] at h
    cases hsc : s.here.declareVariable name ty l with
    | ok x =>
      rw [hsc] at h
      cases h
    | error e =>
      rw [hsc] at h
      cases h
      exact Scope.declareVariable_eq_rejected hsc hE.1

/-- Giving a variable an id is nothing that the rules speak of. -/
theorem IsSteady.own (name : String) (id : ReclaimId) : (own name id).IsSteady := by
  intro s a t hs h
  obtain rfl := own_eq_ok.1 h
  have hlayer : (s.here.bind name id).layer = s.here.layer := by
    simp only [Scope.layer, Scope.map_vars_bind (f := fun v => (v.name, v.ty)) fun _ _ => rfl]
    rfl
  refine ⟨hs.withScope rfl rfl rfl rfl, ?_⟩
  rw [State.situation_withScope hs.formed hs.formed.context_eq_cons (s.here.bind name id) rfl,
    hlayer, ← hs.formed.context_eq_cons]
  rfl

theorem IsSteady.takeOwnership (o : Ownership) (name : String) (l : Location) :
    (takeOwnership o name l).IsSteady := (IsQuiet.takeOwnership o name l).steady

theorem declareVariable_ready {v : Variable} (hs : s.Ready)
    (h : declareVariable name ty l s = .ok v t) : t.Ready := by
  obtain ⟨sc, hsc, rfl⟩ := declareVariable_eq_ok.1 h
  obtain ⟨-, -, used, -, rfl⟩ := Scope.declareVariable_eq_ok hsc
  exact hs.withScope rfl rfl rfl rfl

/-- A declaration decides whether its value is right and its name is new. -/
theorem declare_decides {value : Lower Lowered} {V : Prop} (hs : s.Ready)
    (hctx : s.context = b :: Γ)
    (hvalue : value.Decides s (fun τ => V ∧ τ = ty) fun v _ => v.ty) (hsteady : value.IsSteady)
    (name : String) (l : Location) : (declare name ty l value).Decides s
      (fun E => V ∧ name ∉ b.vars.map (·.1) ∧ E = ⟨b.withVariable name ty :: Γ, s.session.included⟩)
      fun _ t => t.situation := by
  have lenient := IsLenient.law
  have law := IsSteady.law
  refine (Decides.bind (Q := fun _ E => name ∉ b.vars.map (·.1) ∧
    E = ⟨b.withVariable name ty :: Γ, s.session.included⟩) hvalue fun v t hv => ?_).congr
    fun E => ?_
  · have ht := hsteady.ready hs hv
    rw [← hsteady.included hs hv]
    refine (declareVariable_decides ht ((hsteady.context hs hv).trans hctx) name ty l).before
      (fun x => ?_) fun x u _ w hx h => ?_
    · refine lenient.bind (lenient.remark _) fun _ => lenient.bind (lenient.frameSlot _) fun _ => ?_
      cases x.sizeCell with
      | none => exact .emit _
      | some cell =>
        exact .bind (.takeOwnership _ _ _) fun _ => .bind (.getDM _) fun _ =>
          .bind (lenient.frameSlot _) fun _ => .bind (.own _ _) fun _ => .emit _
    · refine IsSteady.situation (law.bind (law.remark _) fun _ => law.bind (law.frameSlot _)
        fun _ => ?_) (declareVariable_ready ht hx) h
      cases x.sizeCell with
      | none => exact .emit _
      | some cell =>
        exact .bind (.takeOwnership _ _ _) fun _ => .bind (IsQuiet.getDM _).steady fun _ =>
          .bind (law.frameSlot _) fun _ => .bind (.own _ _) fun _ => .emit _
  · constructor
    · rintro ⟨τ, ⟨hV, -⟩, hE⟩
      exact ⟨hV, hE⟩
    · rintro ⟨hV, hE⟩
      exact ⟨ty, ⟨hV, rfl⟩, hE⟩

/-! ### Assignments and stores -/

theorem assign_decides (hs : s.Ready)
    (hvalue : ∀ ty, (value ty).Decides s (fun τ => V ty ∧ τ = ty) fun v _ => v.ty)
    (hsteady : ∀ ty, (value ty).IsSteady) (name : String) (l : Location) :
      (assign name l value).Decides s
      (fun E => ∃ τ, s.context.varType? name = some τ ∧ V τ ∧ E = s.situation)
      fun _ t => t.situation := by
  have lenient := IsLenient.law
  have law := IsSteady.law
  refine (Decides.bind (Q := fun x E => ∃ τ, (V x.2.ty ∧ τ = x.2.ty) ∧ E = s.situation)
    (resolveVariable_decides name l s) fun x t hx => ?_).congr fun E => ?_
  · obtain ⟨-, rfl⟩ := resolveVariable_eq_ok.1 hx
    refine Decides.bind (Q := fun _ E => E = t.situation) (hvalue x.2.ty) fun v u hv => ?_
    rw [← (hsteady _).situation hs hv]
    refine Decides.steady ?_ ?_ ((hsteady _).ready hs hv)
    · cases x.2.sizeCell with
      | none => exact law.bind (law.checked _) fun _ => law.emit _
      | some cell =>
        refine law.ite (law.bind (law.remark _) fun _ => law.emit _) ?_
        exact law.replaceString x.2 cell _ (.takeOwnership _ _ _)
    · cases x.2.sizeCell with
      | none => exact lenient.bind (lenient.checked _) fun _ => lenient.emit _
      | some cell =>
        exact lenient.ite (lenient.bind (lenient.remark _) fun _ => lenient.emit _)
          (lenient.replaceString x.2 cell _ (.takeOwnership _ _ _))
  · rw [State.varType?_context]
    cases s.tree.lookupVariable s.current name with
    | none => simp
    | some x => simp

theorem storeAt_decides {address value : Lower Lowered} {Q : ScalarType → Prop} (hs : s.Ready)
    (haddress : address.Decides s P fun v _ => v.ty) (hsteady : address.IsSteady)
    (hvalue : ∀ t, t.Ready → t.situation = s.situation → value.Decides t Q fun v _ => v.ty)
    (hsteady' : value.IsSteady) (l : Location) : (storeAt address value l).Decides s
      (fun E => P .integer ∧ (∃ τ, Q τ) ∧ E = s.situation) fun _ t => t.situation := by
  refine (Decides.bind (Q := fun τ E => ¬ τ ≠ .integer ∧ ∃ σ, Q σ ∧ E = s.situation) haddress
    fun a t ha => ?_).congr fun E => ?_
  · have hsit := hsteady.situation hs ha
    refine .guard fun _ => .bind (hvalue t (hsteady.ready hs ha) hsit) fun v u hv => ?_
    rw [← hsit, ← hsteady'.situation (hsteady.ready hs ha) hv]
    exact .steady (.emit _) (.emit _) (hsteady'.ready (hsteady.ready hs ha) hv)
  · constructor
    · rintro ⟨τ, hP, hτ, σ, hQ, rfl⟩
      obtain rfl := Decidable.not_not.1 hτ
      exact ⟨hP, ⟨σ, hQ⟩, rfl⟩
    · rintro ⟨hP, ⟨σ, hQ⟩, rfl⟩
      exact ⟨.integer, hP, fun h => h rfl, σ, hQ, rfl⟩

/-! ### Blocks and loops -/

/-- A branch decides whether its condition is a truth value. -/
theorem branchUnless_decides {condition : Lower Lowered} (hs : s.Ready)
    (hc : condition.Decides s P fun v _ => v.ty)
    (hsteady : condition.IsSteady) (target : Label) (l : Location) :
    (branchUnless target l condition).Decides s (fun E => P .boolean ∧ E = s.situation)
      fun _ t => t.situation := by
  refine (Decides.bind (Q := fun τ E => ¬ τ ≠ .boolean ∧ E = s.situation) hc fun c t ht => ?_).congr
    fun E => ?_
  · refine .guard fun _ => ?_
    rw [← hsteady.situation hs ht]
    exact .steady (.emit _) (.emit _) (hsteady.ready hs ht)
  · constructor
    · rintro ⟨τ, hP, hτ, rfl⟩
      obtain rfl := Decidable.not_not.1 hτ
      exact ⟨hP, rfl⟩
    · rintro ⟨hP, rfl⟩
      exact ⟨.boolean, hP, fun h => h rfl, rfl⟩

/-- Opening a block leads into a layer with nothing in it. -/
theorem openBlock_situation {id : ScopeId} (hs : s.Ready) (h : openBlock s = .ok id t) :
    t.Ready ∧ t.situation = ⟨.fresh .plain :: s.context, s.session.included⟩ := by
  have hin := (openBlock_inner hs.formed h).1
  obtain ⟨-, rfl⟩ := openBlock_eq_ok.1 h
  have hhere :=
    State.here_entered (s.wrote (Convention.blockPrologue (.fresh s.session.nextLabel "frame")))
    (.fresh s.session.nextLabel "frame")
  refine ⟨hs.inner hin (by rw [hhere]; exact fun h => nomatch h), ?_⟩
  unfold State.situation
  rw [hin.context hs.formed, hhere]
  rfl

/-- Closing a block leads back to the context around it. -/
theorem closeBlock_situation {reachable : Bool} (hs : s.Formed) (ht : t.Ready) (hin : s.Inner t)
    (h : closeBlock reachable t = .ok a u) : u.situation = ⟨s.context, t.session.included⟩ := by
  have law := IsSteady.law
  obtain ⟨v, w, hleave, hdef, rfl⟩ := closeBlock_eq_ok h
  have hv := law.ite (law.exitFrame _ _) (law.pure _) t _ v ht hleave
  have hw := law.defineFrameSize _ _ _ _ hv.1 hdef
  have hgv := IsGrowing.law.ite (IsGrowing.law.exitFrame _ _) (.pure _) t _ v ht.formed hleave
  have hgw := hgv.trans (IsGrowing.law.defineFrameSize _ _ _ _ hgv.formed hdef)
  have hin := hin.grow hgw
  have hparent : (w.tree.scope t.current).parent = some s.current := by
    rw [← hgw.current]
    exact hin.parent
  have hinc : w.session.included = t.session.included :=
    congrArg Situation.included (hw.2.trans hv.2)
  have hctx := hin.context_leave hs
  rw [hparent, ← hinc, ← hctx]
  rfl

/-- A block decides whether its body is accepted in a layer of its own. -/
theorem block_decides {body : Lower Bool} (hs : s.Ready) (hgrows : body.IsGrowing)
    (hbody : ∀ t, t.Ready → t.situation = ⟨.fresh .plain :: s.context, s.session.included⟩ →
      body.Decides t B fun _ u => u.situation) :
    (block body).Decides s (fun E => ∃ F, B F ∧ E = ⟨s.context, F.included⟩) fun _ t =>
    t.situation := by
  refine .after .openBlock fun id t hopen => ?_
  obtain ⟨ht, hsit⟩ := openBlock_situation hs hopen
  have hin := (openBlock_inner hs.formed hopen).1
  refine .bind (hbody t ht hsit) fun jumped u hu => ?_
  have hg := hgrows t jumped u ht.formed hu
  exact .lenient (.closeBlock _) fun _ v hv =>
    closeBlock_situation hs.formed (ht.grow hg) (hin.grow hg) hv

/-- Starting a round leads into the layer of a loop. -/
theorem openLoop_situation {f : LoopFrame} (hs : s.Ready) (h : openLoop s = .ok f t) :
    t.Ready ∧ t.situation = ⟨.fresh .loop :: s.context, s.session.included⟩ ∧
      ∃ u : State, u.Formed ∧ u.context = s.context ∧ u.Inner t := by
  have law := IsSteady.law
  obtain ⟨top, next, exit, done, u₁, u₂, u₃, u₄, id, w, htop, hnext, hexit, hdone, hopen, rfl,
    rfl⟩ := openLoop_eq_ok h
  obtain ⟨hu₁, hsit₁⟩ := law.mintLabel _ _ _ _ hs htop
  obtain ⟨hu₂, hsit₂⟩ := law.mintLabel _ _ _ _ hu₁ hnext
  obtain ⟨hu₃, hsit₃⟩ := law.mintLabel _ _ _ _ hu₂ hexit
  obtain ⟨hu₄, hsit₄⟩ := law.mintLabel _ _ _ _ hu₃ hdone
  generalize hwrote : u₄.wrote [.label top] = u at hopen
  obtain ⟨hu, hsit₅⟩ := law.emit _ u₄ () u hu₄ (emit_eq_ok.2 hwrote.symm)
  have hsit : u.situation = s.situation :=
    hsit₅.trans (hsit₄.trans (hsit₃.trans (hsit₂.trans hsit₁)))
  have hin := (openBlock_inner hu.formed hopen).1
  obtain ⟨-, rfl⟩ := openBlock_eq_ok.1 hopen
  have hhere :=
    State.here_entered (u.wrote (Convention.blockPrologue (.fresh u.session.nextLabel "frame")))
    (.fresh u.session.nextLabel "frame")
  have hinner : u.Inner (State.withScope _ { State.here _ with loop := some ⟨top, next, exit⟩ }) :=
    hin.withScope rfl (.of_vars_nil (congrArg Scope.vars hhere))
  have hctx : u.context = s.context := congrArg Situation.context hsit
  have hinc : u.session.included = s.session.included := congrArg Situation.included hsit
  refine ⟨hu.inner hinner ?_, ?_, u, hu.formed, hctx, hinner⟩
  · rw [State.here_withScope hin.formed, hhere]
    exact fun h => nomatch h
  · unfold State.situation
    rw [hinner.context hu.formed, State.here_withScope hin.formed, hhere, hctx, ← hinc]
    rfl

theorem closeLoop_situation {f : LoopFrame} (hs : s.Formed) (ht : t.Ready) (hin : s.Inner t)
    (h : closeLoop f t = .ok a u) : u.situation = ⟨s.context, t.session.included⟩ := by
  obtain ⟨t₁, t₂, hexit, hclose, rfl⟩ := closeLoop_eq_ok h
  have hg₁ := IsGrowing.law.exitFrame _ _ _ _ _ ht.formed hexit
  have hg₂ := hg₁.trans (.wrote hg₁.formed [Asm.jmp f.exits.top, .label f.done])
  have hinc := congrArg Situation.included (IsSteady.law.exitFrame _ _ _ _ _ ht hexit).2
  exact (closeBlock_situation hs (ht.grow hg₂) (hin.grow hg₂) hclose).trans (congrArg _ hinc)

/-- A loop decides whether its condition is a truth value in the layer of a round, whether its body
is accepted there, and whether what runs after every round is accepted behind the body. -/
theorem loop_decides {condition : Lower Lowered} {body post : Lower Bool}
    {Q : Situation → Situation → Prop} (l : Location) (hs : s.Ready)
    (hc : ∀ t, t.Ready → t.situation = ⟨.fresh .loop :: s.context, s.session.included⟩ →
      condition.Decides t P fun v _ => v.ty) (hquiet : condition.IsQuiet)
    (hbody : ∀ t, t.Ready → t.situation = ⟨.fresh .loop :: s.context, s.session.included⟩ →
      body.Decides t B fun _ u => u.situation)
    (hgrows : body.IsGrowing) (hpost : ∀ t, t.Ready → post.Decides t (Q t.situation) fun _ u =>
      u.situation) (hgrows' : post.IsGrowing) : (loop l condition body post).Decides s
      (fun E => P .boolean ∧ ∃ F G, B F ∧ Q F G ∧ E = ⟨s.context, G.included⟩) fun _ t =>
      t.situation := by
  refine (Decides.after (Q := fun E => ∃ F' : Situation,
    (P .boolean ∧ F' = ⟨.fresh .loop :: s.context,
      s.session.included⟩) ∧ ∃ F, B F ∧ ∃ G, Q F G ∧ E = ⟨s.context, G.included⟩) .openLoop
      fun f t hopen => ?_).congr fun E => ?_
  · obtain ⟨ht, hsit, v, hv, hctx, hin⟩ := openLoop_situation hs hopen
    have hbranch := branchUnless_decides ht (hc t ht hsit) hquiet.steady f.done l
    rw [hsit] at hbranch
    refine .bind hbranch fun _ t₁ hrun₁ => ?_
    have hg₁ := IsGrowing.law.branchUnless _ _ hquiet.growing _ _ _ ht.formed hrun₁
    obtain ⟨hr₁, hsit₁⟩ := IsSteady.law.branchUnless _ _ hquiet.steady _ _ _ ht hrun₁
    refine .bind (hbody t₁ hr₁ (hsit₁.trans hsit)) fun _ t₂ hrun₂ => ?_
    have hg₂ := hgrows _ _ _ hr₁.formed hrun₂
    refine .after (.emit _) fun _ t₃ hrun₃ => ?_
    have hg₃ := IsGrowing.emit _ _ _ _ hg₂.formed hrun₃
    obtain ⟨hr₃, hsit₃⟩ := IsSteady.emit _ _ _ _ (hr₁.grow hg₂) hrun₃
    rw [← hsit₃]
    refine .bind (hpost t₃ hr₃) fun _ t₄ hrun₄ => ?_
    have hg₄ := hgrows' _ _ _ hr₃.formed hrun₄
    have hin₄ := hin.grow (hg₁.trans (hg₂.trans (hg₃.trans hg₄)))
    rw [← hctx]
    exact .lenient (.closeLoop f) fun _ _ hclose =>
      closeLoop_situation hv (hr₃.grow hg₄) hin₄ hclose
  · constructor
    · rintro ⟨_, ⟨hP, rfl⟩, F, hF, G, hG, hE⟩
      exact ⟨hP, F, G, hF, hG, hE⟩
    · rintro ⟨hP, F, G, hF, hG, hE⟩
      exact ⟨_, ⟨hP, rfl⟩, F, hF, G, hG, hE⟩

/-! ### Exits -/

/-- Leaving a loop, or a round of it, decides whether there is one in the same function. -/
theorem enclosingLoop_bind_decides {f : Resolved × LoopExit → Lower Unit} (hs : s.Ready)
    (hsteady : ∀ x, (f x).IsSteady) (hlenient : ∀ x, (f x).IsLenient) (statement : String)
    (l : Location) :
      (enclosingLoop statement l >>= f).Decides s (fun E => s.context.InLoop ∧ E = s.situation)
      fun _ t => t.situation := by
  refine (Decides.bind (Q := fun _ E => E = s.situation) (enclosingLoop_decides statement l s)
    fun x t hx => ?_).congr fun E => ?_
  · have hloop := IsSteady.law.enclosingLoop statement l
    rw [← hloop.situation hs hx]
    exact .steady (hsteady x) (hlenient x) (hloop.ready hs hx)
  · rw [State.inLoop_context hs.marked, Option.isSome_iff_exists]
    constructor
    · rintro ⟨x, hx, rfl⟩
      exact ⟨⟨x, hx⟩, rfl⟩
    · rintro ⟨⟨x, hx⟩, rfl⟩
      exact ⟨x, hx, rfl⟩

theorem leaveLoop_decides (hs : s.Ready) (l : Location) :
    (leaveLoop l).Decides s (fun E => s.context.InLoop ∧ E = s.situation) fun _ t => t.situation :=
  enclosingLoop_bind_decides hs
    (fun _ => .bind (IsSteady.law.unwind _ _) fun _ => .emit _)
    (fun _ => .bind (IsLenient.law.unwind _ _) fun _ => .emit _) "break" l

theorem nextRound_decides (hs : s.Ready) (l : Location) :
    (nextRound l).Decides s (fun E => s.context.InLoop ∧ E = s.situation) fun _ t => t.situation :=
  enclosingLoop_bind_decides hs
    (fun _ => .bind (IsSteady.law.unwind _ _) fun _ => .emit _)
    (fun _ => .bind (IsLenient.law.unwind _ _) fun _ => .emit _) "continue" l

/-- A return decides whether there is a function around it whose result is of the type of the
value. -/
theorem leaveFunction_decides (hs : s.Ready)
    (hvalue : ∀ ty, (value ty).Decides s (fun τ => V ty ∧ τ = ty) fun v _ => v.ty)
    (hsteady : ∀ ty, (value ty).IsSteady) (l : Location) : (leaveFunction l value).Decides s
      (fun E => ∃ τ, s.context.result? = some τ ∧ V τ ∧ E = s.situation) fun _ t =>
      t.situation := by
  have lenient := IsLenient.law
  have law := IsSteady.law
  refine .read ?_
  rw [State.result?_context]
  cases s.tree.lookupFunctionExit s.current with
  | none => exact (Decides.reject _ _).congr fun E => by simp
  | some x =>
    refine (Decides.bind (Q := fun _ E => E = s.situation) (hvalue x.2.ret) fun v t hv => ?_).congr
      fun E => by simp
    rw [← (hsteady _).situation hs hv]
    refine .steady ?_ ?_ ((hsteady _).ready hs hv)
    · exact law.read fun _ => .bind (law.ownedResult _ _) fun _ =>
          .bind (law.resultCode _ _) fun _ =>
        .bind (law.emit _) fun _ => .bind (law.unwind _ _) fun _ => .bind (law.sweep _ _)
          fun _ => .emit _
    · exact .read fun _ => .bind (lenient.ownedResult _ _) fun _ =>
          .bind (lenient.resultCode _ _) fun _ =>
        .bind (lenient.emit _) fun _ => .bind (lenient.unwind _ _) fun _ =>
          .bind (lenient.sweep _ _) fun _ => .emit _

/-! ### Functions -/

/-- Declaring a function decides whether its name is new. -/
theorem announce_decides (hs : s.Ready) (hctx : s.context = b :: Γ) (name : String)
    (params : List Param) (ret : ScalarType) (l : Location) :
    (announce name params ret l).Decides s
      (fun E => name ∉ b.functions.map (·.1) ∧
        E = ⟨b.withFunction name ⟨params.map (·.ty), ret⟩ :: Γ, s.session.included⟩)
      fun _ t => t.situation := by
  rw [← hs.formed.layer_here hctx, ← Scope.getFunction?_eq_none_iff_layer]
  refine ⟨fun x t h E => ?_, fun d t h E hE => ?_⟩
  · obtain ⟨f, skip⟩ := x
    obtain ⟨hf, -, hnone, rfl⟩ := announce_eq_ok h
    have hsit := State.situation_withScope hs.formed hctx
      { s.here with functions := s.here.functions ++ [f] } rfl
    have hlayer : Scope.layer { s.here with functions := s.here.functions ++ [f] } =
        s.here.layer.withFunction name ⟨params.map (·.ty), ret⟩ := by
      simp [hf, Scope.layer, Layer.withFunction, Signature.prototype, Scope.marker]
    rw [hlayer] at hsit
    show _ ↔ E = (s.withScope { s.here with functions := s.here.functions ++ [f] }).situation
    rw [hsit]
    exact ⟨fun h => h.2, fun h => ⟨hnone, h⟩⟩
  · -- of all the steps, only the entry in the table of functions can be refused
    rcases bind_eq_error.1 h with h | ⟨entry, u₁, hentry, h⟩
    · cases h
    obtain ⟨-, rfl⟩ := mintLabel_eq_ok.1 hentry
    rcases bind_eq_error.1 h with h | ⟨returnLabel, u₂, hreturn, h⟩
    · cases h
    obtain ⟨-, rfl⟩ := mintLabel_eq_ok.1 hreturn
    rcases bind_eq_error.1 h with h | ⟨sc, u₃, hsc, h⟩
    · cases h
    obtain ⟨rfl, rfl⟩ := scope_eq_ok.1 hsc
    rcases bind_eq_error.1 h with h | ⟨sc', u₄, -, h⟩
    · exact Scope.declareFunction_eq_rejected (accepted_eq_error h) hE.1
    rcases bind_eq_error.1 h with h | ⟨_, u₅, -, h⟩
    · cases h
    rcases bind_eq_error.1 h with h | ⟨skip, u₆, -, h⟩
    · cases h
    · cases h

/-- Opening a function body leads into a layer that knows the type of the result. -/
theorem openBody_situation {f : Signature} {exit : FunctionExit} (hs : s.Ready)
    (h : openBody f s = .ok exit t) :
    t.Ready ∧ t.situation = ⟨.fresh (.function f.ret) :: s.context, s.session.included⟩ := by
  have hin := openBody_inner hs.formed h
  obtain ⟨hexit, rfl⟩ := openBody_eq_ok h
  have hhere := State.here_withScope
    ((State.Inner.entered hs.formed (.fresh s.session.nextLabel "frame")).formed.targeted
      .functions) { Scope.fresh (some s.current) (.fresh s.session.nextLabel "frame") with
        used := 8, function := some exit }
  refine ⟨hs.inner hin (by rw [hhere]; exact fun _ => rfl), ?_⟩
  unfold State.situation
  rw [hin.context hs.formed, hhere, hexit]
  rfl

theorem IsSteady.adopt (p : Param) : (adopt p).IsSteady :=
  law.ite (.bind IsQuiet.mintReclaim.steady fun _ => .own _ _) (law.pure _)

/-- Declaring a parameter decides whether its name is new. -/
theorem bindParam_decides (hs : s.Ready) (hctx : s.context = b :: Γ) (l : Location) (index : Nat)
    (p : Param) :
    (bindParam l index p).Decides s
      (fun E => p.name ∉ b.vars.map (·.1) ∧
        E = ⟨b.withVariable p.name p.ty :: Γ, s.session.included⟩) fun _ t => t.situation := by
  have lenient := IsLenient.law
  have law := IsSteady.law
  refine (declareVariable_decides hs hctx p.name p.ty l).before (fun x => ?_) fun x t code u hx h =>
    ?_
  · exact .bind (.checked _) fun _ => .bind (lenient.frameSlot _) fun _ => .bind (.adopt p)
      fun _ => .pure _
  · refine IsSteady.situation ?_ (declareVariable_ready hs hx) h
    exact .bind (law.checked _) fun _ => .bind (law.frameSlot _) fun _ => .bind (.adopt p) fun _ =>
      law.pure _

/-- Declaring parameters decides whether their names differ from each other and from the names that
are there. -/
theorem bindParams_decides (l : Location) (params : List Param) :
    ∀ {s : State} {b : Layer} (index : Nat), s.Ready → s.context = b :: Γ →
      (bindParams l index params).Decides s
        (fun E => ((params.map Param.name).Nodup ∧ ∀ p ∈ params, p.name ∉ b.vars.map (·.1)) ∧
          E = ⟨{ b with vars := b.vars ++ params.map fun p => (p.name, p.ty) } :: Γ,
            s.session.included⟩) fun _ t => t.situation := by
  induction params with
  | nil =>
    intro s b index hs hctx
    refine (Decides.pure (c := s.situation) rfl).congr fun E => ?_
    simp [State.situation, hctx]
  | cons p params ih =>
    intro s b index hs hctx
    -- the first parameter is in the layer when the others are declared
    have hfirst := bindParam_decides hs hctx l index p
    refine (Decides.bind (Q := fun _ E => ((params.map Param.name).Nodup ∧
      ∀ q ∈ params, q.name ∉ (b.withVariable p.name p.ty).vars.map (·.1)) ∧
      E = ⟨{ b.withVariable p.name p.ty with
        vars := (b.withVariable p.name p.ty).vars ++ params.map fun p => (p.name, p.ty) } :: Γ,
          s.session.included⟩) hfirst fun code t hcode => ?_).congr fun E => ?_
    · have hsit := ((hfirst.accepts code t hcode _).2 rfl).2
      have ht := hs.grow (IsGrowing.bindParam _ _ _ _ _ _ hs.formed hcode)
      have hinc : t.session.included = s.session.included := congrArg Situation.included hsit
      rw [← hinc]
      refine (ih (index + 1) ht (congrArg Situation.context hsit)).before (fun _ => .pure _)
        fun _ u _ v _ h => ?_
      rw [(pure_eq_ok.1 h).2]
    · have hvars : ∀ name : String, name ∈ (b.withVariable p.name p.ty).vars.map (·.1) ↔
          name ∈ b.vars.map (·.1) ∨ name = p.name := by
        intro name
        simp [Layer.withVariable]
      have hlayer : ({ b.withVariable p.name p.ty with
          vars := (b.withVariable p.name p.ty).vars ++ params.map fun p =>
            (p.name, p.ty) } : Layer) =
          { b with vars := b.vars ++ (p :: params).map fun p => (p.name, p.ty) } := by
        simp [Layer.withVariable]
      have hcons : ((p :: params).map Param.name).Nodup ↔
          p.name ∉ params.map Param.name ∧ (params.map Param.name).Nodup := List.nodup_cons
      rw [hlayer, hcons]
      constructor
      · rintro ⟨-, ⟨hp, -⟩, ⟨hnodup, hnew⟩, hE⟩
        refine ⟨⟨⟨fun hmem => ?_, hnodup⟩, fun q hq => ?_⟩, hE⟩
        · obtain ⟨q, hq, hname⟩ := List.mem_map.1 hmem
          exact hnew q hq ((hvars _).2 (.inr hname))
        · rcases List.mem_cons.1 hq with rfl | hq
          · exact hp
          · exact fun hmem => hnew q hq ((hvars _).2 (.inl hmem))
      · rintro ⟨⟨⟨hp, hnodup⟩, hnew⟩, hE⟩
        refine ⟨_, ⟨hnew p List.mem_cons_self, rfl⟩, ⟨hnodup, fun q hq hmem => ?_⟩, hE⟩
        rcases (hvars _).1 hmem with hmem | hname
        · exact hnew q (List.mem_cons_of_mem _ hq) hmem
        · exact hp (List.mem_map.2 ⟨q, hq, hname⟩)

/-- The text of a function up to its body decides whether the name of the function is new, and
whether the names of the parameters differ. -/
theorem openFunction_decides (hs : s.Ready) (hctx : s.context = b :: Γ) (name : String)
    (params : List Param) (ret : ScalarType) (l : Location) :
    (openFunction name params ret l).Decides s
      (fun E => (name ∉ b.functions.map (·.1) ∧ (params.map Param.name).Nodup) ∧
        E = ⟨.body params ret :: b.withFunction name ⟨params.map (·.ty), ret⟩ :: Γ,
          s.session.included⟩) fun _ t => t.situation := by
  have hannounce := announce_decides hs hctx name params ret l
  refine (Decides.bind (Q := fun _ E => (params.map Param.name).Nodup ∧
    E = ⟨.body params ret :: b.withFunction name ⟨params.map (·.ty), ret⟩ :: Γ, s.session.included⟩)
      hannounce fun x t hx => ?_).congr fun E => ?_
  · obtain ⟨f, skip⟩ := x
    have hsit := ((hannounce.accepts _ t hx _).2 rfl).2
    have ht := hs.grow (IsGrowing.announce _ _ _ _ _ _ _ hs.formed hx)
    have hret : f.ret = ret := by rw [(announce_eq_ok hx).1]
    refine .read (.after (.openBody f) fun exit u hu => .after (IsLenient.law.remark _)
      fun note u' hnote => ?_)
    obtain ⟨-, rfl⟩ := remark_eq_ok.1 hnote
    obtain ⟨hu, hsit'⟩ := openBody_situation ht hu
    have hdeclared : t.context = b.withFunction name ⟨params.map (·.ty), ret⟩ :: Γ :=
      congrArg Situation.context hsit
    have hctx' : u'.context = .fresh (.function ret) :: b.withFunction name ⟨params.map (·.ty),
        ret⟩ :: Γ := by
      rw [← hdeclared, ← hret]
      exact congrArg Situation.context hsit'
    have hinc : u'.session.included = s.session.included :=
      (congrArg Situation.included hsit').trans (congrArg Situation.included hsit)
    refine ((bindParams_decides l params 0 hu hctx').congr fun E => ?_).before (fun _ => ?_)
      fun copies v g w hcopies h => ?_
    · rw [hinc]
      simp [Layer.fresh, Layer.body]
    · exact .read fun _ => .bind (.emit _) fun _ => .pure _
    · have hv := hu.grow (IsGrowing.bindParams _ _ _ _ _ _ hu.formed hcopies)
      exact IsSteady.situation (IsSteady.law.read fun _ => .bind (.emit _) fun _ =>
        IsSteady.law.pure _) hv h
  · constructor
    · rintro ⟨-, ⟨hname, -⟩, hnodup, hE⟩
      exact ⟨⟨hname, hnodup⟩, hE⟩
    · rintro ⟨⟨hname, hnodup⟩, hE⟩
      exact ⟨_, ⟨hname, rfl⟩, hnodup, hE⟩

theorem openFunction_ready {params : List Param} {ret : ScalarType} {g : FunctionFrame}
    (hs : s.Ready) (h : openFunction name params ret l s = .ok g t) : t.Ready := by
  obtain ⟨f, skip, u, exit, v, note, copies, w, hannounce, hopen, -, hcopies, -, rfl⟩ :=
    openFunction_eq_ok h
  have hu := hs.grow (IsGrowing.announce _ _ _ _ _ _ _ hs.formed hannounce)
  have hv := (openBody_situation hu hopen).1
  have hw := hv.grow (IsGrowing.bindParams l 0 params _ _ _ hv.formed hcopies)
  exact hw.grow (.wrote hw.formed _)

/-- Writing the end of a function leads back to the context that declares it. -/
theorem closeFunction_situation {g : FunctionFrame} (hs : s.Formed) (ht : t.Ready) (hin : s.Inner t)
    (houter : g.outer = s.current) (h : closeFunction name g t = .ok a u) :
    u.situation = ⟨s.context, t.session.included⟩ := by
  obtain ⟨code, -, -, -, -, -, rfl⟩ := closeFunction_eq_ok h
  rw [← (hin.grow (.wrote ht.formed code)).context_leave hs, ← houter]
  rfl

/-- The definition of a function decides whether its name is new, whether the names of its
parameters differ, and whether its body is accepted in a layer that declares them. -/
theorem defineFunction_decides {body : FunctionExit → Lower Unit} (hs : s.Ready)
    (hctx : s.context = b :: Γ)
    (name : String) (params : List Param) (ret : ScalarType) (l : Location)
    (hgrows : ∀ exit, (body exit).IsGrowing)
    (hbody : ∀ exit t, t.Ready →
      t.situation = ⟨.body params ret :: b.withFunction name ⟨params.map (·.ty), ret⟩ :: Γ,
        s.session.included⟩ → (body exit).Decides t B fun _ u => u.situation) :
    (defineFunction name params ret l body).Decides s
      (fun E => (name ∉ b.functions.map (·.1) ∧ (params.map Param.name).Nodup) ∧ ∃ F, B F ∧
        E = ⟨b.withFunction name ⟨params.map (·.ty), ret⟩ :: Γ, F.included⟩)
      fun _ t => t.situation := by
  have hopen := openFunction_decides hs hctx name params ret l
  refine (Decides.bind (Q := fun _ E => ∃ F, B F ∧
    E = ⟨b.withFunction name ⟨params.map (·.ty), ret⟩ :: Γ, F.included⟩) hopen fun g t hg =>
      ?_).congr fun E => ?_
  · have hsit := ((hopen.accepts g t hg _).2 rfl).2
    obtain ⟨u, hu, hin, -, houter, -⟩ := openFunction_inner hs.formed hg
    have ht := openFunction_ready hs hg
    have hdeclared : u.context = b.withFunction name ⟨params.map (·.ty), ret⟩ :: Γ :=
      (List.cons.inj ((hin.context hu.formed).symm.trans (congrArg Situation.context hsit))).2
    refine .bind (hbody g.exit t ht hsit) fun _ v hv => ?_
    have hgv := hgrows _ _ _ _ ht.formed hv
    rw [← hdeclared]
    exact .lenient (.closeFunction name g) fun _ w hw =>
      closeFunction_situation hu.formed (ht.grow hgv) (hin.grow hgv) houter hw
  · constructor
    · rintro ⟨-, ⟨hnew, -⟩, hE⟩
      exact ⟨hnew, hE⟩
    · rintro ⟨hnew, hE⟩
      exact ⟨_, ⟨hnew, rfl⟩, hE⟩

/-- The body of a function decides whether its statements are accepted; the return behind them
always is. -/
theorem functionBody_decides {statements : Lower Bool} {ret : ScalarType} (hs : s.Ready)
    (hmarker : s.here.layer.marker = .function ret) (hgrows : statements.IsGrowing)
    (hstatements : statements.Decides s B fun _ t => t.situation) (l : Location)
    (exit : FunctionExit) : (functionBody l statements exit).Decides s B fun _ t =>
    t.situation := by
  refine (Decides.bind (Q := fun E F => F = E) hstatements fun jumped t ht => ?_).congr fun E => by
    simp
  have hg := hgrows s jumped t hs.formed ht
  have hready := hs.grow hg
  cases jumped with
  | true => exact .pure rfl
  | false =>
    have hresult : t.context.result? = some ret := by
      have hmark : t.here.layer.marker = .function ret := by
        rw [← hmarker]
        show t.here.marker = s.here.marker
        unfold Scope.marker
        rw [hg.here.function, hg.here.loop]
      rw [hready.formed.context_eq_cons]
      unfold Context.result?
      rw [List.findSome?_cons, hmark]
    have hzero : ∀ ty : ScalarType, (literal ty.zero).Decides t (fun τ => True ∧ τ = ty) fun v _ =>
        v.ty := fun ty => (zero_decides ty t).congr fun τ => by rw [true_and]
    refine (leaveFunction_decides hready hzero (fun ty => IsSteady.law.literal ty.zero) l).congr
      fun E => ?_
    rw [hresult]
    simp

end Lower

/-! ### Statements -/

/-- A statement whose action decides a question without a look at what it returns. -/
theorem Lower.Decides.result {x : Lower Unit} {P : Situation → Prop} {r : Bool}
    (hx : x.Decides s P fun _ t => t.situation) :
    (x >>= fun _ => Pure.pure r).Decides s P fun _ t => t.situation :=
  hx.before (fun _ => .pure _) fun _ t _ u _ h => by rw [(pure_eq_ok.1 h).2]

/-- A conditional decides whether its condition is a truth value, whether its block is accepted, and
whether what follows the block is accepted after it. -/
theorem conditional_decides {body : List Node} {otherwise : Otherwise} (hs : s.Ready) (exit : Label)
    (l : Location) (condition : Node) (rest : Label → Lower α)
    (hbody : ∀ jumped t, t.Ready →
      (Node.executeAll jumped body).Decides t (AcceptsAll t.situation body) fun _ u => u.situation)
    (hrest : ∀ next t, t.Ready → (rest next).Decides t (AcceptsElse t.situation otherwise)
      fun _ u => u.situation) : (otherwise.label exit >>= fun next =>
        guarded next l condition.evaluate (Node.executeAll false body) >>= fun _ =>
        rest next).Decides s
      (fun F => HasType s.context condition .boolean ∧ ∃ G,
        AcceptsAll ⟨.fresh .plain :: s.context, s.session.included⟩ body G ∧
        AcceptsElse ⟨s.context, G.included⟩ otherwise F)
      fun _ t => t.situation := by
  have hquiet := condition.evaluate_quiet
  have hgrows := Node.executeAll_grows false body
  have hlabel := IsSteady.law.otherwiseLabel exit otherwise
  refine .after (IsLenient.law.otherwiseLabel exit otherwise) fun next t hnext => ?_
  have ht := hlabel.ready hs hnext
  rw [← hlabel.context hs hnext, ← hlabel.included hs hnext]
  have hguarded : (guarded next l condition.evaluate (Node.executeAll false body)).Decides t
      (fun E => ∃ D, (HasType t.context condition .boolean ∧ D = t.situation) ∧ ∃ G,
        AcceptsAll ⟨.fresh .plain :: t.context, t.session.included⟩ body G ∧
        E = ⟨t.context, G.included⟩) fun _ u => u.situation := by
    refine .bind (branchUnless_decides ht (condition.evaluate_decides ht) hquiet.steady next l)
      fun _ u hu => ?_
    have hbranch := IsSteady.law.branchUnless next l hquiet.steady
    rw [← hbranch.context ht hu, ← hbranch.included ht hu]
    refine block_decides (hbranch.ready ht hu) hgrows fun v hv hsit => ?_
    rw [← hsit]
    exact hbody false v hv
  refine (hguarded.bind (Q := fun E F => AcceptsElse E otherwise F) fun _ u hu => ?_).congr
    fun F => ?_
  · exact hrest next u (ht.grow (IsGrowing.guarded next l hquiet.growing hgrows t _ u ht.formed hu))
  · constructor
    · rintro ⟨E, ⟨D, ⟨hc, -⟩, G, hG, rfl⟩, hF⟩
      exact ⟨hc, G, hG, hF⟩
    · rintro ⟨hc, G, hG, hF⟩
      exact ⟨_, ⟨_, ⟨hc, rfl⟩, G, hG, rfl⟩, hF⟩

/-- Noting a file either finds it noted, and nothing changes, or adds it to what is included. -/
theorem markIncluded_situation {t : State} {path : String} {new : Bool} (hs : s.Ready)
    (h : withSession (·.markIncluded path) s = .ok new t) :
    t.Ready ∧ (path ∈ s.session.included ∧ new = false ∧ t.situation = s.situation ∨
      path ∉ s.session.included ∧ new = true ∧
        t.situation = ⟨s.context, path :: s.session.included⟩) := by
  refine ⟨hs.grow (IsGrowing.markIncluded path s new t hs.formed h), ?_⟩
  obtain ⟨rfl, rfl⟩ := withSession_eq_ok.1 h
  unfold Session.markIncluded
  by_cases hpath : path ∈ s.session.included
  · rw [if_pos (List.contains_iff_mem.2 hpath)]
    exact .inl ⟨hpath, rfl, rfl⟩
  · rw [if_neg fun h => hpath (List.contains_iff_mem.1 h)]
    exact .inr ⟨hpath, rfl, rfl⟩

/-- An expression whose value is dropped. -/
theorem Node.drop_decides (hs : s.Ready) (n : Node) :
    (n.evaluate >>= fun v => emit v.code >>= fun _ => pure false).Decides s
      (fun E => (∃ τ, HasType s.context n τ) ∧ E = s.situation) fun _ t => t.situation := by
  have hsteady := IsSteady.law.evaluate n
  refine (Decides.bind (Q := fun _ E => E = s.situation) (n.evaluate_decides hs) fun v t ht =>
    ?_).congr fun E => ?_
  · rw [← hsteady.situation hs ht]
    exact (Decides.steady (.emit _) (.emit _) (hsteady.ready hs ht)).result
  · constructor
    · rintro ⟨τ, hτ, rfl⟩
      exact ⟨⟨τ, hτ⟩, rfl⟩
    · rintro ⟨⟨τ, hτ⟩, rfl⟩
      exact ⟨τ, hτ, rfl⟩

theorem Node.execute_decidesCases :
    StatementCases
      (fun n => ∀ s, s.Ready → n.execute.Decides s (Accepts s.situation n) fun _ t => t.situation)
      (fun ns => ∀ jumped s, s.Ready →
        (Node.executeAll jumped ns).Decides s (AcceptsAll s.situation ns) fun _ t => t.situation)
      (fun o => ∀ exit next s, s.Ready →
        (o.execute exit next).Decides s (AcceptsElse s.situation o) fun _ t => t.situation) where
  function {name params ret body l} hbody s hs := by
    unfold Node.execute
    have hctx := hs.formed.context_eq_cons
    have hgrows := Node.executeAll_grows false body
    refine (defineFunction_decides hs hctx name params ret l (IsGrowing.law.functionBody l hgrows)
      fun exit t ht hsit => ?_).result.congr fun E => (accepts_function_iff hctx).symm
    have hmarker : t.here.layer = .body params ret :=
      ht.formed.layer_here (congrArg Situation.context hsit)
    have hsit' : t.situation = ⟨.body params ret :: s.here.layer.withFunction name
        ⟨params.map (·.ty), ret⟩ :: s.context.tail, s.situation.included⟩ := hsit
    rw [← hsit']
    exact functionBody_decides ht (congrArg Layer.marker hmarker) hgrows (hbody false t ht) l exit
  declare {name ty value l} s hs := by
    unfold Node.execute
    have hctx := hs.formed.context_eq_cons
    exact (declare_decides hs hctx (Node.evaluateOr_decides hs value ty)
      (IsSteady.law.evaluateOr value ty) name l).result.congr
        fun E => (accepts_declare_iff (E := s.situation) hctx).symm
  assign {name value l} s hs := by
    unfold Node.execute
    exact (assign_decides hs
      (fun ty => expect_decides ty value.location (value.evaluate_decides hs))
      (fun ty => IsSteady.law.expect (IsSteady.law.evaluate value)) name l).result.congr
        fun E => (accepts_assign_iff (E := s.situation)).symm
  store {address value l} s hs := by
    unfold Node.execute
    refine (storeAt_decides (Q := HasType s.context value) hs (address.evaluate_decides hs)
      (IsSteady.law.evaluate address) (fun t ht hsit => ?_) (IsSteady.law.evaluate value)
        l).result.congr fun E => (accepts_store_iff (E := s.situation)).symm
    have hctx : t.context = s.context := congrArg Situation.context hsit
    rw [← hctx]
    exact value.evaluate_decides ht
  conditional {condition body otherwise l} hbody hrest s hs := by
    unfold Node.execute
    have hmint := IsSteady.law.mintLabel "if_exit"
    refine (Decides.after (.mintLabel _) fun exit t ht => ?_).congr
      fun E => (accepts_conditional_iff (E := s.situation)).symm
    have h := conditional_decides (hmint.ready hs ht) exit condition.location condition
      (fun next => otherwise.execute exit next >>= fun _ => pure false) hbody
      fun next u hu => (hrest exit next u hu).result
    rw [hmint.context hs ht, hmint.included hs ht] at h
    exact h
  whileLoop {condition body l} hbody s hs := by
    unfold Node.execute
    refine (loop_decides (P := HasType (.fresh .loop :: s.context) condition)
      (B := AcceptsAll ⟨.fresh .loop :: s.context, s.session.included⟩ body) (Q := fun F G => G = F)
      condition.location hs (fun t ht hsit => ?_) condition.evaluate_quiet (fun t ht hsit => ?_)
      (Node.executeAll_grows false body) (fun t _ => .pure rfl) (.pure _)).result.congr fun E => ?_
    · have hctx : t.context = .fresh .loop :: s.context := congrArg Situation.context hsit
      rw [← hctx]
      exact condition.evaluate_decides ht
    · rw [← hsit]
      exact hbody false t ht
    · rw [accepts_whileLoop_iff]
      constructor
      · rintro ⟨hc, F, G, hF, rfl, hE⟩
        exact ⟨hc, G, hF, hE⟩
      · rintro ⟨hc, G, hG, hE⟩
        exact ⟨hc, G, G, hG, rfl, hE⟩
  forLoop {start condition step body l} hstart hstep hbody s hs := by
    unfold Node.execute
    refine (block_decides (B := fun D => ∃ G,
      Accepts ⟨.fresh .plain :: s.context, s.session.included⟩ start G ∧
        HasType (.fresh .loop :: G.context) condition .boolean ∧ ∃ H I,
          AcceptsAll ⟨.fresh .loop :: G.context, G.included⟩ body H ∧ Accepts H step I ∧
          D = ⟨G.context, I.included⟩) hs ?_ fun t ht hsit => ?_).result.congr fun E => ?_
    · exact .bind (Node.execute_grows start) fun _ =>
        .bind (IsGrowing.loop _ condition.evaluate_quiet.growing
          (Node.executeAll_grows false body) (Node.execute_grows step)) fun _ => .pure _
    · rw [← hsit]
      refine .bind (hstart t ht) fun _ u hu => ?_
      have hready := ht.grow (Node.execute_grows start t _ u ht.formed hu)
      refine (loop_decides (P := HasType (.fresh .loop :: u.context) condition)
        (B := AcceptsAll ⟨.fresh .loop :: u.context, u.session.included⟩ body)
        (Q := fun H I => Accepts H step I) condition.location hready (fun v hv hloop => ?_)
        condition.evaluate_quiet (fun v hv hloop => ?_) (Node.executeAll_grows false body)
        hstep (Node.execute_grows step)).result
      · have hctx : v.context = .fresh .loop :: u.context := congrArg Situation.context hloop
        rw [← hctx]
        exact condition.evaluate_decides hv
      · rw [← hloop]
        exact hbody false v hv
    · rw [accepts_forLoop_iff]
      constructor
      · rintro ⟨D, ⟨G, hG, hc, H, I, hH, hI, rfl⟩, hE⟩
        exact ⟨G, hG, hc, H, I, hH, hI, hE⟩
      · rintro ⟨G, hG, hc, H, I, hH, hI, hE⟩
        exact ⟨_, ⟨G, hG, hc, H, I, hH, hI, rfl⟩, hE⟩
  included {path program l} hprogram s hs := by
    unfold Node.execute
    refine (Decides.after (.withSession _) fun new t ht => ?_).congr
      fun E => (accepts_included_iff (E := s.situation)).symm
    obtain ⟨hready, ⟨hpath, rfl, hsit⟩ | ⟨hpath, rfl, hsit⟩⟩ := markIncluded_situation hs ht
    · have h := (Decides.steady (IsSteady.law.tell (.alreadyIncluded path)) (IsLenient.law.tell _)
        hready).result (r := false)
      rw [hsit] at h
      exact h.congr fun E => iff_of_eq (if_pos hpath).symm
    · refine Decides.congr ?_ fun E => iff_of_eq (if_neg hpath).symm
      refine .after (IsLenient.law.remark _) fun note u hu => .after (.emit _) fun _ v hv => ?_
      obtain ⟨hready', hsit'⟩ := IsSteady.law.remark _ _ _ _ hready hu
      obtain ⟨hready'', hsit''⟩ := IsSteady.emit note _ _ _ hready' hv
      have h := hprogram false v hready''
      rw [hsit'', hsit', hsit] at h
      exact h.before (fun _ => .pure _) fun _ _ _ _ _ hpure => by rw [(pure_eq_ok.1 hpure).2]
  breakLoop {l} s hs := (leaveLoop_decides hs l).result.congr fun E =>
    (accepts_breakLoop_iff (E := s.situation)).symm
  continueLoop {l} s hs := (nextRound_decides hs l).result.congr fun E =>
    (accepts_continueLoop_iff (E := s.situation)).symm
  ret {value l} s hs :=
    (leaveFunction_decides hs (Node.evaluateOr_decides hs value) (IsSteady.law.evaluateOr value)
      l).result.congr fun E => (accepts_ret_iff (E := s.situation)).symm
  call {name args l} s hs := by
    unfold Node.execute
    exact (Node.drop_decides hs _).congr fun E => (accepts_call_iff (E := s.situation)).symm
  step {name op fixity l} s hs :=
    (Node.drop_decides hs (.mk (.step name op fixity) l)).congr
      fun E => (accepts_step_iff (E := s.situation)).symm
  misplaced hform s hs := by
    rw [Node.execute_misplaced hform]
    refine (Decides.reject _ _).congr fun E => ⟨False.elim, fun h => ?_⟩
    generalize s.situation = F at h
    cases h <;> cases hform
  nil jumped s hs := by
    unfold Node.executeAll
    refine (Decides.pure (c := s.situation) rfl).congr fun E => ?_
    constructor
    · rintro rfl
      exact .nil
    · intro h
      cases h
      rfl
  cons {n ns} hn hns jumped s hs := by
    unfold Node.executeAll
    refine (Decides.bind (Q := fun F E => AcceptsAll F ns E) (hn s hs) fun j t ht => ?_).congr
      fun E => ?_
    · exact hns j t (hs.grow (Node.execute_grows n s j t hs.formed ht))
    · constructor
      · rintro ⟨F, hF, hE⟩
        exact .cons hF hE
      · intro h
        cases h with
        | cons hF hE => exact ⟨_, hF, hE⟩
  absent exit next s hs := by
    refine (Decides.steady (.emit _) (.emit _) hs).congr fun E => ?_
    constructor
    · rintro rfl
      exact .absent
    · intro h
      cases h
      rfl
  block {body} hbody exit next s hs := by
    unfold Otherwise.execute
    refine (Decides.after (.emit _) fun _ t ht => ?_).congr
      fun E => (acceptsElse_block_iff (E := s.situation)).symm
    have hemit := IsSteady.emit [Asm.jmp exit, .label next]
    have hready := hemit.ready hs ht
    have hgrows := Node.executeAll_grows false body
    have h := block_decides (B := AcceptsAll ⟨.fresh .plain :: t.context, t.session.included⟩ body)
      hready hgrows fun u hu hsit => by
        rw [← hsit]
        exact hbody false u hu
    rw [hemit.context hs ht, hemit.included hs ht] at h
    refine h.before (fun _ => .emit _) fun _ u _ v hu hv => ?_
    exact (IsSteady.emit [Line.label exit]).situation
      (hready.grow (IsGrowing.block hgrows t _ u hready.formed hu)) hv
  chained {condition body otherwise l} hbody hrest exit next s hs := by
    unfold Otherwise.execute
    refine (Decides.after (.emit _) fun _ t ht => ?_).congr
      fun E => (acceptsElse_chained_iff (E := s.situation)).symm
    have hemit := IsSteady.emit [Asm.jmp exit, .label next]
    have h := conditional_decides (hemit.ready hs ht) exit condition.location condition
      (fun next => otherwise.execute exit next) hbody (hrest exit)
    rw [hemit.context hs ht, hemit.included hs ht] at h
    exact h
  misplacedElse hform exit next s hs := by
    rw [Otherwise.execute_misplaced hform]
    refine (Decides.after (.emit _) fun _ _ _ => .reject _ _).congr fun E =>
      ⟨False.elim, fun h => ?_⟩
    cases h
    cases hform

/-- Compiling a statement list decides whether the rules accept it, and what is known after it. -/
theorem Node.executeAll_decides (hs : s.Ready) (jumped : Bool) (ns : List Node) :
    (Node.executeAll jumped ns).Decides s (AcceptsAll s.situation ns) fun _ t => t.situation :=
  Node.execute_decidesCases.list ns jumped s hs

/-! ### Programs -/

/-- Whether the action ends well, in a state of this kind. -/
def Lower.endsIn {α : Type} (x : Lower α) (s : State) (kind : State → Bool) : Bool :=
  match x s with
  | .ok _ t => kind t
  | .error _ _ => false

theorem Lower.endsIn_eq_true {x : Lower α} {kind : State → Bool} (h : x.endsIn s kind = true) :
    ∃ a t, x s = .ok a t ∧ kind t = true := by
  unfold Lower.endsIn at h
  split at h
  · rename_i a t hx
    exact ⟨a, t, hx, h⟩
  · cases h

/-- Whether the context is the layer of the library, which has a function that joins strings. -/
def State.isStocked (s : State) : Bool :=
  (s.tree.around s.current).all (fun sc => sc.function.isNone) &&
    ((s.tree.scope s.root).getFunction? "append").any (fun f => f.ret == .string) &&
    s.situation == ⟨[.library], []⟩

theorem State.Formed.ready_of_isStocked (hs : s.Formed) (h : s.isStocked = true) :
    s.Ready ∧ s.situation = ⟨[.library], []⟩ := by
  simp only [State.isStocked, Bool.and_eq_true, List.all_eq_true, Option.any_eq_true,
    beq_iff_eq] at h
  obtain ⟨⟨hmarked, f, hf, hret⟩, hsit⟩ := h
  refine ⟨⟨hs, fun sc hsc hfun => ?_, f, hf, hret⟩, hsit⟩
  rw [Option.isNone_iff_eq_none.1 (hmarked sc hsc)] at hfun
  cases hfun

/-- In a new session the library is set up, and then the context is the layer of the library. -/
theorem registerLibrary_situation (comments : Bool) : ∃ s,
    registerLibrary (State.start .empty comments) = .ok () s ∧ s.Ready ∧
    s.situation = ⟨[.library], []⟩ := by
  have hrun :
      ∀ comments, registerLibrary.endsIn (State.start .empty comments) State.isStocked = true := by
    decide +kernel
  obtain ⟨_, s, hs, hstocked⟩ := Lower.endsIn_eq_true (hrun comments)
  have hgrows := IsGrowing.registerLibrary _ _ _ (State.formed_start .empty comments) hs
  exact ⟨s, hs, hgrows.formed.ready_of_isStocked hstocked⟩

/-- Compiling a unit in a new session decides whether the rules accept the program. -/
theorem lowerUnit_decides (p : Program) (comments : Bool) :
    (lowerUnit p).Decides (State.start .empty comments) (AcceptsAll ⟨[.library], []⟩ p.body)
      fun _ t => t.situation := by
  obtain ⟨s, hlib, hs, hsit⟩ := registerLibrary_situation comments
  have hlenient : ∀ d t, registerLibrary (State.start .empty comments) ≠ .error (.rejected d) t :=
    fun d t h => by cases hlib.symm.trans h
  have hprogram : (lowerProgram p).Decides s (AcceptsAll ⟨[.library], []⟩ p.body)
      fun _ t => t.situation := by
    refine .after IsLenient.law.openProgram fun _ t ht => ?_
    have hopen := IsSteady.law.openProgram
    have hready := hopen.ready hs ht
    have hbody := Node.executeAll_decides hready false p.body
    rw [hopen.situation hs ht, hsit] at hbody
    refine hbody.before (fun _ => IsLenient.law.closeProgram _) fun jumped u _ v hu hv => ?_
    have hready' := hready.grow (Node.executeAll_grows false p.body _ _ _ hready.formed hu)
    exact (IsSteady.law.closeProgram jumped).situation hready' hv
  refine ⟨fun a t h => ?_, fun d t h => ?_⟩
  · obtain ⟨_, u, hu, h'⟩ := bind_eq_ok.1 h
    obtain ⟨-, rfl⟩ := EStateM.Result.ok.inj (hlib.symm.trans hu)
    exact hprogram.accepts a t h'
  · rcases bind_eq_error.1 h with h | ⟨_, u, hu, h'⟩
    · exact absurd h (hlenient d t)
    · obtain ⟨-, rfl⟩ := EStateM.Result.ok.inj (hlib.symm.trans hu)
      exact hprogram.rejects d t h'

/-- A program that does not exhaust the numbers of the machine compiles in a new session exactly if
the rules accept it. -/
theorem compile_ok_iff_isAccepted (options : Options) (p : Program)
    (hnumbers : ∀ f, compile options p ≠ .error (.fault f)) :
    (∃ a, compile options p = .ok a) ↔ p.IsAccepted := by
  have hdecides := lowerUnit_decides p options.comments
  unfold compile compileIn at hnumbers ⊢
  rw [EStateM.run] at hnumbers ⊢
  cases hrun : lowerUnit p (State.start .empty options.comments) with
  | ok a t => exact iff_of_true ⟨_, rfl⟩ ⟨t.situation, (hdecides.accepts a t hrun _).2 rfl⟩
  | error e t =>
    rw [hrun] at hnumbers
    refine iff_of_false (fun ⟨_, h⟩ => by cases h) fun ⟨E, hE⟩ => ?_
    cases e with
    | rejected d => exact hdecides.rejects d t hrun E hE
    | fault f => exact hnumbers f rfl

/-- A function that calls itself with one argument too many, and a loop that is left early. -/
def countdown : Program :=
  ⟨[.unplaced (.function "down" [⟨"n", .integer⟩] .integer
      [.unplaced (.conditional
        (.unplaced (.binary .lt (.unplaced (.var "n")) (.unplaced (.number 1))))
        [.unplaced (.ret (some (.unplaced (.number 0))))] .absent),
       .unplaced (.ret (some (.unplaced (.call "down"
        [.unplaced (.binary .sub (.unplaced (.var "n")) (.unplaced (.number 1))),
         .unplaced (.str "extra")]))))]),
    .unplaced (.whileLoop (.unplaced (.bool true))
      [.unplaced (.call "down" [.unplaced (.number 9)]), .unplaced .breakLoop])]⟩

theorem compile_ok_iff_isAccepted_countdown :
    (∀ f, compile {} countdown ≠ .error (.fault f)) ∧
      ((∃ a, compile {} countdown = .ok a) ↔ countdown.IsAccepted) := by
  have hok : (compile {} countdown).isOk = true := by decide +kernel
  have hnumbers : ∀ f, compile {} countdown ≠ .error (.fault f) := by
    intro f hf
    rw [hf] at hok
    cases hok
  exact ⟨hnumbers, compile_ok_iff_isAccepted {} countdown hnumbers⟩

end KuAsm
