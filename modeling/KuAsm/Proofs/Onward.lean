import KuAsm.Proofs.Trace

/-!
# Later states of a compilation

Whatever a compilation meets, it meets in a state that comes after the one it started from: scopes
are added and grow, and none is taken away.  So what is found in a scope at the start is found there
later, and the functions of the library can be called from everywhere.  And the scopes of such a
state are there at the end, each inside the same scope and with the same symbol.

## Main statements

* `State.Onward s t`: every scope of `s` is there in `t`, with no name less, and variables are kept
  apart.
* `Lower.Spans`: an action leads onward through the states of a trace.
* `Lower.Spans.law`: compiling leads onward through the states of its trace.
* `Node.onward_of_mem_traceAll`: the states of a trace come after the state it starts from.
* `Program.spaced_of_mem_trace`: in every state of a compilation variables have slots of their own.
* `Program.equipped_of_mem_trace`: in every state of a compilation the library is there.
-/

namespace KuAsm

open Lower

variable {ev : Event} {s t : State} {name : String}

/-- Every scope of `s` is there in `t`, with no name less.  Variables are kept apart. -/
structure State.Onward (s t : State) : Prop where
  formed : t.Formed
  root : t.root = s.root
  size : s.tree.size ≤ t.tree.size
  scope : ∀ i : Nat, i < s.tree.size → (s.tree.scope i).Grows (t.tree.scope i)
  spaced : s.tree.Spaced → t.tree.Spaced

namespace State

variable {s t u : State}

theorem Onward.refl (hs : s.Formed) : s.Onward s := ⟨hs, rfl, Nat.le_refl _, fun _ _ => .refl _, id⟩

theorem Onward.trans (h : s.Onward t) (k : t.Onward u) : s.Onward u where
  formed := k.formed
  root := k.root.trans h.root
  size := Nat.le_trans h.size k.size
  scope i hi := (h.scope i hi).trans (k.scope i (Nat.lt_of_lt_of_le hi h.size))
  spaced hs := k.spaced (h.spaced hs)

theorem Grows.onward (h : s.Grows t) : s.Onward t where
  formed := h.formed
  root := h.root
  size := h.size
  scope _ hi := h.scope hi
  spaced hs i hi := by
    rcases Nat.lt_or_ge i s.tree.size with hlt | hge
    · exact h.spaced_scope hlt (hs i hlt)
    · exact (h.inside i hge hi).2.1

theorem Inner.onward (h : s.Inner t) : s.Onward t where
  formed := h.formed
  root := h.root
  size := Nat.le_of_lt h.size_lt
  scope i hi := h.others i hi ▸ .refl _
  spaced hs i hi := by
    rcases Nat.lt_or_ge i s.tree.size with hlt | hge
    · exact h.others i hlt ▸ hs i hlt
    · exact (h.inside i hge hi).2.1

end State

/-- An action that leads onward from whatever state it is run in. -/
def Lower.IsOnward {α : Type} (x : Lower α) : Prop := ∀ s a t, s.Formed → x s = .ok a t → s.Onward t

namespace Lower

variable {α : Type}

theorem IsGrowing.onward {x : Lower α} (hx : x.IsGrowing) : x.IsOnward :=
  fun s a t hs h => (hx s a t hs h).onward

theorem IsOnward.openBlock : openBlock.IsOnward := fun _ _ _ hs h => (openBlock_inner hs h).1.onward

theorem IsOnward.openLoop : openLoop.IsOnward := fun _ _ _ hs h => (openLoop_inner hs h).1.onward

theorem IsOnward.openFunction (name : String) (params : List Param) (ret : ScalarType)
    (l : Location) : (openFunction name params ret l).IsOnward := by
  intro s g t hs h
  obtain ⟨u, hu, hin, -⟩ := openFunction_inner hs h
  exact hu.onward.trans hin.onward

/-- Closing a block changes no scope. -/
theorem IsOnward.closeBlock (reachable : Bool) : (closeBlock reachable).IsOnward := by
  intro s a t hs h
  obtain ⟨u, v, hleave, hdef, rfl⟩ := closeBlock_eq_ok h
  have hu := IsGrowing.law.ite (IsGrowing.law.exitFrame _ _) (.pure _) s _ u hs hleave
  have hv := hu.trans (IsGrowing.law.defineFrameSize _ _ _ _ hu.formed hdef)
  refine hv.onward.trans ⟨⟨hv.formed.ordered, ?_, hv.formed.root_eq⟩, rfl, Nat.le_refl _, fun _ _ =>
    .refl _, id⟩
  have hcurrent : s.current < v.tree.size := hv.current ▸ hv.formed.current_lt
  show (v.tree.scope s.current).parent.getD v.root < v.tree.size
  cases hparent : (v.tree.scope s.current).parent with
  | none =>
    rw [Option.getD_none, hv.formed.root_eq]
    exact Nat.lt_of_le_of_lt (Nat.zero_le _) hcurrent
  | some p => exact Nat.lt_trans (hv.formed.ordered.parent_lt _ _ hcurrent hparent) hcurrent

end Lower

/-! ### Traces -/

/-- Every scope of a tree is there in a newer one, inside the same scope and with the same
symbol. -/
structure ScopeTree.Older (t u : ScopeTree) : Prop where
  size : t.size ≤ u.size
  parent : ∀ i : Nat, i < t.size → (u.scope i).parent = (t.scope i).parent
  frameSize : ∀ i : Nat, i < t.size → (u.scope i).frameSize = (t.scope i).frameSize

theorem ScopeTree.Older.trans {t u v : ScopeTree} (h : t.Older u) (k : u.Older v) : t.Older v where
  size := Nat.le_trans h.size k.size
  parent i hi := (k.parent i (Nat.lt_of_lt_of_le hi h.size)).trans (h.parent i hi)
  frameSize i hi := (k.frameSize i (Nat.lt_of_lt_of_le hi h.size)).trans (h.frameSize i hi)

theorem State.Onward.older (h : s.Onward t) : s.tree.Older t.tree :=
  ⟨h.size, fun i hi => (h.scope i hi).parent, fun i hi => (h.scope i hi).frameSize⟩

/-- Quiet changes leave the tree as it is, so either state is older than the other. -/
theorem State.Quiet.newer (h : s.Quiet t) : t.tree.Older s.tree where
  size := Nat.le_of_eq h.size
  parent i _ := (h.sameNames i).parent.symm
  frameSize i _ := (h.sameNames i).frameSize.symm

/-- An action that leads onward through the states of a trace. -/
structure Lower.Spans {α : Type} (x : Lower α) (trace : State → List Event) : Prop where
  onward : x.IsOnward
  comes : ∀ s, s.Formed → ∀ ev ∈ trace s, ∀ u, ev.state? = some u → s.Onward u
  goes : ∀ s a t, s.Formed → x s = .ok a t → ∀ ev ∈ trace s, ∀ u, ev.state? = some u →
    u.tree.Older t.tree

namespace Lower

variable {α β : Type} {x : Lower α} {f : α → Lower β} {trace : State → List Event}

theorem IsOnward.bind (hx : x.IsOnward) (hf : ∀ a, (f a).IsOnward) : (x >>= f).IsOnward := by
  intro s b t hs h
  obtain ⟨a, u, hxa, hfa⟩ := bind_eq_ok.1 h
  have hu := hx s a u hs hxa
  exact hu.trans (hf a u b t hu.formed hfa)

/-- Leading onward is a law that admits rejecting and writing. -/
theorem IsOnward.law : StatementLaw @IsOnward :=
  .of_quiet (fun hx => hx.growing.onward) .bind (fun hx s a t hs h =>
    have ⟨_, hy, hrun⟩ := hx s a t h
    hy s a t hs hrun) fun code => (IsGrowing.emit code).onward

theorem Spans.quiet (hx : x.IsOnward)
    (h : ∀ s, s.Formed → ∀ ev ∈ trace s, ∀ u, ev.state? = some u → s.Quiet u) : x.Spans trace where
  onward := hx
  comes s hs ev hev u hu := ((h s hs ev hev u hu).grows hs).onward
  goes s a t hs hrun ev hev u hu := (h s hs ev hev u hu).newer.trans (hx s a t hs hrun).older

theorem Spans.bind {rest : α → State → List Event} (hx : x.Spans trace)
    (hf : ∀ a, (f a).Spans (rest a)) : (x >>= f).Spans fun s => trace s ++ x.after s rest where
  onward := hx.onward.bind fun a => (hf a).onward
  comes s hs ev hev u hu := by
    rcases List.mem_append.1 hev with hev | hev
    · exact hx.comes s hs ev hev u hu
    · obtain ⟨a, v, hrun, hev⟩ := mem_after.1 hev
      have hv := hx.onward s a v hs hrun
      exact hv.trans ((hf a).comes v hv.formed ev hev u hu)
  goes s b t hs h ev hev u hu := by
    obtain ⟨a, v, hrun, hrest⟩ := bind_eq_ok.1 h
    have hv := hx.onward s a v hs hrun
    rcases List.mem_append.1 hev with hev | hev
    · exact (hx.goes s a v hs hrun ev hev u hu).trans ((hf a).onward v b t hv.formed hrest).older
    · rw [after_ok hrun] at hev
      exact (hf a).goes v b t hv.formed hrest ev hev u hu

theorem Spans.before (hx : x.Spans trace) (hf : ∀ a, (f a).IsOnward) : (x >>= f).Spans trace where
  onward := hx.onward.bind hf
  comes := hx.comes
  goes s b t hs h ev hev u hu := by
    obtain ⟨a, v, hrun, hrest⟩ := bind_eq_ok.1 h
    have hv := hx.onward s a v hs hrun
    exact (hx.goes s a v hs hrun ev hev u hu).trans (hf a v b t hv.formed hrest).older

/-- The state at the start in front of a trace. -/
theorem Spans.cons {ev : State → Event} (hev : ∀ s, (ev s).between? = some s) (hx : x.Spans trace) :
    x.Spans fun s => ev s :: trace s where
  onward := hx.onward
  comes s hs e he u hu := by
    rcases List.mem_cons.1 he with rfl | he
    · rw [Event.state?_of_between? (hev s)] at hu
      cases hu
      exact .refl hs
    · exact hx.comes s hs e he u hu
  goes s a t hs h e he u hu := by
    rcases List.mem_cons.1 he with rfl | he
    · rw [Event.state?_of_between? (hev s)] at hu
      cases hu
      exact (hx.onward s a t hs h).older
    · exact hx.goes s a t hs h e he u hu

theorem Spans.function {params : List Param} {ret : ScalarType} {l : Location}
    {statements : Lower Bool} (hgrows : statements.IsGrowing)
    (hopened : (openFunction name params ret l >>= fun g => functionBody l statements g.exit).Spans
      trace) : (defineFunction name params ret l (functionBody l statements)).Spans trace := by
  have hdefine := IsGrowing.defineFunction name params ret l (IsGrowing.law.functionBody l hgrows)
  refine ⟨hdefine.onward, hopened.comes, fun s a t hformed h ev hev u hu => ?_⟩
  obtain ⟨g, v, hopen, h₁⟩ := bind_eq_ok.1 h
  obtain ⟨b, w, hrun, hclose⟩ := bind_eq_ok.1 h₁
  have hall :
      (openFunction name params ret l >>= fun g => functionBody l statements g.exit) s = .ok b w :=
    bind_eq_ok.2 ⟨g, v, hopen, hrun⟩
  have hw := (hopened.onward s b w hformed hall).formed
  -- the end of a function only goes back to the scope around it
  have holder : w.tree.Older t.tree := by
    obtain ⟨code, -, -, -, -, -, rfl⟩ := closeFunction_eq_ok hclose
    exact (State.Grows.wrote hw code).onward.older
  exact (hopened.goes s b w hformed hall ev hev u hu).trans holder

/-- Compiling leads onward through the states of its trace. -/
theorem Spans.law : TraceLaw @IsOnward @Spans where
  toStatementLaw := IsOnward.law
  openBlock := .openBlock
  closeBlock := .closeBlock
  openLoop := .openLoop
  openFunction := .openFunction
  library p := (IsGrowing.defineFunction _ _ _ _ (IsGrowing.law.primitiveBody p)).onward
  declare _ _ _ value := (IsGrowing.declare _ _ _ (IsGrowing.law.evaluateOr value _)).onward
  markIncluded path := (IsGrowing.markIncluded path).onward
  expressions hx h := .quiet hx fun _ hs _ hev _ hu => h.quiet hs hev hu
  sequence := .bind
  before := .before
  cons := .cons
  assign _ _ _ :=
    .quiet (IsGrowing.assign _ _ fun _ => IsGrowing.law.expect (IsGrowing.law.evaluate _)).onward
    fun _ hs _ hev _ hu => Node.quiet_of_mem_assignTrace hs hev hu
  function _ _ _ _ _ _ _ hgrows _ hopened := .function hgrows hopened

end Lower

/-- The states of a trace come after the state it starts from. -/
theorem Node.onward_of_mem_traceAll {ns : List Node} (hs : s.Formed) (hev : ev ∈ Node.traceAll ns s)
    (ht : ev.between? = some t) : s.Onward t :=
  (Spans.law.executeAll false ns).comes s hs ev hev t (Event.state?_of_between? ht)

/-- The scopes of a state that a compilation goes through are there at its end, inside the same
scopes and with the same symbols. -/
theorem Program.older_of_mem_trace {p : Program} {session : Session} {comments : Bool} {u : State}
    (h : lowerUnit p (.start session comments) = .ok () t) (hev : ev ∈ p.trace session comments)
    (hu : ev.state? = some u) : u.Formed ∧ t.Formed ∧ u.tree.Older t.tree := by
  have hstart := State.formed_start session comments
  have hspans := Spans.law.lowerUnit p
  exact ⟨(hspans.comes _ hstart ev hev u hu).formed, (hspans.onward _ _ _ hstart h).formed,
    hspans.goes _ _ _ hstart h ev hev u hu⟩

/-- The variables of all scopes have slots of their own. -/
structure State.Spaced (s : State) : Prop where
  formed : s.Formed
  scope : s.tree.Spaced

/-- In every state of a compilation the variables of all scopes have slots of their own. -/
theorem Program.spaced_of_mem_trace {p : Program} {session : Session} {comments : Bool} {u : State}
    (hev : ev ∈ p.trace session comments) (hu : ev.state? = some u) : u.Spaced := by
  have honward := (Spans.law.lowerUnit p).comes _ (State.formed_start session comments) ev hev u hu
  refine ⟨honward.formed, honward.spaced fun i hi => ?_⟩
  obtain rfl := Nat.lt_one_iff.1 hi
  exact .of_vars_nil rfl

/-! ### The library -/

/-- The functions of the library can be found. -/
def State.Equipped (s : State) : Prop :=
  ∀ p : Primitive, ∃ f, (s.tree.scope s.root).getFunction? p.name = some f ∧ f.params = p.params ∧
    f.ret = p.ret

theorem State.Formed.root_lt (hs : s.Formed) : s.root < s.tree.size := by
  rw [hs.root_eq]
  exact Nat.lt_of_le_of_lt (Nat.zero_le _) hs.current_lt

/-- A function of a name that is found stays where it is. -/
theorem Scope.getFunction?_of_prefix {a b : Scope} (h : a.functions <+: b.functions) {f : Signature}
    (hf : a.getFunction? name = some f) : b.getFunction? name = some f := by
  obtain ⟨more, hmore⟩ := h
  unfold Scope.getFunction? at hf ⊢
  rw [← hmore, List.find?_append, hf]
  rfl

theorem State.Onward.equipped (h : s.Onward t) (hs : s.Formed) (heq : s.Equipped) : t.Equipped := by
  intro p
  obtain ⟨f, hf, hparams⟩ := heq p
  refine ⟨f, ?_, hparams⟩
  rw [h.root]
  exact Scope.getFunction?_of_prefix (h.scope _ hs.root_lt).functions hf

/-- A function that was defined is found in the scope that declares it. -/
theorem defineFunction_declares {params : List Param} {ret : ScalarType} {l : Location}
    {body : FunctionExit → Lower Unit} (hbody : ∀ exit, (body exit).IsGrowing) {a : Unit}
    (hs : s.Formed) (h : defineFunction name params ret l body s = .ok a t) :
    ∃ f, t.here.getFunction? name = some f ∧ f.params = params ∧ f.ret = ret := by
  obtain ⟨g, v, hopen, h₁⟩ := bind_eq_ok.1 h
  obtain ⟨_, w, hrun, hclose⟩ := bind_eq_ok.1 h₁
  obtain ⟨f, skip, u, exit, v₁, note, copies, w₁, hannounce, hbodyopen, -, hcopies, rfl, hv⟩ :=
    openFunction_eq_ok hopen
  have hu := IsGrowing.announce _ _ _ _ _ _ _ hs hannounce
  have hin := openBody_inner hu.formed hbodyopen
  have hw₁ := IsGrowing.bindParams l 0 params _ _ _ hin.formed hcopies
  have hinv : u.Inner v := hv ▸ (hin.grow hw₁).grow (.wrote hw₁.formed _)
  have hgrows := hbody _ _ _ _ hinv.formed hrun
  have ht := closeFunction_grows hu.formed (hinv.grow hgrows)
    (hgrows.current.trans (congrArg State.current hv)).symm rfl rfl hclose
  obtain ⟨hf, -, hnew, rfl⟩ := announce_eq_ok hannounce
  have hfound : State.here { s.withScope { s.here with functions := s.here.functions ++ [f] } with
      session := (((s.session.mintLabel name).2.mintLabel ("ret_" ++ name)).2.mintLabel
        ("skip_" ++ name)).2 } = { s.here with functions := s.here.functions ++ [f] } :=
    State.here_withScope hs _
  refine ⟨f, Scope.getFunction?_of_prefix ht.here.functions ?_, by rw [hf], by rw [hf]⟩
  rw [hfound]
  unfold Scope.getFunction? at hnew ⊢
  rw [List.find?_append, hnew, hf]
  simp

/-- Once the library is set up, all its functions are found in the outermost scope. -/
theorem registerLibrary_equips {a : Unit} (hs : s.Formed) (hroot : s.current = s.root)
    (h : registerLibrary s = .ok a t) : t.Equipped := by
  have hgrowing : ∀ p : Primitive,
      (defineFunction p.name p.params p.ret .internal (primitiveBody p)).IsGrowing :=
    fun p => .defineFunction _ _ _ _ (IsGrowing.law.primitiveBody p)
  obtain ⟨_, u, hall, htell⟩ := bind_eq_ok.1 h
  obtain rfl := tell_eq_ok.1 htell
  suffices hmem : ∀ (ps : List Primitive) (s u : State) (a : PUnit), s.Formed →
      (ps.forM fun p => defineFunction p.name p.params p.ret .internal (primitiveBody p)) s =
        .ok a u → ∀ p ∈ ps, ∃ f, u.here.getFunction? p.name = some f ∧ f.params = p.params ∧
      f.ret = p.ret by
    have hgrows := IsGrowing.law.forM hgrowing _ _ _ _ hs hall
    intro p
    have hp : p ∈ Primitive.all := by cases p <;> decide
    obtain ⟨f, hf, hparams⟩ := hmem _ _ _ _ hs hall p hp
    refine ⟨f, ?_, hparams⟩
    rw [show u.here = u.tree.scope u.root by
      rw [State.here, hgrows.current, hroot, hgrows.root]] at hf
    exact hf
  intro ps
  induction ps with
  | nil => exact fun _ _ _ _ _ => List.forall_mem_nil _
  | cons q ps ih =>
    intro s u a hs h p hp
    obtain ⟨_, v, hq, hps⟩ := bind_eq_ok.1 h
    have hv := hgrowing q _ _ _ hs hq
    rcases List.mem_cons.1 hp with rfl | hp
    · obtain ⟨f, hf, hparams⟩ := defineFunction_declares (IsGrowing.law.primitiveBody p) hs hq
      have hu := IsGrowing.law.forM hgrowing _ _ _ _ hv.formed hps
      exact ⟨f, Scope.getFunction?_of_prefix hu.here.functions hf, hparams⟩
    · exact ih _ _ _ hv.formed hps p hp

/-- In every state of a compilation between two statements, the library is there. -/
theorem Program.equipped_of_mem_trace {p : Program} {session : Session} {comments : Bool}
    (hev : ev ∈ p.trace session comments) (ht : ev.between? = some t) : t.Equipped := by
  obtain ⟨_, s, hpreamble, hev⟩ := mem_after.1 hev
  obtain ⟨_, u, hlibrary, hopen⟩ := bind_eq_ok.1 hpreamble
  have hstart := State.formed_start session comments
  have hu := IsGrowing.registerLibrary _ _ _ hstart hlibrary
  have hs := IsGrowing.law.openProgram _ _ _ hu.formed hopen
  have hequipped := registerLibrary_equips hstart rfl hlibrary
  exact (Node.onward_of_mem_traceAll hs.formed hev ht).equipped hs.formed
    (hs.onward.equipped hu.formed hequipped)

end KuAsm
