import KuAsm.Proofs.Effect

/-!
# The step of a `for` loop

The step of a `for` loop is compiled behind the body, in the scope of a round.  So its variables are
those that an empty body would leave it with, except where the body declares a variable of the same
name in that scope: then the step is about this one.  What the body declares in blocks or functions
of its own does not count, nor does what it assigns.

## Main definitions

* `Node.declaredAll`: the names that statements may declare in their own scope.
* `Node.beforeStep`: what a `for` loop does before its step.

## Main statements

* `Node.executeAll_adds`: statements declare in their own scope what they say and nothing else.
* `for_step_resolves`: the variables of a step, compared with those after an empty body.
-/

namespace KuAsm

open Lower

variable {least most : List String} {body : Lower Bool} {s : State}

/-! ### Names that are declared -/

mutual

/-- The names that a statement may declare in its own scope: its own one, or those of the file that
it includes. -/
def Node.declared : Node → List String
  | .mk (.declare name _ _) _ => [name]
  | .mk (.included _ program) _ => Node.declaredAll program
  | _ => []

/-- The names that the statements of a list may declare in their own scope. -/
def Node.declaredAll : List Node → List String
  | [] => []
  | n :: ns => n.declared ++ Node.declaredAll ns

end

/-- The name that a statement declares itself. -/
def Node.declares? : Node → Option String
  | .mk (.declare name _ _) _ => some name
  | _ => none

/-- An action that adds no variables to the current scope. -/
def Lower.KeepsVars {α : Type} (x : Lower α) : Prop :=
  ∀ s a t, s.Formed → x s = .ok a t → s.Grows t ∧ t.here.vars = s.here.vars

/-- An action that adds variables to the current scope: those with the names of `least`, and no
others than those with the names of `most`, in this order. -/
def Lower.Adds {α : Type} (x : Lower α) (least most : List String) : Prop :=
  ∀ s a t, s.Formed → x s = .ok a t → s.Grows t ∧ ∃ names, least.Sublist names ∧
    names.Sublist most ∧ t.here.vars.map Variable.name = s.here.vars.map Variable.name ++ names

namespace Lower

variable {α β : Type}

theorem KeepsVars.of_quiet {x : Lower α} (hx : x.IsQuiet) : x.KeepsVars := by
  intro s a t hs h
  have hq := hx s a t hs h
  exact ⟨hq.grows hs, hq.here.vars⟩

theorem KeepsVars.bind {x : Lower α} {f : α → Lower β} (hx : x.KeepsVars)
    (hf : ∀ a, (f a).KeepsVars) : (x >>= f).KeepsVars := by
  intro s b t hs h
  obtain ⟨a, u, hxa, hfa⟩ := bind_eq_ok.1 h
  obtain ⟨hsu, hvars⟩ := hx s a u hs hxa
  obtain ⟨hut, hvars'⟩ := hf a u b t hsu.formed hfa
  exact ⟨hsu.trans hut, hvars'.trans hvars⟩

theorem KeepsVars.emit (code : Code) : (emit code).KeepsVars := by
  intro s a t hs h
  have hgrows := IsGrowing.emit code s a t hs h
  obtain rfl := emit_eq_ok.1 h
  exact ⟨hgrows, rfl⟩

/-- Adding no variables is a law that admits rejecting and writing. -/
theorem KeepsVars.law : StatementLaw @KeepsVars :=
  .of_quiet KeepsVars.of_quiet .bind (fun hx s a t hs h =>
    have ⟨_, hy, hrun⟩ := hx s a t h
    hy s a t hs hrun) .emit

theorem KeepsVars.localLaw : LocalLaw @KeepsVars where
  toStatementLaw := law
  apart hx h s a t hs hrun := by
    obtain ⟨functions, hhere⟩ := h s a t hs hrun
    exact ⟨hx s a t hs hrun, by rw [hhere]⟩
  assign name value l l' :=
    law.assign _ _ (fun _ _ => .of_quiet (.takeOwnership _ _ _)) fun _ =>
      law.expect (law.evaluate _)

theorem KeepsVars.adds {x : Lower α} (hx : x.KeepsVars) : x.Adds [] [] := by
  intro s a t hs h
  obtain ⟨hgrows, hvars⟩ := hx s a t hs h
  exact ⟨hgrows, [], List.Sublist.slnil, List.Sublist.slnil, by rw [hvars, List.append_nil]⟩

theorem Adds.bind {x : Lower α} {f : α → Lower β} {least' most' : List String}
    (hx : x.Adds least most)
    (hf : ∀ a, (f a).Adds least' most') : (x >>= f).Adds (least ++ least') (most ++ most') := by
  intro s b t hs h
  obtain ⟨a, u, hxa, hfa⟩ := bind_eq_ok.1 h
  obtain ⟨hsu, names, hleast, hmost, hvars⟩ := hx s a u hs hxa
  obtain ⟨hut, names', hleast', hmost', hvars'⟩ := hf a u b t hsu.formed hfa
  exact ⟨hsu.trans hut, names ++ names', hleast.append hleast', hmost.append hmost', by
    rw [hvars', hvars, List.append_assoc]⟩

theorem Adds.weaken {x : Lower α} {least' most' : List String} (hx : x.Adds least most)
    (hleast : least'.Sublist least) (hmost : most.Sublist most') : x.Adds least' most' := by
  intro s a t hs h
  obtain ⟨hgrows, names, hl, hm, hvars⟩ := hx s a t hs h
  exact ⟨hgrows, names, hleast.trans hl, hm.trans hmost, hvars⟩

theorem Adds.after {x : Lower α} {f : α → Lower β} (hx : x.KeepsVars)
    (hf : ∀ a, (f a).Adds least most) : (x >>= f).Adds least most := hx.adds.bind hf

/-- What follows may add nothing. -/
theorem Adds.before {x : Lower α} {f : α → Lower β} (hx : x.Adds least most)
    (hf : ∀ a, (f a).KeepsVars) : (x >>= f).Adds least most := by
  have h := hx.bind fun a => (hf a).adds
  rwa [List.append_nil, List.append_nil] at h

theorem Adds.declare (name : String) (ty : ScalarType) (l : Location) {value : Lower Lowered}
    (hvalue : value.IsQuiet) : (declare name ty l value).Adds [name] [name] := by
  intro s a t hs h
  have hgrows := IsGrowing.declare name ty l hvalue.growing s a t hs h
  have hdeclared : ∀ {sc sc' : Scope} {v : Variable}, sc.declareVariable name ty l = .ok (v, sc') →
      sc'.vars.map Variable.name = sc.vars.map Variable.name ++ [name] := by
    intro sc sc' v hsc
    obtain ⟨-, rfl, used, -, rfl⟩ := Scope.declareVariable_eq_ok hsc
    exact List.map_append
  refine ⟨hgrows, [name], .refl _, .refl _, ?_⟩
  cases hty : ty.isHeap with
  | false =>
    obtain ⟨v, u, sc, note, m, hv, hsc, -, -, rfl⟩ := declare_plain_eq_ok hty h
    have hq := hvalue s v u hs hv
    show (u.withScope sc).here.vars.map Variable.name = _
    rw [State.here_withScope (hq.formed hs), hdeclared hsc, hq.here.vars]
  | true =>
    obtain ⟨v, u, sc, note, m, c, taken, id?, w, id, x, hv, hsc, -, -, -, hw, hx, rfl⟩ :=
      declare_heap_eq_ok hty h
    have hq := hvalue s v u hs hv
    have hd := (hq.formed hs).declared hsc
    have hw := IsQuiet.takeOwnership _ _ _ _ _ _ hd hw
    have hx := hw.trans (IsQuiet.getDM id? _ _ _ (hw.formed hd) hx)
    show (x.withScope (x.here.bind name id)).here.vars.map Variable.name = _
    rw [State.here_withScope (hx.formed hd), Scope.map_vars_bind fun _ _ => rfl, hx.here.vars,
      State.here_withScope (hq.formed hs), hdeclared hsc, hq.here.vars]

end Lower

open Lower KeepsVars in
theorem Node.execute_addsCases :
    StatementCases (fun n => n.execute.Adds n.declares?.toList n.declared)
      (fun ns => ∀ jumped, (Node.executeAll jumped ns).Adds (ns.filterMap Node.declares?)
        (Node.declaredAll ns)) (fun o => ∀ exit next, (o.execute exit next).KeepsVars) := by
  refine localLaw.cases (fun {form l} hform h => ?_) ?_ (fun hprogram => ?_) (fun jumped => ?_)
    fun {n ns} hn hns jumped => ?_
  · have hnone : (mk form l).declares? = none ∧ (mk form l).declared = [] := by
      cases form <;> first | exact ⟨rfl, rfl⟩ | cases hform
    rw [hnone.1, hnone.2]
    exact h.adds
  · intro name ty value l
    unfold Node.execute
    exact (Adds.declare name ty l (IsQuiet.law.evaluateOr _ _)).before fun _ => law.pure _
  · unfold Node.execute
    refine .after (localLaw.markIncluded _) fun new => ?_
    -- a file that is there already declares nothing
    split
    · refine .after (law.remark _) fun _ => .after (.emit _) fun _ => ?_
      exact ((hprogram false).weaken (List.nil_sublist _) (.refl _)).before fun _ => law.pure _
    · exact (KeepsVars.bind (law.tell _) fun _ => law.pure _).adds.weaken (.refl _)
        (List.nil_sublist _)
  · unfold Node.executeAll
    exact (law.pure _).adds
  · unfold Node.executeAll
    rw [show (n :: ns).filterMap Node.declares? = n.declares?.toList ++
        ns.filterMap Node.declares? by
      rw [List.filterMap_cons]; cases n.declares? <;> rfl]
    exact hn.bind fun jumped => hns jumped

/-- Statements declare in their own scope the names that they say, and beside them only names of
files that they include. -/
theorem Node.executeAll_adds (jumped : Bool) (ns : List Node) :
    (Node.executeAll jumped ns).Adds (ns.filterMap Node.declares?) (Node.declaredAll ns) :=
  Node.execute_addsCases.list ns jumped

/-! ### The scope of a round -/

/-- What a `for` loop does before its step: it opens a frame for the loop variable and one for the
round, tests the condition and goes through the body. -/
def Node.beforeStep (start condition : Node) (body : List Node) : Lower LoopFrame := do
  let _ ← openBlock
  let _ ← start.execute
  let f ← openLoop
  branchUnless f.done condition.location condition.evaluate
  let _ ← Node.executeAll false body
  emit [.label f.exits.next]
  return f

/-- A `for` loop is what comes before its step, the step, and the end of both frames. -/
theorem Node.execute_forLoop (start condition step : Node) (body : List Node) (l : Location) :
    (Node.mk (.forLoop start condition step body) l).execute = do
      let f ← Node.beforeStep start condition body
      let _ ← step.execute
      closeLoop f
      closeBlock true
      return false := by
  conv_lhs => unfold Node.execute
  unfold Node.beforeStep Lower.block Lower.loop
  simp only [bind_assoc, pure_bind]
  rfl

/-- A round starts without variables. -/
theorem openLoop_vars {t : State} {f : LoopFrame} (hs : s.Formed) (h : openLoop s = .ok f t) :
    t.here.vars = [] := by
  obtain ⟨top, next, exit, done, u₁, u₂, u₃, u₄, id, v, htop, hnext, hexit, hdone, hopen, rfl,
    rfl⟩ := openLoop_eq_ok h
  have hu₁ := (IsQuiet.mintLabel _ _ _ _ hs htop).formed hs
  have hu₂ := (IsQuiet.mintLabel _ _ _ _ hu₁ hnext).formed hu₁
  have hu₃ := (IsQuiet.mintLabel _ _ _ _ hu₂ hexit).formed hu₂
  have hu₄ := (IsQuiet.mintLabel _ _ _ _ hu₃ hdone).formed hu₃
  rw [State.here_withScope (openBlock_inner (hu₄.wrote _) hopen).1.formed]
  obtain ⟨-, rfl⟩ := openBlock_eq_ok.1 hopen
  rw [State.here_entered]
  rfl

/-- A search for a variable passes the current scope if it does not have it, whatever else is in
there. -/
theorem State.Grows.lookupVariable_eq {t : State} (h : s.Grows t) (hs : s.Formed) {name : String}
    (hname : t.here.getVariable? name = none) :
    t.tree.lookupVariable t.current name = s.tree.lookupVariable s.current name := by
  rw [h.current]
  refine ScopeTree.lookupVariable_congr (h.tree_path hs hs.current_lt) fun j hj => ?_
  by_cases hc : j = s.current
  · subst hc
    have hhere : t.tree.scope s.current = t.here := by
      unfold State.here
      rw [h.current]
    have hold : s.here.getVariable? name = none :=
      Scope.getVariable?_eq_none_iff.2 fun x hx => Scope.getVariable?_eq_none_iff.1 hname x
        (h.here.vars.subset hx)
    rw [hhere, hname]
    exact hold.symm
  · rw [h.others j (hs.ordered.lt_size_of_mem_path hs.current_lt hj) hc]

/-- A variable of the current scope is found there. -/
theorem State.Formed.lookupVariable_here (hs : s.Formed) {name : String} {x : Variable}
    (hx : s.here.getVariable? name = some x) :
    s.tree.lookupVariable s.current name = some (⟨s.current, 0⟩, x) := by
  refine ScopeTree.lookupVariable_eq_some_iff.2 ⟨?_, hx, nofun⟩
  cases hp : s.here.parent with
  | none => rw [hs.ordered.path_eq_singleton hs.current_lt hp]; rfl
  | some p => rw [hs.ordered.path_eq_cons hs.current_lt hp]; rfl

/-- What the step of a `for` loop is about.  Wherever a loop compiles, its step is compiled in the
scope of the round, in which the body has declared some names: those that its statements say, and
beside them only names of files that it includes.  A variable of another name is the one that the
step would be about if the body were empty, with the same scope, slot and type; one of these names
is the one that the body has declared. -/
theorem for_step_resolves {p : Program} {session : Session} {comments : Bool} {ev : Event}
    {s : State} (hev : ev ∈ p.trace session comments) (hs : ev.state? = some s)
    {start condition step : Node} {body : List Node} {l : Location} {b : Bool} {t : State}
    (h : (Node.mk (.forLoop start condition step body) l).execute s = .ok b t) :
    ∃ f u u₀ b' v names, Node.beforeStep start condition body s = .ok f u ∧
      step.execute u = .ok b' v ∧
      Node.beforeStep start condition [] s = .ok f u₀ ∧ u.current = f.scope ∧ u₀.current = f.scope ∧
      (u.tree.scope f.scope).vars.map Variable.name = names ∧
      (body.filterMap Node.declares?).Sublist names ∧ names.Sublist (Node.declaredAll body) ∧
      ∀ name,
        (name ∉ names → u.tree.lookupVariable f.scope name = u₀.tree.lookupVariable f.scope name) ∧
        (name ∈ names → ∃ x ∈ (u.tree.scope f.scope).vars, x.name = name ∧
          u.tree.lookupVariable f.scope name = some (⟨f.scope, 0⟩, x)) := by
  have hformed := (Program.spaced_of_mem_trace hev hs).formed
  rw [Node.execute_forLoop] at h
  obtain ⟨f, u, hbefore, h⟩ := bind_eq_ok.1 h
  obtain ⟨b', v, hstep, -⟩ := bind_eq_ok.1 h
  obtain ⟨id, s₁, hopen, h₁⟩ := bind_eq_ok.1 hbefore
  obtain ⟨_, s₂, hstart, h₂⟩ := bind_eq_ok.1 h₁
  obtain ⟨g, s₃, hloop, h₃⟩ := bind_eq_ok.1 h₂
  obtain ⟨_, s₄, hbranch, h₄⟩ := bind_eq_ok.1 h₃
  obtain ⟨_, s₅, hbody, h₅⟩ := bind_eq_ok.1 h₄
  obtain ⟨_, s₆, hemit, h₆⟩ := bind_eq_ok.1 h₅
  obtain ⟨rfl, rfl⟩ := pure_eq_ok.1 h₆
  obtain rfl := emit_eq_ok.1 hemit
  have hs₁ := (openBlock_inner hformed hopen).1.formed
  have hs₂ := (Node.execute_grows start s₁ _ s₂ hs₁ hstart).formed
  obtain ⟨hin, hscope, -⟩ := openLoop_inner hs₂ hloop
  obtain ⟨hg₄, hvars₄⟩ := KeepsVars.law.branchUnless _ _ (KeepsVars.law.evaluate condition) _ _ _
    hin.formed hbranch
  obtain ⟨hg₅, names, hleast, hmost, hvars₅⟩ :=
    Node.executeAll_adds false body _ _ _ hg₄.formed hbody
  rw [hvars₄, openLoop_vars hs₂ hloop, List.map_nil, List.nil_append] at hvars₅
  have hempty : Node.beforeStep start condition [] s = .ok f (s₄.wrote [.label f.exits.next]) := by
    refine bind_eq_ok.2 ⟨id, s₁, hopen, bind_eq_ok.2 ⟨_, s₂, hstart, bind_eq_ok.2 ⟨f, s₃, hloop,
      bind_eq_ok.2 ⟨_, s₄, hbranch, bind_eq_ok.2 ⟨false, s₄, ?_, rfl⟩⟩⟩⟩⟩
    unfold Node.executeAll
    rfl
  have hcurrent₄ : s₄.current = f.scope := hg₄.current.trans hscope.symm
  have hcurrent₅ : s₅.current = f.scope := hg₅.current.trans hcurrent₄
  have hhere : s₅.tree.scope f.scope = s₅.here := by
    unfold State.here
    rw [hcurrent₅]
  refine ⟨f, _, _, b', v, names, hbefore, hstep, hempty, hcurrent₅, hcurrent₄, ?_, hleast, hmost,
    fun name => ⟨?_, ?_⟩⟩
  · show (s₅.tree.scope f.scope).vars.map Variable.name = names
    rw [hhere, hvars₅]
  · intro hname
    have hnone : s₅.here.getVariable? name = none :=
      Scope.getVariable?_eq_none_iff.2 fun x hx heq => hname (hvars₅ ▸ List.mem_map.2 ⟨x, hx, heq⟩)
    have hsame := hg₅.lookupVariable_eq hg₄.formed hnone
    rw [hcurrent₅, hcurrent₄] at hsame
    exact hsame
  · intro hname
    rw [← hvars₅] at hname
    obtain ⟨x, hx, hxname⟩ := List.mem_map.1 hname
    obtain ⟨y, hy⟩ : ∃ y, s₅.here.getVariable? name = some y := by
      refine Option.ne_none_iff_exists'.1 fun hnone => ?_
      exact Scope.getVariable?_eq_none_iff.1 hnone x hx hxname
    have hfound := State.Formed.lookupVariable_here hg₅.formed hy
    rw [hcurrent₅] at hfound
    refine ⟨y, ?_, ?_, hfound⟩
    · show y ∈ (s₅.tree.scope f.scope).vars
      rw [hhere]
      exact List.mem_of_find?_eq_some hy
    · exact beq_iff_eq.1 (List.find?_some (p := fun v : Variable => v.name == name) hy)

/-- A number is counted, from zero on. -/
def fromZero : Node := .unplaced (.declare "i" .integer (some (.unplaced (.number 0))))

/-- The number is less than three. -/
def belowThree : Node := .unplaced (.binary .lt (.unplaced (.var "i")) (.unplaced (.number 3)))

/-- The number is one more. -/
def countUp : Node := .unplaced (.step "i" .increment .leading)

/-- A letter with the name of the number. -/
def namesake : Node := .unplaced (.declare "i" .character (some (.unplaced (.char 65))))

/-- A loop in whose body a letter has the name of the number that is counted. -/
def recounted : Program := ⟨[.unplaced (.forLoop fromZero belowThree countUp [namesake])]⟩

/-- The type of the variable that the step of a `for` loop with this body would find. -/
def Node.stepType? (start condition : Node) (body : List Node) (name : String) (s : State) :
    Option ScalarType :=
  match Node.beforeStep start condition body s with
  | .ok _ u => (u.tree.lookupVariable u.current name).map (·.2.ty)
  | .error _ _ => none

/-- A step may be captured: with the letter in the body it is about the letter, and without it about
the number. -/
theorem for_step_fails_recounted :
    ∃ ev s b t, ev ∈ recounted.trace .empty false ∧ ev.state? = some s ∧
    (Node.unplaced (.forLoop fromZero belowThree countUp [namesake])).execute s = .ok b t ∧
    Node.stepType? fromZero belowThree [namesake] "i" s = some .character ∧
    Node.stepType? fromZero belowThree [] "i" s = some .integer := by
  have hfound : ((recounted.trace .empty false).any fun ev => ev.state?.any fun s =>
      match (Node.unplaced (.forLoop fromZero belowThree countUp [namesake])).execute s with
      | .ok _ _ => Node.stepType? fromZero belowThree [namesake] "i" s = some .character ∧
          Node.stepType? fromZero belowThree [] "i" s = some .integer
      | .error _ _ => false) = true := by
    decide +kernel
  obtain ⟨ev, s, hev, hs, hany⟩ := Event.exists_of_any hfound
  split at hany
  · rename_i b t hrun
    obtain ⟨hletter, hnumber⟩ := of_decide_eq_true hany
    exact ⟨ev, s, b, t, hev, hs, hrun, hletter, hnumber⟩
  · cases hany

/-- In the loop with the letter, the step finds a variable in the scope of the round. -/
theorem for_step_resolves_recounted :
    ∃ ev s f u x, ev ∈ recounted.trace .empty false ∧ ev.state? = some s ∧
    Node.beforeStep fromZero belowThree [namesake] s = .ok f u ∧ x ∈ (u.tree.scope f.scope).vars ∧
    u.tree.lookupVariable f.scope "i" = some (⟨f.scope, 0⟩, x) := by
  have hfound : ((recounted.trace .empty false).any fun ev => ev.state?.any fun s =>
      match (Node.unplaced (.forLoop fromZero belowThree countUp [namesake])).execute s with
      | .ok _ _ => true
      | .error _ _ => false) = true := by
    decide +kernel
  obtain ⟨ev, s, hev, hs, hany⟩ := Event.exists_of_any hfound
  split at hany
  · rename_i b t hrun
    obtain ⟨f, u, u₀, b, v, names, hbefore, -, -, -, -, -, hleast, -, hname⟩ :=
      for_step_resolves hev hs hrun
    obtain ⟨x, hx, -, hfound⟩ := (hname "i").2 (hleast.subset (by decide))
    exact ⟨ev, s, f, u, x, hev, hs, hbefore, hx, hfound⟩
  · cases hany

end KuAsm
