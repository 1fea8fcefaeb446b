import KuAsm.Proofs.Growth
import KuAsm.Proofs.Judgement

/-!
# Scopes as layers

A scope of a compilation holds more than the rules of the language speak of: slots, labels, ids.
The layer of a scope is what is left without these.  The layers of the scopes around the current one
are the context in which the rules judge the next statement.

## Main statements

* `State.varType?_context`, `State.function?_context`, `State.result?_context`,
  `State.inLoop_context`: looking a name or an exit up in the tree of scopes and in the context
  comes to the same.
* `State.Quiet.context`, `State.Inner.context`: what opening, closing and changing a scope does to
  the context.
* `State.Ready`: what has to hold of a state for the rules to apply to it, kept by growth.
-/

namespace KuAsm

variable {sc : Scope}

/-- The types of a signature. -/
def Signature.prototype (f : Signature) : Prototype := ⟨f.params.map (·.ty), f.ret⟩

/-- What a scope is the body of. -/
def Scope.marker (sc : Scope) : Marker :=
  match sc.function, sc.loop with
  | some m, _ => .function m.ret
  | none, some _ => .loop
  | none, none => .plain

/-- What the rules see of a scope. -/
def Scope.layer (sc : Scope) : Layer :=
  ⟨sc.vars.map fun v => (v.name, v.ty), sc.functions.map fun f => (f.name, f.prototype), sc.marker⟩

/-- A scope and the scopes around it, innermost first. -/
def ScopeTree.around (t : ScopeTree) (i : ScopeId) : List Scope := (t.path i).map t.scope

/-- The context of the next statement. -/
def State.context (s : State) : Context := (s.tree.around s.current).map Scope.layer

/-- The situation of the next statement. -/
def State.situation (s : State) : Situation := ⟨s.context, s.session.included⟩

/-! ### Names of one scope -/

namespace Scope

variable (sc : Scope) (name : String)

theorem lookup_vars_layer : sc.layer.vars.lookup name = (sc.getVariable? name).map (·.ty) := by
  show (sc.vars.map fun v => (v.name, v.ty)).lookup name =
    (sc.vars.find? (·.name == name)).map (·.ty)
  induction sc.vars with
  | nil => rfl
  | cons v vs ih =>
    rw [List.map_cons, List.lookup_cons, List.find?_cons]
    by_cases hv : v.name = name
    · simp [hv]
    · have hne : (name == v.name) = false := by simpa using fun h => hv h.symm
      have hne' : (v.name == name) = false := by simpa using hv
      rw [hne, hne', ih]

theorem lookup_functions_layer :
    sc.layer.functions.lookup name = (sc.getFunction? name).map Signature.prototype := by
  show (sc.functions.map fun f => (f.name, f.prototype)).lookup name =
    (sc.functions.find? (·.name == name)).map Signature.prototype
  induction sc.functions with
  | nil => rfl
  | cons f fs ih =>
    rw [List.map_cons, List.lookup_cons, List.find?_cons]
    by_cases hf : f.name = name
    · simp [hf]
    · have hne : (name == f.name) = false := by simpa using fun h => hf h.symm
      have hne' : (f.name == name) = false := by simpa using hf
      rw [hne, hne', ih]

theorem getVariable?_eq_none_iff_layer :
    sc.getVariable? name = none ↔ name ∉ sc.layer.vars.map (·.1) := by
  rw [getVariable?_eq_none_iff]
  simp [layer]

theorem getFunction?_eq_none_iff_layer :
    sc.getFunction? name = none ↔ name ∉ sc.layer.functions.map (·.1) := by
  unfold getFunction?
  simp [layer]

end Scope

/-- A function is still found after the scope has grown. -/
theorem Scope.Grows.getFunction? {a b : Scope} (h : a.Grows b) {name : String} {f : Signature}
    (hf : a.getFunction? name = some f) : b.getFunction? name = some f := by
  obtain ⟨fs, hfs⟩ := h.functions
  unfold Scope.getFunction? at hf ⊢
  rw [← hfs, List.find?_append, hf]
  rfl

/-! ### Searches along the path -/

namespace ScopeTree

variable (t : ScopeTree) (i : ScopeId)

/-- The scope that a search finds is the first one that is asked for. -/
theorem map_scope_find (p : Scope → Bool) :
    (t.find i p).map (fun r => t.scope r.scope) = (t.around i).find? p := by
  simp only [find, around, List.find?_map]
  induction t.path i with
  | nil => rfl
  | cons j js ih =>
    rw [List.findIdx?_cons, List.find?_cons]
    by_cases hj : p (t.scope j) = true
    · simp [hj]
    · have hfalse : p (t.scope j) = false := by simpa using hj
      simp only [hfalse, Function.comp, Bool.false_eq_true, if_false]
      refine Eq.trans ?_ ih
      cases js.findIdx? fun id => p (t.scope id) with
      | none => rfl
      | some d => simp [Function.comp_def]

/-- Searching for something that a scope has gives what the first scope that has it has. -/
theorem bind_find_isSome {α : Type} (g : Scope → Option α) :
    ((t.find i fun sc => (g sc).isSome).bind fun r => g (t.scope r.scope)) =
      (t.around i).findSome? g := by
  have hlist : ∀ l : List Scope, ((l.find? fun sc => (g sc).isSome).bind g) = l.findSome? g := by
    intro l
    induction l with
    | nil => rfl
    | cons sc l ih =>
      rw [List.find?_cons, List.findSome?_cons]
      cases hsc : g sc with
      | none => simpa using ih
      | some a => simp [hsc]
  rw [← hlist, ← map_scope_find, Option.bind_map]
  rfl

theorem map_lookupVariable (name : String) :
    (t.lookupVariable i name).map (·.2) = (t.around i).findSome? (·.getVariable? name) := by
  rw [← bind_find_isSome]
  unfold lookupVariable
  cases t.find i fun sc => (sc.getVariable? name).isSome with
  | none => rfl
  | some r =>
    show ((((t.scope r.scope).getVariable? name).bind fun v => some (r, v)).map (·.2)) =
      (t.scope r.scope).getVariable? name
    cases (t.scope r.scope).getVariable? name <;> rfl

theorem map_lookupFunction (name : String) :
    (t.lookupFunction i name).map (·.2) = (t.around i).findSome? (·.getFunction? name) := by
  rw [← bind_find_isSome]
  unfold lookupFunction
  cases t.find i fun sc => (sc.getFunction? name).isSome with
  | none => rfl
  | some r =>
    show ((((t.scope r.scope).getFunction? name).bind fun f => some (r, f)).map (·.2)) =
      (t.scope r.scope).getFunction? name
    cases (t.scope r.scope).getFunction? name <;> rfl

theorem map_lookupFunctionExit :
    (t.lookupFunctionExit i).map (·.2) = (t.around i).findSome? (·.function) := by
  rw [← bind_find_isSome]
  unfold lookupFunctionExit
  cases t.find i fun sc => sc.function.isSome with
  | none => rfl
  | some r =>
    show (((t.scope r.scope).function.bind fun m => some (r, m)).map (·.2)) =
      (t.scope r.scope).function
    cases (t.scope r.scope).function <;> rfl

theorem map_lookupLoop :
    (t.lookupLoop i).map (·.2) =
      ((t.around i).find? fun sc => sc.loop.isSome || sc.function.isSome).bind (·.loop) := by
  rw [← map_scope_find, Option.bind_map]
  unfold lookupLoop
  cases t.find i fun sc => sc.loop.isSome || sc.function.isSome with
  | none => rfl
  | some r =>
    show (((t.scope r.scope).loop.bind fun m => some (r, m)).map (·.2)) = (t.scope r.scope).loop
    cases (t.scope r.scope).loop <;> rfl

end ScopeTree

namespace State

variable {s t u : State}

/-- The variable of a name has the type that the context says. -/
theorem varType?_context (s : State) (name : String) :
    s.context.varType? name = (s.tree.lookupVariable s.current name).map (·.2.ty) := by
  have hmap : (s.tree.lookupVariable s.current name).map (·.2.ty) =
      ((s.tree.lookupVariable s.current name).map (·.2)).map (·.ty) := by
    rw [Option.map_map]
    rfl
  rw [hmap, ScopeTree.map_lookupVariable, List.map_findSome?]
  unfold Context.varType? State.context
  rw [List.findSome?_map]
  congr 1
  funext sc
  exact sc.lookup_vars_layer name

/-- The function of a name has the types that the context says. -/
theorem function?_context (s : State) (name : String) :
    s.context.function? name = (s.tree.lookupFunction s.current name).map (·.2.prototype) := by
  have hmap : (s.tree.lookupFunction s.current name).map (·.2.prototype) =
      ((s.tree.lookupFunction s.current name).map (·.2)).map Signature.prototype := by
    rw [Option.map_map]
    rfl
  rw [hmap, ScopeTree.map_lookupFunction, List.map_findSome?]
  unfold Context.function? State.context
  rw [List.findSome?_map]
  congr 1
  funext sc
  exact sc.lookup_functions_layer name

/-- The function around a statement has the result that the context says. -/
theorem result?_context (s : State) :
    s.context.result? = (s.tree.lookupFunctionExit s.current).map (·.2.ret) := by
  have hmap : (s.tree.lookupFunctionExit s.current).map (·.2.ret) =
      ((s.tree.lookupFunctionExit s.current).map (·.2)).map (·.ret) := by
    rw [Option.map_map]
    rfl
  rw [hmap, ScopeTree.map_lookupFunctionExit, List.map_findSome?]
  unfold Context.result? State.context
  rw [List.findSome?_map]
  congr 1
  funext sc
  rw [Function.comp_apply, Function.comp_apply]
  unfold Scope.layer Scope.marker
  cases sc.function with
  | some m => rfl
  | none => cases sc.loop <;> rfl

/-- No scope around a statement is the body of both a function and a loop. -/
def Marked (s : State) : Prop :=
  ∀ sc ∈ s.tree.around s.current, sc.function.isSome → sc.loop = none

/-- A statement is in a loop exactly if the context says so. -/
theorem inLoop_context (hs : s.Marked) :
    s.context.InLoop ↔ (s.tree.lookupLoop s.current).isSome := by
  have hmap : (s.tree.lookupLoop s.current).isSome =
      ((s.tree.lookupLoop s.current).map (·.2)).isSome := by
    rw [Option.isSome_map]
  rw [hmap, ScopeTree.map_lookupLoop]
  unfold Marked at hs
  unfold State.context
  -- along the scopes: the first one that is a loop or a function decides
  generalize s.tree.around s.current = scopes at hs
  induction scopes with
  | nil =>
    refine ⟨fun h => ?_, fun h => ?_⟩
    · cases h
    · cases h
  | cons sc l ih =>
    have ih := ih fun sc hsc => hs sc (List.mem_cons_of_mem _ hsc)
    have hsc := hs sc List.mem_cons_self
    rw [List.map_cons, List.find?_cons]
    cases hf : sc.function with
    | some m =>
      have hloop : sc.loop = none := hsc (by rw [hf]; rfl)
      have hmarker : sc.layer.marker = .function m.ret := by simp [Scope.layer, Scope.marker, hf]
      refine ⟨fun h => ?_, fun h => ?_⟩
      · cases h with
        | here h => exact absurd (hmarker.symm.trans h) (by simp)
        | outer h _ => exact absurd (hmarker.symm.trans h) (by simp)
      · simp [hloop] at h
    | none =>
      cases hl : sc.loop with
      | some x =>
        have hmarker : sc.layer.marker = .loop := by simp [Scope.layer, Scope.marker, hf, hl]
        simp only [Option.isSome_some, Bool.true_or]
        exact ⟨fun _ => by simp [hl], fun _ => .here hmarker⟩
      | none =>
        have hmarker : sc.layer.marker = .plain := by simp [Scope.layer, Scope.marker, hf, hl]
        simp only [Option.isSome_none, Bool.or_self]
        refine Iff.trans ⟨fun h => ?_, fun h => .outer hmarker h⟩ ih
        cases h with
        | here h => exact absurd (hmarker.symm.trans h) (by simp)
        | outer _ h => exact h

/-! ### Changes of the context -/

/-- The scopes around the current one: the scope itself, and then the scopes around its parent. -/
theorem Formed.around_eq_cons (hs : s.Formed) :
    s.tree.around s.current = s.here :: (s.tree.around s.current).tail := by
  unfold ScopeTree.around
  cases hp : s.here.parent with
  | none => rw [hs.ordered.path_eq_singleton hs.current_lt hp]; rfl
  | some p => rw [hs.ordered.path_eq_cons hs.current_lt hp]; rfl

theorem Formed.context_eq_cons (hs : s.Formed) : s.context = s.here.layer :: s.context.tail := by
  unfold State.context
  rw [hs.around_eq_cons]
  rfl

/-- Changes of the current scope alone change the innermost of the scopes around it alone. -/
theorem around_of_others (hs : s.Formed) (ht : t.Formed) (hcurrent : t.current = s.current)
    (hsize : s.tree.size ≤ t.tree.size) (hparent : t.here.parent = s.here.parent)
    (hothers : ∀ i : Nat, i < s.tree.size → i ≠ s.current → t.tree.scope i = s.tree.scope i) :
    t.tree.around t.current = t.here :: (s.tree.around s.current).tail := by
  have hpath : t.tree.path t.current = s.tree.path s.current := by
    rw [hcurrent]
    refine hs.ordered.path_congr ht.ordered _ hs.current_lt (Nat.lt_of_lt_of_le hs.current_lt hsize)
      fun j hj => ?_
    by_cases hne : j = s.current
    · subst hne
      unfold State.here at hparent
      rw [hcurrent] at hparent
      exact hparent
    · rw [hothers j (Nat.lt_of_le_of_lt hj hs.current_lt) hne]
  rw [ht.around_eq_cons]
  unfold ScopeTree.around
  rw [hpath]
  congr 1
  cases hp : s.here.parent with
  | none =>
    rw [hs.ordered.path_eq_singleton hs.current_lt hp]
    rfl
  | some p =>
    have hlt := hs.ordered.parent_lt _ p hs.current_lt hp
    rw [hs.ordered.path_eq_cons hs.current_lt hp, List.map_cons, List.map_cons, List.tail_cons,
      List.tail_cons]
    refine List.map_congr_left fun j hj => ?_
    have hle : j ≤ p := hs.ordered.le_of_mem_path p (Nat.lt_trans hlt hs.current_lt) j hj
    have hj : j < s.current := Nat.lt_of_le_of_lt hle hlt
    exact hothers j (Nat.lt_trans hj hs.current_lt) (Nat.ne_of_lt hj)

theorem Grows.around (hs : s.Formed) (h : s.Grows t) :
    t.tree.around t.current = t.here :: (s.tree.around s.current).tail :=
  around_of_others hs h.formed h.current h.size h.here.parent h.others

theorem around_withScope (hs : s.Formed) (hparent : sc.parent = s.here.parent) :
    (s.withScope sc).tree.around (s.withScope sc).current =
      sc :: (s.tree.around s.current).tail := by
  have hhere := here_withScope hs sc
  have haround := around_of_others hs (hs.withScope hparent) rfl
    (Nat.le_of_eq (ScopeTree.size_set ..).symm) (by rw [hhere]; exact hparent)
    fun i _ hi => scope_withScope_of_ne sc hi
  rw [haround, hhere]

theorem context_withScope (hs : s.Formed) (hparent : sc.parent = s.here.parent) :
    (s.withScope sc).context = sc.layer :: s.context.tail := by
  unfold State.context
  rw [around_withScope hs hparent, List.map_cons, List.map_tail]

/-- Changing the current scope changes the innermost layer. -/
theorem situation_withScope {Γ : Context} {b : Layer} (hs : s.Formed) (hctx : s.context = b :: Γ)
    (sc : Scope) (hparent : sc.parent = s.here.parent) :
    (s.withScope sc).situation = ⟨sc.layer :: Γ, s.session.included⟩ := by
  unfold State.situation
  rw [context_withScope hs hparent, hctx]
  rfl

theorem Formed.layer_here {Γ : Context} {b : Layer} (hs : s.Formed) (hctx : s.context = b :: Γ) :
    s.here.layer = b :=
  (List.cons.inj (hs.context_eq_cons.symm.trans hctx)).1

theorem Grows.context (hs : s.Formed) (h : s.Grows t) :
    t.context = t.here.layer :: s.context.tail := by
  unfold State.context
  rw [h.around hs, List.map_cons, List.map_tail]

/-- The context stays as it is if the layer of the current scope does. -/
theorem Grows.context_eq (hs : s.Formed) (h : s.Grows t) (hlayer : t.here.layer = s.here.layer) :
    t.context = s.context := by
  rw [h.context hs, hlayer, ← hs.context_eq_cons]

theorem Quiet.context (hs : s.Formed) (h : s.Quiet t) : t.context = s.context := by
  refine (h.grows hs).context_eq hs ?_
  unfold Scope.layer Scope.marker
  rw [h.here.vars, h.here.functions, h.here.function, h.here.loop]

/-- What a new scope lies in is the same as before. -/
theorem Inner.around_outer (hs : s.Formed) (h : s.Inner t) :
    t.tree.around s.current = s.tree.around s.current := by
  unfold ScopeTree.around
  have hpath : t.tree.path s.current = s.tree.path s.current := by
    refine hs.ordered.path_congr h.formed.ordered _ hs.current_lt
      (Nat.lt_trans hs.current_lt h.size_lt) fun j hj => ?_
    rw [h.others j (Nat.lt_of_le_of_lt hj hs.current_lt)]
  rw [hpath]
  refine List.map_congr_left fun j hj => ?_
  exact h.others j (hs.ordered.lt_size_of_mem_path hs.current_lt hj)

/-- Inside a new scope, the scopes around it are those from before. -/
theorem Inner.around (hs : s.Formed) (h : s.Inner t) :
    t.tree.around t.current = t.here :: s.tree.around s.current := by
  rw [← h.around_outer hs]
  unfold ScopeTree.around
  rw [h.formed.ordered.path_eq_cons h.formed.current_lt h.parent, List.map_cons]
  rfl

theorem Inner.context (hs : s.Formed) (h : s.Inner t) : t.context = t.here.layer :: s.context := by
  unfold State.context
  rw [h.around hs, List.map_cons]

/-- Going back from a new scope leads back to the context from before. -/
theorem Inner.context_leave (hs : s.Formed) (h : s.Inner t) :
    State.context { t with current := s.current, target := s.target } = s.context :=
  congrArg (List.map Scope.layer) (h.around_outer hs)

/-! ### Readiness -/

/-- What a state needs for the rules to apply: no scope around is both a function and a loop, and
strings can be joined. -/
structure Ready (s : State) : Prop where
  formed : s.Formed
  marked : s.Marked
  joining : ∃ f, (s.tree.scope s.root).getFunction? "append" = some f ∧ f.ret = .string

theorem Ready.grow (hs : s.Ready) (h : s.Grows t) : t.Ready where
  formed := h.formed
  marked sc hsc hf := by
    rw [h.around hs.formed] at hsc
    rcases List.mem_cons.1 hsc with rfl | hsc
    · have hhere : s.here ∈ s.tree.around s.current := by
        rw [hs.formed.around_eq_cons]
        exact List.mem_cons_self
      rw [h.here.loop]
      exact hs.marked s.here hhere (by rw [← h.here.function]; exact hf)
    · exact hs.marked sc (List.mem_of_mem_tail hsc) hf
  joining := by
    obtain ⟨f, hf, hret⟩ := hs.joining
    refine ⟨f, ?_, hret⟩
    rw [h.root]
    refine (h.scope ?_).getFunction? hf
    rw [hs.formed.root_eq]
    exact Nat.lt_of_le_of_lt (Nat.zero_le _) hs.formed.current_lt

theorem Ready.inner (hs : s.Ready) (h : s.Inner t)
    (hmarked : t.here.function.isSome → t.here.loop = none) : t.Ready where
  formed := h.formed
  marked sc hsc hf := by
    rw [h.around hs.formed] at hsc
    rcases List.mem_cons.1 hsc with rfl | hsc
    · exact hmarked hf
    · exact hs.marked sc hsc hf
  joining := by
    obtain ⟨f, hf, hret⟩ := hs.joining
    refine ⟨f, ?_, hret⟩
    rw [h.root, h.others]
    · exact hf
    · rw [hs.formed.root_eq]
      exact Nat.lt_of_le_of_lt (Nat.zero_le _) hs.formed.current_lt

/-- Changes of the current scope keep the state ready, if functions and exits stay. -/
theorem Ready.withScope (hs : s.Ready) (hparent : sc.parent = s.here.parent)
    (hfunctions : sc.functions = s.here.functions) (hfunction : sc.function = s.here.function)
    (hloop : sc.loop = s.here.loop) : (s.withScope sc).Ready where
  formed := hs.formed.withScope hparent
  marked c hc hf := by
    rw [around_withScope hs.formed hparent] at hc
    rcases List.mem_cons.1 hc with rfl | hc
    · have hhere : s.here ∈ s.tree.around s.current := by
        rw [hs.formed.around_eq_cons]
        exact List.mem_cons_self
      rw [hloop]
      exact hs.marked s.here hhere (by rw [← hfunction]; exact hf)
    · exact hs.marked c (List.mem_of_mem_tail hc) hf
  joining := by
    obtain ⟨f, hf, hret⟩ := hs.joining
    refine ⟨f, ?_, hret⟩
    by_cases hroot : s.root = s.current
    · have hself : (s.withScope sc).tree.scope s.root = sc := by
        rw [hroot]
        exact here_withScope hs.formed sc
      show ((s.withScope sc).tree.scope s.root).getFunction? "append" = some f
      rw [hself]
      unfold Scope.getFunction? at hf ⊢
      rw [hfunctions]
      rw [hroot] at hf
      exact hf
    · show ((s.withScope sc).tree.scope s.root).getFunction? "append" = some f
      rw [scope_withScope_of_ne sc hroot]
      exact hf

end State

end KuAsm
