import KuAsm.Compile

/-!
# Runs of actions

An action of a compilation is run in a state.  It ends well with a result and a new state, or it
stops with a failure.  This module says, for each basic action, when a run of it ends well and what
it ends with.

## Main statements

* `Lower.bind_eq_ok` takes a run of a sequence of actions apart at the state in between.
* `Lower.mintLabel_eq_ok`, `Lower.emit_eq_ok`, `Lower.reserve_eq_ok` and the lemmas beside them give
  the state that a basic action ends in.
* `Lower.registerFresh_eq_ok`, `Lower.takeOwnership_fresh_eq_ok` and
  `Lower.takeOwnership_other_eq_ok` take apart how heap values are made and taken over.

`State.here` is the scope that is being compiled, and `State.withScope` puts another scope in its
place; the lemmas speak of the tree of scopes through these two as far as they can.
-/

namespace KuAsm

variable {code : Code} {l : Location} {p : Param} {id : ReclaimId} {ty : ScalarType} {f : Signature}
  {slot : Slot} {name text : String} {a : Unit} {v : Variable}

/-- The scope that is being compiled. -/
def State.here (s : State) : Scope := s.tree.scope s.current

/-- The state with another scope in the place of the one that is being compiled. -/
def State.withScope (s : State) (sc : Scope) : State := { s with tree := s.tree.set s.current sc }

/-- The state inside a new scope whose frame has the size `l`. -/
def State.entered (s : State) (l : Label) : State :=
  { s with
    tree := s.tree.push (some s.current) l
    session := (s.session.mintLabel "frame").2.recordScope
    current := s.tree.size }

/-- The state with lines added to the section that is being written. -/
def State.wrote (s : State) (code : Code) : State :=
  { s with listing := s.listing.append s.target code }

theorem exists_of_isOk {ε α : Type} {x : Except ε α} (h : x.isOk = true) : ∃ a, x = .ok a := by
  cases x with
  | error e => cases h
  | ok a => exact ⟨a, rfl⟩

theorem State.wrote_nil (s : State) : s.wrote [] = s := by
  obtain ⟨session, ⟨data, functions, program, literals⟩, tree, current, root, target, comments⟩ := s
  cases target <;> simp [State.wrote, Listing.append]

theorem Listing.append_append (l : Listing) (x : Section) (a b : Code) :
    (l.append x a).append x b = l.append x (a ++ b) := by
  unfold Listing.append
  cases x <;> simp only [List.append_assoc]

theorem State.wrote_wrote (s : State) (a b : Code) : (s.wrote a).wrote b = s.wrote (a ++ b) := by
  unfold State.wrote
  rw [Listing.append_append]

/-! ### Declarations in a scope -/

namespace Scope

variable {sc sc' : Scope} {name : String}

/-- The variable that a declaration adds to a scope.  It owns nothing yet. -/
def newVariable (sc : Scope) (name : String) (ty : ScalarType) : Variable :=
  ⟨name, ty, ⟨sc.used, ty.size⟩, if ty.isHeap then some ⟨sc.used + ty.size, 4⟩ else none, none⟩

theorem reserve_eq_ok {size : Nat} : sc.reserve size = .ok (slot, sc') ↔
      sc.used + size < wordCount ∧ slot = ⟨sc.used, size⟩ ∧
      sc' = { sc with used := sc.used + size } := by
  unfold reserve
  constructor
  · intro h
    split at h
    · cases h
    · rename_i hlt
      cases h
      exact ⟨Nat.lt_of_not_le hlt, rfl, rfl⟩
  · rintro ⟨hlt, rfl, rfl⟩
    rw [if_neg (Nat.not_le_of_lt hlt)]

/-- The scope after a declaration that fits into it. -/
def declared (sc : Scope) (name : String) (ty : ScalarType) : Scope :=
  { sc with
    used := sc.used + ty.size + if ty.isHeap then 4 else 0
    vars := sc.vars ++ [sc.newVariable name ty] }

theorem declareVariable_eq (hnew : sc.getVariable? name = none) (ty : ScalarType) (l : Location) :
    sc.declareVariable name ty l =
      if wordCount ≤ (sc.declared name ty).used then .error (.fault .addOverflow)
      else .ok (sc.newVariable name ty, sc.declared name ty) := by
  unfold declareVariable declared newVariable reserve
  rw [hnew]
  cases ty.isHeap with
  | false =>
    by_cases hslot : wordCount ≤ sc.used + ty.size <;> simp [hslot]
  | true =>
    by_cases hslot : wordCount ≤ sc.used + ty.size
    · simp [hslot, Nat.le_add_right_of_le hslot]
    · by_cases hcell : wordCount ≤ sc.used + ty.size + 4 <;> simp [hslot, hcell]

theorem declareVariable_of_declared (h : sc.getVariable? name ≠ none) (ty : ScalarType)
    (l : Location) :
    sc.declareVariable name ty l =
      .error (.rejected ⟨.duplicateDeclaration .variable name, l⟩) := by
  unfold declareVariable
  rw [if_pos (Option.isSome_iff_ne_none.2 h)]

/-- A variable is declared if its name is new; the scope then has it behind the others. -/
theorem declareVariable_eq_declared (h : sc.declareVariable name ty l = .ok (v, sc')) :
    sc.getVariable? name = none ∧ v = sc.newVariable name ty ∧ sc' = sc.declared name ty := by
  by_cases hnew : sc.getVariable? name = none
  · rw [declareVariable_eq hnew] at h
    split at h
    · cases h
    · cases h
      exact ⟨hnew, rfl, rfl⟩
  · rw [declareVariable_of_declared hnew] at h
    cases h

theorem declareVariable_eq_ok (h : sc.declareVariable name ty l = .ok (v, sc')) :
    sc.getVariable? name = none ∧ v = sc.newVariable name ty ∧
      ∃ used, sc.used ≤ used ∧ sc' = { sc with used, vars := sc.vars ++ [v] } := by
  obtain ⟨hnew, rfl, rfl⟩ := declareVariable_eq_declared h
  exact ⟨hnew, rfl, _, Nat.le_trans (Nat.le_add_right _ _) (Nat.le_add_right _ _), rfl⟩

/-- A function is declared if its name is new; the scope then has it behind the others. -/
theorem declareFunction_eq_ok : sc.declareFunction f l = .ok sc' ↔
      sc.getFunction? f.name = none ∧ sc' = { sc with functions := sc.functions ++ [f] } := by
  unfold declareFunction
  cases sc.getFunction? f.name with
  | none => simp [eq_comm]
  | some g => simp

theorem getVariable?_eq_none_iff : sc.getVariable? name = none ↔ ∀ v ∈ sc.vars, v.name ≠ name := by
  unfold getVariable?
  simp

/-- A variable that becomes the owner of an id keeps all else. -/
theorem map_vars_bind {α : Type} {f : Variable → α}
    (hf : ∀ v id, f { v with reclaim := some id } = f v) (sc : Scope)
    (name : String) (id : ReclaimId) : (sc.bind name id).vars.map f = sc.vars.map f := by
  unfold bind
  rw [List.map_map]
  refine List.map_congr_left fun v _ => ?_
  rw [Function.comp_apply]
  split
  · exact hf v id
  · rfl

/-- Binding the name that was declared last changes that variable alone. -/
theorem bind_append {vs : List Variable} (id : ReclaimId) (hvars : sc.vars = vs ++ [v])
    (hnew : ∀ w ∈ vs, w.name ≠ v.name) :
    sc.bind v.name id = { sc with vars := vs ++ [{ v with reclaim := some id }] } := by
  have hold :
      vs.map (fun w => if w.name == v.name then { w with reclaim := some id } else w) = vs := by
    rw [List.map_congr_left (g := fun w => w)]
    · simp
    · intro w hw
      rw [if_neg (by simpa using hnew w hw)]
  unfold bind
  rw [hvars, List.map_append, hold]
  simp

end Scope

/-! ### Calls -/

namespace Convention

open Asm Reg

/-- The first argument is pushed last. -/
theorem pushArguments_cons_eq_ok {x : Slot} {rest : List Slot} :
      pushArguments (x :: rest) = .ok code ↔
        ∃ pushes m, pushArguments rest = .ok pushes ∧ Mem.slot ebp ⟨x.offset, argBytes⟩ = .ok m ∧
        code = pushes ++ [push m] := by
  unfold pushArguments
  rw [List.reverse_cons, List.mapM_append]
  cases rest.reverse.mapM fun s => (Mem.slot ebp ⟨s.offset, argBytes⟩).map fun m => push m with
  | error f =>
    constructor
    · exact fun h => nomatch h
    · rintro ⟨_, _, h, -⟩
      cases h
  | ok pushes =>
    cases hm : Mem.slot ebp ⟨x.offset, argBytes⟩ with
    | error f =>
      constructor
      · intro h
        simp only [List.mapM_cons, hm] at h
        exact nomatch h
      · rintro ⟨_, _, -, h, -⟩
        cases h
    | ok m =>
      simp only [List.mapM_cons, hm]
      constructor
      · intro h
        cases h
        exact ⟨_, _, rfl, rfl, rfl⟩
      · rintro ⟨_, _, h, h', rfl⟩
        cases h
        cases h'
        rfl

/-- A call pushes the arguments and the static link, calls, and takes all of that off again. -/
theorem call_eq_ok {slots : List Slot} {depth : Nat} {entry : Label}
    (h : call slots depth entry = .ok code) :
    ∃ pushes bytes, pushArguments slots = .ok pushes ∧ cleanupBytes slots.length = .ok bytes ∧
      code = pushes ++ (chase depth).1 ++
        [push (chase depth).2, Asm.call entry, add esp (.imm bytes)] := by
  unfold call at h
  cases hpushes : pushArguments slots with
  | error e =>
    rw [hpushes] at h
    cases h
  | ok pushes =>
    cases hbytes : cleanupBytes slots.length with
    | error e =>
      rw [hpushes, hbytes] at h
      cases h
    | ok bytes =>
      rw [hpushes, hbytes] at h
      exact ⟨pushes, bytes, rfl, rfl, (Except.ok.inj h).symm⟩

end Convention

namespace Lower

variable {α β : Type} {s t : State}

/-! ### Sequences -/

/-- A sequence ends well exactly if its first action does, and the rest does from there. -/
theorem bind_eq_ok {x : Lower α} {f : α → Lower β} {b : β} :
    (x >>= f) s = .ok b t ↔ ∃ a u, x s = .ok a u ∧ f a u = .ok b t := by
  show EStateM.bind x f s = _ ↔ _
  unfold EStateM.bind
  cases x s with
  | ok a u =>
    constructor
    · intro h
      exact ⟨a, u, rfl, h⟩
    · rintro ⟨_, _, h, hf⟩
      cases h
      exact hf
  | error e u => simp

/-- Behind an action that ends well, the rest goes on from where it ends. -/
theorem bind_of_eq_ok {x : Lower α} {f : α → Lower β} {a : α} (h : x s = .ok a t) :
    (x >>= f) s = f a t := by
  show EStateM.bind x f s = _
  unfold EStateM.bind
  rw [h]

/-- A sequence fails exactly if its first action does, or the rest does from there. -/
theorem bind_eq_error {x : Lower α} {f : α → Lower β} {e : Failure} :
    (x >>= f) s = .error e t ↔ x s = .error e t ∨ ∃ a u, x s = .ok a u ∧ f a u = .error e t := by
  show EStateM.bind x f s = _ ↔ _
  unfold EStateM.bind
  cases x s with
  | ok a u =>
    constructor
    · intro h
      exact .inr ⟨a, u, rfl, h⟩
    · rintro (h | ⟨_, _, h, hf⟩)
      · cases h
      · cases h
        exact hf
  | error e u => simp

theorem pure_eq_ok {a b : α} : (pure a : Lower α) s = .ok b t ↔ b = a ∧ t = s := by
  show EStateM.Result.ok a s = .ok b t ↔ _
  constructor
  · intro h
    cases h
    exact ⟨rfl, rfl⟩
  · rintro ⟨rfl, rfl⟩
    rfl

/-- Reading the state hands it on as it is. -/
theorem get_bind_eq_ok {f : State → Lower β} {b : β} :
    ((get : Lower State) >>= f) s = .ok b t ↔ f s s = .ok b t := Iff.rfl

theorem modifyGet_eq_ok {f : State → α × State} {a : α} :
    (modifyGet f : Lower α) s = .ok a t ↔ a = (f s).1 ∧ t = (f s).2 := by
  show EStateM.Result.ok (f s).1 (f s).2 = .ok a t ↔ _
  constructor
  · intro h
    cases h
    exact ⟨rfl, rfl⟩
  · rintro ⟨rfl, rfl⟩
    rfl

theorem modify_eq_ok {f : State → State} {a : PUnit} :
    (modify f : Lower PUnit) s = .ok a t ↔ t = f s := by
  show (modifyGet fun s => (PUnit.unit, f s) : Lower PUnit) s = .ok a t ↔ _
  rw [modifyGet_eq_ok]
  simp

theorem set_eq_ok {u : State} {a : PUnit} : (set u : Lower PUnit) s = .ok a t ↔ t = u := by
  show EStateM.Result.ok PUnit.unit u = .ok a t ↔ _
  constructor
  · intro h
    cases h
    rfl
  · rintro rfl
    rfl

theorem throw_eq_ok {e : Failure} {a : α} : (throw e : Lower α) s = .ok a t ↔ False := by
  show EStateM.Result.error e s = .ok a t ↔ _
  simp

/-! ### Basic actions -/

theorem reject_eq_ok {c : Cause} {a : α} : (reject c l : Lower α) s = .ok a t ↔ False := throw_eq_ok

theorem checked_eq_ok {x : Except Fault α} {a : α} :
    checked x s = .ok a t ↔ x = .ok a ∧ t = s := by
  cases x with
  | ok b =>
    show (pure b : Lower α) s = .ok a t ↔ _
    rw [pure_eq_ok]
    simp [eq_comm]
  | error f =>
    show (throw (.fault f) : Lower α) s = .ok a t ↔ _
    rw [throw_eq_ok]
    simp

theorem accepted_eq_ok {x : Except Failure α} {a : α} :
    accepted x s = .ok a t ↔ x = .ok a ∧ t = s := by
  cases x with
  | ok b =>
    show (pure b : Lower α) s = .ok a t ↔ _
    rw [pure_eq_ok]
    simp [eq_comm]
  | error f =>
    show (throw f : Lower α) s = .ok a t ↔ _
    rw [throw_eq_ok]
    simp

theorem withSession_eq_ok {f : Session → α × Session} {a : α} :
    withSession f s = .ok a t ↔
      a = (f s.session).1 ∧ t = { s with session := (f s.session).2 } :=
  modifyGet_eq_ok

theorem mintLabel_eq_ok {hint : String} {l : Label} :
    mintLabel hint s = .ok l t ↔
      l = Label.fresh s.session.nextLabel hint ∧
        t = { s with session := (s.session.mintLabel hint).2 } :=
  withSession_eq_ok

theorem mintReclaim_eq_ok : mintReclaim s = .ok id t ↔
      id = ⟨s.session.nextReclaim⟩ ∧ t = { s with session := s.session.mintReclaim.2 } :=
  withSession_eq_ok

theorem tell_eq_ok {n : Notice} :
    tell n s = .ok a t ↔ t = { s with session := s.session.tell n } := by
  rw [tell, withSession_eq_ok]
  simp

theorem remark_eq_ok {c : Code} :
    remark text s = .ok c t ↔ c = (if s.comments then [.comment text] else []) ∧ t = s := by
  rw [remark, get_bind_eq_ok, pure_eq_ok]

theorem emit_eq_ok : emit code s = .ok a t ↔ t = s.wrote code :=
  modify_eq_ok

theorem place_eq_ok {l : Label} : place text s = .ok l t ↔
      l = (s.listing.place s.session text).1 ∧
        t = { s with
          listing := (s.listing.place s.session text).2.1
          session := (s.listing.place s.session text).2.2 } :=
  modifyGet_eq_ok

theorem scope_eq_ok {sc : Scope} : scope s = .ok sc t ↔ sc = s.here ∧ t = s := by
  rw [scope, get_bind_eq_ok, pure_eq_ok]
  rfl

theorem setScope_eq_ok {sc : Scope} : setScope sc s = .ok a t ↔ t = s.withScope sc :=
  modify_eq_ok

/-- The current scope is changed, and what follows finds it changed. -/
theorem changeScope_bind_eq_ok {f : Scope → Scope} {k : Unit → Lower β} {b : β} :
    (scope >>= fun sc => setScope (f sc) >>= k) s = .ok b t ↔
      k () (s.withScope (f s.here)) = .ok b t := by
  rw [bind_of_eq_ok (scope_eq_ok.2 ⟨rfl, rfl⟩), bind_of_eq_ok (setScope_eq_ok.2 rfl)]

/-- A reservation that fails changes nothing. -/
theorem reserve_apply (size : Nat) (s : State) : reserve size s =
    if wordCount ≤ s.here.used + size then .error (.fault .addOverflow) s
    else .ok ⟨s.here.used, size⟩ (s.withScope { s.here with used := s.here.used + size }) := by
  rw [reserve, bind_of_eq_ok (scope_eq_ok.2 ⟨rfl, rfl⟩)]
  unfold Scope.reserve
  split <;> rfl

theorem reserve_eq_ok {size : Nat} : reserve size s = .ok slot t ↔
      s.here.used + size < wordCount ∧ slot = ⟨s.here.used, size⟩ ∧
        t = s.withScope { s.here with used := s.here.used + size } := by
  rw [reserve_apply, ← Nat.not_le]
  split
  · simp [*]
  · simp [*, eq_comm]

/-- A declaration that fails changes nothing. -/
theorem declareVariable_apply (name : String) (ty : ScalarType) (l : Location) (s : State) :
    declareVariable name ty l s =
      match s.here.declareVariable name ty l with
      | .ok (v, sc) => .ok v (s.withScope sc)
      | .error e => .error e s := by
  rw [declareVariable, bind_of_eq_ok (scope_eq_ok.2 ⟨rfl, rfl⟩)]
  cases s.here.declareVariable name ty l <;> rfl

theorem declareVariable_eq_ok : declareVariable name ty l s = .ok v t ↔
      ∃ sc, s.here.declareVariable name ty l = .ok (v, sc) ∧ t = s.withScope sc := by
  rw [declareVariable_apply]
  cases s.here.declareVariable name ty l with
  | error e => simp
  | ok x =>
    constructor
    · intro h
      cases h
      exact ⟨_, rfl, rfl⟩
    · rintro ⟨sc, hx, rfl⟩
      cases hx
      rfl

theorem own_eq_ok : own name id s = .ok a t ↔ t = s.withScope (s.here.bind name id) := by
  simp only [own, bind_eq_ok, scope_eq_ok, setScope_eq_ok]
  constructor
  · rintro ⟨_, _, ⟨rfl, rfl⟩, rfl⟩
    rfl
  · rintro rfl
    exact ⟨_, _, ⟨rfl, rfl⟩, rfl⟩

theorem frameSlot_eq_ok {m : Mem} :
    frameSlot slot s = .ok m t ↔ Mem.slot .ebp slot = .ok m ∧ t = s :=
  checked_eq_ok

theorem pushScope_eq_ok {frameSize : Label} {id : ScopeId} :
    pushScope frameSize s = .ok id t ↔
      id = s.tree.size ∧
        t = { s with
          tree := s.tree.push (some s.current) frameSize
          session := s.session.recordScope } := by
  rw [pushScope, get_bind_eq_ok]
  simp only [bind_eq_ok, set_eq_ok, pure_eq_ok]
  constructor
  · rintro ⟨_, _, rfl, rfl, rfl⟩
    exact ⟨rfl, rfl⟩
  · rintro ⟨rfl, rfl⟩
    exact ⟨⟨⟩, _, rfl, rfl, rfl⟩

theorem resolveVariable_eq_ok {x : Resolved × Variable} : resolveVariable name l s = .ok x t ↔
      s.tree.lookupVariable s.current name = some x ∧ t = s := by
  rw [resolveVariable, get_bind_eq_ok]
  cases s.tree.lookupVariable s.current name with
  | none => simp [reject_eq_ok]
  | some y => simp [pure_eq_ok, eq_comm]

theorem resolveFunction_eq_ok {x : Resolved × Signature} : resolveFunction name l s = .ok x t ↔
      s.tree.lookupFunction s.current name = some x ∧ t = s := by
  rw [resolveFunction, get_bind_eq_ok]
  cases s.tree.lookupFunction s.current name with
  | none => simp [reject_eq_ok]
  | some y => simp [pure_eq_ok, eq_comm]

theorem libraryFunction?_eq_ok {x : Option Signature} :
    libraryFunction? name s = .ok x t ↔ x = (s.tree.scope s.root).getFunction? name ∧ t = s := by
  rw [libraryFunction?, get_bind_eq_ok, pure_eq_ok]

theorem depthToRoot_eq_ok {d : Nat} :
    depthToRoot s = .ok d t ↔ d = s.tree.depthToRoot s.current ∧ t = s := by
  rw [depthToRoot, get_bind_eq_ok, pure_eq_ok]

theorem expect_eq_ok {x : Lower Lowered} {v : Lowered} :
    expect ty l x s = .ok v t ↔ x s = .ok v t ∧ v.ty = ty := by
  simp only [expect, bind_eq_ok]
  constructor
  · rintro ⟨w, u, hx, h⟩
    split at h
    · rename_i hty
      obtain ⟨rfl, rfl⟩ := pure_eq_ok.1 h
      exact ⟨hx, hty⟩
    · exact (reject_eq_ok.1 h).elim
  · rintro ⟨hx, hty⟩
    refine ⟨v, t, hx, ?_⟩
    rw [if_pos hty]
    rfl

theorem enclosingLoop_eq_ok {statement : String} {x : Resolved × LoopExit} :
    enclosingLoop statement l s = .ok x t ↔ s.tree.lookupLoop s.current = some x ∧ t = s := by
  rw [enclosingLoop, get_bind_eq_ok]
  cases s.tree.lookupLoop s.current with
  | none => simp [reject_eq_ok]
  | some y => simp [pure_eq_ok, eq_comm]

/-! ### Declarations and parameters -/

open Asm Reg

/-- A declaration of a value that is not on the heap computes the value, declares the name and
stores the value. -/
theorem declare_plain_eq_ok {value : Lower Lowered} (hty : ty.isHeap = false)
    (h : declare name ty l value s = .ok a t) : ∃ v u sc note m, value s = .ok v u ∧
      u.here.declareVariable name ty l = .ok (u.here.newVariable name ty, sc) ∧
      remark (":" ++ name ++ "/" ++ ty.name) (u.withScope sc) = .ok note (u.withScope sc) ∧
      Mem.slot ebp ⟨u.here.used, ty.size⟩ = .ok m ∧
      t = (u.withScope sc).wrote (note ++ v.code ++ [store m eax]) := by
  obtain ⟨v, u, hv, h⟩ := bind_eq_ok.1 h
  obtain ⟨x, u₁, hx, h⟩ := bind_eq_ok.1 h
  obtain ⟨sc, hsc, rfl⟩ := declareVariable_eq_ok.1 hx
  obtain ⟨note, u₂, hnote, h⟩ := bind_eq_ok.1 h
  obtain rfl := (remark_eq_ok.1 hnote).2
  obtain ⟨m, u₃, hslot, h⟩ := bind_eq_ok.1 h
  obtain ⟨hm, rfl⟩ := frameSlot_eq_ok.1 hslot
  obtain ⟨-, rfl, -⟩ := Scope.declareVariable_eq_ok hsc
  have hcell : (u.here.newVariable name ty).sizeCell = none := by
    unfold Scope.newVariable
    rw [hty]
    rfl
  rw [hcell] at h
  exact ⟨v, u, sc, note, m, hv, hsc, hnote, hm, emit_eq_ok.1 h⟩

/-- A declaration of a string computes the value, declares the name, settles what the variable takes
over and under which id, and stores the value and the size of what the variable owns. -/
theorem declare_heap_eq_ok {value : Lower Lowered} (hty : ty.isHeap = true)
    (h : declare name ty l value s = .ok a t) :
    ∃ v u sc note m c taken id? w id x, value s = .ok v u ∧
      u.here.declareVariable name ty l = .ok (u.here.newVariable name ty, sc) ∧
      remark (":" ++ name ++ "/" ++ ty.name) (u.withScope sc) = .ok note (u.withScope sc) ∧
      Mem.slot ebp ⟨u.here.used, ty.size⟩ = .ok m ∧
      Mem.slot ebp ⟨u.here.used + ty.size, 4⟩ = .ok c ∧
      takeOwnership v.ownership name l (u.withScope sc) = .ok (taken, id?) w ∧
      id?.getDM mintReclaim w = .ok id x ∧
      t = (x.withScope (x.here.bind name id)).wrote
        (note ++ v.code ++ [store m eax] ++ taken ++ [store c edx]) := by
  obtain ⟨v, u, hv, h⟩ := bind_eq_ok.1 h
  obtain ⟨x, u₁, hx, h⟩ := bind_eq_ok.1 h
  obtain ⟨sc, hsc, rfl⟩ := declareVariable_eq_ok.1 hx
  obtain ⟨note, u₂, hnote, h⟩ := bind_eq_ok.1 h
  obtain rfl := (remark_eq_ok.1 hnote).2
  obtain ⟨m, u₃, hslot, h⟩ := bind_eq_ok.1 h
  obtain ⟨hm, rfl⟩ := frameSlot_eq_ok.1 hslot
  obtain ⟨-, rfl, -⟩ := Scope.declareVariable_eq_ok hsc
  have hcell : (u.here.newVariable name ty).sizeCell = some ⟨u.here.used + ty.size, 4⟩ := by
    unfold Scope.newVariable
    rw [hty]
    rfl
  rw [hcell] at h
  obtain ⟨⟨taken, id?⟩, w, htaken, h⟩ := bind_eq_ok.1 h
  obtain ⟨id, x, hid, h⟩ := bind_eq_ok.1 h
  obtain ⟨c, x₁, hsize, hrest⟩ := bind_eq_ok.1 h
  obtain ⟨hc, rfl⟩ := frameSlot_eq_ok.1 hsize
  obtain ⟨_, x₂, hown, hemit⟩ := bind_eq_ok.1 hrest
  obtain rfl := own_eq_ok.1 hown
  exact ⟨v, u, sc, note, m, c, taken, id?, w, id, x₁, hv, hsc, hnote, hm, hc, htaken, hid,
    emit_eq_ok.1 hemit⟩

/-- An assignment finds the variable and computes the value; what it writes depends on whether the
variable is a string, and on whether it is assigned to itself. -/
theorem assign_eq_ok {value : ScalarType → Lower Lowered} (h : assign name l value s = .ok a t) :
    ∃ r x v u, resolveVariable name l s = .ok (r, x) s ∧ value x.ty s = .ok v u ∧
      ((x.sizeCell = none ∧ ∃ m, Mem.slot (Convention.chase r.depth).2 x.slot = .ok m ∧
          t = u.wrote (v.code ++ (Convention.chase r.depth).1 ++ [store m eax])) ∨
        (∃ cell, x.sizeCell = some cell ∧ x.reclaim.map Ownership.borrowed = some v.ownership ∧
          ∃ note, remark ("`" ++ name ++ "` assigned to itself") u = .ok note u ∧
          t = u.wrote note) ∨
        ∃ cell, x.sizeCell = some cell ∧ x.reclaim.map Ownership.borrowed ≠ some v.ownership ∧
          replaceString x cell r.depth v l u = .ok a t) := by
  obtain ⟨⟨r, x⟩, s', hx, h₁⟩ := bind_eq_ok.1 h
  obtain rfl := (resolveVariable_eq_ok.1 hx).2
  obtain ⟨v, u, hv, h₂⟩ := bind_eq_ok.1 h₁
  refine ⟨r, x, v, u, hx, hv, ?_⟩
  cases hcell : x.sizeCell with
  | none =>
    rw [hcell] at h₂
    obtain ⟨m, u', hm, h₃⟩ := bind_eq_ok.1 h₂
    obtain ⟨hm', rfl⟩ := checked_eq_ok.1 hm
    exact .inl ⟨rfl, m, hm', emit_eq_ok.1 h₃⟩
  | some cell =>
    rw [hcell] at h₂
    change (if _ then _ else _ : Lower Unit) u = _ at h₂
    by_cases hself : x.reclaim.map Ownership.borrowed = some v.ownership
    · rw [if_pos hself] at h₂
      obtain ⟨note, u', hnote, h₃⟩ := bind_eq_ok.1 h₂
      obtain rfl := (remark_eq_ok.1 hnote).2
      exact .inr (.inl ⟨cell, rfl, hself, note, hnote, emit_eq_ok.1 h₃⟩)
    · rw [if_neg hself] at h₂
      exact .inr (.inr ⟨cell, rfl, hself, h₂⟩)

/-- A parameter is declared, and gets an id of its own if it is a string. -/
theorem bindParam_eq_ok {index : Nat} (h : bindParam l index p s = .ok code t) :
    ∃ sc disp m, s.here.declareVariable p.name p.ty l = .ok (s.here.newVariable p.name p.ty, sc) ∧
      Convention.paramDisp index = .ok disp ∧ Mem.slot ebp ⟨s.here.used, p.ty.size⟩ = .ok m ∧
      code = [mov eax (Mem.dword ebp disp), store m eax] ∧
      adopt p (s.withScope sc) = .ok () t := by
  obtain ⟨x, u, hx, h⟩ := bind_eq_ok.1 h
  obtain ⟨sc, hsc, rfl⟩ := declareVariable_eq_ok.1 hx
  obtain ⟨disp, u₁, hparam, h⟩ := bind_eq_ok.1 h
  obtain ⟨hdisp, rfl⟩ := checked_eq_ok.1 hparam
  obtain ⟨m, u₂, hslot, h⟩ := bind_eq_ok.1 h
  obtain ⟨hm, rfl⟩ := frameSlot_eq_ok.1 hslot
  obtain ⟨_, u₃, hadopt, h⟩ := bind_eq_ok.1 h
  obtain ⟨rfl, rfl⟩ := pure_eq_ok.1 h
  obtain ⟨-, rfl, -⟩ := Scope.declareVariable_eq_ok hsc
  exact ⟨sc, disp, m, hsc, hdisp, hm, rfl, hadopt⟩

theorem adopt_plain_eq_ok (hty : p.ty.isHeap = false) : adopt p s = .ok a t ↔ t = s := by
  unfold adopt
  rw [hty]
  show (pure () : Lower Unit) s = .ok a t ↔ _
  simp [pure_eq_ok]

theorem adopt_heap_eq_ok (hty : p.ty.isHeap = true) : adopt p s = .ok a t ↔
      ∃ u id, mintReclaim s = .ok id u ∧ t = u.withScope (u.here.bind p.name id) := by
  unfold adopt
  rw [hty]
  show (mintReclaim >>= fun id => own p.name id) s = .ok a t ↔ _
  simp only [bind_eq_ok, own_eq_ok]
  constructor
  · rintro ⟨id, u, hid, rfl⟩
    exact ⟨u, id, hid, rfl⟩
  · rintro ⟨u, id, hid, rfl⟩
    exact ⟨id, u, hid, rfl⟩

/-! ### Blocks and functions -/

/-- Opening a block writes its prologue and leads into a new scope. -/
theorem openBlock_eq_ok {id : ScopeId} :
    openBlock s = .ok id t ↔
      id = s.tree.size ∧
        t = (s.wrote (Convention.blockPrologue (.fresh s.session.nextLabel "frame"))).entered
          (.fresh s.session.nextLabel "frame") := by
  simp only [openBlock, bind_eq_ok, mintLabel_eq_ok, pushScope_eq_ok, emit_eq_ok, modify_eq_ok,
    pure_eq_ok]
  constructor
  · rintro ⟨_, _, ⟨rfl, rfl⟩, _, _, ⟨rfl, rfl⟩, _, _, rfl, _, _, rfl, rfl, rfl⟩
    exact ⟨rfl, rfl⟩
  · rintro ⟨rfl, rfl⟩
    exact ⟨_, _, ⟨rfl, rfl⟩, _, _, ⟨rfl, rfl⟩, (), _, rfl, ⟨⟩, _, rfl, rfl, rfl⟩

/-- Closing a block leaves its frame if its end can be reached, defines the size of the frame, and
goes back to the scope around it. -/
theorem closeBlock_eq_ok {reachable : Bool} (h : closeBlock reachable s = .ok a t) :
    ∃ u v, (if reachable then exitFrame s.current [] else pure ()) s = .ok () u ∧
      defineFrameSize s.current u = .ok () v ∧
      t = { v with current := (v.tree.scope s.current).parent.getD v.root } := by
  cases reachable with
  | false =>
    obtain ⟨_, v, hdef, h₁⟩ := bind_eq_ok.1 (get_bind_eq_ok.1 h)
    exact ⟨s, v, rfl, hdef, modify_eq_ok.1 h₁⟩
  | true =>
    obtain ⟨_, u, hleave, h₁⟩ := bind_eq_ok.1 (get_bind_eq_ok.1 h)
    obtain ⟨_, v, hdef, h₂⟩ := bind_eq_ok.1 h₁
    exact ⟨u, v, hleave, hdef, modify_eq_ok.1 h₂⟩

/-- Starting a round makes four labels, writes the first of them and opens a block whose scope has
the exits of the loop. -/
theorem openLoop_eq_ok {f : LoopFrame} (h : openLoop s = .ok f t) :
    ∃ top next exit done u₁ u₂ u₃ u₄ id v, mintLabel "while_top" s = .ok top u₁ ∧
      mintLabel "while_continue" u₁ = .ok next u₂ ∧ mintLabel "while_exit" u₂ = .ok exit u₃ ∧
      mintLabel "while_done" u₃ = .ok done u₄ ∧ openBlock (u₄.wrote [.label top]) = .ok id v ∧
      f = ⟨id, ⟨top, next, exit⟩, done⟩ ∧
      t = v.withScope { v.here with loop := some ⟨top, next, exit⟩ } := by
  obtain ⟨top, u₁, htop, h₁⟩ := bind_eq_ok.1 h
  obtain ⟨next, u₂, hnext, h₂⟩ := bind_eq_ok.1 h₁
  obtain ⟨exit, u₃, hexit, h₃⟩ := bind_eq_ok.1 h₂
  obtain ⟨done, u₄, hdone, h₄⟩ := bind_eq_ok.1 h₃
  obtain ⟨_, u, hemit, h₅⟩ := bind_eq_ok.1 h₄
  obtain rfl := emit_eq_ok.1 hemit
  obtain ⟨id, v, hopen, h₆⟩ := bind_eq_ok.1 h₅
  obtain ⟨sc, v', hsc, h₇⟩ := bind_eq_ok.1 h₆
  obtain ⟨rfl, rfl⟩ := scope_eq_ok.1 hsc
  obtain ⟨_, w, hset, h₈⟩ := bind_eq_ok.1 h₇
  obtain ⟨rfl, rfl⟩ := pure_eq_ok.1 h₈
  obtain rfl := setScope_eq_ok.1 hset
  exact ⟨top, next, exit, done, u₁, u₂, u₃, u₄, id, v', htop, hnext, hexit, hdone, hopen, rfl, rfl⟩

/-- The size of a frame is defined behind everything that was written before. -/
theorem defineFrameSize_eq_ok {id : ScopeId} (h : defineFrameSize id s = .ok a t) :
    ∃ bytes, (s.tree.scope id).frameBytes = .ok bytes ∧
      t = s.wrote [.constant (s.tree.scope id).frameSize bytes] := by
  obtain ⟨bytes, u, hbytes, hemit⟩ := bind_eq_ok.1 (get_bind_eq_ok.1 h)
  obtain ⟨hok, rfl⟩ := checked_eq_ok.1 hbytes
  exact ⟨bytes, hok, emit_eq_ok.1 hemit⟩

/-- The end of a loop leaves the frame of a round twice: on the way back to the top, and on the way
out. -/
theorem closeLoop_eq_ok {f : LoopFrame} (h : closeLoop f s = .ok a t) :
    ∃ u v, exitFrame f.scope [] s = .ok () u ∧
      closeBlock true (u.wrote [jmp f.exits.top, .label f.done]) = .ok () v ∧
      t = v.wrote [.label f.exits.exit] := by
  obtain ⟨_, u, hexit, h₁⟩ := bind_eq_ok.1 h
  obtain ⟨_, u₁, hjump, h₂⟩ := bind_eq_ok.1 h₁
  obtain rfl := emit_eq_ok.1 hjump
  obtain ⟨_, u₂, hdone, h₃⟩ := bind_eq_ok.1 h₂
  obtain rfl := emit_eq_ok.1 hdone
  obtain ⟨_, v, hclose, hlabel⟩ := bind_eq_ok.1 h₃
  rw [State.wrote_wrote] at hclose
  exact ⟨u, v, hexit, hclose, emit_eq_ok.1 hlabel⟩

/-- The parts of a loop. -/
theorem loop_eq_ok {condition : Lower Lowered} {body post : Lower Bool}
    (h : loop l condition body post s = .ok a t) :
    ∃ f u v jumped w stepped x, openLoop s = .ok f u ∧ branchUnless f.done l condition u =
      .ok () v ∧ body v = .ok jumped w ∧ post (w.wrote [.label f.exits.next]) = .ok stepped x ∧
      closeLoop f x = .ok () t := by
  obtain ⟨f, u, hopen, h₁⟩ := bind_eq_ok.1 h
  obtain ⟨_, v, hbranch, h₂⟩ := bind_eq_ok.1 h₁
  obtain ⟨jumped, w, hrun, h₃⟩ := bind_eq_ok.1 h₂
  obtain ⟨_, y, hnext, h₄⟩ := bind_eq_ok.1 h₃
  obtain rfl := emit_eq_ok.1 hnext
  obtain ⟨stepped, x, hstep, hclose⟩ := bind_eq_ok.1 h₄
  exact ⟨f, u, v, jumped, w, stepped, x, hopen, hbranch, hrun, hstep, hclose⟩

/-- Declaring a function makes three labels and adds its signature to the current scope. -/
theorem announce_eq_ok {params : List Param} {ret : ScalarType} {skip : Label}
    (h : announce name params ret l s = .ok (f, skip) t) :
        f = ⟨name, ret, params, .fresh s.session.nextLabel name,
          .fresh (s.session.nextLabel + 1) ("ret_" ++ name)⟩ ∧
      skip = .fresh (s.session.nextLabel + 2) ("skip_" ++ name) ∧
      s.here.getFunction? name = none ∧
      t = { s.withScope { s.here with functions := s.here.functions ++ [f] } with
        session := (((s.session.mintLabel name).2.mintLabel ("ret_" ++ name)).2.mintLabel
          ("skip_" ++ name)).2 } := by
  obtain ⟨entry, u₁, hentry, h₁⟩ := bind_eq_ok.1 h
  obtain ⟨rfl, rfl⟩ := mintLabel_eq_ok.1 hentry
  obtain ⟨returnLabel, u₂, hreturn, h₂⟩ := bind_eq_ok.1 h₁
  obtain ⟨rfl, rfl⟩ := mintLabel_eq_ok.1 hreturn
  obtain ⟨sc, u₃, hsc, h₃⟩ := bind_eq_ok.1 h₂
  obtain ⟨rfl, rfl⟩ := scope_eq_ok.1 hsc
  obtain ⟨sc', u₄, hdecl, h₄⟩ := bind_eq_ok.1 h₃
  obtain ⟨hdecl', rfl⟩ := accepted_eq_ok.1 hdecl
  obtain ⟨hnew, rfl⟩ := Scope.declareFunction_eq_ok.1 hdecl'
  obtain ⟨_, u₅, hset, h₅⟩ := bind_eq_ok.1 h₄
  obtain rfl := setScope_eq_ok.1 hset
  obtain ⟨skip', u₆, hskip, h₆⟩ := bind_eq_ok.1 h₅
  obtain ⟨rfl, rfl⟩ := mintLabel_eq_ok.1 hskip
  obtain ⟨hpair, rfl⟩ := pure_eq_ok.1 h₆
  obtain ⟨rfl, rfl⟩ := Prod.mk.inj hpair
  exact ⟨rfl, rfl, hnew, rfl⟩

/-- The scope of a function body starts with the two slots of the result, and is written to the
section of functions. -/
theorem openBody_eq_ok {exit : FunctionExit} (h : openBody f s = .ok exit t) :
    exit = ⟨f.ret, f.returnLabel, ⟨0, 4⟩, ⟨4, 4⟩⟩ ∧
      t = { s.entered (.fresh s.session.nextLabel "frame") with target := .functions }.withScope
        { Scope.fresh (some s.current) (.fresh s.session.nextLabel "frame") with
          used := 8, function := some exit } := by
  obtain ⟨frameSize, u₁, hframe, h₁⟩ := bind_eq_ok.1 h
  obtain ⟨rfl, rfl⟩ := mintLabel_eq_ok.1 hframe
  obtain ⟨id, u₂, hpush, h₂⟩ := bind_eq_ok.1 h₁
  obtain ⟨rfl, rfl⟩ := pushScope_eq_ok.1 hpush
  obtain ⟨_, u₃, hmod, h₃⟩ := bind_eq_ok.1 h₂
  obtain rfl := modify_eq_ok.1 hmod
  obtain ⟨result, u₄, hresult, h₄⟩ := bind_eq_ok.1 h₃
  obtain ⟨-, rfl, rfl⟩ := reserve_eq_ok.1 hresult
  obtain ⟨resultSize, u₅, hsize, h₅⟩ := bind_eq_ok.1 h₄
  obtain ⟨-, rfl, rfl⟩ := reserve_eq_ok.1 hsize
  have h₆ := changeScope_bind_eq_ok.1 h₅
  obtain ⟨rfl, rfl⟩ := pure_eq_ok.1 h₆
  simp [State.entered, State.here, State.withScope, ScopeTree.scope, ScopeTree.set, ScopeTree.push,
    ScopeTree.size, Scope.fresh]

/-- The text of a function up to its body: the jump over it, its entry, its prologue and the copies
of its arguments. -/
theorem openFunction_eq_ok {params : List Param} {ret : ScalarType} {g : FunctionFrame}
    (h : openFunction name params ret l s = .ok g t) :
    ∃ f skip u exit v note copies w, announce name params ret l s = .ok (f, skip) u ∧
      openBody f u = .ok exit v ∧ remark ("fn " ++ name) v = .ok note v ∧
      bindParams l 0 params v = .ok copies w ∧
      g = ⟨exit, w.current, skip, u.current, u.target⟩ ∧
      t = w.wrote (note ++ [jmp skip, .label f.entry] ++
        Convention.functionPrologue w.here.frameSize ++ copies) := by
  obtain ⟨⟨f, skip⟩, u, hannounce, h₁⟩ := bind_eq_ok.1 h
  obtain ⟨exit, v, hopen, h₂⟩ := bind_eq_ok.1 (get_bind_eq_ok.1 h₁)
  obtain ⟨note, v', hnote, h₃⟩ := bind_eq_ok.1 h₂
  obtain rfl := (remark_eq_ok.1 hnote).2
  obtain ⟨copies, w, hcopies, h₄⟩ := bind_eq_ok.1 h₃
  obtain ⟨_, x, hemit, h₅⟩ := bind_eq_ok.1 (get_bind_eq_ok.1 h₄)
  obtain ⟨rfl, rfl⟩ := pure_eq_ok.1 h₅
  exact ⟨f, skip, u, exit, v', note, copies, w, hannounce, hopen, hnote, hcopies, rfl,
    emit_eq_ok.1 hemit⟩

/-- The end of a function fetches the result, and of a heap value its size too. -/
theorem fetchResult_eq_ok {m : FunctionExit} (h : fetchResult m s = .ok code t) :
    t = s ∧ ∃ a, Mem.slot ebp m.result = .ok a ∧
      (code = [mov eax a] ∨ ∃ z, Mem.slot ebp m.resultSize = .ok z ∧
        code = [mov eax a, mov edx z]) := by
  obtain ⟨a, u, hframe, h₁⟩ := bind_eq_ok.1 h
  obtain ⟨ha, rfl⟩ := frameSlot_eq_ok.1 hframe
  split at h₁
  · obtain ⟨z, u', hframe', h₂⟩ := bind_eq_ok.1 h₁
    obtain ⟨hz, rfl⟩ := frameSlot_eq_ok.1 hframe'
    obtain ⟨rfl, rfl⟩ := pure_eq_ok.1 h₂
    exact ⟨rfl, a, ha, .inr ⟨z, hz, rfl⟩⟩
  · obtain ⟨rfl, rfl⟩ := pure_eq_ok.1 h₁
    exact ⟨rfl, a, ha, .inl rfl⟩

/-- The end of a function: its epilogue, the size of its frame, and the place behind it. -/
theorem closeFunction_eq_ok {g : FunctionFrame} (h : closeFunction name g s = .ok a t) :
    ∃ code result bytes, fetchResult g.exit s = .ok result s ∧ (s.tree.scope g.scope).frameBytes =
      .ok bytes ∧ code = [.label g.exit.returnLabel] ++ result ++ (Convention.functionEpilogue ++
        [.constant (s.tree.scope g.scope).frameSize bytes, .label g.skip]) ∧
      t = { s.wrote code with
        current := g.outer, target := g.target, session := s.session.recordFunction name } := by
  obtain ⟨result, t₁, hfetch, h₁⟩ := bind_eq_ok.1 h
  obtain ⟨rfl, -⟩ := fetchResult_eq_ok hfetch
  obtain ⟨_, t₂, hemit, h₂⟩ := bind_eq_ok.1 h₁
  obtain rfl := emit_eq_ok.1 hemit
  obtain ⟨_, t₃, hsize, h₃⟩ := bind_eq_ok.1 h₂
  obtain ⟨bytes, hbytes, rfl⟩ := defineFrameSize_eq_ok hsize
  obtain ⟨_, t₄, hskip, h₄⟩ := bind_eq_ok.1 h₃
  obtain rfl := emit_eq_ok.1 hskip
  obtain ⟨_, t₅, hback, hcount⟩ := bind_eq_ok.1 h₄
  obtain rfl := modify_eq_ok.1 hback
  obtain ⟨-, rfl⟩ := withSession_eq_ok.1 hcount
  refine ⟨_, result, bytes, hfetch, hbytes, rfl, ?_⟩
  rw [State.wrote_wrote, State.wrote_wrote, List.append_assoc, List.append_assoc]
  rfl

end Lower

open Asm Reg Lower

/-! ### Comments and releases -/

/-- A comment, or nothing. -/
def Code.IsNote (code : Code) : Prop := code = [] ∨ ∃ text, code = [.comment text]

theorem Lower.isNote_of_remark {s t : State} (h : remark text s = .ok code t) :
    Code.IsNote code ∧ t = s := by
  obtain ⟨rfl, rfl⟩ := remark_eq_ok.1 h
  refine ⟨?_, rfl⟩
  cases t.comments with
  | true => exact .inr ⟨text, rfl⟩
  | false => exact .inl rfl

/-- The lines that release what a pair describes, up to the label behind them. -/
def releaseCode (address size : Mem) (skip : Label) : Code :=
  [mov ecx size, test ecx ecx, jcc .z skip, mov ebx address,
    mov eax (.imm Convention.sysUnmap), kernel]

/-- The lines that release a value, with a label behind them. -/
theorem Lower.release_eq_ok {base : Reg} {e : Staged} {s t : State}
    (h : release base id e s = .ok code t) :
    ∃ skip note a z u, mintLabel "freed" s = .ok skip u ∧ Code.IsNote note ∧
      Mem.slot base e.address = .ok a ∧ Mem.slot base e.size = .ok z ∧
      t = { u with session := u.session.recordFree } ∧
      code = note ++ (releaseCode a z skip ++ [.label skip]) := by
  obtain ⟨skip, u, hmint, h₁⟩ := bind_eq_ok.1 h
  obtain ⟨note, u₁, hremark, h₂⟩ := bind_eq_ok.1 h₁
  obtain ⟨hnote, rfl⟩ := isNote_of_remark hremark
  obtain ⟨z, u₂, hcheckedz, h₃⟩ := bind_eq_ok.1 h₂
  obtain ⟨hz, rfl⟩ := checked_eq_ok.1 hcheckedz
  obtain ⟨a, u₃, hcheckeda, h₄⟩ := bind_eq_ok.1 h₃
  obtain ⟨ha, rfl⟩ := checked_eq_ok.1 hcheckeda
  obtain ⟨_, u₄, hrecord, h₅⟩ := bind_eq_ok.1 h₄
  obtain ⟨-, rfl⟩ := withSession_eq_ok.1 hrecord
  obtain ⟨rfl, rfl⟩ := pure_eq_ok.1 h₅
  exact ⟨skip, note, a, z, u₃, hmint, hnote, ha, hz, rfl, rfl⟩

/-! ### Making and taking over heap values -/

namespace Lower

variable {id? : Option ReclaimId} {s t : State}

/-- A new heap value gets the next id and two slots, and enters the free set of the current
scope. -/
theorem registerFresh_eq_ok (h : registerFresh s = .ok (code, id) t) :
    id = ⟨s.session.nextReclaim⟩ ∧ ∃ address size u v m c note,
      reserve 4 { s with session := s.session.mintReclaim.2 } = .ok address u ∧
      reserve 4 u = .ok size v ∧
      Mem.slot ebp address = .ok m ∧ Mem.slot ebp size = .ok c ∧ Code.IsNote note ∧
      code = [store m eax, store c edx] ++ note ∧
      t = v.withScope { v.here with freeSet := v.here.freeSet.insert id ⟨address, size⟩ } := by
  obtain ⟨id', u₁, hmint, h₁⟩ := bind_eq_ok.1 h
  obtain ⟨rfl, rfl⟩ := mintReclaim_eq_ok.1 hmint
  obtain ⟨address, u, haddress, h₂⟩ := bind_eq_ok.1 h₁
  obtain ⟨size, v, hsize, h₃⟩ := bind_eq_ok.1 h₂
  obtain ⟨m, u₂, hm, h₄⟩ := bind_eq_ok.1 (changeScope_bind_eq_ok.1 h₃)
  obtain ⟨hm', rfl⟩ := frameSlot_eq_ok.1 hm
  obtain ⟨c, u₃, hc, h₅⟩ := bind_eq_ok.1 h₄
  obtain ⟨hc', rfl⟩ := frameSlot_eq_ok.1 hc
  obtain ⟨note, u₄, hremark, h₆⟩ := bind_eq_ok.1 h₅
  obtain ⟨hnote, rfl⟩ := isNote_of_remark hremark
  obtain ⟨hpair, rfl⟩ := pure_eq_ok.1 h₆
  obtain ⟨rfl, rfl⟩ := Prod.mk.inj hpair
  exact ⟨rfl, address, size, u, v, m, c, note, haddress, hsize, hm', hc', hnote, rfl, rfl⟩

/-- A new heap value that is taken over leaves the free set. -/
theorem takeOwnership_fresh_eq_ok (h : takeOwnership (.fresh id) name l s = .ok (code, id?) t) :
    code = [] ∧ id? = some id ∧
      t = { s.withScope { s.here with freeSet := s.here.freeSet.erase id } with
        session := s.session.tell (.ownershipTaken l name id) } := by
  obtain ⟨_, u, htell, h₁⟩ := bind_eq_ok.1 (changeScope_bind_eq_ok.1 h)
  obtain rfl := tell_eq_ok.1 htell
  obtain ⟨hpair, rfl⟩ := pure_eq_ok.1 h₁
  obtain ⟨rfl, rfl⟩ := Prod.mk.inj hpair
  exact ⟨rfl, rfl, rfl⟩

/-- Of any other value only the pointer is taken over. -/
theorem takeOwnership_other_eq_ok {o : Ownership} (ho : ∀ id, o ≠ .fresh id)
    (h : takeOwnership o name l s = .ok (code, id?) t) : code = [xor edx edx] ∧ id? = none ∧
      ∃ journal, t = { s with session := { s.session with journal } } := by
  cases o with
  | fresh id => exact absurd rfl (ho id)
  | borrowed id =>
    obtain ⟨_, u₁, htell, h₁⟩ := bind_eq_ok.1 h
    obtain rfl := tell_eq_ok.1 htell
    obtain ⟨hpair, rfl⟩ := pure_eq_ok.1 h₁
    obtain ⟨rfl, rfl⟩ := Prod.mk.inj hpair
    exact ⟨rfl, rfl, _, rfl⟩
  | plain =>
    obtain ⟨hpair, rfl⟩ := pure_eq_ok.1 h
    obtain ⟨rfl, rfl⟩ := Prod.mk.inj hpair
    exact ⟨rfl, rfl, _, rfl⟩

/-! ### Values -/

variable {left right w : Lowered} {op : BinaryOp}

/-- The size of what a variable owns is loaded if the variable has a cell for it. -/
theorem loadSize_eq_ok {base : Reg} (h : loadSize base v s = .ok code t) : t = s ∧
    (v.sizeCell = none ∧ code = [] ∨
      ∃ cell c, v.sizeCell = some cell ∧ Mem.slot base cell = .ok c ∧ code = [load edx c]) := by
  unfold loadSize at h
  cases hcell : v.sizeCell with
  | none =>
    rw [hcell] at h
    obtain ⟨rfl, rfl⟩ := pure_eq_ok.1 h
    exact ⟨rfl, .inl ⟨rfl, rfl⟩⟩
  | some cell =>
    rw [hcell] at h
    obtain ⟨c, u, hc, h₁⟩ := bind_eq_ok.1 h
    obtain ⟨hc', rfl⟩ := checked_eq_ok.1 hc
    obtain ⟨rfl, rfl⟩ := pure_eq_ok.1 h₁
    exact ⟨rfl, .inr ⟨cell, c, rfl, hc', rfl⟩⟩

theorem readVariable_eq_ok (h : readVariable name l s = .ok w t) :
    ∃ r v m size, s.tree.lookupVariable s.current name = some (r, v) ∧
      Mem.slot (Convention.chase r.depth).2 v.slot = .ok m ∧
      loadSize (Convention.chase r.depth).2 v s = .ok size t ∧
      w = ⟨v.ty, v.lent, (Convention.chase r.depth).1 ++ [load eax m] ++ size⟩ := by
  obtain ⟨⟨r, v⟩, u, hfound, h₁⟩ := bind_eq_ok.1 h
  obtain ⟨hvar, rfl⟩ := resolveVariable_eq_ok.1 hfound
  obtain ⟨m, u₁, hm, h₂⟩ := bind_eq_ok.1 h₁
  obtain ⟨hslot, rfl⟩ := checked_eq_ok.1 hm
  obtain ⟨size, u₂, hsize, h₃⟩ := bind_eq_ok.1 h₂
  obtain ⟨rfl, rfl⟩ := pure_eq_ok.1 h₃
  exact ⟨r, v, m, size, hvar, hslot, hsize, rfl⟩

/-- A call: its arguments are staged, the function is called, and a string that comes back is a new
heap value. -/
theorem invoke_eq_ok {depth : Nat} {args : List Lowered} (h : invoke f depth args s = .ok w t) :
    ∃ staging slots u note call, stageArguments f.params.length args s = .ok (staging, slots) u ∧
      Code.IsNote note ∧ Convention.call slots depth f.entry = .ok call ∧
      (f.ret.isHeap = false ∧ t = { u with session := u.session.recordCall f.name } ∧
          w = .plain f.ret (staging ++ note ++ call) ∨
        f.ret.isHeap = true ∧ ∃ registered id,
          registerFresh { u with session := u.session.recordCall f.name } = .ok (registered, id) t ∧
          w = ⟨f.ret, .fresh id, staging ++ note ++ call ++ registered⟩) := by
  obtain ⟨⟨staging, slots⟩, u, hstaging, h₁⟩ := bind_eq_ok.1 h
  obtain ⟨note, u₁, hnote, h₂⟩ := bind_eq_ok.1 h₁
  obtain ⟨hnote', rfl⟩ := isNote_of_remark hnote
  obtain ⟨call, u₂, hcall, h₃⟩ := bind_eq_ok.1 h₂
  obtain ⟨hcall', rfl⟩ := checked_eq_ok.1 hcall
  obtain ⟨_, u₃, hrecord, h₄⟩ := bind_eq_ok.1 h₃
  obtain ⟨-, rfl⟩ := withSession_eq_ok.1 hrecord
  refine ⟨staging, slots, u₂, note, call, hstaging, hnote', hcall', ?_⟩
  dsimp only at h₄
  split at h₄
  · rename_i hheap
    obtain ⟨⟨registered, id⟩, u₄, hfresh, h₅⟩ := bind_eq_ok.1 h₄
    obtain ⟨rfl, rfl⟩ := pure_eq_ok.1 h₅
    exact .inr ⟨hheap, registered, id, hfresh, rfl⟩
  · rename_i hheap
    obtain ⟨rfl, rfl⟩ := pure_eq_ok.1 h₄
    exact .inl ⟨eq_false_of_ne_true hheap, rfl, rfl⟩

/-- Two values are combined by a call of the library, or on one of the two stacks. -/
theorem combine_eq_ok (h : combine op left right l s = .ok w t) :
    ((left.ty = .string ∧ op = .add) ∧ ∃ f, (s.tree.scope s.root).getFunction? "append" = some f ∧
        invoke f (s.tree.depthToRoot s.current) [left, right] s = .ok w t) ∨
      (¬ (left.ty = .string ∧ op = .add) ∧ op.accepts left.ty = true ∧ ∃ code,
        (left.ty = .decimal ∧ decimalCode op s = .ok code t ∨
          left.ty ≠ .decimal ∧ code = [mov ecx eax, pop eax] ++ integerCode op ∧ t = s) ∧
        w = .plain (op.resultType left.ty) (left.code ++ [push eax] ++ right.code ++ code)) := by
  unfold combine at h
  split at h
  · exact (reject_eq_ok.1 h).elim
  split at h
  · rename_i hjoin
    obtain ⟨found, u, hfound, h₁⟩ := bind_eq_ok.1 h
    obtain ⟨rfl, rfl⟩ := libraryFunction?_eq_ok.1 hfound
    cases hf : (u.tree.scope u.root).getFunction? "append" with
    | none =>
      rw [hf] at h₁
      exact (reject_eq_ok.1 h₁).elim
    | some f =>
      rw [hf] at h₁
      obtain ⟨d, u₁, hd, h₂⟩ := bind_eq_ok.1 h₁
      obtain ⟨rfl, rfl⟩ := depthToRoot_eq_ok.1 hd
      exact .inl ⟨hjoin, f, rfl, h₂⟩
  rename_i hjoin
  split at h
  · exact (reject_eq_ok.1 h).elim
  rename_i hop
  refine .inr ⟨hjoin, by simpa using hop, ?_⟩
  dsimp only at h
  split at h
  · rename_i hdecimal
    obtain ⟨code, u, hcode, h₁⟩ := bind_eq_ok.1 h
    obtain ⟨rfl, rfl⟩ := pure_eq_ok.1 h₁
    exact ⟨code, .inl ⟨hdecimal, hcode⟩, rfl⟩
  · rename_i hdecimal
    obtain ⟨rfl, rfl⟩ := pure_eq_ok.1 h
    exact ⟨_, .inr ⟨hdecimal, rfl, rfl⟩, by rw [← List.append_assoc]⟩

theorem applySign_eq_ok {sign : Sign} (h : applySign sign left l s = .ok w t) :
    t = s ∧ left.ty.isArithmetic = true ∧ ∃ code, (code = [] ∨ code = negateCode left.ty) ∧
      w = .plain left.ty (left.code ++ code) := by
  unfold applySign at h
  split at h
  · exact (reject_eq_ok.1 h).elim
  rename_i hty
  cases sign with
  | plus =>
    obtain ⟨rfl, rfl⟩ := pure_eq_ok.1 h
    exact ⟨rfl, by simpa using hty, [], .inl rfl, by rw [List.append_nil]⟩
  | minus =>
    obtain ⟨rfl, rfl⟩ := pure_eq_ok.1 h
    exact ⟨rfl, by simpa using hty, _, .inr rfl, rfl⟩

/-- A cast puts at most one line for the value behind its code, and for a string one for the
size. -/
theorem applyCast_eq_ok {mode : CastMode} (h : applyCast left ty mode l s = .ok w t) :
    t = s ∧ ∃ code, (code = [] ∨ code = [movzx eax al] ∨
      code = [load eax (Mem.sized eax 0 (.ofType ty))]) ∧
      w = .plain ty (left.code ++ code ++ if ty.isHeap then [xor edx edx] else []) := by
  cases mode with
  | deref =>
    unfold applyCast at h
    dsimp only at h
    split at h
    · exact (reject_eq_ok.1 h).elim
    · obtain ⟨rfl, rfl⟩ := pure_eq_ok.1 h
      exact ⟨rfl, _, .inr (.inr rfl), rfl⟩
  | immediate =>
    obtain ⟨rfl, rfl⟩ := pure_eq_ok.1 h
    refine ⟨rfl, _, ?_, rfl⟩
    split
    · exact .inr (.inl rfl)
    · exact .inl rfl

end Lower

end KuAsm
