import KuAsm.Proofs.Chart
import KuAsm.Proofs.Onward
import Mathlib.Algebra.Ring.Nat
import Mathlib.Data.List.Pairwise

/-!
# The ground of a compilation

While code is written, scopes are still growing: results, variables, arguments and heap values
reserve further slots of their frames.  A scope knows the slots of its result and of its variables;
all others are its *stash*, which is read off the trace: every call has a slot for each argument and
two for a heap value that comes back, and every return that copies a string has one.  Each of them
is an entry of its own, and together they lie one behind the other without gaps.  A ground of the
compilation is any tree of scopes that goes on from the present one, with slots that include the
present ones; what is said of code is said of every ground.

## Main definitions

* `Tiles`: slots that follow one another without gaps.
* `Event.stash`: the slots besides results and variables that are reserved for an event.
* `Laid F s`: the scopes of a state have their results and variables and the stash `F` in their
  frames.
* `Settles F s F' t`: scopes and their stashes grow from one state to another.
* `Ground.Holds Γ F s`: the ground goes on from the state.

## Main statements

* `Laid.revise`: the current scope may reserve more, if its slots follow the old ones.
* `Ground.Holds.back`: a ground of a later state is one of an earlier state.
-/

namespace KuAsm

variable {d : Nat} {i : ScopeId} {t u : ScopeTree} {x : Slot}

/-! ### Slots without gaps -/

/-- The slots, in some order, follow one another without gaps, up to the given number of bytes. -/
inductive Tiles : List Slot → Nat → Prop
  | nil : Tiles [] 0
  | snoc {xs n} (size : Nat) : Tiles xs n → size = 1 ∨ size = 4 →
    Tiles (xs ++ [⟨n, size⟩]) (n + size)
  | perm {xs ys n} : Tiles xs n → xs.Perm ys → Tiles ys n

theorem Slot.Apart.symm {y : Slot} (h : x.Apart y) : y.Apart x := fun o hy hx => h o hx hy

namespace Tiles

variable {xs : List Slot} {n : Nat}

theorem bound_le (h : Tiles xs n) : ∀ x ∈ xs, x.bound ≤ n := by
  induction h with
  | nil => exact fun _ hx => nomatch hx
  | snoc size _ _ ih =>
    intro x hx
    rcases List.mem_append.1 hx with hx | hx
    · exact Nat.le_trans (ih x hx) (Nat.le_add_right _ _)
    · rw [List.mem_singleton.1 hx]
      exact Nat.le_refl _
  | perm _ hperm ih => exact fun x hx => ih x (hperm.mem_iff.2 hx)

theorem size_eq (h : Tiles xs n) : ∀ x ∈ xs, x.size = 1 ∨ x.size = 4 := by
  induction h with
  | nil => exact fun _ hx => nomatch hx
  | snoc size _ hsize ih =>
    intro x hx
    rcases List.mem_append.1 hx with hx | hx
    · exact ih x hx
    · rw [List.mem_singleton.1 hx]
      exact hsize
  | perm _ hperm ih => exact fun x hx => ih x (hperm.mem_iff.2 hx)

/-- The slot that is reserved next may be listed anywhere. -/
theorem insert {ys : List Slot} (size : Nat) (h : Tiles (xs ++ ys) n)
    (hsize : size = 1 ∨ size = 4) : Tiles (xs ++ [⟨n, size⟩] ++ ys) (n + size) := by
  refine (h.snoc size hsize).perm ?_
  rw [List.append_assoc, List.append_assoc]
  exact List.perm_append_comm.append_left xs

end Tiles

/-! ### Slots of a scope -/

theorem FreeSet.get?_insert_self (fs : FreeSet) (id : ReclaimId) (e : Staged) :
    (fs.insert id e).get? id = some e := by
  have hfind : ∀ xs : List (ReclaimId × Staged),
      (insertEntry id e xs).find? (·.1 == id) = some (id, e) := by
    intro xs
    induction xs with
    | nil => simp [insertEntry]
    | cons x xs ih =>
      unfold insertEntry
      split
      · simp
      · split
        · simp
        · rename_i hne
          rw [List.find?_cons_of_neg (by simpa using Ne.symm hne)]
          exact ih
  show ((insertEntry id e fs.entries).find? _).map _ = _
  rw [hfind]
  rfl

/-- The slots of a variable: that of its value, and that of its size if it has one. -/
def Variable.slots (v : Variable) : List Slot := v.slot :: v.sizeCell.toList

/-- The two slots of a string variable. -/
def Variable.pair? (v : Variable) : Option Staged := v.sizeCell.map fun cell => ⟨v.slot, cell⟩

/-- The slot of a variable that is not a string. -/
def Variable.cell? (v : Variable) : Option Slot := if v.sizeCell.isNone then some v.slot else none

namespace Scope

variable {sc sc' : Scope} {x : Slot}

/-- The slots of the result of a function. -/
def results (sc : Scope) : List Slot :=
  match sc.function with
  | some m => [m.result, m.resultSize]
  | none => []

/-- The slots of the result and of the variables. -/
def fixed (sc : Scope) : List Slot := sc.results ++ sc.vars.flatMap Variable.slots

/-- The slots that own nothing. -/
def cells (sc : Scope) : List Slot := sc.results ++ sc.vars.filterMap Variable.cell?

/-- The slots of string variables. -/
def varPairs (sc : Scope) : List Staged := sc.vars.filterMap Variable.pair?

/-- The slots of all heap values that the scope has to release. -/
def pairs (sc : Scope) : List Staged := sc.varPairs ++ sc.freeSet.entries.map (·.2)

/-- The slots that a scope knows of. -/
def slots (sc : Scope) : List Slot := sc.cells ++ sc.pairs.flatMap Staged.slots

/-- A slot is one of the result, of a variable, or of a value to be released. -/
theorem mem_slots : x ∈ sc.slots ↔ (∃ m, sc.function = some m ∧ (x = m.result ∨ x = m.resultSize)) ∨
    (∃ v ∈ sc.vars, x = v.slot ∨ v.sizeCell = some x) ∨ ∃ e ∈ sc.freeSet.entries,
    x ∈ e.2.slots := by
  have hresults :
      x ∈ sc.results ↔ ∃ m, sc.function = some m ∧ (x = m.result ∨ x = m.resultSize) := by
    unfold results
    cases sc.function <;> simp
  have hvar : ∀ v : Variable, (x = v.slot ∨ v.sizeCell = some x) ↔
      v.cell? = some x ∨ ∃ p, v.pair? = some p ∧ x ∈ p.slots := by
    intro v
    unfold Variable.cell? Variable.pair? Staged.slots
    cases v.sizeCell <;> simp [eq_comm]
  have hvars : (∃ v ∈ sc.vars, x = v.slot ∨ v.sizeCell = some x) ↔
      x ∈ sc.vars.filterMap Variable.cell? ∨ ∃ p ∈ sc.varPairs, x ∈ p.slots := by
    simp only [hvar, List.mem_filterMap, varPairs]
    constructor
    · rintro ⟨v, hv, hcell | ⟨p, hp, hx⟩⟩
      · exact .inl ⟨v, hv, hcell⟩
      · exact .inr ⟨p, ⟨v, hv, hp⟩, hx⟩
    · rintro (⟨v, hv, hcell⟩ | ⟨p, ⟨v, hv, hp⟩, hx⟩)
      · exact ⟨v, hv, .inl hcell⟩
      · exact ⟨v, hv, .inr ⟨p, hp, hx⟩⟩
  have hfree : (∃ p ∈ sc.freeSet.entries.map (·.2), x ∈ p.slots) ↔ ∃ e ∈ sc.freeSet.entries,
      x ∈ e.2.slots := by
    constructor
    · rintro ⟨p, hp, hx⟩
      obtain ⟨e, he, rfl⟩ := List.mem_map.1 hp
      exact ⟨e, he, hx⟩
    · rintro ⟨e, he, hx⟩
      exact ⟨e.2, List.mem_map_of_mem he, hx⟩
  rw [hvars, ← hresults, ← hfree]
  unfold slots cells pairs
  rw [List.mem_append, List.mem_append, List.flatMap_append, List.mem_append, List.mem_flatMap,
    List.mem_flatMap]
  simp only [or_assoc]

theorem mem_fixed : x ∈ sc.fixed ↔ (∃ m, sc.function = some m ∧ (x = m.result ∨ x = m.resultSize)) ∨
    ∃ v ∈ sc.vars, x = v.slot ∨ v.sizeCell = some x := by
  unfold fixed results Variable.slots
  rw [List.mem_append, List.mem_flatMap]
  cases sc.function <;> simp

theorem mem_slots_of_fixed :
    x ∈ sc.slots ↔ x ∈ sc.fixed ∨ ∃ e ∈ sc.freeSet.entries, x ∈ e.2.slots := by
  rw [mem_slots, ← or_assoc, ← mem_fixed]

theorem fixed_bind (sc : Scope) (name : String) (id : ReclaimId) :
    (sc.bind name id).fixed = sc.fixed := by
  have hvars := map_vars_bind (f := Variable.slots) (fun _ _ => rfl) sc name id
  unfold fixed
  rw [List.flatMap_def, List.flatMap_def, hvars]
  rfl

/-- The two slots of a heap value that was just made. -/
def slotsOf (sc : Scope) : Ownership → List Slot
  | .fresh id => (sc.freeSet.get? id).elim [] Staged.slots
  | _ => []

/-- What a sweep releases are slots of the scope. -/
theorem slots_of_pendingFrees {e : ReclaimId × Staged} (he : e ∈ sc.pendingFrees.entries)
    (hx : x ∈ e.2.slots) : x ∈ sc.slots := by
  have hstage : ∀ (vs : List Variable) (fs : FreeSet), (∀ v ∈ vs, v ∈ sc.vars) →
      (∀ e ∈ fs.entries, ∀ x ∈ e.2.slots, x ∈ sc.slots) →
      ∀ e ∈ (vs.foldl (fun pending v => v.stage pending) fs).entries, ∀ x ∈ e.2.slots,
      x ∈ sc.slots := by
    intro vs
    induction vs with
    | nil => exact fun fs _ hfs => hfs
    | cons v vs ih =>
      intro fs hvs hfs
      refine ih _ (fun w hw => hvs w (List.mem_cons_of_mem _ hw)) fun e he x hx => ?_
      change e ∈ (v.stage fs).entries at he
      unfold Variable.stage at he
      split at he
      · rename_i id size _ hcell
        rcases FreeSet.mem_insertEntry he with rfl | he
        · refine mem_slots.2 (.inr (.inl ⟨v, hvs v List.mem_cons_self, ?_⟩))
          rcases List.mem_cons.1 hx with rfl | hx
          · exact .inl rfl
          · rw [List.mem_singleton.1 hx]
            exact .inr hcell
        · exact hfs e he x hx
      · exact hfs e he x hx
  refine hstage _ _ (fun v hv => ?_) (fun e he x hx => mem_slots.2 (.inr (.inr ⟨e, he, hx⟩)))
    e he x hx
  exact (List.mem_filter.1 ((List.mergeSort_perm _ _).mem_iff.1 hv)).1

end Scope

/-! ### Functions around a place -/

namespace ScopeTree

variable {t : ScopeTree} {i k p : ScopeId}

theorem Ordered.enclosing_eq (ht : t.Ordered) (hi : i < t.size) :
    t.enclosing (some i) = i :: t.enclosing (t.scope i).parent := by
  cases hp : (t.scope i).parent with
  | none => exact ht.path_eq_singleton hi hp
  | some p => exact ht.path_eq_cons hi hp

theorem Ordered.home_of_block (ht : t.Ordered) (hi : i < t.size) (h : (t.scope i).function = none) :
    t.home (some i) = t.home (t.scope i).parent := by
  unfold home
  rw [ht.enclosing_eq hi, List.find?_cons_of_neg (by rw [h]; nofun)]

theorem Ordered.home_of_function (ht : t.Ordered) (hi : i < t.size)
    (h : (t.scope i).function.isSome = true) : t.home (some i) = some i := by
  unfold home
  rw [ht.enclosing_eq hi]
  exact List.find?_cons_of_pos (p := fun j => (t.scope j).function.isSome) h

theorem Ordered.mem_path_of_home (ht : t.Ordered) (hi : i < t.size) (h : t.home (some i) = some k) :
    k ∈ t.path i ∧ k ≤ i :=
  have hmem : k ∈ t.path i := List.mem_of_find?_eq_some h
  ⟨hmem, ht.le_of_mem_path i hi k hmem⟩

/-- Going outwards leads into another text only behind the body of a function. -/
theorem Ordered.home_of_path (ht : t.Ordered) (hi : i < t.size) (hd : (t.path i)[d]? = some k)
    (h : ∀ e j : Nat, e < d → (t.path i)[e]? = some j → (t.scope j).function = none) :
    t.home (some k) = t.home (some i) := by
  have hdrop : t.path k = (t.path i).drop d := (ht.drop_path d hi hd).symm
  have htake : ((t.path i).take d).find? (fun j => (t.scope j).function.isSome) = none := by
    refine List.find?_eq_none.2 fun j hj => ?_
    obtain ⟨e, he⟩ := List.mem_iff_getElem?.1 hj
    rw [List.getElem?_take] at he
    split at he
    · rename_i hlt
      rw [h e j hlt he]
      nofun
    · cases he
  unfold home enclosing
  dsimp only
  have hsplit :
      ((t.path i).take d ++ (t.path i).drop d).find? (fun j => (t.scope j).function.isSome) = _ :=
    List.find?_append
  rw [List.take_append_drop, htake, Option.none_or] at hsplit
  rw [hdrop, hsplit]

/-- Behind a scope of a path stands the scope around it. -/
theorem Ordered.getElem?_path_succ (ht : t.Ordered) (hi : i < t.size)
    (hd : (t.path i)[d]? = some k) : (t.path i)[d + 1]? = (t.scope k).parent := by
  have hk := ht.lt_size_of_mem_path hi (List.mem_of_getElem? hd)
  have hdrop : (t.path i).drop d = k :: t.enclosing (t.scope k).parent :=
    (ht.drop_path d hi hd).trans (ht.enclosing_eq hk)
  have hnext : (t.path i)[d + 1]? = (t.enclosing (t.scope k).parent)[0]? := by
    rw [← List.getElem?_drop, hdrop]
    rfl
  rw [hnext]
  cases hp : (t.scope k).parent with
  | none => rfl
  | some p =>
    rw [ht.enclosing_eq (Nat.lt_trans (ht.parent_lt k p hk hp) hk)]
    rfl

end ScopeTree

/-! ### Growing trees -/

/-- The scope `b` is the scope `a` with more functions in it. -/
structure Scope.Stays (a b : Scope) : Prop where
  parent : b.parent = a.parent
  frameSize : b.frameSize = a.frameSize
  function : b.function = a.function
  loop : b.loop = a.loop
  functions : a.functions <+: b.functions

theorem Scope.Stays.refl (a : Scope) : a.Stays a := ⟨rfl, rfl, rfl, rfl, List.prefix_refl _⟩

theorem Scope.Grows.stays {a b : Scope} (h : a.Grows b) : a.Stays b :=
  ⟨h.parent, h.frameSize, h.function, h.loop, h.functions⟩

/-- The scopes of `t` are there in `u`, each in its place. -/
structure ScopeTree.Extends (t u : ScopeTree) : Prop where
  size : t.size ≤ u.size
  scope : ∀ i : Nat, i < t.size → (t.scope i).Stays (u.scope i)

theorem ScopeTree.Extends.refl (t : ScopeTree) : t.Extends t := ⟨Nat.le_refl _, fun _ _ => .refl _⟩

theorem ScopeTree.Extends.trans {v : ScopeTree} (h : t.Extends u) (k : u.Extends v) :
    t.Extends v where
  size := Nat.le_trans h.size k.size
  scope i hi :=
    have a := h.scope i hi
    have b := k.scope i (Nat.lt_of_lt_of_le hi h.size)
    ⟨b.parent.trans a.parent, b.frameSize.trans a.frameSize, b.function.trans a.function,
      b.loop.trans a.loop, a.functions.trans b.functions⟩

theorem State.Onward.extends {s t : State} (h : s.Onward t) : s.tree.Extends t.tree :=
  ⟨h.size, fun i hi => (h.scope i hi).stays⟩

/-- The scopes around a place, and the function it is in, stay the same. -/
theorem ScopeTree.Extends.path (h : t.Extends u) (ht : t.Ordered) (hu : u.Ordered)
    (hi : i < t.size) : u.path i = t.path i :=
  ht.path_congr hu i hi (Nat.lt_of_lt_of_le hi h.size) fun j hj =>
    (h.scope j (Nat.lt_of_le_of_lt hj hi)).parent

theorem ScopeTree.Extends.home (h : t.Extends u) (ht : t.Ordered) (hu : u.Ordered)
    (hi : i < t.size) : u.home (some i) = t.home (some i) := by
  unfold ScopeTree.home ScopeTree.enclosing
  dsimp only
  rw [h.path ht hu hi, ← List.head?_filter, ← List.head?_filter]
  refine congrArg List.head? (List.filter_congr fun j hj => ?_)
  rw [(h.scope j (ht.lt_size_of_mem_path hi hj)).function]

/-! ### The stash of a scope -/

open Lower

/-- The slots that a call reserves: those of its arguments, and those of a heap value that comes
back. -/
def Signature.stash (f : Signature) (depth : Nat) (args : List Lowered) (s : State) : List Slot :=
  (stageArguments f.params.length args).after s (fun x _ => x.2) ++
    (invoke f depth args).after s fun v t => t.here.slotsOf v.ownership

/-- The slots that an operator reserves.  Strings are joined by a call. -/
def BinaryOp.stash (op : BinaryOp) (a b : Lowered) (s : State) : List Slot :=
  if a.ty = .string ∧ op = .add then
    ((s.tree.scope s.root).getFunction? "append").elim [] fun f =>
      f.stash (s.tree.depthToRoot s.current) [a, b] s
  else []

/-- The slots that an expression reserves behind those of its parts. -/
def Node.stash : Node → State → List Slot
  | .mk (.binary op left right) _, s =>
    left.evaluate.after s fun a t => right.evaluate.after t fun b u => op.stash a b u
  | .mk (.call name args) l, s =>
    (resolveCall name args.length l).after s fun x t =>
      (Node.evaluateArgs name x.2.params args).after t fun vs u => x.2.stash x.1.depth vs u
  | _, _ => []

/-- The slot of a string that is copied. -/
def Lower.Copying.stash (copying : Copying) (s : State) : List Slot :=
  if copying = .never ∨ (s.tree.scope s.root).getFunction? "dup" = none then []
  else (reserve Convention.argBytes).after s fun x _ => [x]

/-- The slot that a return reserves behind those of its value. -/
def returnStash (value : ScalarType → Lower Lowered) (s : State) : List Slot :=
  match s.tree.lookupFunctionExit s.current with
  | none => []
  | some (r, m) => (value m.ret).after s fun v t =>
    if m.ret.isHeap then
      (returnPlan t.tree (t.tree.chain t.current r.depth) v.ownership).1.stash t
    else []

/-- The slot that a function reserves behind those of its statements: it returns once more at its
end, unless they jump away. -/
def endStash (statements : Lower Bool) (s : State) : List Slot :=
  statements.after s fun jumped t => if jumped then [] else
    returnStash (fun ty => literal ty.zero) t

/-- The slots besides results and variables that are reserved in a scope for an event. -/
def Event.stash : Event → ScopeId → List Slot
  | .expression e s _, i => if i = s.current then e.stash s else []
  | .statement (.mk (.ret value) _) s, i =>
    if i = s.current then returnStash (Node.evaluateOr value) s else []
  | .statement (.mk (.function name params ret body) l) s, i =>
    (openFunction name params ret l).after s fun _ t =>
      if i = t.current then endStash (Node.executeAll false body) t else []
  | _, _ => []

theorem Event.stash_expression {n : Node} {s : State} (h : n.stash s = []) (ahead : Nat)
    (i : ScopeId) : (Event.expression n s ahead).stash i = [] := by
  show (if i = s.current then n.stash s else []) = []
  rw [h]
  exact ite_self _

/-- The stash of all scopes, with what is reserved for further events. -/
def stashed (F : ScopeId → List Slot) (es : List Event) (i : ScopeId) : List Slot :=
  F i ++ es.flatMap (·.stash i)

theorem stashed_nil (F : ScopeId → List Slot) : stashed F [] = F :=
  funext fun _ => List.append_nil _

theorem stashed_append (F : ScopeId → List Slot) (es fs : List Event) :
    stashed F (es ++ fs) = stashed (stashed F es) fs := by
  funext i
  unfold stashed
  rw [List.flatMap_append, List.append_assoc]

/-- More slots for one scope. -/
def growSlots (F : ScopeId → List Slot) (i : ScopeId) (more : List Slot) (j : ScopeId) :
    List Slot :=
  if j = i then F j ++ more else F j

theorem growSlots_self (F : ScopeId → List Slot) (i : ScopeId) (more : List Slot) :
    growSlots F i more i = F i ++ more := if_pos rfl

theorem growSlots_of_ne (F : ScopeId → List Slot) {j : ScopeId} (more : List Slot) (h : j ≠ i) :
    growSlots F i more j = F j := if_neg h

theorem growSlots_nil (F : ScopeId → List Slot) (i : ScopeId) : growSlots F i [] = F := by
  funext j
  unfold growSlots
  split
  · exact List.append_nil _
  · rfl

theorem growSlots_append (F : ScopeId → List Slot) {j : ScopeId} (xs ys : List Slot) (h : j = i) :
    growSlots (growSlots F i xs) j ys = growSlots F i (xs ++ ys) := by
  subst h
  funext k
  unfold growSlots
  split
  · rw [List.append_assoc]
  · rfl

/-- What is reserved for an event may be listed in front of what is reserved for its parts. -/
theorem growSlots_stashed_perm (ev : Event) (es : List Event) {own : List Slot}
    (h : ∀ j, ev.stash j = if j = i then own else []) (F : ScopeId → List Slot) (j : ScopeId) :
    (growSlots (stashed F es) i own j).Perm (stashed F (ev :: es) j) := by
  unfold growSlots stashed
  rw [List.flatMap_cons, h]
  split
  · rw [List.append_assoc]
    exact List.perm_append_comm.append_left _
  · exact .refl _

/-- Events that nothing is reserved for. -/
theorem stashed_cons {ev : Event} (h : ∀ i, ev.stash i = []) (F : ScopeId → List Slot)
    (es : List Event) : stashed F (ev :: es) = stashed F es := by
  funext i
  unfold stashed
  rw [List.flatMap_cons, h, List.nil_append]

/-! ### Slots of a state -/

/-- The slots of a frame: those of the result and the variables of its scope, and its stash. -/
def frameSlots (F : ScopeId → List Slot) (t : ScopeTree) (i : ScopeId) : List Slot :=
  (t.scope i).fixed ++ F i

/-- The scopes of a state have their results and variables and the given stash in their frames. -/
structure Laid (F : ScopeId → List Slot) (s : State) : Prop where
  formed : s.Formed
  target : s.target ≠ .data
  tiles : ∀ i : Nat, i < s.tree.size → Tiles (frameSlots F s.tree i) (s.tree.scope i).used
  pending : ∀ i : Nat, i < s.tree.size → ∀ e ∈ (s.tree.scope i).freeSet.entries,
    ∀ x ∈ e.2.slots, x ∈ F i
  unused : ∀ i : Nat, s.tree.size ≤ i → F i = []
  symbol_lt : ∀ i : Nat, i < s.tree.size → (s.tree.scope i).frameSize.number < s.session.nextLabel
  symbol_inj : ∀ i j : Nat, i < s.tree.size → j < s.tree.size →
    (s.tree.scope i).frameSize = (s.tree.scope j).frameSize → i = j
  /-- The main program is written outside of all functions. -/
  outside : s.target = .program → s.tree.home (some s.current) = none
  /-- The round of a loop is not the body of a function. -/
  loops : ∀ i : Nat, i < s.tree.size → (s.tree.scope i).loop.isSome = true →
    (s.tree.scope i).function = none

namespace Laid

variable {F F' : ScopeId → List Slot} {s t : State} {sc : Scope} {more : List Slot}

theorem current_lt (h : Laid F s) : s.current < s.tree.size := h.formed.current_lt

/-- What a scope knows of lies in its frame. -/
theorem placed (h : Laid F s) (hi : i < s.tree.size) (hx : x ∈ (s.tree.scope i).slots) :
    x ∈ frameSlots F s.tree i := by
  exact List.mem_append.2 ((Scope.mem_slots_of_fixed.1 hx).imp id fun ⟨e, he, hx⟩ =>
    h.pending i hi e he x hx)

theorem lt_of_mem (h : Laid F s) (hx : x ∈ frameSlots F s.tree i) : i < s.tree.size := by
  refine Nat.lt_of_not_le fun hle => ?_
  unfold frameSlots at hx
  rw [h.unused i hle, ScopeTree.scope_of_le hle] at hx
  cases hx

/-- The order in which a stash is listed does not matter. -/
theorem perm (h : Laid F s) (hF : ∀ i, (F i).Perm (F' i)) : Laid F' s :=
  { h with
    tiles := fun i hi => (h.tiles i hi).perm ((hF i).append_left _)
    pending := fun i hi e he x hx => (hF i).mem_iff.1 (h.pending i hi e he x hx)
    unused := fun i hi => ((h.unused i hi) ▸ hF i).nil_eq.symm }

/-- A change that leaves all scopes alone. -/
theorem congr (h : Laid F s) (htree : t.tree = s.tree) (hcurrent : t.current < s.tree.size)
    (hroot : t.root = s.root)
    (htarget : t.target ≠ .data) (hlabels : s.session.nextLabel ≤ t.session.nextLabel)
    (hout : t.target = .program → s.tree.home (some t.current) = none) : Laid F t where
  formed := ⟨htree ▸ h.formed.ordered, htree ▸ hcurrent, hroot.trans h.formed.root_eq⟩
  target := htarget
  tiles := htree ▸ h.tiles
  pending := htree ▸ h.pending
  unused := htree ▸ h.unused
  symbol_lt i hi := by
    rw [htree] at hi ⊢
    exact Nat.lt_of_lt_of_le (h.symbol_lt i hi) hlabels
  symbol_inj := htree ▸ h.symbol_inj
  outside ht := htree ▸ hout ht
  loops := htree ▸ h.loops

/-- The current scope may reserve more, if its slots follow the old ones. -/
theorem revise (h : Laid F s) (hparent : sc.parent = s.here.parent)
    (hsymbol : sc.frameSize = s.here.frameSize)
    (hout : s.target = .program → (s.withScope sc).tree.home (some s.current) = none)
    (hloop : sc.loop.isSome = true → sc.function = none)
    (htiles : Tiles (sc.fixed ++ (F s.current ++ more)) sc.used)
    (hpending : ∀ e ∈ sc.freeSet.entries, ∀ x ∈ e.2.slots, x ∈ F s.current ++ more) :
    Laid (growSlots F s.current more) (s.withScope sc) := by
  have hsize : (s.withScope sc).tree.size = s.tree.size := ScopeTree.size_set ..
  have hself : (s.withScope sc).tree.scope s.current = sc := State.here_withScope h.formed sc
  have hother : ∀ {i : Nat}, i ≠ s.current → (s.withScope sc).tree.scope i = s.tree.scope i :=
    fun hi => State.scope_withScope_of_ne sc hi
  have hframe : ∀ i : Nat, ((s.withScope sc).tree.scope i).frameSize = (s.tree.scope i).frameSize :=
    fun i => by
    by_cases hi : i = s.current
    · subst hi
      rw [hself]
      exact hsymbol
    · rw [hother hi]
  refine ⟨h.formed.withScope hparent, h.target, fun i hi => ?_, fun i hi => ?_, fun i hi => ?_,
    fun i hi => ?_, fun i j hi hj heq => ?_, hout, fun i hi => ?_⟩
  · unfold frameSlots
    by_cases hne : i = s.current
    · subst hne
      rw [growSlots_self, hself]
      exact htiles
    · rw [growSlots_of_ne F more hne, hother hne]
      exact h.tiles i (hsize ▸ hi)
  · by_cases hne : i = s.current
    · subst hne
      rw [growSlots_self, hself]
      exact hpending
    · rw [growSlots_of_ne F more hne, hother hne]
      exact h.pending i (hsize ▸ hi)
  · rw [hsize] at hi
    have hne : i ≠ s.current := Nat.ne_of_gt (Nat.lt_of_lt_of_le h.current_lt hi)
    rw [growSlots_of_ne F more hne]
    exact h.unused i hi
  · rw [hframe]
    exact h.symbol_lt i (hsize ▸ hi)
  · rw [hframe, hframe] at heq
    exact h.symbol_inj i j (hsize ▸ hi) (hsize ▸ hj) heq
  · by_cases hne : i = s.current
    · subst hne
      rw [hself]
      exact hloop
    · rw [hother hne]
      exact h.loops i (hsize ▸ hi)

/-- A new scope has no slots. -/
theorem entered (h : Laid F s) {hint : String} :
    Laid F (s.entered (.fresh s.session.nextLabel hint)) := by
  have hsize := s.size_entered (.fresh s.session.nextLabel hint)
  have hnew := s.scope_entered_size (.fresh s.session.nextLabel hint)
  have hold : ∀ {i : Nat}, i < s.tree.size →
      (s.entered (.fresh s.session.nextLabel hint)).tree.scope i = s.tree.scope i :=
    fun hi => ScopeTree.scope_push_of_lt _ _ hi
  -- every scope is an old one, which is as it was, or the new one, which is empty
  have hcases : ∀ {i : Nat}, i < (s.entered (.fresh s.session.nextLabel hint)).tree.size →
      i < s.tree.size ∨ i = s.tree.size := fun hi => by
    rw [hsize] at hi
    omega
  have hfresh : ∀ {i : Nat}, i < s.tree.size →
      (s.tree.scope i).frameSize ≠ Label.fresh s.session.nextLabel hint := fun hi heq => by
    have hlt := h.symbol_lt _ hi
    rw [heq] at hlt
    exact Nat.lt_irrefl _ hlt
  refine ⟨(State.Inner.entered h.formed _).formed, h.target, fun i hi => ?_, fun i hi => ?_,
    fun i hi => ?_, fun i hi => ?_, fun i j hi hj heq => ?_, fun hout => ?_, fun i hi => ?_⟩
  · unfold frameSlots
    rcases hcases hi with hi | rfl
    · rw [hold hi]
      exact h.tiles i hi
    · rw [hnew, h.unused _ (Nat.le_refl _)]
      exact .nil
  · rcases hcases hi with hi | rfl
    · rw [hold hi]
      exact h.pending i hi
    · rw [hnew]
      exact fun _ hx => nomatch hx
  · rw [hsize] at hi
    exact h.unused i (by omega)
  · rcases hcases hi with hi | rfl
    · rw [hold hi]
      exact Nat.lt_succ_of_lt (h.symbol_lt i hi)
    · rw [hnew]
      exact Nat.lt_succ_self _
  · rcases hcases hi with hi | rfl <;> rcases hcases hj with hj | rfl
    · rw [hold hi, hold hj] at heq
      exact h.symbol_inj i j hi hj heq
    · rw [hold hi, hnew] at heq
      exact absurd heq (hfresh hi)
    · rw [hold hj, hnew] at heq
      exact absurd heq.symm (hfresh hj)
    · rfl
  · have hin := State.Inner.entered h.formed (.fresh s.session.nextLabel hint)
    have hblock :
        ((s.entered (.fresh s.session.nextLabel hint)).tree.scope s.tree.size).function = none := by
      rw [hnew]
      rfl
    have hparent : ((s.entered (.fresh s.session.nextLabel hint)).tree.scope s.tree.size).parent =
        some s.current := by
      rw [hnew]
      rfl
    have hlt : s.tree.size < (s.entered (.fresh s.session.nextLabel hint)).tree.size :=
      hsize ▸ Nat.lt_succ_self _
    show (s.entered (.fresh s.session.nextLabel hint)).tree.home (some s.tree.size) = none
    rw [hin.formed.ordered.home_of_block hlt hblock, hparent,
      hin.onward.extends.home h.formed.ordered hin.formed.ordered h.current_lt]
    exact h.outside hout
  · rcases hcases hi with hi | rfl
    · rw [hold hi]
      exact h.loops i hi
    · rw [hnew]
      exact fun _ => rfl

end Laid

/-! ### Growing slots -/

/-- Scopes and their stashes grow from one state to another. -/
structure Settles (F : ScopeId → List Slot) (s : State) (F' : ScopeId → List Slot) (t : State) :
    Prop where
  slots : ∀ i x, x ∈ frameSlots F s.tree i → x ∈ frameSlots F' t.tree i
  tree : s.tree.Extends t.tree
  laid : Laid F' t

namespace Settles

variable {F F₁ F₂ : ScopeId → List Slot} {s t u : State} {sc : Scope} {more : List Slot}

theorem refl (h : Laid F s) : Settles F s F s := ⟨fun _ _ hx => hx, .refl _, h⟩

theorem trans (h : Settles F s F₁ u) (k : Settles F₁ u F₂ t) : Settles F s F₂ t :=
  ⟨fun i x hx => k.slots i x (h.slots i x hx), h.tree.trans k.tree, k.laid⟩

/-- The order in which a stash is listed does not matter. -/
theorem perm (h : Settles F s F₁ t) (hF : ∀ i, (F₁ i).Perm (F₂ i)) : Settles F s F₂ t :=
  ⟨fun i x hx => ((hF i).append_left _).mem_iff.1 (h.slots i x hx), h.tree, h.laid.perm hF⟩

/-- A change that leaves all scopes alone. -/
theorem congr (h : Laid F s) (htree : t.tree = s.tree) (hcurrent : t.current = s.current)
    (hroot : t.root = s.root)
    (htarget : t.target = s.target) (hlabels : s.session.nextLabel ≤ t.session.nextLabel) :
    Settles F s F t := by
  refine ⟨fun _ _ hx => htree ▸ hx, htree ▸ .refl _,
    h.congr htree (hcurrent ▸ h.current_lt) hroot (htarget ▸ h.target) hlabels fun hout => ?_⟩
  rw [hcurrent]
  exact h.outside (htarget ▸ hout)

theorem wrote (h : Laid F s) (code : Code) : Settles F s F (s.wrote code) :=
  .congr h rfl rfl rfl rfl (Nat.le_refl _)

theorem withSession (h : Laid F s) {session : Session}
    (hlabels : s.session.nextLabel ≤ session.nextLabel) : Settles F s F { s with session } :=
  .congr h rfl rfl rfl rfl hlabels

/-- A change of the current scope that keeps its results and variables keeps all slots. -/
theorem slots_withScope (h : Laid F s) (hfixed : ∀ x ∈ s.here.fixed, x ∈ sc.fixed) (i : ScopeId)
    (x : Slot) (hx : x ∈ frameSlots F s.tree i) :
    x ∈ frameSlots (growSlots F s.current more) (s.withScope sc).tree i := by
  unfold frameSlots at hx ⊢
  by_cases hne : i = s.current
  · subst hne
    rw [growSlots_self, show (s.withScope sc).tree.scope s.current = sc from
      State.here_withScope h.formed sc]
    exact List.mem_append.2 ((List.mem_append.1 hx).imp (hfixed x) (List.mem_append_left _))
  · rwa [growSlots_of_ne F more hne, State.scope_withScope_of_ne sc hne]

/-- A change of the current scope that leaves it in its place. -/
theorem revise (h : Laid F s) (hsc : s.here.Stays sc) (hfixed : ∀ x ∈ s.here.fixed, x ∈ sc.fixed)
    (htiles : Tiles (sc.fixed ++ (F s.current ++ more)) sc.used)
    (hpending : ∀ e ∈ sc.freeSet.entries, ∀ x ∈ e.2.slots, x ∈ F s.current ++ more) :
    Settles F s (growSlots F s.current more) (s.withScope sc) := by
  have htree : s.tree.Extends (s.withScope sc).tree := by
    refine ⟨Nat.le_of_eq (ScopeTree.size_set ..).symm, fun i hi => ?_⟩
    by_cases hne : i = s.current
    · subst hne
      rw [show (s.withScope sc).tree.scope s.current = sc from State.here_withScope h.formed sc]
      exact hsc
    · rw [State.scope_withScope_of_ne sc hne]
      exact .refl _
  refine ⟨slots_withScope h hfixed, htree,
    h.revise hsc.parent hsc.frameSize (fun hout => ?_) ?_ htiles hpending⟩
  · rw [htree.home h.formed.ordered (h.formed.withScope hsc.parent).ordered h.current_lt]
    exact h.outside hout
  · rw [hsc.loop, hsc.function]
    exact h.loops _ h.current_lt

/-- A change of the current scope that reserves nothing. -/
theorem replace (h : Laid F s) (hsc : s.here.Stays sc) (hused : sc.used = s.here.used)
    (hfixed : sc.fixed = s.here.fixed)
    (hpending : ∀ e ∈ sc.freeSet.entries, ∀ x ∈ e.2.slots, x ∈ F s.current) :
    Settles F s F (s.withScope sc) := by
  have hall : Settles F s (growSlots F s.current []) (s.withScope sc) := by
    refine .revise h hsc (fun x hx => hfixed ▸ hx) ?_ ?_
    · rw [List.append_nil, hused, hfixed]
      exact h.tiles _ h.current_lt
    · rw [List.append_nil]
      exact hpending
  rwa [growSlots_nil] at hall

/-- Reserving bytes of the current frame for its stash. -/
theorem reserve (h : Laid F s) {size : Nat} (hsize : size = 1 ∨ size = 4) :
    Settles F s (growSlots F s.current [⟨s.here.used, size⟩])
      (s.withScope { s.here with used := s.here.used + size }) := by
  refine .revise h ⟨rfl, rfl, rfl, rfl, List.prefix_refl _⟩ (fun _ hx => hx) ?_ fun e he x hx => ?_
  · rw [← List.append_assoc]
    exact .snoc size (h.tiles _ h.current_lt) hsize
  · exact List.mem_append_left _ (h.pending _ h.current_lt e he x hx)

/-- The library is still there. -/
theorem equipped (h : Settles F s F₁ t) (hs : Laid F s) (heq : s.Equipped) : t.Equipped := by
  intro p
  obtain ⟨f, hf, hparams⟩ := heq p
  refine ⟨f, ?_, hparams⟩
  rw [h.laid.formed.root_eq, ← hs.formed.root_eq]
  exact Scope.getFunction?_of_prefix (h.tree.scope _ hs.formed.root_lt).functions hf

theorem entered (h : Laid F s) {hint : String} :
    Settles F s F (s.entered (.fresh s.session.nextLabel hint)) :=
  ⟨fun i x hx => by
    have hi := h.lt_of_mem hx
    unfold frameSlots at hx ⊢
    rwa [show (s.entered (.fresh s.session.nextLabel hint)).tree.scope i = s.tree.scope i from
      ScopeTree.scope_push_of_lt _ _ hi], (State.Inner.entered h.formed _).onward.extends,
      h.entered⟩

end Settles

/-! ### Grounds -/

/-- The ground goes on from a state with the given slots. -/
structure Ground.Holds (Γ : Ground) (F : ScopeId → List Slot) (s : State) : Prop where
  ordered : Γ.tree.Ordered
  tree : s.tree.Extends Γ.tree
  slots : ∀ i x, x ∈ frameSlots F s.tree i → x ∈ Γ.slots i
  laid : Laid F s

namespace Ground.Holds

variable {Γ : Ground} {F F' : ScopeId → List Slot} {s t : State} {i j : ScopeId}

/-- A ground of a later state is one of an earlier state. -/
theorem back (h : Γ.Holds F' t) (hs : Laid F s) (hst : Settles F s F' t) : Γ.Holds F s :=
  ⟨h.ordered, hst.tree.trans h.tree, fun i x hx => h.slots i x (hst.slots i x hx), hs⟩

/-- The order in which a stash is listed does not matter. -/
theorem perm (h : Γ.Holds F s) (hF : ∀ i, (F i).Perm (F' i)) : Γ.Holds F' s :=
  h.back (h.laid.perm hF) ((Settles.refl (h.laid.perm hF)).perm fun i => (hF i).symm)

theorem lt (h : Γ.Holds F s) (hi : i < s.tree.size) : i < Γ.tree.size :=
  Nat.lt_of_lt_of_le hi h.tree.size

theorem current_lt (h : Γ.Holds F s) : s.current < Γ.tree.size := h.lt h.laid.current_lt

theorem path (h : Γ.Holds F s) (hi : i < s.tree.size) : Γ.tree.path i = s.tree.path i :=
  h.tree.path h.laid.formed.ordered h.ordered hi

/-- What a scope knows of is a slot of the ground. -/
theorem slot (h : Γ.Holds F s) (hi : i < s.tree.size) (hx : x ∈ (s.tree.scope i).slots) :
    x ∈ Γ.slots i := h.slots i x (h.laid.placed hi hx)

/-- What is stashed in a frame is a slot of the ground. -/
theorem stash (h : Γ.Holds F s) (hx : x ∈ F i) : x ∈ Γ.slots i :=
  h.slots i x (List.mem_append_right _ hx)

theorem lt_of_path (h : Γ.Holds F s) (hd : (s.tree.path s.current)[d]? = some i) :
    i < s.tree.size :=
  h.laid.formed.ordered.lt_size_of_mem_path h.laid.current_lt (List.mem_of_getElem? hd)

theorem enclosing (h : Γ.Holds F s) (hd : (s.tree.path s.current)[d]? = some i) :
    (Γ.tree.enclosing (some s.current))[d]? = some i := by
  show (Γ.tree.path s.current)[d]? = some i
  rw [h.path h.laid.current_lt]
  exact hd

end Ground.Holds

end KuAsm
