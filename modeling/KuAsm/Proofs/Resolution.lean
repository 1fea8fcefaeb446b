import KuAsm.Proofs.Action
import KuAsm.Proofs.ScopePath

/-!
# What a name means

A name is looked up along the parents of a scope, and so are the exits of the loop and the function
around it.  Trees of scopes are made by opening scopes, outermost ones or inside those that exist,
and by changing what a scope holds.  In every such tree the bound on the length of a path plays no
role, and no scope declares a name twice.

## Main definitions

* `ScopeTree.Grown`: a tree made in that way.
* `ScopeTree.ancestor`: the scope that lies a number of steps outwards.
* `ScopeTree.Nearest`: a scope is the nearest one of a kind.

## Main statements

* `ScopeTree.Grown.getElem?_path`: the paths are the ancestors, all of them.
* `ScopeTree.lookups_nearest`: what the searches find, and the chain to it.
-/

namespace KuAsm

variable {d j : Nat} {r : Resolved} {q : Scope → Bool} {α : Type}

/-! ### The making of a tree -/

/-- One change of what a scope holds: bytes are reserved, a name is declared, a variable becomes the
owner of a heap value, an exit is set, or other heap values are to be released. -/
inductive Scope.Changes (sc : Scope) : Scope → Prop
  | reserve {size : Nat} {slot : Slot} {sc' : Scope} (h : sc.reserve size = .ok (slot, sc')) :
    Changes sc sc'
  | declareVariable {name : String} {ty : ScalarType} {l : Location} {v : Variable} {sc' : Scope}
      (h : sc.declareVariable name ty l = .ok (v, sc')) : Changes sc sc'
  | declareFunction {f : Signature} {l : Location} {sc' : Scope}
    (h : sc.declareFunction f l = .ok sc') : Changes sc sc'
  | bind (name : String) (id : ReclaimId) : Changes sc (sc.bind name id)
  | setFunction (m : FunctionExit) : Changes sc { sc with function := some m }
  | setLoop (m : LoopExit) : Changes sc { sc with loop := some m }
  | release (fs : FreeSet) : Changes sc { sc with freeSet := fs }

/-- No name is declared twice. -/
structure Scope.NamesApart (sc : Scope) : Prop where
  vars : (sc.vars.map (·.name)).Nodup
  functions : (sc.functions.map (·.name)).Nodup

/-- A change leaves a scope where it is. -/
theorem Scope.Changes.parent_eq {sc sc' : Scope} (h : sc.Changes sc') : sc'.parent = sc.parent := by
  cases h with
  | reserve h =>
    obtain ⟨-, -, rfl⟩ := Scope.reserve_eq_ok.1 h
    rfl
  | declareVariable h =>
    obtain ⟨-, -, used, -, rfl⟩ := Scope.declareVariable_eq_ok h
    rfl
  | declareFunction h =>
    obtain ⟨-, rfl⟩ := Scope.declareFunction_eq_ok.1 h
    rfl
  | _ => rfl

theorem Scope.Changes.namesApart {sc sc' : Scope} (h : sc.Changes sc') (hsc : sc.NamesApart) :
    sc'.NamesApart := by
  cases h with
  | reserve h =>
    obtain ⟨-, -, rfl⟩ := Scope.reserve_eq_ok.1 h
    exact ⟨hsc.vars, hsc.functions⟩
  | declareVariable h =>
    obtain ⟨hnew, rfl, used, -, rfl⟩ := Scope.declareVariable_eq_ok h
    refine ⟨?_, hsc.functions⟩
    rw [List.map_append]
    refine List.nodup_append.2 ⟨hsc.vars, List.nodup_cons.2 ⟨List.not_mem_nil, .nil⟩,
      fun a ha b hb => ?_⟩
    obtain ⟨w, hw, rfl⟩ := List.mem_map.1 ha
    rw [List.mem_singleton.1 hb]
    exact Scope.getVariable?_eq_none_iff.1 hnew w hw
  | @declareFunction f l sc' h =>
    obtain ⟨hnew, rfl⟩ := Scope.declareFunction_eq_ok.1 h
    refine ⟨hsc.vars, ?_⟩
    rw [List.map_append]
    refine List.nodup_append.2 ⟨hsc.functions, List.nodup_cons.2 ⟨List.not_mem_nil, .nil⟩,
      fun a ha b hb => ?_⟩
    obtain ⟨g, hg, rfl⟩ := List.mem_map.1 ha
    rw [List.mem_singleton.1 hb]
    have hne := List.find?_eq_none.1 hnew g hg
    simpa using hne
  | bind name id =>
    refine ⟨?_, hsc.functions⟩
    rw [Scope.map_vars_bind fun _ _ => rfl]
    exact hsc.vars
  | setFunction m => exact ⟨hsc.vars, hsc.functions⟩
  | setLoop m => exact ⟨hsc.vars, hsc.functions⟩
  | release fs => exact ⟨hsc.vars, hsc.functions⟩

/-- Where no name occurs twice, a search for one finds the entry that has it. -/
theorem find?_name_eq_some_iff {f : α → String} {l : List α} {name : String} {x : α}
    (h : (l.map f).Nodup) : l.find? (f · == name) = some x ↔ x ∈ l ∧ f x = name := by
  induction l with
  | nil => simp
  | cons y l ih =>
    rw [List.map_cons, List.nodup_cons] at h
    rw [List.find?_cons, List.mem_cons]
    by_cases hy : f y = name
    · rw [beq_iff_eq.2 hy]
      refine ⟨fun hx => ?_, fun ⟨hx, hname⟩ => ?_⟩
      · cases hx
        exact ⟨.inl rfl, hy⟩
      · obtain rfl | hx := hx
        · rfl
        · exact absurd (List.mem_map.2 ⟨x, hx, hname.trans hy.symm⟩) h.1
    · rw [beq_eq_false_iff_ne.2 hy]
      refine (ih h.2).trans (and_congr_left fun hname => ⟨.inr, ?_⟩)
      rintro (rfl | hx)
      · exact absurd hname hy
      · exact hx

namespace ScopeTree

/-- A tree that is made by opening scopes, outermost ones or inside those that exist, and by
changing scopes. -/
inductive Grown : ScopeTree → Prop
  | empty : Grown .empty
  | push {t : ScopeTree} (ht : Grown t) {parent : Option ScopeId} (hparent : ∀ p, parent = some p →
      p < t.size) (l : Label) : Grown (t.push parent l)
  | change {t : ScopeTree} (ht : Grown t) {i : Nat} (hi : i < t.size) {sc : Scope}
      (hsc : (t.scope i).Changes sc) : Grown (t.set i sc)

variable {t : ScopeTree} {i : Nat}

/-- Every scope lies inside an older one or inside none, and declares no name twice. -/
theorem Grown.scope (ht : t.Grown) :
    ∀ i < t.size, (∀ p : Nat, (t.scope i).parent = some p → p < i) ∧ (t.scope i).NamesApart := by
  induction ht with
  | empty => exact fun i hi => absurd hi (Nat.not_lt_zero i)
  | @push t _ parent hparent l ih =>
    intro i hi
    rw [size_push] at hi
    obtain hlt | rfl : i < t.size ∨ i = t.size := by omega
    · rw [scope_push_of_lt _ _ hlt]
      exact ih i hlt
    · rw [scope_push_size]
      exact ⟨hparent, ⟨.nil, .nil⟩⟩
  | @change t _ j hj sc hsc ih =>
    intro i hi
    rw [size_set] at hi
    by_cases hij : i = j
    · subst hij
      rw [scope_set_self _ hj, hsc.parent_eq]
      exact ⟨(ih i hj).1, hsc.namesApart (ih i hj).2⟩
    · rw [scope_set_of_ne _ hij]
      exact ih i hi

/-! ### Ancestors -/

/-- The scope that lies `d` steps outwards, if there are so many. -/
def ancestor (t : ScopeTree) : Nat → ScopeId → Option ScopeId
  | 0, i => some i
  | d + 1, i => (t.scope i).parent.bind (t.ancestor d)

theorem ancestor_add (t : ScopeTree) (d e : Nat) (i : ScopeId) :
    t.ancestor (d + e) i = (t.ancestor d i).bind (t.ancestor e) := by
  induction d generalizing i with
  | zero => rw [Nat.zero_add]; rfl
  | succ d ih =>
    rw [Nat.add_right_comm, ancestor, ancestor, Option.bind_assoc]
    exact congrArg _ (funext fun p => ih p)

theorem ancestor_succ (h : t.ancestor d i = some j) :
    t.ancestor (d + 1) i = (t.scope j).parent := by
  rw [ancestor_add, h, Option.bind_some]
  exact Option.bind_fun_some _

/-- Each step leads to an older scope. -/
theorem Grown.add_le_of_ancestor (ht : t.Grown) (hi : i < t.size) (h : t.ancestor d i = some j) :
    j + d ≤ i := by
  induction d generalizing i with
  | zero =>
    obtain rfl := Option.some.inj h
    exact Nat.le_refl _
  | succ d ih =>
    obtain ⟨p, hp, hj⟩ := Option.bind_eq_some_iff.1 h
    have hlt := (ht.scope i hi).1 p hp
    have hle := ih (Nat.lt_trans hlt hi) hj
    omega

theorem getElem?_pathWithin (t : ScopeTree) :
    ∀ (n d i : Nat), d < n → (t.pathWithin n i)[d]? = t.ancestor d i
  | n + 1, 0, i, _ => rfl
  | n + 1, d + 1, i, h => by
    rw [pathWithin, List.getElem?_cons_succ, ancestor]
    cases (t.scope i).parent with
    | none => rfl
    | some p => exact getElem?_pathWithin t n d p (by omega)

theorem length_pathWithin_le (t : ScopeTree) : ∀ n i : Nat, (t.pathWithin n i).length ≤ n
  | 0, _ => Nat.le_refl 0
  | n + 1, i => by
    rw [pathWithin, List.length_cons]
    cases (t.scope i).parent with
    | none => exact Nat.le_add_left 1 n
    | some p => exact Nat.succ_le_succ (length_pathWithin_le t n p)

/-- The path of a scope lists its ancestors, and none is cut off. -/
theorem Grown.getElem?_path (ht : t.Grown) (hi : i < t.size) (d : Nat) :
    (t.path i)[d]? = t.ancestor d i := by
  by_cases hd : d < t.size
  · exact getElem?_pathWithin t t.size d i hd
  · rw [path, List.getElem?_eq_none
      (Nat.le_trans (length_pathWithin_le t t.size i) (Nat.le_of_not_lt hd))]
    cases h : t.ancestor d i with
    | none => rfl
    | some j =>
      have := ht.add_le_of_ancestor hi h
      omega

/-! ### Searches -/

/-- The nearest scope of a kind is so many steps outwards. -/
structure Nearest (t : ScopeTree) (start : ScopeId) (P : Scope → Prop) (r : Resolved) : Prop where
  ancestor : t.ancestor r.depth start = some r.scope
  holds : P (t.scope r.scope)
  first : ∀ k < r.depth, ∀ j, t.ancestor k start = some j → ¬ P (t.scope j)

variable {start : ScopeId}

theorem Grown.find_eq_some_iff (ht : t.Grown) (hi : start < t.size) :
    t.find start q = some r ↔ t.Nearest start (q · = true) r := by
  rw [ScopeTree.find_eq_some_iff, ht.getElem?_path hi]
  refine ⟨fun ⟨hr, hq, hfirst⟩ => ⟨hr, hq, fun k hk j hj => ?_⟩, fun h =>
    ⟨h.ancestor, h.holds, fun k j hk hj => ?_⟩⟩
  · rw [hfirst k j hk (by rw [ht.getElem?_path hi]; exact hj)]
    exact Bool.false_ne_true
  · rw [ht.getElem?_path hi] at hj
    exact Bool.eq_false_iff.2 (h.first k hk j hj)

/-- A search fails only if no ancestor is accepted. -/
theorem Grown.find_eq_none_iff (ht : t.Grown) (hi : start < t.size) :
    t.find start q = none ↔ ∀ d j, t.ancestor d start = some j → q (t.scope j) = false := by
  have hfind :
      t.find start q = none ↔ ((t.path start).findIdx? fun id => q (t.scope id)) = none := by
    simp only [find]
    cases h : (t.path start).findIdx? fun id => q (t.scope id) with
    | none => simp
    | some d =>
      obtain ⟨hlt, -⟩ := List.findIdx?_eq_some_iff_getElem.1 h
      simp [List.getElem?_eq_getElem hlt]
  rw [hfind, List.findIdx?_eq_none_iff]
  refine ⟨fun h d j hj => h j ?_, fun h j hj => ?_⟩
  · rw [← ht.getElem?_path hi] at hj
    exact List.mem_of_getElem? hj
  · obtain ⟨d, hd⟩ := List.mem_iff_getElem?.1 hj
    exact h d j (by rw [← ht.getElem?_path hi]; exact hd)

/-- What is read from the scope that a search finds. -/
theorem Grown.search_eq_some_iff (ht : t.Grown) (hi : start < t.size) (get : Scope → Option α)
    {x : α} :
    (do let r ← t.find start q
        let x ← get (t.scope r.scope)
        some (r, x)) = some (r, x) ↔
      t.Nearest start (q · = true) r ∧ get (t.scope r.scope) = some x := by
  simp only [Option.bind_eq_bind, Option.bind_eq_some_iff, ht.find_eq_some_iff hi,
    Option.some.injEq, Prod.mk.injEq]
  exact ⟨fun ⟨_, hr, _, hx, hr', hx'⟩ => hr' ▸ hx' ▸ ⟨hr, hx⟩, fun ⟨hr, hx⟩ =>
    ⟨r, hr, x, hx, rfl, rfl⟩⟩

/-- A search for the scopes from which something can be read fails only if there is none. -/
theorem Grown.search_eq_none_iff (ht : t.Grown) (hi : start < t.size) (get : Scope → Option α) :
    (do let r ← t.find start fun sc => (get sc).isSome
        let x ← get (t.scope r.scope)
        some (r, x)) = none ↔ ∀ d j, t.ancestor d start = some j → get (t.scope j) = none := by
  cases hfind : t.find start fun sc => (get sc).isSome with
  | none => simpa using ht.find_eq_none_iff hi |>.1 hfind
  | some r =>
    have hr := (ht.find_eq_some_iff hi).1 hfind
    obtain ⟨x, hx⟩ := Option.isSome_iff_exists.1 hr.holds
    refine ⟨fun h => ?_, fun h => ?_⟩
    · simp [hx] at h
    · rw [h _ _ hr.ancestor] at hx
      cases hx

/-! ### The way to an ancestor -/

/-- The walk ends at an outermost scope, so many steps away as there are ancestors. -/
theorem Grown.ancestor_depthToRoot (ht : t.Grown) (hi : start < t.size) :
    ∃ r, t.ancestor (t.depthToRoot start) start = some r ∧ (t.scope r).parent = none := by
  unfold depthToRoot
  cases hfind : t.find start fun sc => sc.parent.isNone with
  | some r =>
    have hr := (ht.find_eq_some_iff hi).1 hfind
    exact ⟨r.scope, hr.ancestor, Option.isNone_iff_eq_none.1 hr.holds⟩
  | none =>
    -- If every ancestor has a parent, there are more of them than older scopes.
    have hall : ∀ d, ∃ j, t.ancestor d start = some j := by
      intro d
      induction d with
      | zero => exact ⟨start, rfl⟩
      | succ d ih =>
        obtain ⟨j, hj⟩ := ih
        have hsome := (ht.find_eq_none_iff hi).1 hfind d j hj
        obtain ⟨p, hp⟩ := Option.isSome_iff_exists.1 (Option.isNone_eq_false_iff.1 hsome)
        exact ⟨p, (ancestor_succ hj).trans hp⟩
    obtain ⟨j, hj⟩ := hall (start + 1)
    have := ht.add_le_of_ancestor hi hj
    omega

theorem Grown.le_depthToRoot (ht : t.Grown) (hi : start < t.size)
    (h : t.ancestor d start = some j) : d ≤ t.depthToRoot start := by
  obtain ⟨r, hr, hroot⟩ := ht.ancestor_depthToRoot hi
  refine Nat.le_of_not_lt fun hlt => ?_
  obtain ⟨e, rfl⟩ := Nat.exists_eq_add_of_lt hlt
  rw [Nat.add_right_comm] at h
  rw [ancestor_add, ancestor_succ hr, hroot] at h
  cases h

/-- The scopes from a scope to one of its ancestors. -/
structure Leads (t : ScopeTree) (start : ScopeId) (r : Resolved) (chain : List ScopeId) : Prop where
  length : chain.length = r.depth + 1
  head : chain.head? = some start
  parents : ∀ k j p, chain[k]? = some j → chain[k + 1]? = some p → (t.scope j).parent = some p
  last : chain.getLast? = some r.scope

theorem Grown.chain_leads (ht : t.Grown) (hi : start < t.size)
    (h : t.ancestor r.depth start = some r.scope) : t.Leads start r (t.chain start r.depth) := by
  have hget : ∀ k ≤ r.depth, (t.chain start r.depth)[k]? = t.ancestor k start := by
    intro k hk
    rw [chain, List.getElem?_take_of_lt (by omega), ht.getElem?_path hi]
  have hlength : (t.chain start r.depth).length = r.depth + 1 := by
    have hlt : r.depth < (t.path start).length := by
      rw [← ht.getElem?_path hi] at h
      exact (List.getElem?_eq_some_iff.1 h).1
    rw [chain, List.length_take]
    omega
  refine ⟨hlength, ?_, fun k j p hj hp => ?_, ?_⟩
  · rw [List.head?_eq_getElem?, hget 0 (Nat.zero_le _)]
    rfl
  · have hlt : k + 1 < r.depth + 1 := hlength ▸ (List.getElem?_eq_some_iff.1 hp).1
    rw [hget k (by omega)] at hj
    rw [hget (k + 1) (by omega), ancestor_succ hj] at hp
    exact hp
  · rw [List.getLast?_eq_getElem?, hlength, Nat.add_sub_cancel, hget _ (Nat.le_refl _)]
    exact h

/-- Names and exits are looked up in the nearest scope.  A variable or a function is found so many
steps outwards if the scope there declares the name and no nearer one does, and none is found only
if no scope around declares it.  So it is for the function around a scope.  The loop around it is
that of the nearest scope which belongs to a loop or a function, if it belongs to a loop.  The chain
to what lies so many steps outwards has one scope more than steps, goes from parent to parent and
ends there; it is not longer than the way to the outermost scope, where every walk ends. -/
theorem lookups_nearest (ht : t.Grown) (start : ScopeId) (hstart : start < t.size) :
    (∀ name r v, t.lookupVariable start name = some (r, v) ↔
      t.Nearest start (fun sc => ∃ v ∈ sc.vars, v.name = name) r ∧
      v ∈ (t.scope r.scope).vars ∧ v.name = name) ∧
    (∀ name, t.lookupVariable start name = none ↔
      ∀ d j, t.ancestor d start = some j → ∀ v ∈ (t.scope j).vars, v.name ≠ name) ∧
    (∀ name r f, t.lookupFunction start name = some (r, f) ↔
      t.Nearest start (fun sc => ∃ f ∈ sc.functions, f.name = name) r ∧
      f ∈ (t.scope r.scope).functions ∧ f.name = name) ∧
    (∀ name, t.lookupFunction start name = none ↔
      ∀ d j, t.ancestor d start = some j → ∀ f ∈ (t.scope j).functions, f.name ≠ name) ∧
    (∀ r m, t.lookupFunctionExit start = some (r, m) ↔
      t.Nearest start (·.function ≠ none) r ∧ (t.scope r.scope).function = some m) ∧
    (t.lookupFunctionExit start = none ↔
      ∀ d j, t.ancestor d start = some j → (t.scope j).function = none) ∧
    (∀ r m, t.lookupLoop start = some (r, m) ↔
      t.Nearest start (fun sc => sc.loop ≠ none ∨ sc.function ≠ none) r ∧
      (t.scope r.scope).loop = some m) ∧
    (∀ r : Resolved, t.ancestor r.depth start = some r.scope →
      t.Leads start r (t.chain start r.depth) ∧ r.depth ≤ t.depthToRoot start) ∧
    ∃ root, t.ancestor (t.depthToRoot start) start = some root ∧ (t.scope root).parent = none := by
  have hnames : ∀ r : Resolved, t.ancestor r.depth start = some r.scope →
      (t.scope r.scope).NamesApart := fun r hr =>
    (ht.scope _ (Nat.lt_of_le_of_lt (Nat.le_of_add_right_le (ht.add_le_of_ancestor hstart hr))
      hstart)).2
  refine ⟨fun name r v => ?_, fun name => ?_, fun name r f => ?_, fun name => ?_, fun r m => ?_, ?_,
    fun r m => ?_, fun r hr => ⟨ht.chain_leads hstart hr, ht.le_depthToRoot hstart hr⟩,
    ht.ancestor_depthToRoot hstart⟩
  · refine (ht.search_eq_some_iff hstart (·.getVariable? name)).trans ?_
    simp only [Scope.getVariable?, List.find?_isSome, beq_iff_eq]
    exact and_congr_right fun hr => find?_name_eq_some_iff (hnames r hr.ancestor).vars
  · refine (ht.search_eq_none_iff hstart (·.getVariable? name)).trans ?_
    simp [Scope.getVariable?]
  · refine (ht.search_eq_some_iff hstart (·.getFunction? name)).trans ?_
    simp only [Scope.getFunction?, List.find?_isSome, beq_iff_eq]
    exact and_congr_right fun hr => find?_name_eq_some_iff (hnames r hr.ancestor).functions
  · refine (ht.search_eq_none_iff hstart (·.getFunction? name)).trans ?_
    simp [Scope.getFunction?]
  · refine (ht.search_eq_some_iff hstart (·.function)).trans ?_
    simp only [Option.isSome_iff_ne_none]
  · exact ht.search_eq_none_iff hstart (·.function)
  · refine (ht.search_eq_some_iff hstart (·.loop)).trans ?_
    simp only [Bool.or_eq_true, Option.isSome_iff_ne_none]

/-- A scope inside the body of a function that lies inside a loop which declares the function. -/
def twoDeep : ScopeTree :=
  ((((ScopeTree.empty.push none (.fresh 0 "scope")).set 0
    { Scope.fresh none (.fresh 0 "scope") with
      functions := [⟨"f", .integer, [], .fresh 1 "f", .fresh 2 "f_return"⟩] }).set 0
    { Scope.fresh none (.fresh 0 "scope") with
      functions := [⟨"f", .integer, [], .fresh 1 "f", .fresh 2 "f_return"⟩]
      loop := some ⟨.fresh 3 "top", .fresh 4 "next", .fresh 5 "exit"⟩ }).push (some 0)
        (.fresh 6 "scope")).set 1
    { Scope.fresh (some 0) (.fresh 6 "scope") with
      function := some ⟨.integer, .fresh 2 "f_return", ⟨0, 4⟩, ⟨4, 4⟩⟩ } |>.push (some 1)
        (.fresh 7 "scope")

theorem twoDeep_grown : twoDeep.Grown := by
  refine .push (.change (.push (.change (.change (.push .empty ?_ _) ?_ ?_) ?_ ?_) ?_ _) ?_ ?_) ?_ _
  · exact fun p h => nomatch h
  · decide
  · exact .declareFunction (l := ⟨1, 1⟩) rfl
  · decide
  · exact .setLoop _
  · rintro p ⟨⟩
    decide
  · decide
  · exact .setFunction _
  · rintro p ⟨⟩
    decide

/-- The function is found two steps outwards along three scopes, and its body is in no loop. -/
theorem lookups_nearest_twoDeep :
    (∃ f, twoDeep.lookupFunction 2 "f" = some (⟨0, 2⟩, f)) ∧
      twoDeep.Leads 2 ⟨0, 2⟩ (twoDeep.chain 2 2) ∧ ∀ r m, twoDeep.lookupLoop 2 ≠ some (r, m) := by
  obtain ⟨-, -, hfunction, -, -, -, hloop, hchain, -⟩ := lookups_nearest twoDeep_grown 2 (by decide)
  refine ⟨⟨_, (hfunction "f" ⟨0, 2⟩ _).2
    ⟨⟨rfl, ⟨_, List.mem_singleton_self _, rfl⟩, fun k hk j hj => ?_⟩,
      List.mem_singleton_self _, rfl⟩⟩, (hchain ⟨0, 2⟩ rfl).1, fun r m h => ?_⟩
  · obtain rfl | rfl : k = 0 ∨ k = 1 := by
      rw [Nat.lt_succ_iff_lt_or_eq, Nat.lt_one_iff] at hk
      exact hk
    all_goals
      obtain rfl := Option.some.inj hj
      rintro ⟨f, hf, -⟩
      cases hf
  · obtain ⟨⟨hr, -, hfirst⟩, hm⟩ := (hloop r m).1 h
    match hdepth : r.depth with
    | 0 | 1 =>
      rw [hdepth] at hr
      rw [← Option.some.inj hr] at hm
      cases hm
    | d + 2 =>
      exact hfirst 1 (by rw [hdepth]; exact Nat.succ_lt_succ d.succ_pos) 1 rfl
        (.inr fun hnone => nomatch hnone)

end ScopeTree

end KuAsm
