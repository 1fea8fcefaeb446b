import KuAsm.Frame.ScopeTree

/-!
# Paths through the tree of scopes

The path of a scope is computed with a bound on its length.  In a tree whose scopes all lie inside
older ones the bound plays no role, and the path is what the parents say: the scope, and then the
path of the scope around it.

## Main statements

* `ScopeTree.path_eq_cons`, `ScopeTree.path_eq_singleton`: the path by its first step.
* `ScopeTree.path_congr`: the path depends on the parents alone.
* `ScopeTree.find_eq_some_iff`: a search along the path stops at the nearest scope that is asked
  for.
* `ScopeTree.getElem?_path_depthToRoot`: the path ends at the outermost scope.
-/

namespace KuAsm.ScopeTree

variable {r : Resolved} {start : ScopeId} {name : String}

variable {t u : ScopeTree} {i j p : Nat}

/-! ### Opening and changing scopes -/

@[simp] theorem size_push (t : ScopeTree) (parent : Option ScopeId) (l : Label) :
    (t.push parent l).size = t.size + 1 := by
  simp [push, size]

@[simp] theorem size_set (t : ScopeTree) (i : ScopeId) (sc : Scope) :
    (t.set i sc).size = t.size := by
  simp [set, size]

theorem scope_push_of_lt (parent : Option ScopeId) (l : Label) (h : i < t.size) :
    (t.push parent l).scope i = t.scope i := by
  simp only [size] at h
  simp [push, scope, List.getD_eq_getElem?_getD, List.getElem?_append_left h]

@[simp] theorem scope_push_size (t : ScopeTree) (parent : Option ScopeId) (l : Label) :
    (t.push parent l).scope t.size = Scope.fresh parent l := by
  simp [push, scope, size, List.getD_eq_getElem?_getD]

/-- A number that no scope has stands for an empty scope. -/
theorem scope_of_le (h : t.size ≤ i) : t.scope i = default := by
  unfold scope
  rw [List.getD_eq_getElem?_getD, List.getElem?_eq_none h]
  rfl

theorem scope_mem (t : ScopeTree) (h : i < t.size) : t.scope i ∈ t.scopes := by
  have hlt : i < t.scopes.length := h
  rw [scope, List.getD_eq_getElem?_getD, List.getElem?_eq_getElem hlt]
  exact List.getElem_mem hlt

/-- Putting a scope in a place twice keeps the second one. -/
theorem set_set (t : ScopeTree) (i : ScopeId) (a b : Scope) : (t.set i a).set i b = t.set i b := by
  simp [set]

theorem scope_set_self (sc : Scope) (h : i < t.size) : (t.set i sc).scope i = sc := by
  simp only [size] at h
  simp [set, scope, List.getD_eq_getElem?_getD, h]

theorem scope_set_of_ne (sc : Scope) (h : j ≠ i) : (t.set i sc).scope j = t.scope j := by
  simp [set, scope, List.getD_eq_getElem?_getD, List.getElem?_set_ne h.symm]

/-! ### Paths -/

/-- Every scope lies inside an older one, and only the first scope lies inside none. -/
structure Ordered (t : ScopeTree) : Prop where
  parent_lt : ∀ i p : Nat, i < t.size → (t.scope i).parent = some p → p < i
  eq_zero : ∀ i : Nat, i < t.size → (t.scope i).parent = none → i = 0

/-- A bound that exceeds the number of the scope is large enough. -/
theorem Ordered.pathWithin_eq (ht : t.Ordered) :
    ∀ (i n m : Nat), i < t.size → i < n → i < m → t.pathWithin n i = t.pathWithin m i := by
  intro i
  induction i using Nat.strongRecOn with
  | ind i ih =>
    intro n m hi hn hm
    obtain ⟨n, rfl⟩ : ∃ k, n = k + 1 := ⟨n - 1, by omega⟩
    obtain ⟨m, rfl⟩ : ∃ k, m = k + 1 := ⟨m - 1, by omega⟩
    unfold pathWithin
    cases hp : (t.scope i).parent with
    | none => rfl
    | some p =>
      have hlt := ht.parent_lt i p hi hp
      simp only [ih p hlt n m (by omega) (by omega) (by omega)]

/-- The path of a scope starts with the scope, and goes on with the path of the scope around it. -/
theorem Ordered.path_eq_cons (ht : t.Ordered) (hi : i < t.size)
    (hp : (t.scope i).parent = some p) : t.path i = i :: t.path p := by
  have hlt := ht.parent_lt i p hi hp
  rw [path, path, ht.pathWithin_eq i t.size (t.size + 1) hi hi (by omega), pathWithin, hp]

theorem Ordered.path_eq_singleton (ht : t.Ordered) (hi : i < t.size)
    (hp : (t.scope i).parent = none) : t.path i = [i] := by
  rw [path, ht.pathWithin_eq i t.size (t.size + 1) hi hi (by omega), pathWithin, hp]

/-- Going outwards, numbers do not grow. -/
theorem Ordered.le_of_mem_path (ht : t.Ordered) :
    ∀ i : Nat, i < t.size → ∀ j ∈ t.path i, j ≤ i := by
  intro i
  induction i using Nat.strongRecOn with
  | ind i ih =>
    intro hi j hj
    cases hp : (t.scope i).parent with
    | none =>
      rw [ht.path_eq_singleton hi hp, List.mem_singleton] at hj
      exact Nat.le_of_eq hj
    | some p =>
      have hlt := ht.parent_lt i p hi hp
      rw [ht.path_eq_cons hi hp, List.mem_cons] at hj
      rcases hj with rfl | hj
      · exact Nat.le_refl j
      · exact Nat.le_trans (ih p hlt (by omega) j hj) (by omega)

theorem Ordered.lt_size_of_mem_path (ht : t.Ordered) (hi : i < t.size) (hj : j ∈ t.path i) :
    j < t.size :=
  Nat.lt_of_le_of_lt (ht.le_of_mem_path i hi j hj) hi

/-- Going outwards, no scope is met twice. -/
theorem Ordered.nodup_path (ht : t.Ordered) : ∀ i : Nat, i < t.size → (t.path i).Nodup := by
  intro i
  induction i using Nat.strongRecOn with
  | ind i ih =>
    intro hi
    cases hp : (t.scope i).parent with
    | none =>
      rw [ht.path_eq_singleton hi hp]
      exact List.nodup_cons.2 ⟨List.not_mem_nil, .nil⟩
    | some p =>
      have hlt := ht.parent_lt i p hi hp
      have hp' : p < t.size := Nat.lt_trans hlt hi
      rw [ht.path_eq_cons hi hp]
      refine List.nodup_cons.2 ⟨fun hmem => ?_, ih p hlt hp'⟩
      exact Nat.not_lt_of_le (ht.le_of_mem_path p hp' i hmem) hlt

/-- Two trees with the same parents up to a scope have the same path there. -/
theorem Ordered.path_congr (ht : t.Ordered) (hu : u.Ordered) :
    ∀ i : Nat, i < t.size → i < u.size →
      (∀ j : Nat, j ≤ i → (u.scope j).parent = (t.scope j).parent) → u.path i = t.path i := by
  intro i
  induction i using Nat.strongRecOn with
  | ind i ih =>
    intro hi hi' h
    cases hp : (t.scope i).parent with
    | none =>
      rw [ht.path_eq_singleton hi hp, hu.path_eq_singleton hi' ((h i (Nat.le_refl i)).trans hp)]
    | some p =>
      have hlt := ht.parent_lt i p hi hp
      rw [ht.path_eq_cons hi hp, hu.path_eq_cons hi' ((h i (Nat.le_refl i)).trans hp),
        ih p hlt (by omega) (by omega) fun j hj => h j (by omega)]

/-- The rest of a path is a path. -/
theorem Ordered.drop_path (ht : t.Ordered) :
    ∀ (k : Nat) {i j : Nat}, i < t.size → (t.path i)[k]? = some j →
      (t.path i).drop k = t.path j := by
  intro k
  induction k with
  | zero =>
    intro i j hi h
    cases hp : (t.scope i).parent with
    | none =>
      rw [ht.path_eq_singleton hi hp] at h
      obtain rfl : i = j := by simpa using h
      rw [List.drop_zero]
    | some p =>
      rw [ht.path_eq_cons hi hp] at h
      obtain rfl : i = j := by simpa using h
      rw [List.drop_zero]
  | succ k ih =>
    intro i j hi h
    cases hp : (t.scope i).parent with
    | none =>
      rw [ht.path_eq_singleton hi hp] at h
      simp at h
    | some p =>
      have hlt := ht.parent_lt i p hi hp
      rw [ht.path_eq_cons hi hp] at h ⊢
      exact ih (by omega) (by simpa using h)

theorem Ordered.mem_path_self (ht : t.Ordered) (hi : i < t.size) : i ∈ t.path i := by
  cases hp : (t.scope i).parent with
  | none =>
    rw [ht.path_eq_singleton hi hp]
    exact List.mem_singleton_self i
  | some p =>
    rw [ht.path_eq_cons hi hp]
    exact List.mem_cons_self

/-- What lies around a scope on the path lies on the path. -/
theorem Ordered.mem_path_trans (ht : t.Ordered) {k : Nat} (hi : i < t.size) (hj : j ∈ t.path i)
    (hk : k ∈ t.path j) : k ∈ t.path i := by
  obtain ⟨d, hd⟩ := List.mem_iff_getElem?.1 hj
  rw [← ht.drop_path d hi hd] at hk
  exact List.mem_of_mem_drop hk

/-! ### Searches -/

/-- A search finds the nearest scope that is accepted, and the number of steps to it. -/
theorem find_eq_some_iff {q : Scope → Bool} : t.find start q = some r ↔
      (t.path start)[r.depth]? = some r.scope ∧ q (t.scope r.scope) = true ∧
        ∀ k j : Nat, k < r.depth → (t.path start)[k]? = some j → q (t.scope j) = false := by
  simp only [find]
  cases hd : (t.path start).findIdx? fun id => q (t.scope id) with
  | none =>
    rw [List.findIdx?_eq_none_iff] at hd
    simp only [reduceCtorEq, false_iff]
    rintro ⟨h, hq, -⟩
    rw [hd _ (List.mem_of_getElem? h)] at hq
    cases hq
  | some d =>
    rw [List.findIdx?_eq_some_iff_getElem] at hd
    obtain ⟨hlt, hq, hmin⟩ := hd
    simp only [List.getElem?_eq_getElem hlt, Option.map_some, Option.some.injEq]
    constructor
    · rintro rfl
      refine ⟨List.getElem?_eq_getElem hlt, hq, ?_⟩
      intro k j hk hj
      obtain ⟨hk', rfl⟩ := List.getElem?_eq_some_iff.1 hj
      simpa using hmin k hk
    · rintro ⟨hr, hqr, hminr⟩
      obtain ⟨hlt', hr'⟩ := List.getElem?_eq_some_iff.1 hr
      have hd : d = r.depth := by
        rcases Nat.lt_trichotomy d r.depth with h | h | h
        · rw [hminr d _ h (List.getElem?_eq_getElem hlt)] at hq
          cases hq
        · exact h
        · have hfalse := hmin r.depth h
          rw [hr', hqr] at hfalse
          exact absurd rfl hfalse
      subst hd
      cases r
      simp_all

/-- A variable is found in the nearest scope that declares the name, and nowhere else. -/
theorem lookupVariable_eq_some_iff {v : Variable} :
    t.lookupVariable start name = some (r, v) ↔ (t.path start)[r.depth]? = some r.scope ∧
      (t.scope r.scope).getVariable? name = some v ∧
        ∀ k j : Nat, k < r.depth → (t.path start)[k]? = some j →
        (t.scope j).getVariable? name = none := by
  unfold lookupVariable
  simp only [Option.bind_eq_bind, Option.bind_eq_some_iff, Option.some.injEq, Prod.mk.injEq,
    find_eq_some_iff, Option.isSome_eq_false_iff, Option.isNone_iff_eq_none]
  constructor
  · rintro ⟨r, ⟨hpath, -, hbefore⟩, v, hv, rfl, rfl⟩
    exact ⟨hpath, hv, hbefore⟩
  · rintro ⟨hpath, hv, hbefore⟩
    exact ⟨r, ⟨hpath, by rw [hv]; rfl, hbefore⟩, v, hv, rfl, rfl⟩

theorem lookupVariable_eq_some {v : Variable} (h : t.lookupVariable start name = some (r, v)) :
    (t.path start)[r.depth]? = some r.scope ∧ (t.scope r.scope).getVariable? name = some v :=
  ⟨(lookupVariable_eq_some_iff.1 h).1, (lookupVariable_eq_some_iff.1 h).2.1⟩

/-- Two searches over scopes that agree about a name. -/
theorem lookupVariable_congr (hpath : u.path start = t.path start)
    (h : ∀ j ∈ t.path start, (u.scope j).getVariable? name = (t.scope j).getVariable? name) :
    u.lookupVariable start name = t.lookupVariable start name := by
  refine Option.ext fun ⟨r, v⟩ => ?_
  rw [lookupVariable_eq_some_iff, lookupVariable_eq_some_iff, hpath]
  refine and_congr_right fun hr => ?_
  rw [h _ (List.mem_of_getElem? hr)]
  refine and_congr_right fun _ => forall_congr' fun k => forall_congr' fun j =>
      imp_congr_right fun _ =>
    forall_congr' fun hj => ?_
  rw [h _ (List.mem_of_getElem? hj)]

/-- A function is found in the nearest scope that declares the name. -/
theorem lookupFunction_eq_some {f : Signature} (h : t.lookupFunction start name = some (r, f)) :
    (t.path start)[r.depth]? = some r.scope ∧ (t.scope r.scope).getFunction? name = some f := by
  obtain ⟨r', hfind, hrest⟩ := Option.bind_eq_some_iff.1 h
  obtain ⟨f', hf, hpair⟩ := Option.bind_eq_some_iff.1 hrest
  cases hpair
  exact ⟨(find_eq_some_iff.1 hfind).1, hf⟩

/-- The loop around a statement is the nearest one, in the same function. -/
theorem lookupLoop_eq_some {m : LoopExit} (h : t.lookupLoop start = some (r, m)) :
    (t.path start)[r.depth]? = some r.scope ∧ (t.scope r.scope).loop = some m ∧
      ∀ k j : Nat, k < r.depth → (t.path start)[k]? = some j →
        (t.scope j).loop = none ∧ (t.scope j).function = none := by
  obtain ⟨r', hfind, hrest⟩ := Option.bind_eq_some_iff.1 h
  obtain ⟨m', hm, hpair⟩ := Option.bind_eq_some_iff.1 hrest
  cases hpair
  obtain ⟨hpath, -, hbefore⟩ := find_eq_some_iff.1 hfind
  refine ⟨hpath, hm, fun k j hk hj => ?_⟩
  have hnot := hbefore k j hk hj
  rw [Bool.or_eq_false_iff, Option.isSome_eq_false_iff, Option.isSome_eq_false_iff,
    Option.isNone_iff_eq_none, Option.isNone_iff_eq_none] at hnot
  exact hnot

/-- The function around a statement. -/
theorem lookupFunctionExit_eq_some {m : FunctionExit}
    (h : t.lookupFunctionExit start = some (r, m)) :
    (t.path start)[r.depth]? = some r.scope ∧ (t.scope r.scope).function = some m ∧
      ∀ k j : Nat, k < r.depth → (t.path start)[k]? = some j → (t.scope j).function = none := by
  obtain ⟨r', hfind, hrest⟩ := Option.bind_eq_some_iff.1 h
  obtain ⟨m', hm, hpair⟩ := Option.bind_eq_some_iff.1 hrest
  cases hpair
  obtain ⟨hpath, -, hbefore⟩ := find_eq_some_iff.1 hfind
  refine ⟨hpath, hm, fun k j hk hj => ?_⟩
  have hnot := hbefore k j hk hj
  rwa [Option.isSome_eq_false_iff, Option.isNone_iff_eq_none] at hnot

/-- The path of a scope leads to the outermost one, and no scope before that is outermost. -/
theorem Ordered.exists_path_root (ht : t.Ordered) :
    ∀ i : Nat, i < t.size → ∃ d, (t.path i)[d]? = some 0 ∧ (t.scope 0).parent = none ∧
      ∀ k j : Nat, k < d → (t.path i)[k]? = some j → (t.scope j).parent.isNone = false := by
  intro i
  induction i using Nat.strongRecOn with
  | ind i ih =>
    intro hi
    cases hp : (t.scope i).parent with
    | none =>
      obtain rfl := ht.eq_zero i hi hp
      exact ⟨0, by rw [ht.path_eq_singleton hi hp]; rfl, hp, by simp⟩
    | some p =>
      have hlt := ht.parent_lt i p hi hp
      obtain ⟨d, hd, hroot, hmin⟩ := ih p hlt (by omega)
      refine ⟨d + 1, by rw [ht.path_eq_cons hi hp]; simpa using hd, hroot, ?_⟩
      intro k j hk hj
      rw [ht.path_eq_cons hi hp] at hj
      cases k with
      | zero =>
        obtain rfl : i = j := by simpa using hj
        simp [hp]
      | succ k => exact hmin k j (by omega) (by simpa using hj)

/-- The path ends at the outermost scope. -/
theorem Ordered.getElem?_path_depthToRoot (ht : t.Ordered) (hi : i < t.size) :
    (t.path i)[t.depthToRoot i]? = some 0 := by
  obtain ⟨d, hd, hroot, hmin⟩ := ht.exists_path_root i hi
  have hfind : t.find i (fun s => s.parent.isNone) = some ⟨0, d⟩ := by
    rw [find_eq_some_iff]
    exact ⟨hd, by simp [hroot], hmin⟩
  rw [depthToRoot, hfind]
  exact hd

end KuAsm.ScopeTree
