import KuAsm.Proofs.Action

/-!
# Variables have slots of their own

The variables of a scope have slots of their own: a slot has the size of the values of the variable,
lies below what is reserved, can be reached from the frame pointer, and does not overlap the slot of
another variable.  Strings, and no other variables, have an id.

## Main statements

* `Scope.Spaced`: the variables of a scope have slots of their own.
* `Scope.Spaced.declared`: this is so after a declaration too.
-/

namespace KuAsm

variable {l : Location} {m : Mem} {base : Reg} {ty : ScalarType} {name : String} {v : Variable}

/-- Whether a byte of a frame belongs to a slot.  Bytes are counted like offsets. -/
def Slot.Covers (x : Slot) (o : Nat) : Prop := x.offset ≤ o ∧ o < x.bound

/-- No byte belongs to both slots. -/
def Slot.Apart (x y : Slot) : Prop := ∀ o, x.Covers o → ¬y.Covers o

theorem Slot.apart_of_bound_le {x y : Slot} (h : x.bound ≤ y.offset) : x.Apart y := by
  intro o hx hy
  exact Nat.lt_irrefl _ (Nat.lt_of_lt_of_le hx.2 (Nat.le_trans h hy.1))

theorem Scope.declareVariable_used {sc sc' : Scope}
    (h : sc.declareVariable name ty l = .ok (v, sc')) :
    sc'.used = sc.used + ty.size + if ty.isHeap then 4 else 0 := by
  rw [(declareVariable_eq_declared h).2.2]
  rfl

/-- The slot of a variable, of a scope that has so many bytes reserved. -/
structure Variable.Placed (used : Nat) (v : Variable) : Prop where
  size : v.slot.size = v.ty.size
  bound : v.slot.bound ≤ used
  /-- The slot can be reached from the frame pointer. -/
  disp : ∃ d, v.slot.disp = .ok d
  /-- A string has a cell for its size, and nothing else has one. -/
  cell : v.sizeCell.isSome = v.ty.isHeap
  /-- A string has an id, and nothing else has one. -/
  lends : v.reclaim.isSome = v.ty.isHeap

/-- The variables of a scope have slots of their own. -/
structure Scope.Spaced (sc : Scope) : Prop where
  placed : ∀ v ∈ sc.vars, v.Placed sc.used
  apart : sc.vars.Pairwise fun v w => v.slot.Apart w.slot

namespace Scope.Spaced

variable {sc sc' : Scope}

theorem of_vars_nil (h : sc.vars = []) : sc.Spaced := by
  refine ⟨fun v hv => ?_, ?_⟩
  · rw [h] at hv
    cases hv
  · rw [h]
    exact .nil

/-- More bytes may be reserved. -/
theorem grown (h : sc.Spaced) (hvars : sc'.vars = sc.vars) (hused : sc.used ≤ sc'.used) :
    sc'.Spaced := by
  refine ⟨fun v hv => ?_, ?_⟩
  · rw [hvars] at hv
    have hplaced := h.placed v hv
    exact ⟨hplaced.size, Nat.le_trans hplaced.bound hused, hplaced.disp, hplaced.cell,
      hplaced.lends⟩
  · rw [hvars]
    exact h.apart

/-- A new variable that can be reached, with an id if it is a string. -/
theorem declared (h : sc.Spaced) {sc'' : Scope} (hsc : sc.declareVariable name ty l = .ok (v, sc'))
    (hm : Mem.slot base ⟨sc.used, ty.size⟩ = .ok m) (id? : Option ReclaimId)
    (hid : id?.isSome = ty.isHeap)
    (hvars : sc''.vars = sc.vars ++ [{ sc.newVariable name ty with reclaim := id? }])
    (hle : sc'.used ≤ sc''.used) : sc''.Spaced := by
  have hused := Scope.declareVariable_used hsc
  have hbound : sc.used + ty.size ≤ sc''.used := by
    refine Nat.le_trans ?_ hle
    rw [hused]
    split <;> omega
  have hdisp : ∃ d, Slot.disp ⟨sc.used, ty.size⟩ = .ok d := by
    unfold Mem.slot at hm
    cases hd : Slot.disp ⟨sc.used, ty.size⟩ with
    | ok d => exact ⟨d, rfl⟩
    | error e =>
      rw [hd] at hm
      cases hm
  refine ⟨fun v hv => ?_, ?_⟩
  · rw [hvars] at hv
    rcases List.mem_append.1 hv with hv | hv
    · have hplaced := h.placed v hv
      exact ⟨hplaced.size, by have := hplaced.bound; omega, hplaced.disp, hplaced.cell,
        hplaced.lends⟩
    · rw [List.mem_singleton.1 hv]
      refine ⟨rfl, hbound, hdisp, ?_, hid⟩
      unfold newVariable
      cases ty <;> rfl
  · rw [hvars]
    refine List.pairwise_append.2 ⟨h.apart, List.pairwise_singleton _ _, fun v hv w hw => ?_⟩
    rw [List.mem_singleton.1 hw]
    exact Slot.apart_of_bound_le (h.placed v hv).bound

end Scope.Spaced

/-- The variables of all scopes have slots of their own. -/
def ScopeTree.Spaced (t : ScopeTree) : Prop := ∀ i : Nat, i < t.size → (t.scope i).Spaced

end KuAsm
