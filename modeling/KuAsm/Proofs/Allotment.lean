import KuAsm.Proofs.Budget
import Mathlib.Data.List.Nodup
import Mathlib.Order.Bounds.Basic

/-!
# The slots that a scope hands out

A scope hands out the bytes of its frame from one end to the other, whoever asks for them.  Between
two reservations names may be declared, refused, and made owners of heap values.  Nothing of this
brings two slots together, and since variables lie in the frame in the order of their declaration,
there is one order to release what they own.

## Main definitions

* `Scope.Call`: a reservation, a declaration, or a change of owner; `Scope.Call.run` makes a list of
  them.
* `Scope.Allots`: the slots that a scope has handed out.

## Main statements

* `Scope.Call.action_cases`: what one call can do.
* `slots_handed_out_in_order`: where the slots lie after any calls, in the frame and from the frame
  pointer.
-/

namespace KuAsm

open Lower

variable {s t : State} {sc : Scope} {xs : List Slot} {x : Slot} {name : String} {ty : ScalarType}
  {l : Location}

/-! ### Calls -/

namespace Scope

/-- What may be asked of a scope. -/
inductive Call where
  | reserve (size : Nat)
  | declare (name : String) (ty : ScalarType) (l : Location)
  | own (name : String) (id : ReclaimId)

namespace Call

/-- A call on the scope that is being compiled, and the slots it hands out. -/
def action : Call → Lower (List Slot)
  | reserve size => do return [← Lower.reserve size]
  | declare name ty l => do return (← Lower.declareVariable name ty l).slots
  | own name id => do
    Lower.own name id
    return []

/-- Calls one after the other, and all slots they hand out.  A name that is refused stops nothing:
the next call finds the state that the refused one left.  A fault stops the calls. -/
def run : List Call → State → Except Fault (List Slot × State)
  | [], s => .ok ([], s)
  | c :: cs, s =>
    match c.action s with
    | .ok xs t => (run cs t).map fun (ys, u) => (xs ++ ys, u)
    | .error (.rejected _) t => run cs t
    | .error (.fault f) _ => .error f

end Call

/-! ### Slots in the order of their allocation -/

/-- The slots that a scope has handed out, in this order. -/
structure Allots (sc : Scope) (xs : List Slot) : Prop where
  ordered : xs.Pairwise fun x y => x.bound ≤ y.offset
  bound_le : ∀ x ∈ xs, x.bound ≤ sc.used
  /-- Variables are declared in the order of their slots. -/
  vars : (sc.vars.map (·.slot)).Sublist xs
  size_pos : ∀ v ∈ sc.vars, 0 < v.slot.size

namespace Allots

theorem nil (h : sc.vars = []) : sc.Allots [] := by
  refine ⟨.nil, List.forall_mem_nil _, ?_, ?_⟩
  · rw [h]
    exact .slnil
  · rw [h]
    exact List.forall_mem_nil _

theorem reserved (h : sc.Allots xs) (size : Nat) :
    Allots { sc with used := sc.used + size } (xs ++ [⟨sc.used, size⟩]) where
  ordered := by
    refine List.pairwise_append.2 ⟨h.ordered, List.pairwise_singleton _ _, fun x hx y hy => ?_⟩
    rw [List.mem_singleton.1 hy]
    exact h.bound_le x hx
  bound_le x hx := by
    rcases List.mem_append.1 hx with hx | hx
    · exact Nat.le_trans (h.bound_le x hx) (Nat.le_add_right _ _)
    · rw [List.mem_singleton.1 hx]
      exact Nat.le_refl _
  vars := h.vars.trans (List.sublist_append_left _ _)
  size_pos := h.size_pos

/-- The slot that was handed out last becomes that of a variable. -/
theorem named (h : sc.Allots (xs ++ [x])) (hvars : (sc.vars.map (·.slot)).Sublist xs) {v : Variable}
    (hv : v.slot = x) (hpos : 0 < x.size) :
    Allots { sc with vars := sc.vars ++ [v] } (xs ++ [x]) where
  ordered := h.ordered
  bound_le := h.bound_le
  vars := by
    rw [List.map_append, List.map_singleton, hv]
    exact hvars.append (.refl _)
  size_pos w hw := by
    rcases List.mem_append.1 hw with hw | hw
    · exact h.size_pos w hw
    · rw [List.mem_singleton.1 hw, hv]
      exact hpos

theorem declared (h : sc.Allots xs) (name : String) (ty : ScalarType) :
    (sc.declared name ty).Allots (xs ++ (sc.newVariable name ty).slots) := by
  have hpos : 0 < ty.size := by cases ty <;> decide
  have hslot := (h.reserved ty.size).named h.vars (v := sc.newVariable name ty) rfl hpos
  unfold Scope.declared Scope.newVariable Variable.slots at *
  cases hheap : ty.isHeap with
  | false =>
    rw [hheap] at hslot
    exact hslot
  | true =>
    -- The size of a string lies behind its value, in a slot that belongs to no other variable.
    rw [hheap] at hslot
    have hcell := hslot.reserved 4
    rw [List.append_assoc] at hcell
    exact hcell

theorem bind (h : sc.Allots xs) (name : String) (id : ReclaimId) : (sc.bind name id).Allots xs where
  ordered := h.ordered
  bound_le := h.bound_le
  vars := by
    rw [map_vars_bind fun _ _ => rfl]
    exact h.vars
  size_pos v hv := by
    obtain ⟨w, hw, rfl⟩ := List.mem_map.1 hv
    have hpos := h.size_pos w hw
    split <;> exact hpos

end Allots

end Scope

/-! ### What calls do -/

namespace Lower

/-- A name is refused exactly if it is declared already.  Nothing has changed then. -/
theorem declareVariable_eq_rejected_iff {d : Diagnostic} :
    declareVariable name ty l s = .error (.rejected d) t ↔
      (∃ v ∈ s.here.vars, v.name = name) ∧
        d = ⟨.duplicateDeclaration .variable name, l⟩ ∧ t = s := by
  have hdeclared : (∃ v ∈ s.here.vars, v.name = name) ↔ s.here.getVariable? name ≠ none := by
    rw [Ne, Scope.getVariable?_eq_none_iff]
    simp only [not_forall, not_not, exists_prop]
  rw [declareVariable_apply, hdeclared]
  by_cases hname : s.here.getVariable? name = none
  · rw [Scope.declareVariable_eq hname]
    by_cases hfull : wordCount ≤ (s.here.declared name ty).used <;> simp [hname, hfull]
  · rw [Scope.declareVariable_of_declared hname]
    simp [hname, eq_comm]

end Lower

namespace Scope.Call

/-- What a call can do: it hands out slots behind all others, or it fails and changes nothing.  It
fails if it declares a name again, or if there is not enough room in the frame. -/
theorem action_cases (c : Call) (s : State) :
    (∃ ys sc, c.action s = .ok ys (s.withScope sc) ∧ ∀ xs, s.here.Allots xs →
      sc.Allots (xs ++ ys)) ∨ (∃ d, c.action s = .error (.rejected d) s) ∨
      c.action s = .error (.fault .addOverflow) s := by
  cases c with
  | reserve size =>
    have hrun := reserve_apply size s
    split at hrun
    · exact .inr (.inr (bind_eq_error.2 (.inl hrun)))
    · exact .inl ⟨_, _, bind_of_eq_ok hrun, fun xs hxs => hxs.reserved size⟩
  | declare name ty l =>
    have hrun := declareVariable_apply name ty l s
    by_cases hname : s.here.getVariable? name = none
    · rw [declareVariable_eq hname] at hrun
      by_cases hfull : wordCount ≤ (s.here.declared name ty).used
      · rw [if_pos hfull] at hrun
        exact .inr (.inr (bind_eq_error.2 (.inl hrun)))
      · rw [if_neg hfull] at hrun
        exact .inl ⟨_, _, bind_of_eq_ok hrun, fun xs hxs => hxs.declared name ty⟩
    · rw [declareVariable_of_declared hname] at hrun
      exact .inr (.inl ⟨_, bind_eq_error.2 (.inl hrun)⟩)
  | own name id =>
    refine .inl ⟨_, _, bind_of_eq_ok (a := ()) (own_eq_ok.2 rfl), fun xs hxs => ?_⟩
    rw [List.append_nil]
    exact hxs.bind name id

/-- Calls that fit into the frame come to an end, and their slots lie behind those that were handed
out before. -/
theorem run_allots (calls : List Call) (hs : s.current < s.tree.size) (h : s.here.Allots xs)
    (hfits : run calls s ≠ .error .addOverflow) :
    ∃ ys t, run calls s = .ok (ys, t) ∧ t.here.Allots (xs ++ ys) := by
  induction calls generalizing s xs with
  | nil => exact ⟨[], s, rfl, (List.append_nil xs).symm ▸ h⟩
  | cons c calls ih =>
    -- A refused call leaves the state as it is, so the other calls go on from there.
    unfold run at hfits ⊢
    rcases c.action_cases s with ⟨ys, sc, hc, hsc⟩ | ⟨d, hc⟩ | hc
    · rw [hc] at hfits ⊢
      have hcurrent : (s.withScope sc).current < (s.withScope sc).tree.size := by
        simpa [State.withScope] using hs
      have hhere : (s.withScope sc).here.Allots (xs ++ ys) := by
        unfold State.here State.withScope
        rw [ScopeTree.scope_set_self sc hs]
        exact hsc xs h
      obtain ⟨zs, t, hrun, ht⟩ := ih hcurrent hhere fun hrun => hfits (by simp [hrun, Except.map])
      refine ⟨ys ++ zs, t, by simp [hrun, Except.map], ?_⟩
      rw [← List.append_assoc]
      exact ht
    · rw [hc] at hfits ⊢
      exact ih hs h hfits
    · rw [hc] at hfits
      exact absurd rfl hfits

end Scope.Call

/-! ### Displacements, frames and owners -/

/-- The bytes of a slot, counted from the frame pointer: as many as its size, from its displacement
on. -/
def Slot.Spans (x : Slot) (b : Int) : Prop := ∃ d, x.disp = .ok d ∧ d ≤ b ∧ b < d + x.size

/-- The frame is the least number of whole words that holds what is reserved, provided it is a
number of 32 bits. -/
theorem Scope.frameBytes_eq_ok_iff {n : Nat} :
    sc.frameBytes = .ok n ↔ n < wordCount ∧ IsLeast {m | 4 ∣ m ∧ sc.used ≤ m} n := by
  have hleast : IsLeast {m | 4 ∣ m ∧ sc.used ≤ m} ((sc.used + 3) / 4 * 4) :=
    ⟨⟨Nat.dvd_mul_left _ _, by omega⟩, fun m ⟨hm, hle⟩ => by omega⟩
  refine ⟨fun h => ?_, fun ⟨hlt, hn⟩ => ?_⟩
  · obtain ⟨hlt, rfl⟩ := frameBytes_eq_ok h
    exact ⟨hlt, hleast⟩
  · obtain rfl := hn.unique hleast
    unfold frameBytes
    rw [if_neg (Nat.not_le_of_lt hlt)]

namespace Scope.Allots

theorem vars_pairwise (h : sc.Allots xs) :
    sc.vars.Pairwise fun v w => v.slot.offset < w.slot.offset := by
  have hslots := List.pairwise_map.1 (h.ordered.sublist h.vars)
  refine hslots.imp_of_mem fun {v w} hv _ hle => Nat.lt_of_lt_of_le ?_ hle
  have := h.size_pos v hv
  unfold Slot.bound
  omega

/-- The owners come in the order of their declaration, however the variables are listed. -/
theorem owners_eq (h : sc.Allots xs) {vs : List Variable} (hvs : vs.Perm sc.vars) :
    Scope.owners { sc with vars := vs } = sc.vars.filter (·.reclaim.isSome) := by
  have hstrict :
      (sc.vars.filter (·.reclaim.isSome)).Pairwise fun v w => v.slot.offset < w.slot.offset :=
    h.vars_pairwise.sublist List.filter_sublist
  have hsorted : (Scope.owners { sc with vars := vs }).Pairwise fun v w =>
      v.slot.offset ≤ w.slot.offset := by
    refine (List.pairwise_mergeSort (fun a b c hab hbc => ?_) (fun a b => ?_) _).imp
      of_decide_eq_true
    · exact decide_eq_true (Nat.le_trans (of_decide_eq_true hab) (of_decide_eq_true hbc))
    · simpa using Nat.le_total _ _
  have hperm : (Scope.owners { sc with vars := vs }).Perm (sc.vars.filter (·.reclaim.isSome)) :=
    (List.mergeSort_perm _ _).trans (hvs.filter _)
  -- No two of them have the same offset, so there is only one way to sort them.
  have hinj := List.inj_on_of_nodup_map (f := fun v : Variable => v.slot.offset)
    (List.pairwise_map.2 (hstrict.imp Nat.ne_of_lt))
  exact hperm.eq_of_pairwise (fun v w hv hw hvw hwv =>
    hinj (hperm.subset hv) hw (Nat.le_antisymm hvw hwv)) hsorted (hstrict.imp Nat.le_of_lt)

/-- In the lower half of the address space, the bytes of slots lie in the frame and keep their
order. -/
theorem bytes_apart (h : sc.Allots xs) (hused : sc.used < halfCount) :
    ∃ n, sc.frameBytes = .ok n ∧
      (∀ x ∈ xs, (∃ d, x.disp = .ok d) ∧ ∀ b, x.Spans b → -(n : Int) ≤ b ∧ b < 0) ∧
      xs.Pairwise fun x y => ∀ b, x.Spans b → ¬ y.Spans b := by
  have hspans : ∀ x ∈ xs, x.disp = .ok (-(x.bound : Int)) ∧
      ∀ b, x.Spans b → -(x.bound : Int) ≤ b ∧ b < -(x.offset : Int) := by
    intro x hx
    have hdisp := Slot.disp_of_lt (Nat.lt_of_le_of_lt (h.bound_le x hx) hused)
    refine ⟨hdisp, fun b hb => ?_⟩
    obtain ⟨d, hd, hlow, hhigh⟩ := hb
    obtain rfl := Except.ok.inj (hdisp.symm.trans hd)
    unfold Slot.bound at *
    omega
  refine ⟨(sc.used + 3) / 4 * 4, ?_, fun x hx => ⟨⟨_, (hspans x hx).1⟩, fun b hb => ?_⟩,
    h.ordered.imp_of_mem fun {x y} hx hy hle b hb hb' => ?_⟩
  · unfold Scope.frameBytes
    rw [if_neg]
    unfold wordCount halfCount at *
    omega
  · have hbound := h.bound_le x hx
    have hb := (hspans x hx).2 b hb
    omega
  · have hb := (hspans x hx).2 b hb
    have hb' := (hspans y hy).2 b hb'
    omega

end Scope.Allots

/-- A scope hands out its frame in order.  After any calls on a scope without variables that do not
run out of numbers of 32 bits, every slot ends before the next one begins, all end within what is
reserved, and the variables have theirs among them.  A name is refused exactly if it is declared
already, and then nothing changes.  The frame is the least number of whole words that holds what is
reserved.  As long as this is in the lower half of the address space, the bytes of the slots,
counted from the frame pointer, are apart and inside the frame.  The owners of heap values are the
variables that have an id, in the order of their offsets, however the variables are listed. -/
theorem slots_handed_out_in_order (hs : s.current < s.tree.size) (hnew : s.here.vars = [])
    (calls : List Scope.Call) (hfits : Scope.Call.run calls s ≠ .error .addOverflow) :
    ∃ xs t, Scope.Call.run calls s = .ok (xs, t) ∧
      xs.Pairwise (fun x y => x.bound ≤ y.offset) ∧ (∀ x ∈ xs, x.bound ≤ t.here.used) ∧
      (t.here.vars.map (·.slot)).Sublist xs ∧
      (∀ name ty l d u, declareVariable name ty l t = .error (.rejected d) u ↔
        (∃ v ∈ t.here.vars, v.name = name) ∧
        d = ⟨.duplicateDeclaration .variable name, l⟩ ∧ u = t) ∧
      (∀ n, t.here.frameBytes = .ok n ↔
        n < wordCount ∧ IsLeast {m | 4 ∣ m ∧ t.here.used ≤ m} n) ∧
      (t.here.used < halfCount → ∃ n, t.here.frameBytes = .ok n ∧
        (∀ x ∈ xs, (∃ d, x.disp = .ok d) ∧ ∀ b, x.Spans b → -(n : Int) ≤ b ∧ b < 0) ∧
        xs.Pairwise fun x y => ∀ b, x.Spans b → ¬ y.Spans b) ∧
      ∀ vs, vs.Perm t.here.vars →
        Scope.owners { t.here with vars := vs } = t.here.vars.filter (·.reclaim.isSome) ∧
        (Scope.owners { t.here with vars := vs }).Pairwise fun v w =>
          v.slot.offset < w.slot.offset := by
  obtain ⟨xs, t, hrun, ht⟩ := Scope.Call.run_allots calls hs (.nil hnew) hfits
  refine ⟨xs, t, hrun, ht.ordered, ht.bound_le, ht.vars, fun _ _ _ _ _ =>
    declareVariable_eq_rejected_iff,
    fun _ => Scope.frameBytes_eq_ok_iff, ht.bytes_apart, fun vs hvs => ⟨ht.owners_eq hvs, ?_⟩⟩
  rw [ht.owners_eq hvs]
  exact ht.vars_pairwise.sublist List.filter_sublist

/-- Two strings and a character, with a reservation of no bytes and one that ends at no word between
them.  A name is declared twice, and the string that was declared last gets its id first. -/
def mixedCalls : List Scope.Call :=
  [.declare "s" .string ⟨1, 1⟩, .reserve 0, .declare "c" .character ⟨2, 1⟩, .reserve 6,
    .declare "s" .integer ⟨3, 1⟩, .declare "t" .string ⟨4, 1⟩, .own "t" ⟨0⟩, .own "s" ⟨1⟩]

theorem slots_handed_out_in_order_mixed :
    Scope.Call.run mixedCalls (.start .empty true) ≠ .error .addOverflow ∧
      ∃ xs t, Scope.Call.run mixedCalls (.start .empty true) = .ok (xs, t) ∧ xs.length = 7 ∧
        t.here.frameBytes = .ok 24 ∧
        (∀ x ∈ xs, (∃ d, x.disp = .ok d) ∧ ∀ b, x.Spans b → -24 ≤ b ∧ b < 0) ∧
        (Scope.owners { t.here with vars := t.here.vars.reverse }).map (·.name) = ["s", "t"] := by
  have hfits : Scope.Call.run mixedCalls (.start .empty true) ≠ .error .addOverflow := by decide
  obtain ⟨xs, t, hrun, -, -, -, -, -, hbytes, howners⟩ :=
    slots_handed_out_in_order (by decide) rfl mixedCalls hfits
  have hvalue :
      (Scope.Call.run mixedCalls (.start .empty true)).map (fun (xs, t) =>
        (xs.length, t.here.used, (t.here.vars.filter (·.reclaim.isSome)).map (·.name))) =
      .ok (7, 23, ["s", "t"]) := by decide
  rw [hrun] at hvalue
  obtain ⟨hlength, hused, hnames⟩ : xs.length = 7 ∧ t.here.used = 23 ∧
      (t.here.vars.filter (·.reclaim.isSome)).map (·.name) = ["s", "t"] := by
    simpa [Except.map] using hvalue
  have hframe : t.here.frameBytes = .ok 24 := by
    unfold Scope.frameBytes
    rw [hused]
    rfl
  obtain ⟨n, hn, hinside, -⟩ := hbytes (by rw [hused]; decide)
  obtain rfl : n = 24 := Except.ok.inj (hn.symm.trans hframe)
  refine ⟨hfits, xs, t, hrun, hlength, hframe, hinside, ?_⟩
  rw [(howners _ t.here.vars.reverse_perm).1, hnames]

end KuAsm
