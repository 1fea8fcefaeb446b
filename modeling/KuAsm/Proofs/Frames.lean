import KuAsm.Proofs.Layers
import KuAsm.Proofs.Layout
import KuAsm.Proofs.Meaning
import KuAsm.Proofs.Onward
import KuAsm.Proofs.Processor

/-!
# Frames in memory

The frames of the scopes around a place, as they lie in the memory of a machine.  The frame pointer
leads to the innermost one, and the word there to the next.  Below it lie the slots of the scope.
Frames are in place if they do not overlap and nothing of them is below the stack pointer; then each
variable has bytes of its own.

## Main definitions

* `Machine.frame`: the frame so many links outwards.
* `Machine.values`: the values of all variables around a place, as they stand in memory.
* `Machine.Framed`: the frames are in place.

## Main statements

* `Machine.Framed.keeps`: a change of variables leaves the frames where they are.
* `Machine.Framed.values_eq`: what happens below the stack pointer changes no variable.
* `Machine.Framed.values_store`: storing a value in the slot of a variable changes that variable
  alone.
-/

namespace KuAsm

open Reg

variable {f : BitVec 32} {name : String} {v : Variable}

/-- The address of a variable in a frame. -/
def Variable.address (f : BitVec 32) (v : Variable) : BitVec 32 := f - .ofNat 32 v.slot.bound

/-- The bytes of a variable in a frame. -/
def Variable.Covers (f : BitVec 32) (v : Variable) (a : BitVec 32) : Prop :=
  (a - v.address f).toNat < v.slot.size

namespace Machine

/-- The frame so many links outwards. -/
def frame (m : Machine) : Nat → BitVec 32
  | 0 => m.regs ebp
  | k + 1 => m.load (m.frame k) .dword

variable (m : Machine)

/-- The value of a scalar variable in a frame. -/
def scalar? (f : BitVec 32) (v : Variable) : Option Scalar :=
  Scalar.ofWord? ((m.load (v.address f) (.ofType v.ty)).setWidth 32) v.ty

/-- The values of the variables of a scope in a frame. -/
def layer (f : BitVec 32) (sc : Scope) : List (String × Option Scalar) :=
  sc.vars.map fun v => (v.name, m.scalar? f v)

/-- The values of the variables of a scope and of those around it. -/
def values (t : ScopeTree) (i : ScopeId) : Store :=
  (t.path i).mapIdx fun k j => m.layer (m.frame k) (t.scope j)

/-- The byte belongs to the variable that a name means. -/
def Covers (t : ScopeTree) (i : ScopeId) (name : String) (a : BitVec 32) : Prop :=
  ∃ r v, t.lookupVariable i name = some (r, v) ∧ v.Covers (m.frame r.depth) a

/-- The frames of a scope and of those around it are in place.  A frame has the bytes that the scope
has reserved, and the word at the frame pointer above them.  No frame reaches below the stack
pointer or beyond the end of memory, and no two of them overlap. -/
structure Framed (t : ScopeTree) (i : ScopeId) : Prop where
  inside : ∀ k j : Nat, (t.path i)[k]? = some j →
    (m.regs esp).toNat + (t.scope j).used ≤ (m.frame k).toNat ∧ (m.frame k).toNat + 4 ≤ 2 ^ 32
  apart : ∀ k k' j j' : Nat, k ≠ k' → (t.path i)[k]? = some j → (t.path i)[k']? = some j' →
    (m.frame k).toNat + 4 + (t.scope j').used ≤ (m.frame k').toNat ∨
      (m.frame k').toNat + 4 + (t.scope j).used ≤ (m.frame k).toNat

end Machine

/-! ### Bytes -/

theorem Width.bytes_ofType (ty : ScalarType) :
    (Width.ofType ty).bytes = ty.size := by cases ty <;> rfl

/-- The bytes of a variable by their distance from the frame pointer. -/
theorem Variable.covers_iff {a : BitVec 32} (h : v.slot.bound ≤ f.toNat) :
    v.Covers f a ↔ f.toNat ≤ a.toNat + v.slot.bound ∧ a.toNat + v.slot.offset < f.toNat := by
  have ha := a.isLt
  have hf := f.isLt
  unfold Variable.Covers Variable.address
  unfold Slot.bound at h ⊢
  rw [BitVec.toNat_sub, BitVec.toNat_sub, BitVec.toNat_ofNat]
  omega

/-- A byte of one slot at most. -/
theorem Variable.not_covers_of_apart {a : BitVec 32} {w : Variable} (hv : v.slot.bound ≤ f.toNat)
    (hw : w.slot.bound ≤ f.toNat) (h : v.slot.Apart w.slot) (ha : v.Covers f a) :
    ¬ w.Covers f a := by
  intro ha'
  rw [covers_iff hv] at ha
  rw [covers_iff hw] at ha'
  refine h (f.toNat - 1 - a.toNat) ⟨?_, ?_⟩ ⟨?_, ?_⟩ <;> omega

namespace Machine

variable {m m' : Machine} {t : ScopeTree} {i : ScopeId}

/-- Frames are where they were, if their links are. -/
theorem frame_congr {n : Nat} (hebp : m'.regs ebp = m.regs ebp)
    (h : ∀ k < n, ∀ b : BitVec 32, (b - m.frame k).toNat < 4 → m'.mem b = m.mem b) :
    ∀ k ≤ n, m'.frame k = m.frame k := by
  intro k
  induction k with
  | zero => exact fun _ => hebp
  | succ k ih =>
    intro hk
    show m'.load (m'.frame k) .dword = m.load (m.frame k) .dword
    rw [ih (by omega)]
    exact load_congr fun b hb => h k hk b hb

theorem scalar?_congr (hsize : v.slot.size = v.ty.size)
    (h : ∀ a, v.Covers f a → m'.mem a = m.mem a) : m'.scalar? f v = m.scalar? f v := by
  unfold Machine.scalar?
  rw [load_congr fun b hb => h b ?_]
  rwa [Width.bytes_ofType, ← hsize] at hb

end Machine

/-- A name is looked for from the inside. -/
theorem ScopeTree.lookupVariable_first {t : ScopeTree} {i : ScopeId} {r : Resolved}
    (h : t.lookupVariable i name = some (r, v)) {k j : Nat} (hk : k < r.depth)
    (hj : (t.path i)[k]? = some j) : (t.scope j).getVariable? name = none := by
  obtain ⟨r', hfind, hrest⟩ := Option.bind_eq_some_iff.1 h
  obtain ⟨v', -, hpair⟩ := Option.bind_eq_some_iff.1 hrest
  cases hpair
  have hnot := (ScopeTree.find_eq_some_iff.1 hfind).2.2 k j hk hj
  rwa [Option.isSome_eq_false_iff, Option.isNone_iff_eq_none] at hnot

/-! ### Looking up variables -/

namespace Machine

variable {m : Machine} {t : ScopeTree} {i : ScopeId} {name : String} {r : Resolved} {v : Variable}

theorem lookup_layer (m : Machine) (f : BitVec 32) (sc : Scope) (name : String) :
    (m.layer f sc).lookup name = (sc.getVariable? name).map (m.scalar? f) := by
  unfold Machine.layer Scope.getVariable?
  induction sc.vars with
  | nil => rfl
  | cons v vs ih =>
    rw [List.map_cons, List.lookup_cons, List.find?_cons, BEq.comm (a := name)]
    cases v.name == name with
    | true => rfl
    | false => exact ih

theorem getElem?_values (m : Machine) (t : ScopeTree) (i : ScopeId) (k : Nat) :
    (m.values t i)[k]? = ((t.path i)[k]?).map fun j => m.layer (m.frame k) (t.scope j) := by
  unfold Machine.values
  rw [List.getElem?_mapIdx]

/-- The layer of a variable is the one of the scope that declares it. -/
theorem findIdx_values (h : t.lookupVariable i name = some (r, v)) :
    ((m.values t i).findIdx fun layer => (layer.lookup name).isSome) = r.depth := by
  obtain ⟨hr, hv⟩ := ScopeTree.lookupVariable_eq_some h
  have hat : ∀ {k j : Nat} (hk : k < (m.values t i).length), (t.path i)[k]? = some j →
      (m.values t i)[k].lookup name = ((t.scope j).getVariable? name).map
      (m.scalar? (m.frame k)) := by
    intro k j hk hj
    have hget := getElem?_values m t i k
    rw [hj, List.getElem?_eq_getElem hk] at hget
    rw [Option.some.inj hget]
    exact lookup_layer m _ _ name
  have hlen : (m.values t i).length = (t.path i).length := List.length_mapIdx
  have hlt : r.depth < (m.values t i).length := hlen ▸ (List.getElem?_eq_some_iff.1 hr).1
  refine (List.findIdx_eq hlt).2 ⟨?_, fun k hk => ?_⟩
  · rw [hat hlt hr, hv]
    rfl
  · have hk' : k < (t.path i).length := hlen ▸ Nat.lt_trans hk hlt
    rw [hat _ (List.getElem?_eq_getElem hk'),
      ScopeTree.lookupVariable_first h hk (List.getElem?_eq_getElem hk')]
    rfl

/-- A variable has the value that stands in its slot. -/
theorem findSome?_values (m : Machine) (t : ScopeTree) (i : ScopeId) (name : String) :
    (m.values t i).findSome? (·.lookup name) =
      (t.lookupVariable i name).map fun x => m.scalar? (m.frame x.1.depth) x.2 := by
  cases h : t.lookupVariable i name with
  | none =>
    have hnone := t.map_lookupVariable i name
    rw [h, Option.map_none, eq_comm, List.findSome?_eq_none_iff] at hnone
    rw [Option.map_none, List.findSome?_eq_none_iff]
    intro layer hlayer
    obtain ⟨k, hk⟩ := List.mem_iff_getElem?.1 hlayer
    rw [getElem?_values] at hk
    obtain ⟨j, hj, rfl⟩ := Option.map_eq_some_iff.1 hk
    rw [lookup_layer, hnone _ (List.mem_map_of_mem (List.mem_of_getElem? hj))]
    rfl
  | some x =>
    obtain ⟨r, v⟩ := x
    obtain ⟨hr, hv⟩ := ScopeTree.lookupVariable_eq_some h
    rw [Store.findSome?_eq_bind_findIdx, findIdx_values h, getElem?_values, hr]
    show (m.layer (m.frame r.depth) (t.scope r.scope)).lookup name = _
    rw [lookup_layer, hv]
    rfl

theorem read_values_eq_ok {x : Scalar} :
    (m.values t i).read name = .ok x ↔
      ∃ r v, t.lookupVariable i name = some (r, v) ∧ m.scalar? (m.frame r.depth) v = some x := by
  unfold Store.read
  rw [findSome?_values]
  cases t.lookupVariable i name with
  | none => simp
  | some y =>
    obtain ⟨r, v⟩ := y
    cases hx : m.scalar? (m.frame r.depth) v <;> simp [hx]

end Machine

/-- A scope in which one variable gets another value. -/
theorem Machine.layer_store {m m' : Machine} {sc : Scope} (hsc : sc.Spaced)
    (hbound : ∀ w ∈ sc.vars, w.slot.bound ≤ f.toNat) (hv : sc.getVariable? name = some v)
    (hother : ∀ a, ¬ v.Covers f a → m'.mem a = m.mem a) {y : Scalar}
    (hy : m'.scalar? f v = some y) :
    m'.layer f sc = (m.layer f sc).modify ((m.layer f sc).findIdx (name == ·.1)) fun _ =>
    (name, some y) := by
  have hfind : (m.layer f sc).findIdx (name == ·.1) = sc.vars.findIdx (·.name == name) := by
    unfold Machine.layer
    rw [List.findIdx_map]
    congr 1
    funext w
    exact BEq.comm
  have hat : sc.vars[sc.vars.findIdx (·.name == name)]? = some v := by
    rw [← hv]
    exact (List.find?_eq_getElem?_findIdx ..).symm
  refine List.ext_getElem? fun k => ?_
  rw [List.getElem?_modify, hfind]
  unfold Machine.layer
  rw [List.getElem?_map, List.getElem?_map]
  cases hw : sc.vars[k]? with
  | none => rfl
  | some w =>
    simp only [Option.map_some, Option.map_eq_map]
    by_cases hk : sc.vars.findIdx (·.name == name) = k
    · rw [if_pos hk]
      obtain rfl : v = w := by
        rw [hk, hw] at hat
        exact (Option.some.inj hat).symm
      have hname : v.name = name := by
        have hfound := List.find?_some hv
        exact beq_iff_eq.1 hfound
      rw [hy, hname]
    · rw [if_neg hk]
      obtain ⟨hd, hvat⟩ := List.getElem?_eq_some_iff.1 hat
      obtain ⟨hk', hwat⟩ := List.getElem?_eq_some_iff.1 hw
      have hapart : v.slot.Apart w.slot := by
        rcases Nat.lt_or_gt_of_ne hk with hlt | hgt
        · have h := List.pairwise_iff_getElem.1 hsc.apart _ _ hd hk' hlt
          rwa [hvat, hwat] at h
        · have h := List.pairwise_iff_getElem.1 hsc.apart _ _ hk' hd hgt
          rw [hvat, hwat] at h
          exact h.symm
      have hmemw := List.mem_of_getElem? hw
      rw [scalar?_congr (hsc.placed w hmemw).size fun a ha => hother a fun hcovers =>
        Variable.not_covers_of_apart (hbound v (List.mem_of_getElem? hat)) (hbound w hmemw) hapart
          hcovers ha]

theorem State.Spaced.of_path {s : State} (hs : s.Spaced) {k j : Nat}
    (h : (s.tree.path s.current)[k]? = some j) : (s.tree.scope j).Spaced :=
  hs.scope j (hs.formed.ordered.lt_size_of_mem_path hs.formed.current_lt (List.mem_of_getElem? h))

/-! ### What belongs to whom -/

namespace Machine.Framed

variable {m m' : Machine} {s : State} (hs : s.Spaced) (hm : m.Framed s.tree s.current)
  {k k' j j' : Nat} {v w : Variable} {a : BitVec 32}

include hs hm

/-- A slot is part of its frame. -/
theorem bound_le (hj : (s.tree.path s.current)[k]? = some j) (hv : v ∈ (s.tree.scope j).vars) :
    (m.regs esp).toNat + v.slot.bound ≤ (m.frame k).toNat := by
  have hbound := ((hs.of_path hj).placed v hv).bound
  have hinside := (hm.inside k j hj).1
  omega

/-- Variables are not below the stack pointer. -/
theorem le_of_covers (hj : (s.tree.path s.current)[k]? = some j) (hv : v ∈ (s.tree.scope j).vars)
    (ha : v.Covers (m.frame k) a) : (m.regs esp).toNat ≤ a.toNat := by
  have hbound := hm.bound_le hs hj hv
  rw [Variable.covers_iff (by omega)] at ha
  omega

/-- Variables of different frames have different bytes. -/
theorem not_covers_of_ne (hk : k ≠ k') (hj : (s.tree.path s.current)[k]? = some j)
    (hv : v ∈ (s.tree.scope j).vars) (hj' : (s.tree.path s.current)[k']? = some j')
    (hw : w ∈ (s.tree.scope j').vars)
    (ha : v.Covers (m.frame k) a) : ¬ w.Covers (m.frame k') a := by
  intro ha'
  have hbound := hm.bound_le hs hj hv
  have hbound' := hm.bound_le hs hj' hw
  have hplaced := ((hs.of_path hj).placed v hv).bound
  have hplaced' := ((hs.of_path hj').placed w hw).bound
  rw [Variable.covers_iff (by omega)] at ha ha'
  have hapart := hm.apart k k' j j' hk hj hj'
  omega

/-- Links are no variables. -/
theorem not_covers_link (hj : (s.tree.path s.current)[k]? = some j) (hv : v ∈ (s.tree.scope j).vars)
    (hj' : (s.tree.path s.current)[k']? = some j') (ha : (a - m.frame k').toNat < 4) :
    ¬ v.Covers (m.frame k) a := by
  intro hcovers
  have hbound := hm.bound_le hs hj hv
  have hplaced := ((hs.of_path hj).placed v hv).bound
  rw [Variable.covers_iff (by omega)] at hcovers
  have hinside := hm.inside k' j' hj'
  have hlink : (m.frame k').toNat ≤ a.toNat ∧ a.toNat < (m.frame k').toNat + 4 := by
    have hlt := a.isLt
    rw [BitVec.toNat_sub] at ha
    omega
  by_cases hk : k = k'
  · subst hk
    omega
  · have hapart := hm.apart k k' j j' hk hj hj'
    omega

/-! ### Changes of memory -/

/-- The frames stay where they are while variables change. -/
theorem frame_eq (names : List String) (hebp : m'.regs ebp = m.regs ebp)
    (hmem : ∀ a : BitVec 32, (m.regs esp).toNat ≤ a.toNat →
      (∀ name ∈ names, ¬ m.Covers s.tree s.current name a) → m'.mem a = m.mem a) :
    ∀ k ≤ (s.tree.path s.current).length, m'.frame k = m.frame k := by
  refine frame_congr hebp fun k hk a ha => ?_
  have hj := List.getElem?_eq_getElem hk
  refine hmem a ?_ fun name _ ⟨r, v, hlook, hcovers⟩ => ?_
  · have hinside := hm.inside k _ hj
    have hlt := a.isLt
    rw [BitVec.toNat_sub] at ha
    omega
  · obtain ⟨hr, hv⟩ := ScopeTree.lookupVariable_eq_some hlook
    exact hm.not_covers_link hs hr (List.mem_of_find?_eq_some hv) hj ha hcovers

/-- The frames stay in place while variables change and the stack grows. -/
theorem keeps (names : List String) (hebp : m'.regs ebp = m.regs ebp)
    (hesp : (m'.regs esp).toNat ≤ (m.regs esp).toNat)
    (hmem : ∀ a : BitVec 32, (m.regs esp).toNat ≤ a.toNat →
      (∀ name ∈ names, ¬ m.Covers s.tree s.current name a) → m'.mem a = m.mem a) :
    m'.Framed s.tree s.current := by
  have hframe := hm.frame_eq hs names hebp hmem
  have hlt : ∀ {k j : Nat}, (s.tree.path s.current)[k]? = some j →
      k ≤ (s.tree.path s.current).length := fun h =>
    Nat.le_of_lt (List.getElem?_eq_some_iff.1 h).1
  refine ⟨fun k j hj => ?_, fun k k' j j' hk hj hj' => ?_⟩
  · rw [hframe k (hlt hj)]
    have hinside := hm.inside k j hj
    omega
  · rw [hframe k (hlt hj), hframe k' (hlt hj')]
    exact hm.apart k k' j j' hk hj hj'

/-- What happens below the stack pointer changes no variable. -/
theorem values_eq (hebp : m'.regs ebp = m.regs ebp)
    (hmem : ∀ a : BitVec 32, (m.regs esp).toNat ≤ a.toNat → m'.mem a = m.mem a) :
    m'.values s.tree s.current = m.values s.tree s.current := by
  have hframe := hm.frame_eq hs [] hebp fun a ha _ => hmem a ha
  refine List.ext_getElem? fun k => ?_
  unfold Machine.values
  rw [List.getElem?_mapIdx, List.getElem?_mapIdx]
  cases hj : (s.tree.path s.current)[k]? with
  | none => rfl
  | some j =>
    rw [Option.map_some, Option.map_some,
      hframe k (Nat.le_of_lt (List.getElem?_eq_some_iff.1 hj).1)]
    unfold Machine.layer
    congr 1
    refine List.map_congr_left fun v hv => ?_
    rw [scalar?_congr ((hs.of_path hj).placed v hv).size fun a ha =>
      hmem a (hm.le_of_covers hs hj hv ha)]

/-- Storing a value in the slot of a variable changes that variable alone. -/
theorem values_store {r : Resolved} (hlook : s.tree.lookupVariable s.current name = some (r, v))
    {x : BitVec (Width.ofType v.ty).bits} {y : Scalar}
    (hy : Scalar.ofWord? (x.setWidth 32) v.ty = some y)
    (hebp : m'.regs ebp = m.regs ebp)
    (hmem : m'.mem = (m.store (v.address (m.frame r.depth)) (.ofType v.ty) x).mem) :
    m'.values s.tree s.current = (m.values s.tree s.current).write name y := by
  obtain ⟨hr, hv⟩ := ScopeTree.lookupVariable_eq_some hlook
  have hmemv := List.mem_of_find?_eq_some hv
  have hsize := ((hs.of_path hr).placed v hmemv).size
  have hother : ∀ a, ¬ v.Covers (m.frame r.depth) a → m'.mem a = m.mem a := by
    intro a ha
    rw [hmem]
    refine mem_store_of_le _ _ _ _ ?_
    rw [Width.bytes_ofType, ← hsize]
    exact Nat.le_of_not_lt ha
  have hframe := hm.frame_eq hs [name] hebp fun a _ ha => hother a fun hcovers =>
    ha name (List.mem_singleton_self _) ⟨r, v, hlook, hcovers⟩
  refine List.ext_getElem? fun k => ?_
  unfold Store.write
  rw [List.getElem?_modify, findIdx_values hlook, getElem?_values, getElem?_values]
  cases hj : (s.tree.path s.current)[k]? with
  | none => rfl
  | some j =>
    simp only [Option.map_some, Option.map_eq_map]
    rw [hframe k (Nat.le_of_lt (List.getElem?_eq_some_iff.1 hj).1)]
    by_cases hk : r.depth = k
    · subst hk
      obtain rfl : r.scope = j := Option.some.inj (hr.symm.trans hj)
      rw [if_pos rfl]
      refine congrArg some (layer_store (hs.of_path hr) (fun w hw => ?_) hv hother ?_)
      · have hbound := hm.bound_le hs hr hw
        omega
      · unfold Machine.scalar?
        have hload : m'.load (v.address (m.frame r.depth)) (.ofType v.ty) =
            (m.store (v.address (m.frame r.depth)) (.ofType v.ty) x).load
            (v.address (m.frame r.depth)) (.ofType v.ty) := load_congr fun b _ => congrFun hmem b
        rw [hload, load_store]
        exact hy
    · rw [if_neg hk]
      unfold Machine.layer
      refine congrArg some (List.map_congr_left fun w hw => ?_)
      rw [scalar?_congr ((hs.of_path hj).placed w hw).size fun a ha => hother a fun hcovers =>
        hm.not_covers_of_ne hs hk hr hmemv hj hw hcovers ha]

end Machine.Framed

end KuAsm
