import KuAsm.Frame.Slot

/-!
# Ownership of heap values

Every value on the heap that a program produces is known to the compiler by a `ReclaimId`.  The id
stands in for the value: whoever holds it, a variable or the free set of a scope, is the one that
releases the value.

* `Ownership` says what the result of an expression carries.
* `FreeSet` is the set of values that a scope releases when it is left.  It is kept in the order of
  the ids, which is the order in which the values are released.
-/

namespace KuAsm

/-- The id of a heap value. -/
structure ReclaimId where
  /-- The number of the id in its session. -/
  number : Nat
deriving DecidableEq, Repr, Inhabited

/-- The id in comments and notices. -/
def ReclaimId.text (id : ReclaimId) : String := "#" ++ toString id.number

/-- What the result of an expression carries. -/
inductive Ownership where
  /-- No heap value, or a pointer into the data of the program. -/
  | plain
  /-- A new heap value, already in the free set of the scope that made it. -/
  | fresh (id : ReclaimId)
  /-- The value of a variable, which goes on owning it. -/
  | borrowed (id : ReclaimId)
deriving DecidableEq, Repr

/-- The two slots that describe a value to be released. -/
structure Staged where
  /-- The slot of its address. -/
  address : Slot
  /-- The slot of its size in bytes. -/
  size : Slot
deriving DecidableEq, Repr, Inhabited

/-- The values that a scope releases when it is left, in ascending order of their ids. -/
structure FreeSet where
  /-- The ids and the slots of their values. -/
  entries : List (ReclaimId × Staged)
  /-- Every id is less than the ids behind it. -/
  ascending : entries.Pairwise fun x y => x.1.number < y.1.number
deriving DecidableEq, Repr

namespace FreeSet

/-- The set without values. -/
def empty : FreeSet := ⟨[], .nil⟩

instance : Inhabited FreeSet := ⟨empty⟩

/-- The slots of a value. -/
def get? (s : FreeSet) (id : ReclaimId) : Option Staged :=
  (s.entries.find? (·.1 == id)).map (·.2)

/-- Insert into an ascending list; a value with the same id is replaced. -/
def insertEntry (id : ReclaimId) (e : Staged) :
    List (ReclaimId × Staged) → List (ReclaimId × Staged)
  | [] => [(id, e)]
  | x :: xs =>
    if id.number < x.1.number then (id, e) :: x :: xs
    else if id = x.1 then (id, e) :: xs
    else x :: insertEntry id e xs

/-- Only the new entry comes in. -/
theorem mem_insertEntry {id : ReclaimId} {e : Staged} {xs : List (ReclaimId × Staged)}
    {y : ReclaimId × Staged} (h : y ∈ insertEntry id e xs) : y = (id, e) ∨ y ∈ xs := by
  induction xs with
  | nil => exact .inl (List.mem_singleton.1 h)
  | cons x xs ih =>
    unfold insertEntry at h
    split at h
    · exact List.mem_cons.1 h
    · split at h
      · exact (List.mem_cons.1 h).imp_right (List.mem_cons_of_mem _)
      · rcases List.mem_cons.1 h with rfl | h
        · exact .inr List.mem_cons_self
        · exact (ih h).imp_right (List.mem_cons_of_mem _)

/-- The list stays ascending. -/
theorem pairwise_insertEntry (id : ReclaimId) (e : Staged) {xs : List (ReclaimId × Staged)}
    (h : xs.Pairwise fun x y => x.1.number < y.1.number) :
    (insertEntry id e xs).Pairwise fun x y => x.1.number < y.1.number := by
  induction xs with
  | nil => exact List.pairwise_singleton _ _
  | cons x xs ih =>
    obtain ⟨hx, hxs⟩ := List.pairwise_cons.1 h
    unfold insertEntry
    split
    · rename_i hlt
      refine List.pairwise_cons.2 ⟨fun y hy => ?_, h⟩
      rcases List.mem_cons.1 hy with rfl | hy
      · exact hlt
      · exact Nat.lt_trans hlt (hx y hy)
    · rename_i hle
      split
      · rename_i heq
        subst heq
        exact List.pairwise_cons.2 ⟨hx, hxs⟩
      · rename_i hne
        have hlt : x.1.number < id.number := by
          refine Nat.lt_of_le_of_ne (Nat.le_of_not_lt hle) fun heq => hne ?_
          cases id
          exact congrArg ReclaimId.mk heq.symm
        refine List.pairwise_cons.2 ⟨fun y hy => ?_, ih hxs⟩
        rcases mem_insertEntry hy with rfl | hy
        · exact hlt
        · exact hx y hy

/-- Add a value. -/
def insert (s : FreeSet) (id : ReclaimId) (e : Staged) : FreeSet :=
  ⟨insertEntry id e s.entries, pairwise_insertEntry id e s.ascending⟩

/-- Take a value out. -/
def erase (s : FreeSet) (id : ReclaimId) : FreeSet :=
  ⟨s.entries.filter (·.1 != id), s.ascending.filter _⟩

end FreeSet

end KuAsm
