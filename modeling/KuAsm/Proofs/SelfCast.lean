import KuAsm.Proofs.Onward
import KuAsm.Proofs.Processor

/-!
# Casts to the type that a value has

A value taken for one of the type that it has already is the same value, as long as it carries
nothing.  The code of another type than that of strings is not changed at all, so the statements
around cannot tell the two apart.  A string is different: what comes out of a cast is never the
owner of a heap value nor that of a variable, and its size is zero.  So a string that carries
nothing, which is a literal or comes out of a cast itself, stays as it is; a new heap value, or that
of a variable, loses its size and what it carries.

## Main statements

* `Node.evaluate_tagged`: only strings carry something, and those that do not have the size zero.
* `cast_to_own_type`: what a cast to the type of its operand does.
-/

namespace KuAsm

open Asm Reg Lower

variable {v : Lowered} {ty : ScalarType} {s : State}

/-! ### What values carry -/

/-- Only a string carries something.  One that does not has the size zero. -/
structure Lowered.Tagged (v : Lowered) : Prop where
  plain : v.ty ≠ .string → v.ownership = .plain
  sizeless : v.ty = .string → v.ownership = .plain → ∃ code, v.code = code ++ [xor edx edx]

/-- A string that comes out of a call is a new heap value, and no other value is one. -/
theorem Lower.Makes.tagged {x : Lower Lowered} {t : State} (hx : x.Makes) (hs : s.Formed)
    (h : x s = .ok v t) : v.Tagged := by
  rcases hx s v t hs h with hbare | ⟨f, depth, args, u, -, hcall⟩
  · exact ⟨fun _ => hbare.plain, fun hty _ => hbare.sizeless hty⟩
  · obtain ⟨_, _, _, _, _, -, -, -, ⟨hret, -, rfl⟩ | ⟨hret, _, _, -, rfl⟩⟩ := invoke_eq_ok hcall
    · exact ⟨fun _ => rfl, fun hty => absurd hty (beq_eq_false_iff_ne.1 hret)⟩
    · exact ⟨fun hty => absurd (beq_iff_eq.1 hret) hty, nofun⟩

/-- A string variable lends its value, and no other variable does. -/
theorem readVariable_tagged {t : State} (hs : s.Spaced) {name : String} {l : Location}
    (h : readVariable name l s = .ok v t) : v.Tagged := by
  obtain ⟨r, x, m, size, hx, -, -, rfl⟩ := readVariable_eq_ok h
  obtain ⟨hscope, hvar⟩ := ScopeTree.lookupVariable_eq_some hx
  have hlt := hs.formed.ordered.lt_size_of_mem_path hs.formed.current_lt
    (List.mem_of_getElem? hscope)
  have hlends := ((hs.scope _ hlt).placed x (List.mem_of_find?_eq_some hvar)).lends
  unfold Variable.lent
  cases hid : x.reclaim with
  | none =>
    rw [hid] at hlends
    exact ⟨fun _ => rfl, fun hty => absurd hlends (by rw [show x.ty = .string from hty]; nofun)⟩
  | some id =>
    rw [hid] at hlends
    exact ⟨fun hty => absurd (beq_iff_eq.1 hlends.symm) hty, nofun⟩

/-- Only strings carry something, and those that do not have the size zero. -/
theorem Node.evaluate_tagged {e : Node} {t : State} (hs : s.Spaced) (h : e.evaluate s = .ok v t) :
    v.Tagged := by
  rcases e.var_or_makes with ⟨name, l, rfl⟩ | hmakes
  · exact readVariable_tagged hs h
  · exact hmakes.tagged hs.formed h

/-! ### A value in the place of another -/

/-- Two actions end well in the same way when they are started in `s`. -/
def Lower.Agree {α : Type} (x y : Lower α) (s : State) : Prop :=
  ∀ a t, x s = .ok a t ↔ y s = .ok a t

namespace Lower.Agree

variable {α β : Type} {x y : Lower α} {s : State}

theorem bind (h : x.Agree y s) (f : α → Lower β) : (x >>= f).Agree (y >>= f) s := by
  intro b t
  simp only [bind_eq_ok, h _ _]

theorem then_bind {z : Lower β} {f g : β → Lower α}
    (hz : ∀ b t, z s = .ok b t → (f b).Agree (g b) t) : (z >>= f).Agree (z >>= g) s := by
  intro a t
  simp only [bind_eq_ok]
  refine exists_congr fun b => exists_congr fun u => and_congr_right fun hb => ?_
  exact hz b u hb a t

theorem expect {l l' : Location} {x y : Lower Lowered} (h : x.Agree y s) :
    (expect ty l x).Agree (expect ty l' y) s := by
  intro v t
  simp only [expect_eq_ok, h v t]

end Lower.Agree

/-- Declarations, assignments and returns see of a value what its evaluation gives. -/
theorem Node.execute_agree {e e' : Node} (h : e.evaluate.Agree e'.evaluate s) (l : Location) :
    (∀ name ty, (Node.mk (.declare name ty (some e)) l).execute.Agree
      (Node.mk (.declare name ty (some e')) l).execute s) ∧
      (∀ name, (Node.mk (.assign name e) l).execute.Agree (Node.mk (.assign name e') l).execute s) ∧
      (Node.mk (.ret (some e)) l).execute.Agree (Node.mk (.ret (some e')) l).execute s := by
  refine ⟨fun name ty => ?_, fun name => ?_, ?_⟩
  · unfold Node.execute Lower.declare
    exact (h.expect.bind _).bind _
  · unfold Node.execute Lower.assign
    refine Agree.bind (Agree.then_bind fun x t hx => ?_) _
    obtain ⟨-, rfl⟩ := resolveVariable_eq_ok.1 hx
    exact h.expect.bind _
  · unfold Node.execute Lower.leaveFunction
    refine Agree.bind (fun a t => ?_) _
    simp only [get_bind_eq_ok]
    cases s.tree.lookupFunctionExit s.current with
    | none => exact Iff.rfl
    | some x => exact h.expect.bind _ a t

/-! ### Casts -/

/-- Setting the size to zero leaves the value alone, and a second time nothing changes any more. -/
theorem Machine.exec_zero_size (symbol : Label → BitVec 32) (m : Machine) :
    ∃ m', Code.run symbol [xor edx edx] m = some m' ∧ Code.run symbol [xor edx edx] m' = some m' ∧
      m'.regs eax = m.regs eax ∧ m'.regs edx = 0 := by
  let m' :
    Machine := Machine.setReg { m with flags := some (.of (0 : BitVec 32) false false) } edx 0
  have hrun : ∀ m, Code.run symbol [xor edx edx] m = some (Machine.setReg { m with
      flags := some (.of (m.regs edx ^^^ m.regs edx) false false) } edx
        (m.regs edx ^^^ m.regs edx)) := fun _ => rfl
  have hregs : (fun r => if r = edx then 0#32 else m'.regs r) = m'.regs := by
    funext r
    by_cases hr : r = edx <;> simp [m', hr]
  refine ⟨m', ?_, ?_, rfl, rfl⟩
  · rw [hrun, BitVec.xor_self]
    rfl
  · rw [hrun, BitVec.xor_self]
    show some (Machine.mk (fun r => if r = edx then 0#32 else m'.regs r) m'.flags m'.down m'.mem) =
      some m'
    rw [hregs]

/-- A cast to the type that a value has. -/
theorem applyCast_self (l : Location) (s : State) (hv : v.Tagged) :
    ∃ w, applyCast v v.ty .immediate l s = .ok w s ∧ w.ty = v.ty ∧ w.ownership = .plain ∧
      (v.ty ≠ .string → w = v) ∧ (v.ty = .string → w.code = v.code ++ [xor edx edx]) := by
  have hnarrow : ¬ (v.ty.size = 1 ∧ v.ty.size ≠ 1) := fun h => h.2 h.1
  have hcast : applyCast v v.ty .immediate l s =
      .ok (.plain v.ty (v.code ++ if v.ty.isHeap then [xor edx edx] else [])) s := by
    unfold applyCast
    dsimp only
    rw [if_neg hnarrow, List.append_nil]
    rfl
  refine ⟨_, hcast, rfl, rfl, fun hty => ?_, fun hty => ?_⟩
  · have hheap : v.ty.isHeap = false := beq_eq_false_iff_ne.2 hty
    have hplain := hv.plain hty
    obtain ⟨ty, ownership, code⟩ := v
    cases hplain
    rw [if_neg (by rw [hheap]; decide), List.append_nil]
    rfl
  · rw [hty]
    rfl

/-- A cast of a value to the type that it has.  At every place of a compilation, if an expression is
compiled, so is its cast, with the same type and from the same state to the same.  Unless the value
is a string, the cast is the value itself, and declarations, assignments and returns do with the one
what they do with the other.  A string keeps its address; a line behind its code makes its size
zero, and it carries nothing.  If it carried nothing before, its code ended with that line already,
and does what it did. -/
theorem cast_to_own_type {p : Program} {session : Session} {comments : Bool} {ev : Event}
    {s : State} (hev : ev ∈ p.trace session comments) (hs : ev.state? = some s) {e : Node}
    {v : Lowered} {t : State} (h : e.evaluate s = .ok v t) (l l' : Location) :
    ∃ w, (Node.mk (.cast e v.ty .immediate) l).evaluate s = .ok w t ∧ w.ty = v.ty ∧
      w.ownership = .plain ∧
      (v.ty ≠ .string → w = v ∧
        (∀ name ty,
          (Node.mk (.declare name ty (some (.mk (.cast e v.ty .immediate) l))) l').execute.Agree
            (Node.mk (.declare name ty (some e)) l').execute s) ∧
        (∀ name, (Node.mk (.assign name (.mk (.cast e v.ty .immediate) l)) l').execute.Agree
          (Node.mk (.assign name e) l').execute s) ∧
        (Node.mk (.ret (some (.mk (.cast e v.ty .immediate) l))) l').execute.Agree
          (Node.mk (.ret (some e)) l').execute s) ∧
      (v.ty = .string → w.code = v.code ++ [Asm.xor edx edx] ∧
        ∀ symbol m m', Code.run symbol v.code m = some m' →
          ∃ m'', Code.run symbol w.code m = some m'' ∧ m''.regs eax = m'.regs eax ∧
            m''.regs edx = 0) ∧
      (v.ownership = .plain → (v.ty = .string → ∃ code, v.code = code ++ [Asm.xor edx edx]) ∧
        ∀ symbol m, Code.run symbol w.code m = Code.run symbol v.code m) := by
  have htagged := Node.evaluate_tagged (Program.spaced_of_mem_trace hev hs) h
  obtain ⟨w, hw, hty, hplain, hsame, hstring⟩ := applyCast_self l t htagged
  have hcast : (Node.mk (.cast e v.ty .immediate) l).evaluate s = .ok w t := by
    unfold Node.evaluate
    exact Lower.bind_eq_ok.2 ⟨v, t, h, hw⟩
  refine ⟨w, hcast, hty, hplain, fun hne => ?_, fun hv => ⟨hstring hv, fun symbol m m' hrun => ?_⟩,
    fun hv => ⟨fun hty => htagged.sizeless hty hv, fun symbol m => ?_⟩⟩
  · obtain rfl := hsame hne
    have hagree : (Node.mk (.cast e w.ty .immediate) l).evaluate.Agree e.evaluate s := by
      intro a u
      rw [hcast, h]
    exact ⟨rfl, Node.execute_agree hagree l'⟩
  · obtain ⟨m'', hzero, -, heax, hedx⟩ := Machine.exec_zero_size symbol m'
    exact ⟨m'', by rw [hstring hv, Code.run_append_of_run hrun, hzero], heax, hedx⟩
  · by_cases hty : v.ty = .string
    · -- the code ends with a size of zero already
      obtain ⟨code, hcode⟩ := htagged.sizeless hty hv
      rw [hstring hty, hcode, List.append_assoc, Code.run_append, Code.run_append]
      refine congrArg (Option.bind _) (funext fun m₁ => ?_)
      obtain ⟨m₂, hzero, hagain, -⟩ := Machine.exec_zero_size symbol m₁
      rw [Code.run_append_of_run hzero, hagain, hzero]
    · rw [hsame hty]

/-- A string variable with a new heap value. -/
def joined : Program :=
  ⟨[.unplaced (.declare "s" .string
    (some (.unplaced (.binary .add (.unplaced (.str "a")) (.unplaced (.str "b"))))))]⟩

/-- A string variable taken for a string. -/
def recast (name : String) : Node := .unplaced (.cast (.unplaced (.var name)) .string .immediate)

/-- How many values an action gives code to release, if it ends well. -/
def Lower.released? {α : Type} (x : Lower α) (s : State) : Option Nat :=
  match x s with
  | .ok _ t => some (t.session.stats.frees - s.session.stats.frees)
  | .error _ _ => none

/-- A cast may make a difference: a variable that is assigned to itself keeps its value, and one
that its own cast is assigned to releases it. -/
theorem cast_to_own_type_fails_assigned :
    ∃ ev s v w t, ev ∈ joined.trace .empty false ∧ ev.state? = some s ∧
    (Node.unplaced (.var "s")).evaluate s = .ok v t ∧ v.ty = .string ∧
    (recast "s").evaluate s = .ok w t ∧ w.ownership ≠ v.ownership ∧
    (Node.unplaced (.assign "s" (.unplaced (.var "s")))).execute.released? s = some 0 ∧
    (Node.unplaced (.assign "s" (recast "s"))).execute.released? s = some 1 := by
  have hfound : ((joined.trace .empty false).any fun ev => ev.state?.any fun s =>
      match (Node.unplaced (.var "s")).evaluate s, (recast "s").evaluate s with
      | .ok v t, .ok w t' => t' = t ∧ v.ty = .string ∧ w.ownership ≠ v.ownership ∧
        (Node.unplaced (.assign "s" (.unplaced (.var "s")))).execute.released? s = some 0 ∧
        (Node.unplaced (.assign "s" (recast "s"))).execute.released? s = some 1
      | _, _ => false) = true := by
    decide +kernel
  obtain ⟨ev, s, hev, hs, hany⟩ := Event.exists_of_any hfound
  split at hany
  · rename_i v t w t' hv hw
    obtain ⟨rfl, hty, hne, hkept, hreleased⟩ := of_decide_eq_true hany
    exact ⟨ev, s, v, w, t', hev, hs, hv, hty, hw, hne, hkept, hreleased⟩
  · cases hany

/-- Taken for a string, a string variable lends nothing. -/
theorem cast_to_own_type_joined :
    ∃ ev s v w t, ev ∈ joined.trace .empty false ∧ ev.state? = some s ∧
    (Node.unplaced (.var "s")).evaluate s = .ok v t ∧ v.ty = .string ∧
    (recast "s").evaluate s = .ok w t ∧ w.ty = .string ∧ w.ownership = .plain := by
  have hfound : ((joined.trace .empty false).any fun ev => ev.state?.any fun s =>
      match (Node.unplaced (.var "s")).evaluate s with
      | .ok v _ => v.ty = .string
      | .error _ _ => false) = true := by
    decide +kernel
  obtain ⟨ev, s, hev, hs, hany⟩ := Event.exists_of_any hfound
  split at hany
  · rename_i v t hv
    have hstring := of_decide_eq_true hany
    obtain ⟨w, hw, hty, hplain, -⟩ := cast_to_own_type hev hs hv .internal .internal
    rw [hstring] at hw hty
    exact ⟨ev, s, v, w, t, hev, hs, hv, hstring, hw, hty, hplain⟩
  · cases hany

end KuAsm
