import KuAsm.Proofs.ScalarCode
import KuAsm.Proofs.Stack

/-!
# Callers and functions

A caller pushes the arguments and the static link and calls.  The prologue of the function saves the
frame pointer of the caller, pushes the link once more and clears a frame below.  This module shows
that both sides mean the same words: the function finds each argument where `Convention.paramDisp`
says, and behind its epilogue and the caller's clean-up the stack and the frame of the caller are as
they were before the first push.

## Main definitions

* `Machine.staged`: the argument that stands in a slot of the current frame.
* `Machine.Enters`: what a function finds behind its prologue.

## Main statements

* `run_pushArguments`: the arguments are on the stack, the first one on top.
* `run_functionPrologue`: the frame of a function.
* `calling_convention_agrees`: a call and the prologue of a function, and its epilogue and the way
  back.
-/

namespace KuAsm

open Asm Reg Convention

variable {c unit : Code} {i n size : Nat} {W : World}

namespace Machine

/-- The argument that stands in a slot of the current frame. -/
def staged (m : Machine) (x : Slot) : BitVec 32 :=
  m.load (m.regs ebp - .ofNat 32 (x.offset + argBytes)) .dword

/-- What a function finds behind its prologue: `m` is the machine before the first argument is
pushed, and `m'` the one behind the prologue. -/
structure Enters (m : Machine) (slots : List Slot) (depth : Nat) (back : BitVec 32) (size : Nat)
    (m' : Machine) : Prop where
  /-- Each argument is where the function looks for it.  From 536870908 on there is no displacement
  to look at. -/
  argument : ∀ i x, slots[i]? = some x → ((∃ d, paramDisp i = .ok d) ↔ i < 2 ^ 29 - 4) ∧
    ∀ d, paramDisp i = .ok d → m'.load (m'.regs ebp + .ofInt 32 d) .dword = m.staged x
  link : m'.load (m'.regs ebp) .dword = m.frame depth
  caller : m'.load (m'.regs ebp + 4) .dword = m.regs ebp
  back : m'.load (m'.regs ebp + 8) .dword = back
  cleared : ∀ x, Span (m'.regs ebp - .ofNat 32 size) size x → m'.mem x = 0
  stack : m'.regs esp = m'.regs ebp - .ofNat 32 size
  kept : ∀ x : BitVec 32, (m.regs esp).toNat ≤ x.toNat → m'.mem x = m.mem x

/-- The bytes of a frame below `n` words on the stack. -/
def FrameBelow (m : Machine) (n size : Nat) : BitVec 32 → Prop :=
  Span (m.regs esp - .ofNat 32 (4 * n) - .ofNat 32 size) size

/-- Memory from the stack pointer on is as it was. -/
theorem Stands.kept {m₀ m : Machine} {ws : List (BitVec 32)}
    (h : m₀.Stands n (m₀.FrameBelow n size) ws m)
    (hroom : 4 * n + size ≤ (m₀.regs Reg.esp).toNat) {x : BitVec 32}
    (hx : (m₀.regs Reg.esp).toNat ≤ x.toNat) : m.mem x = m₀.mem x := by
  refine h.mem x ?_ ?_
  · unfold Span
    bv_omega
  · unfold FrameBelow Span
    bv_omega

/-! ### The direction flag -/

variable {symbol : Label → BitVec 32} {m m' : Machine}

theorem down_of_write {w : Width} {x : BitVec w.bits} {d : Operand} (h : m.write w x d = some m') :
    m'.down = m.down := by
  unfold Machine.write at h
  split at h
  · split at h
    · cases h
      cases w <;> rfl
    · cases h
  · split at h
    · cases h
      rfl
    · cases h
  · cases h

/-- Copying values leaves the direction flag alone. -/
theorem down_of_run_mov (hc : ∀ x ∈ c, ∃ d s, x = mov d s) (h : c.run symbol m = some m') :
    m'.down = m.down := by
  induction c generalizing m with
  | nil =>
    cases h
    rfl
  | cons x c ih =>
    obtain ⟨m₁, hx, hrest⟩ := Option.bind_eq_some_iff.1 ((Code.run_cons x c m).symm.trans h)
    obtain ⟨d, s, rfl⟩ := hc x (.head _)
    obtain ⟨w, -, hx⟩ := Option.bind_eq_some_iff.1 hx
    obtain ⟨v, -, hx⟩ := Option.bind_eq_some_iff.1 hx
    rw [ih (fun y hy => hc y (.tail _ hy)) hrest, down_of_write hx]

theorem down_of_run_chase {d : Nat} (h : Code.run symbol (chase d).1 m = some m') :
    m'.down = m.down := by
  refine down_of_run_mov (fun x hx => ?_) h
  unfold chase at hx
  split at hx
  · cases hx
  · rcases List.mem_cons.1 hx with rfl | hx
    · exact ⟨_, _, rfl⟩
    · exact ⟨_, _, List.eq_of_mem_replicate hx⟩

/-! ### Clearing a frame -/

/-- Filling words with zero. -/
structure Clears (m : Machine) (n : Nat) (m' : Machine) : Prop where
  edi : m'.regs edi = m.regs edi + .ofNat 32 (4 * n)
  regs : ∀ r, r ≠ Reg.edi → r ≠ ecx → m'.regs r = m.regs r
  down : m'.down = false
  cleared : ∀ x, Span (m.regs Reg.edi) (4 * n) x → m'.mem x = 0
  mem : ∀ x, ¬ Span (m.regs Reg.edi) (4 * n) x → m'.mem x = m.mem x

/-- A word of zeros. -/
theorem mem_store_zero (m : Machine) {a x : BitVec 32} (h : Span a 4 x) :
    (m.store a .dword 0).mem x = 0 :=
  (if_pos h).trans BitVec.extractLsb'_zero

theorem clears_repeat (hdown : m.down = false) (heax : m.regs eax = 0) (hn : 4 * n ≤ 2 ^ 32) :
    m.Clears n (Nat.repeat fillWord n m) := by
  induction n with
  | zero => exact ⟨(BitVec.add_zero _).symm, fun _ _ _ => rfl, hdown, nofun, fun _ _ => rfl⟩
  | succ n ih =>
    have h := ih (by omega)
    have hmem : (Nat.repeat fillWord (n + 1) m).mem =
        ((Nat.repeat fillWord n m).store (m.regs Reg.edi + .ofNat 32 (4 * n)) .dword 0).mem := by
      rw [← h.edi, ← heax, ← h.regs eax nofun nofun]
      rfl
    have hedi : (Nat.repeat fillWord (n + 1) m).regs Reg.edi = (Nat.repeat fillWord n m).regs
        Reg.edi + 4 := by
      show _ + (if (Nat.repeat fillWord n m).down then _ else _) = _
      rw [h.down]
      rfl
    refine ⟨?_, fun r hedi hecx => ?_, h.down, fun x hx => ?_, fun x hx => ?_⟩
    · rw [hedi, h.edi]
      bv_omega
    · exact ((if_neg hecx).trans (if_neg hedi)).trans (h.regs r hedi hecx)
    · -- the word written last, or one before it
      rw [hmem]
      by_cases hlast : Span (m.regs Reg.edi + .ofNat 32 (4 * n)) 4 x
      · exact mem_store_zero _ hlast
      · refine (mem_store_of_not_span _ _ hlast).trans (h.cleared x ?_)
        unfold Span at *
        bv_omega
    · rw [hmem]
      refine (mem_store_of_not_span _ _ fun hlast => hx ?_).trans (h.mem x fun hbefore => hx ?_)
      · unfold Span Width.bytes at *
        bv_omega
      · unfold Span at *
        omega

/-! ### Pushing arguments -/

/-- The arguments are on the stack, the first one on top. -/
theorem run_pushArguments (symbol : Label → BitVec 32) (m : Machine)
    (hroom : 4 * n + size ≤ (m.regs esp).toNat) :
    ∀ {slots : List Slot} {pushes : Code}, pushArguments slots = .ok pushes → slots.length ≤ n →
      (∀ x ∈ slots, (m.regs esp).toNat + x.offset + argBytes ≤ (m.regs ebp).toNat) →
      ∃ m', pushes.run symbol m = some m' ∧
        m.Stands n (m.FrameBelow n size) (slots.map m.staged) m' ∧
        (∀ r, r ≠ esp → m'.regs r = m.regs r) ∧ m'.down = m.down
  | [], _, h, _, _ => by
    cases h
    exact ⟨m, rfl, .nil m _ _, fun _ _ => rfl, rfl⟩
  | x :: slots, _, h, hlength, hslots => by
    obtain ⟨pushes, a, hpushes, ha, rfl⟩ := pushArguments_cons_eq_ok.1 h
    obtain ⟨hx, hslots⟩ := List.forall_mem_cons.1 hslots
    obtain ⟨m', hrun, hstands, hregs, hdown⟩ :=
      run_pushArguments symbol m hroom hpushes (Nat.le_of_succ_le hlength) hslots
    obtain ⟨haddress, hwidth⟩ := m'.address_slot ha
    have hwidth : a.width = some .dword := hwidth
    -- the slot lies above all that was pushed since, so it still holds the argument
    have hload : m'.load (m'.address a) .dword = m.staged x := by
      rw [haddress, hregs ebp nofun]
      refine load_congr fun y hy => hstands.kept hroom ?_
      unfold Width.bytes at hy
      unfold Slot.bound argBytes at *
      bv_omega
    refine ⟨m'.push (m.staged x), ?_, ?_, fun r hr => (regs_push _ _ hr).trans (hregs r hr), hdown⟩
    · rw [Code.run_append_of_run hrun]
      show ((if a.width = some .dword then some (m'.load (m'.address a) .dword) else none).bind
        _).bind _ = _
      rw [if_pos hwidth, hload]
      rfl
    · refine hstands.push ?_ (by omega) _
      rw [List.length_map]
      exact hlength

/-! ### The frame of a function -/

/-- The prologue of a function: the words above its frame, and the frame. -/
theorem run_functionPrologue (symbol : Label → BitVec 32) {frameSize : Label} {m₀ : Machine}
    {back link : BitVec 32} {args : List (BitVec 32)} (hsize : (symbol frameSize).toNat = size)
    (hfour : 4 ∣ size) (hn : n = args.length + 4)
    (hroom : 4 * n + size ≤ (m₀.regs esp).toNat) (hdown : m.down = false)
    (h : m₀.Stands n (m₀.FrameBelow n size) (back :: link :: args) m) :
    ∃ m', (functionPrologue frameSize).run symbol m = some m' ∧
      m'.regs ebp = m₀.regs esp - .ofNat 32 (4 * n) ∧ m'.regs esp = m'.regs ebp - .ofNat 32 size ∧
      (∀ k w, (link :: m.regs ebp :: back :: link :: args)[k]? = some w →
        m'.load (m'.regs ebp + .ofNat 32 (4 * k)) .dword = w) ∧
      (∀ x, Span (m'.regs ebp - .ofNat 32 size) size x → m'.mem x = 0) ∧
      ∀ x : BitVec 32, (m₀.regs esp).toNat ≤ x.toNat → m'.mem x = m₀.mem x := by
  have hlength : (back :: link :: args).length = args.length + 2 := rfl
  let m₁ := m.push (m.regs ebp)
  have h₁ : m₀.Stands n (m₀.FrameBelow n size) (m.regs ebp :: back :: link :: args) m₁ :=
    h.push (by omega) (by omega) _
  have hlink : m₁.load (m₁.address (Mem.dword esp 8)) .dword = link := by
    rw [← h₁.words 2 link rfl]
    show m₁.load (m₁.regs esp + 0#32 + 8#32) .dword = m₁.load (m₁.regs esp + 8#32) .dword
    rw [BitVec.add_zero]
  let m₂ := m₁.push (m₁.load (m₁.address (Mem.dword esp 8)) .dword)
  have h₂ : m₀.Stands n (m₀.FrameBelow n size)
      (m₁.load (m₁.address (Mem.dword esp 8)) .dword :: m.regs ebp :: back :: link :: args) m₂ :=
    h₁.push (by rw [List.length_cons]; omega) (by omega) _
  rw [hlink] at h₂
  -- below the words that are on the stack now comes the frame
  have hframe : m₂.regs esp = m₀.regs esp - .ofNat 32 (4 * n) := by
    rw [h₂.esp, hn]
    rfl
  let low := m₂.regs esp - (symbol frameSize).setWidth 32
  have hlow : low = m₂.regs esp - .ofNat 32 size := by
    show m₂.regs esp - (symbol frameSize).setWidth 32 = _
    rw [BitVec.setWidth_eq, ← hsize, BitVec.ofNat_toNat, BitVec.setWidth_eq]
  let m₃ : Machine :=
    { (((m₂.setReg ebp (m₂.regs esp)).setReg esp low).setReg edi low).setReg ecx
        ((symbol frameSize / 4).setWidth 32) with
      flags := some (.of (m₂.regs eax ^^^ m₂.regs eax) false false) }
  let m₄ := m₃.setReg eax (m₂.regs eax ^^^ m₂.regs eax)
  have hcount : (m₄.regs ecx).toNat = size / 4 := by
    show ((symbol frameSize / 4).setWidth 32).toNat = _
    rw [BitVec.setWidth_eq, BitVec.toNat_udiv, hsize]
    rfl
  have hrun : (functionPrologue frameSize).run symbol m =
    some (Nat.repeat fillWord (m₄.regs ecx).toNat m₄) := rfl
  have hmul : 4 * (size / 4) = size := Nat.mul_div_cancel' hfour
  have hdown₄ : m₄.down = false := hdown
  have heax : m₄.regs eax = 0 := BitVec.xor_self
  have hclears : m₄.Clears (size / 4) (Nat.repeat fillWord (size / 4) m₄) :=
    clears_repeat hdown₄ heax (by omega)
  rw [hcount] at hrun
  generalize Nat.repeat fillWord (size / 4) m₄ = m' at hrun hclears
  have hebp : m'.regs ebp = m₂.regs esp := hclears.regs ebp nofun nofun
  have hsame : ∀ x, ¬ Span low size x → m'.mem x = m₂.mem x :=
    fun x hx => hclears.mem x (by rwa [hmul])
  refine ⟨m', hrun, hebp.trans hframe, ?_, fun k w hw => ?_, fun x hx => ?_, fun x hx => ?_⟩
  · rw [hebp, ← hlow]
    exact hclears.regs esp nofun nofun
  · rw [hebp, ← h₂.words k w hw]
    refine load_congr fun x hx => hsame x ?_
    have hk : k < args.length + 4 := (List.getElem?_eq_some_iff.1 hw).1
    rw [hlow]
    unfold Span
    unfold Width.bytes at hx
    bv_omega
  · refine hclears.cleared x ?_
    rw [hmul]
    show Span low size x
    rwa [hlow, ← hebp]
  · refine (hsame x ?_).trans (h₂.kept hroom hx)
    rw [hlow, hframe]
    unfold Span
    bv_omega

/-- The epilogue of a function leads back to where the call was. -/
theorem runs_functionEpilogue {k back : Nat} (hk : unit.Has k functionEpilogue)
    (hback : W.line (m.load (m.regs ebp + 8) .dword) = some back) :
    ∃ m', unit.Runs W (k, m) (back, m') ∧ m'.regs esp = m.regs ebp + 12 ∧
      m'.regs ebp = m.load (m.regs ebp + 4) .dword ∧
      (∀ r, r ≠ esp → r ≠ ebp → m'.regs r = m.regs r) ∧ m'.mem = m.mem := by
  let low := m.regs ebp + 0#32 + 4#32
  have hlow : low = m.regs ebp + 4 := congrArg (· + 4#32) (BitVec.add_zero _)
  let m₁ := ((m.setReg esp low).setReg esp (low + 4)).setReg ebp (m.load low .dword)
  have hframe : unit.Runs W (k, m) (k + 2, m₁) :=
    .straight (c := [lea esp (Mem.dword ebp 4), Asm.pop ebp])
      (fun j x hx => hk.left (d := [bare .ret]) j x hx) rfl
  have htop : m₁.load (m₁.regs esp) .dword = m.load (m.regs ebp + 8) .dword := by
    show m.load (low + 4) .dword = _
    rw [hlow, BitVec.add_assoc]
    rfl
  refine ⟨m₁.setReg esp (m₁.regs esp + 4), .tail hframe ?_, ?_, ?_, fun r hesp hebp => ?_, rfl⟩
  · -- the frame pointer was the word below the return address, which is on top now
    show unit.step W (k + 2) m₁ = _
    unfold Code.step
    rw [hk 2 (bare .ret) rfl]
    show (W.line (m₁.load (m₁.regs esp) .dword)).map _ = _
    rw [htop, hback]
    rfl
  · show low + 4 + 4 = _
    rw [hlow, BitVec.add_assoc, BitVec.add_assoc]
    rfl
  · show m.load low .dword = _
    rw [hlow]
  · show (if r = esp then _ else if r = ebp then _ else if r = esp then _ else if r = esp then
      _ else m.regs r) = _
    rw [if_neg hesp, if_neg hebp, if_neg hesp, if_neg hesp]

end Machine

/-! ### The displacements of arguments -/

theorem Convention.paramDisp_eq_ok (hi : i < 2 ^ 31) {d : Int} :
    paramDisp i = .ok d ↔ i < 2 ^ 29 - 4 ∧ d = 4 * i + 16 := by
  have hword : signedWord i = i := by
    unfold signedWord wordCount halfCount
    dsimp only
    split <;> omega
  unfold paramDisp
  rw [hword]
  unfold argBytes paramBase halfCount
  dsimp only
  split
  · simp only [reduceCtorEq, false_iff]
    omega
  · split
    · simp only [reduceCtorEq, false_iff]
      omega
    · simp only [Except.ok.injEq]
      omega

theorem Convention.cleanupBytes_eq (hn : 4 * (n + 1) < 2 ^ 32) :
    cleanupBytes n = .ok (4 * (n + 1)) := by
  have hmod : n % wordCount = n := Nat.mod_eq_of_lt (by unfold wordCount; omega)
  unfold cleanupBytes
  rw [hmod]
  unfold argBytes wordCount
  dsimp only
  rw [if_neg (by omega), if_neg (by omega), Nat.mul_comm]

/-! ### Calls -/

theorem Code.getElem?_of_target {code : Code} {l : Label} {j : Nat} (h : code.target l = some j) :
    code[j]? = some (.label l) := by
  obtain ⟨hj, hl, -⟩ := List.findIdx?_eq_some_iff_getElem.1 h
  rw [List.getElem?_eq_getElem hj, beq_iff_eq.1 hl]

/-- A call leads into the function, with the return address, the link and the arguments on the
stack. -/
theorem runs_call {slots : List Slot} {depth : Nat} {entry : Label}
    (hcall : Convention.call slots depth entry = .ok c)
    {j : Nat} (hi : unit.Has i c) (hentry : unit.target entry = some j) {m : Machine}
    (hn : slots.length + 2 ≤ n) (hroom : 4 * n + size ≤ (m.regs esp).toNat)
    (hslots : ∀ x ∈ slots, (m.regs esp).toNat + x.offset + argBytes ≤ (m.regs ebp).toNat)
    (hchain : ∀ d < depth, (m.regs esp).toNat ≤ (m.frame d).toNat ∧
      (m.frame d).toNat + 4 ≤ 2 ^ 32) :
    ∃ m', unit.Runs W (i, m) (j + 1, m') ∧ m'.regs ebp = m.regs ebp ∧ m'.down = m.down ∧
      m.Stands n (m.FrameBelow n size)
      (W.address (i + (c.length - 1)) :: m.frame depth :: slots.map m.staged) m' := by
  obtain ⟨pushes, bytes, hpushes, -, rfl⟩ := Convention.call_eq_ok hcall
  obtain ⟨m₁, hrun₁, h₁, hregs₁, hdown₁⟩ :=
    Machine.run_pushArguments W.symbol m hroom hpushes (by omega) hslots
  obtain ⟨m₂, hrun₂, hsteady, hbase⟩ := Machine.run_chase W.symbol m₁ depth
  -- the pushes are below the frames that the links lead to
  have hframe : m₁.frame depth = m.frame depth := by
    refine Machine.frame_congr (n := depth) (hregs₁ ebp nofun) (fun d hd x hx => h₁.kept hroom ?_)
      depth (Nat.le_refl _)
    have hinside := hchain d hd
    bv_omega
  have hpush : (push (chase depth).2).exec W.symbol m₂ = some (m₂.push (m.frame depth)) := by
    rw [← hframe, ← hbase]
    unfold chase
    split <;> rfl
  have h₂ : m.Stands n (m.FrameBelow n size) (m.frame depth :: slots.map m.staged)
      (m₂.push (m.frame depth)) :=
    (h₁.congr hsteady.esp hsteady.mem).push (by rw [List.length_map]; omega) (by omega) _
  have hdown : m₂.down = m.down := (Machine.down_of_run_chase hrun₂).trans hdown₁
  have hlength : i + ((pushes ++ (chase depth).1 ++ [push (chase depth).2, Asm.call entry,
      add esp (.imm bytes)]).length - 1) = i + (pushes ++ (chase depth).1).length + 1 + 1 := by
    rw [List.length_append]
    show i + (_ + 3 - 1) = _
    omega
  refine ⟨(m₂.push (m.frame depth)).push (W.address _), ?_, hsteady.ebp.trans (hregs₁ ebp nofun),
    hdown, h₂.push (by rw [List.length_cons, List.length_map]; omega) (by omega) _⟩
  rw [hlength]
  have hargs : unit.Runs W (i, m) (i + (pushes ++ (chase depth).1).length, m₂) :=
    .straight hi.left ((Code.run_append_of_run hrun₁).trans hrun₂)
  have hcalled :
      unit.step W (i + (pushes ++ (chase depth).1).length + 1) (m₂.push (m.frame depth)) =
        some (j, (m₂.push (m.frame depth)).push
          (W.address (i + (pushes ++ (chase depth).1).length + 1 + 1))) := by
    unfold Code.step
    rw [hi.right.tail.head]
    show (unit.target entry).map _ = _
    rw [hentry]
    rfl
  have hlabel (m' : Machine) : unit.step W j m' = some (j + 1, m') := by
    unfold Code.step
    rw [Code.getElem?_of_target hentry]
  exact ((hargs.tail (Code.step_of_exec hi.right.head hpush)).tail hcalled).tail (hlabel _)

/-- The clean-up behind a call takes the link and the arguments off the stack. -/
theorem step_cleanup {slots : List Slot} {depth : Nat} {entry : Label}
    (hcall : Convention.call slots depth entry = .ok c) (hi : unit.Has i c)
    (hn : 4 * (slots.length + 1) < 2 ^ 32)
    (m : Machine) : ∃ m', unit.step W (i + (c.length - 1)) m = some (i + c.length, m') ∧
      m'.regs esp = m.regs esp + .ofNat 32 (4 * (slots.length + 1)) ∧
      (∀ r, r ≠ esp → m'.regs r = m.regs r) ∧ m'.mem = m.mem := by
  obtain ⟨pushes, bytes, -, hbytes, rfl⟩ := Convention.call_eq_ok hcall
  obtain rfl : 4 * (slots.length + 1) = bytes :=
    Except.ok.inj ((cleanupBytes_eq hn).symm.trans hbytes)
  have hlength : (pushes ++ (chase depth).1 ++ [push (chase depth).2, Asm.call entry,
      add esp (.imm (4 * (slots.length + 1) : Nat))]).length = (pushes ++ (chase depth).1).length +
      3 := List.length_append
  obtain ⟨m', hadd, hm'⟩ := Machine.exec_add_esp W.symbol m (4 * (slots.length + 1))
  refine ⟨m', ?_, hm'⟩
  rw [hlength]
  exact Code.step_of_exec hi.right.tail.tail.head hadd

/-- Callers and functions agree.  The call pushes any number of arguments from slots of the frame of
the caller, follows `depth` links, and calls a function whose frame is a multiple of four.  The
frames that the links lead to are above the stack pointer, string instructions count upwards, and
there is room on the stack for the words and the frame.  Then the machine gets behind the prologue
of the function, where it finds the arguments, the static link, the frame pointer of the caller, the
return address and a clear frame.  From any later machine with the same frame pointer and with these
two words in place, the epilogue leads back behind the call and its clean-up, where the stack
pointer and the frame pointer are those before the first push. -/
theorem calling_convention_agrees {W : World} {unit : Code} {slots : List Slot} {depth : Nat}
    {entry frameSize : Label} {c : Code} (hcall : Convention.call slots depth entry = .ok c)
    {i j k : Nat} (hi : unit.Has i c)
    (hentry : unit.target entry = some j) (hj : unit.Has (j + 1) (functionPrologue frameSize))
    (hk : unit.Has k functionEpilogue)
    (hreturn : W.line (W.address (i + (c.length - 1))) = some (i + (c.length - 1)))
    (hsize : 4 ∣ (W.symbol frameSize).toNat) {m : Machine} (hdown : m.down = false)
    (hroom : 4 * (slots.length + 4) + (W.symbol frameSize).toNat ≤ (m.regs esp).toNat)
    (hslots : ∀ x ∈ slots, (m.regs esp).toNat + x.offset + argBytes ≤ (m.regs ebp).toNat)
    (hchain : ∀ d < depth, (m.regs esp).toNat ≤ (m.frame d).toNat ∧
      (m.frame d).toNat + 4 ≤ 2 ^ 32) :
    ∃ m', unit.Runs W (i, m) (j + 1 + (functionPrologue frameSize).length, m') ∧
      m.Enters slots depth (W.address (i + (c.length - 1))) (W.symbol frameSize).toNat m' ∧
      ∀ n : Machine, n.regs ebp = m'.regs ebp →
        n.load (n.regs ebp + 4) .dword = m'.load (m'.regs ebp + 4) .dword →
        n.load (n.regs ebp + 8) .dword = m'.load (m'.regs ebp + 8) .dword →
        ∃ n', unit.Runs W (k, n) (i + c.length, n') ∧
          n'.regs esp = m.regs esp ∧ n'.regs ebp = m.regs ebp ∧
          n'.regs eax = n.regs eax ∧ n'.regs edx = n.regs edx ∧ n'.mem = n.mem := by
  obtain ⟨m₁, hruns, hebp₁, hdown₁, h₁⟩ :=
    runs_call (W := W) hcall hi hentry (Nat.le_add_right _ 2) hroom hslots hchain
  have hargs : slots.length + 4 = (slots.map m.staged).length + 4 := by rw [List.length_map]
  obtain ⟨m', hrun, hebp, hesp, hwords, hclear, hkept⟩ :=
    Machine.run_functionPrologue W.symbol rfl hsize hargs hroom (hdown₁.trans hdown) h₁
  have hcaller : m'.load (m'.regs ebp + 4) .dword = m.regs ebp := (hwords 1 _ rfl).trans hebp₁
  have hback : m'.load (m'.regs ebp + 8) .dword = W.address (i + (c.length - 1)) := hwords 2 _ rfl
  have hprologue : unit.Runs W (j + 1, m₁) (j + 1 + (functionPrologue frameSize).length, m') :=
    .straight hj hrun
  refine ⟨m', Relation.ReflTransGen.trans hruns hprologue,
    ⟨fun a x hx => ?_, ?_, hcaller, hback, hclear, hesp, hkept⟩, fun n hebp' hcaller' hback' => ?_⟩
  · have ha : a < slots.length := (List.getElem?_eq_some_iff.1 hx).1
    have hlt := (m.regs esp).isLt
    have hword := hwords (a + 4) (m.staged x) (by simp [hx])
    have hdisp : ∀ {d : Int}, paramDisp a = .ok d ↔ a < 2 ^ 29 - 4 ∧ d = 4 * a + 16 :=
      paramDisp_eq_ok (by omega)
    refine ⟨⟨fun ⟨d, hd⟩ => (hdisp.1 hd).1, fun h => ⟨_, hdisp.2 ⟨h, rfl⟩⟩⟩, fun d hd => ?_⟩
    obtain ⟨-, rfl⟩ := hdisp.1 hd
    rw [← hword, ← BitVec.ofInt_natCast, show (4 * a + 16 : Int) = (4 * (a + 4) : Nat) by omega]
  · rw [← hwords 0 _ rfl, Nat.mul_zero, BitVec.add_zero]
  · -- the way back needs only the two words that the body left in place
    rw [hcaller] at hcaller'
    rw [hback] at hback'
    obtain ⟨n₁, hruns₁, hesp₁, hebp₁', hregs₁, hmem₁⟩ :=
      Machine.runs_functionEpilogue hk (hback' ▸ hreturn)
    obtain ⟨n₂, hstep, hesp₂, hregs₂, hmem₂⟩ := step_cleanup (W := W) hcall hi (by omega) n₁
    refine ⟨n₂, hruns₁.tail hstep, ?_, ?_, ?_, ?_, hmem₂.trans hmem₁⟩
    · rw [hesp₂, hesp₁, hebp', hebp]
      bv_omega
    · rw [hregs₂ ebp nofun, hebp₁', hcaller']
    · rw [hregs₂ eax nofun, hregs₁ eax nofun nofun]
    · rw [hregs₂ edx nofun, hregs₁ edx nofun nofun]

/-- A machine with two staged arguments in its innermost frame. -/
def stagedTwice : Machine := (threeFrames.store 3992 .dword 17).store 3988 .dword 18

/-- A unit with a call of a function that is declared two frames outwards, and the function, which
has no body. -/
def calledOutwards : Code :=
  [push (Mem.dword ebp (-12)), push (Mem.dword ebp (-8)), mov esi ebp, mov esi (Mem.dword esi 0),
    mov esi (Mem.dword esi 0), push esi, Asm.call (.fresh 0 "entry"), add esp (.imm 12)] ++
  .label (.fresh 0 "entry") :: functionPrologue (.fresh 1 "frame") ++ functionEpilogue

/-- Lines of eight bytes each, and frames of twelve bytes. -/
def plainWorld : World where
  symbol _ := 12
  address i := .ofNat 32 (8 * i)
  line a := some (a.toNat / 8)
  kernel _ := none

/-- The function finds both arguments, the first one nearest, and the frame two links outwards. -/
theorem calling_convention_agrees_stagedTwice : ∃ m' n',
    calledOutwards.Runs plainWorld (0, stagedTwice) (17, m') ∧
      m'.load (m'.regs ebp + 16) .dword = 17 ∧ m'.load (m'.regs ebp + 20) .dword = 18 ∧
      m'.load (m'.regs ebp) .dword = 6000 ∧ calledOutwards.Runs plainWorld (17, m') (8, n') ∧
      n'.regs esp = 3000 ∧ n'.regs ebp = 4000 := by
  have hcall : Convention.call [⟨4, 4⟩, ⟨8, 4⟩] 2 (.fresh 0 "entry") = .ok
      [push (Mem.dword ebp (-12)), push (Mem.dword ebp (-8)), mov esi ebp,
        mov esi (Mem.dword esi 0),
        mov esi (Mem.dword esi 0), push esi, Asm.call (.fresh 0 "entry"), add esp (.imm 12)] := rfl
  have hchain : ∀ d < 2, (stagedTwice.regs esp).toNat ≤ (stagedTwice.frame d).toNat ∧
      (stagedTwice.frame d).toNat + 4 ≤ 2 ^ 32 := by decide
  have hcode : calledOutwards.Has 0 _ := calledOutwards.has_self
  have hentry : calledOutwards.target (.fresh 0 "entry") = some 8 := by decide
  obtain ⟨m', hruns, henters, hback⟩ :=
    calling_convention_agrees (W := plainWorld) (k := 17) hcall hcode.left.left hentry
    hcode.left.right.tail hcode.right rfl (by decide) rfl (by decide) (by decide) hchain
  obtain ⟨n', hruns', hesp, hebp, -⟩ := hback m' rfl rfl rfl
  refine ⟨m', n', hruns, ?_, ?_, ?_, hruns', hesp, hebp⟩
  · exact (henters.argument 0 ⟨4, 4⟩ rfl).2 16 rfl
  · exact (henters.argument 1 ⟨8, 4⟩ rfl).2 20 rfl
  · exact henters.link

end KuAsm
