import KuAsm.Proofs.Stack

/-!
# Strings that the library copies

The functions of the library that give back a string measure their arguments, ask the operating
system for memory, and copy bytes there.  Lengths wait on the stack meanwhile.  This module says
what each of these steps does to the machine, and puts the steps together for joining and for
copying strings.

A string is a row of bytes other than zero with a zero behind it.  Addresses wrap around at the end
of memory, so nothing is asked of where strings lie, except that they do not lie in the part of the
stack that is about to be written.

## Main definitions

* `Machine.HasBytes`, `Machine.HasString`: bytes and strings in memory.
* `World.Maps`: the operating system grants a request for memory.
* `Machine.Passes`: an argument of a library function is a string.
* `Machine.Delivers`: a library function gives back a string in new memory.

## Main statements

* `executes_measure`: the loop that counts the bytes of a string.
* `executes_map`: the request for memory.
* `executes_copy`: copying bytes.
* `append_dup_copy`: joined strings and copies are faithful.
-/

namespace KuAsm

open Asm Reg Convention

variable {q : BitVec 32} {ws : List (BitVec 32)} {bs s : List (BitVec 8)} {m m₀ : Machine}
  {n room : Nat}

namespace Machine

/-- The bytes from an address on. -/
def HasBytes (m : Machine) (p : BitVec 32) (bs : List (BitVec 8)) : Prop :=
  ∀ k b, bs[k]? = some b → m.mem (p + .ofNat 32 k) = b

/-- The string at an address. -/
structure HasString (m : Machine) (p : BitVec 32) (s : List (BitVec 8)) : Prop where
  bytes : m.HasBytes p (s ++ [0])
  nonzero : ∀ b ∈ s, b ≠ 0

variable {m m' m₀ : Machine} {p q : BitVec 32} {bs cs : List (BitVec 8)}

theorem span_of_getElem? {b : BitVec 8} {k : Nat} (h : bs[k]? = some b) :
    Span p bs.length (p + .ofNat 32 k) := by
  have hk := (List.getElem?_eq_some_iff.1 h).1
  unfold Span
  bv_omega

theorem HasBytes.congr (h : m.HasBytes p bs) (hmem : ∀ x, Span p bs.length x → m'.mem x = m.mem x) :
    m'.HasBytes p bs :=
  fun k b hb => (hmem _ (span_of_getElem? hb)).trans (h k b hb)

theorem HasBytes.append (h : m.HasBytes p bs) (h' : m.HasBytes (p + .ofNat 32 bs.length) cs) :
    m.HasBytes p (bs ++ cs) := by
  intro k b hb
  by_cases hk : k < bs.length
  · rw [List.getElem?_append_left hk] at hb
    exact h k b hb
  · rw [List.getElem?_append_right (by omega)] at hb
    rw [← h' _ b hb, BitVec.add_assoc, ← BitVec.ofNat_add]
    congr 3
    omega

theorem HasBytes.left (h : m.HasBytes p (bs ++ cs)) : m.HasBytes p bs :=
  fun k b hb => h k b ((List.getElem?_append_left (List.getElem?_eq_some_iff.1 hb).1).trans hb)

/-! ### Copying bytes -/

/-- Copying `n` bytes. -/
structure Copies (m : Machine) (n : Nat) (m' : Machine) : Prop where
  esi : m'.regs esi = m.regs esi + .ofNat 32 n
  edi : m'.regs edi = m.regs edi + .ofNat 32 n
  regs : ∀ r, r ≠ Reg.esi → r ≠ Reg.edi → r ≠ ecx → m'.regs r = m.regs r
  down : m'.down = false
  copied : (∀ k < n, ¬ Span (m.regs Reg.edi) n (m.regs Reg.esi + .ofNat 32 k)) →
    ∀ k < n, m'.mem (m.regs Reg.edi + .ofNat 32 k) = m.mem (m.regs Reg.esi + .ofNat 32 k)
  mem : ∀ x, ¬ Span (m.regs Reg.edi) n x → m'.mem x = m.mem x

theorem copies_repeat (hdown : m.down = false) (hn : n ≤ 2 ^ 32) :
    m.Copies n (Nat.repeat copyByte n m) := by
  induction n with
  | zero =>
    exact ⟨(BitVec.add_zero _).symm, (BitVec.add_zero _).symm, fun _ _ _ _ => rfl, hdown, fun _ _ =>
      nofun, fun _ _ => rfl⟩
  | succ n ih =>
    have h := ih (by omega)
    have hstride : (Nat.repeat copyByte n m).stride .byte = 1#32 := by
      unfold stride
      rw [h.down]
      rfl
    have hesi :
        (Nat.repeat copyByte (n + 1) m).regs Reg.esi = (Nat.repeat copyByte n m).regs Reg.esi + 1 :=
      congrArg (_ + ·) hstride
    have hedi :
        (Nat.repeat copyByte (n + 1) m).regs Reg.edi = (Nat.repeat copyByte n m).regs Reg.edi + 1 :=
      congrArg (_ + ·) hstride
    have hmem (x : BitVec 32) : (Nat.repeat copyByte (n + 1) m).mem x =
        if x = m.regs Reg.edi + .ofNat 32 n then (Nat.repeat copyByte n m).mem
        (m.regs Reg.esi + .ofNat 32 n) else (Nat.repeat copyByte n m).mem x := by
      rw [← h.edi, ← h.esi]
      exact mem_store_byte _ _ _ _
    refine ⟨?_, ?_, fun r hesi hedi hecx => ?_, h.down, fun hapart k hk => ?_, fun x hx => ?_⟩
    · rw [hesi, h.esi]
      bv_omega
    · rw [hedi, h.edi]
      bv_omega
    · exact ((if_neg hecx).trans ((if_neg hedi).trans (if_neg hesi))).trans
        (h.regs r hesi hedi hecx)
    · -- bytes before the last one are not overwritten, and the last one is still what it was
      have hbefore : ∀ k ≤ n, ¬ Span (m.regs Reg.edi) n (m.regs Reg.esi + .ofNat 32 k) :=
        fun k hk hspan =>
        hapart k (by omega) (Nat.lt_succ_of_lt hspan)
      rw [hmem]
      split
      · rename_i heq
        obtain rfl : k = n := by bv_omega
        exact h.mem _ (hbefore k (Nat.le_refl k))
      · rename_i hne
        have hkn : k ≠ n := fun heq => hne (heq ▸ rfl)
        exact h.copied (fun j hj => hbefore j (by omega)) k (by omega)
    · have hlast : x ≠ m.regs Reg.edi + .ofNat 32 n := by
        rintro rfl
        apply hx
        unfold Span
        bv_omega
      rw [hmem, if_neg hlast]
      exact h.mem x fun hspan => hx (Nat.lt_succ_of_lt hspan)

end Machine

/-- The code that copies bytes.  What is copied arrives as it is, unless it lies where it is copied
to. -/
theorem executes_copy {W : World} (hn : n < 2 ^ 32) (hecx : m.regs ecx = .ofNat 32 n) :
    Primitive.copy.Executes W m fun m' =>
      (∀ bs, bs.length = n → m.HasBytes (m.regs esi) bs →
        (∀ x, Span (m.regs esi) n x → ¬ Span (m.regs edi) n x) → m'.HasBytes (m.regs edi) bs) ∧
      m'.regs edi = m.regs edi + .ofNat 32 n ∧
        (∀ r, r ≠ esi → r ≠ edi → r ≠ ecx → m'.regs r = m.regs r) ∧
      ∀ x, ¬ Span (m.regs edi) n x → m'.mem x = m.mem x := by
  have hcount : (m.regs ecx).toNat = n := by
    rw [hecx, BitVec.toNat_ofNat, Nat.mod_eq_of_lt hn]
  have hcopies := Machine.copies_repeat (m := { m with down := false }) rfl (Nat.le_of_lt hn)
  have hrun : Primitive.copy.run W.symbol m =
      some (Nat.repeat Machine.copyByte (m.regs ecx).toNat { m with down := false }) := rfl
  rw [hcount] at hrun
  refine .straight hrun ⟨?_, hcopies.edi, hcopies.regs, hcopies.mem⟩
  rintro bs rfl hbytes hapart k b hb
  have hk := (List.getElem?_eq_some_iff.1 hb).1
  rw [← hbytes k b hb]
  refine hcopies.copied (fun j hj => ?_) k hk
  exact hapart _ (Machine.span_of_getElem? (List.getElem?_eq_getElem hj))

/-! ### Measuring a string -/

/-- The code that counts the bytes of a string. -/
def measureCode (src : Mem) (top done : Label) : Code :=
  [mov edi src, xor eax eax, .label top, cmp (Mem.byteIndexed edi eax) 0, jcc .e done, inc eax,
    jmp top, .label done]

section

variable {W : World} {unit : Code} {i : Nat} {src : Mem} {top done : Label}
  (hunit : unit.Has i (measureCode src top done)) (htop : unit.target top = some (i + 2))
  (hdone : unit.target done = some (i + 7))
include hunit htop hdone

/-- One look at the string: behind a zero byte the loop is left, and behind any other one it goes
on. -/
theorem runs_measure_round (m : Machine) :
    ∃ m', unit.Runs W (i + 2, m) (if m.mem (m.regs edi + m.regs eax) = 0 then i + 8 else
      i + 2, m') ∧ m'.mem = m.mem ∧
      m'.regs eax = (if m.mem (m.regs edi + m.regs eax) = 0 then m.regs eax else m.regs eax + 1) ∧
      ∀ r, r ≠ eax → m'.regs r = m.regs r := by
  let x := m.mem (m.regs edi + m.regs eax + 0#32)
  have hx : x = m.mem (m.regs edi + m.regs eax) := congrArg m.mem (BitVec.add_zero _)
  let f : Flags := .of (x - 0#8) (x.usubOverflow 0) (x.ssubOverflow 0)
  have hzero : f.zero = (x == 0) := congrArg (· == 0) (BitVec.sub_zero x)
  let m₁ : Machine := { m with flags := some f }
  -- the comparison changes nothing but the flags
  have hlook : unit.Runs W (i + 2, m) (i + 4, m₁) := by
    refine .head (b := (i + 3, m)) ?_ (.single (Code.step_of_exec (hunit 3 _ rfl) rfl))
    show unit.step W (i + 2) m = _
    unfold Code.step
    rw [hunit 2 _ rfl]
  have hbranch : unit.step W (i + 4) m₁ = some (if x = 0 then i + 7 else i + 5, m₁) := by
    unfold Code.step
    rw [hunit 4 _ rfl]
    show (if f.zero then (unit.target done).map _ else _) = _
    rw [hzero, hdone]
    by_cases h : x = 0
    · rw [if_pos h, h]
      rfl
    · rw [if_neg h, beq_false_of_ne h]
      rfl
  rw [← hx]
  by_cases h : x = 0
  · rw [if_pos h] at hbranch ⊢
    rw [if_pos h]
    refine ⟨m₁, (hlook.tail hbranch).tail ?_, rfl, rfl, fun _ _ => rfl⟩
    show unit.step W (i + 7) m₁ = _
    unfold Code.step
    rw [hunit 7 _ rfl]
  · rw [if_neg h] at hbranch ⊢
    rw [if_neg h]
    let m₂ := Machine.setReg
      { m₁ with flags := some (.of (m.regs eax + 1) f.carry ((m.regs eax).saddOverflow 1)) }
      eax (m.regs eax + 1)
    refine ⟨m₂, ((hlook.tail hbranch).tail (Code.step_of_exec (hunit 5 _ rfl) rfl)).tail ?_, rfl,
      rfl, fun r hr => if_neg hr⟩
    show unit.step W (i + 6) m₂ = _
    unfold Code.step
    rw [hunit 6 _ rfl]
    show (unit.target top).map _ = _
    rw [htop]
    rfl

/-- From any byte of the string, the loop counts up to its end. -/
theorem runs_measure_loop {p : BitVec 32} {s : List (BitVec 8)} {m : Machine} (hs : m.HasString p s)
    (hedi : m.regs edi = p) {k : Nat} (hk : k ≤ s.length) (heax : m.regs eax = .ofNat 32 k) :
    ∃ m', unit.Runs W (i + 2, m) (i + 8, m') ∧ m'.mem = m.mem ∧ m'.regs eax = .ofNat 32 s.length ∧
      ∀ r, r ≠ eax → m'.regs r = m.regs r := by
  obtain ⟨m₁, hruns, hmem, heax₁, hregs⟩ := runs_measure_round (W := W) hunit htop hdone m
  rw [hedi, heax] at hruns heax₁
  rcases Nat.eq_or_lt_of_le hk with rfl | hlt
  · have hend : m.mem (p + .ofNat 32 s.length) = 0 := hs.bytes _ _ List.getElem?_concat_length
    rw [if_pos hend] at hruns heax₁
    exact ⟨m₁, hruns, hmem, heax₁, hregs⟩
  · have hbyte : m.mem (p + .ofNat 32 k) ≠ 0 := by
      rw [hs.bytes.left k _ (List.getElem?_eq_getElem hlt)]
      exact hs.nonzero _ (List.getElem_mem hlt)
    rw [if_neg hbyte] at hruns heax₁
    have hs₁ : m₁.HasString p s := ⟨hs.bytes.congr fun x _ => congrFun hmem x, hs.nonzero⟩
    obtain ⟨m', hruns', hmem', heax', hregs'⟩ :=
      runs_measure_loop hs₁ ((hregs edi nofun).trans hedi) (k := k + 1) hlt
      (heax₁.trans (BitVec.ofNat_add _ _).symm)
    exact ⟨m', Relation.ReflTransGen.trans hruns hruns', hmem'.trans hmem, heax', fun r hr =>
      (hregs' r hr).trans (hregs r hr)⟩
termination_by s.length - k

end

/-- Counting the bytes of a string. -/
theorem executes_measure {W : World} {src : Mem} (hsrc : src.width = some .dword) (top done : Label)
    (hs : m.HasString (m.load (m.address src) .dword) s) :
    (measureCode src top done).Executes W m fun m' => m'.mem = m.mem ∧
      m'.regs eax = .ofNat 32 s.length ∧ ∀ r, r ≠ eax → r ≠ edi → m'.regs r = m.regs r := by
  intro unit i hunit hlabels
  let m₁ := Machine.setReg { m.setReg edi (m.load (m.address src) .dword) with
    flags := some (.of (m.regs eax ^^^ m.regs eax) false false) } eax (m.regs eax ^^^ m.regs eax)
  have hstart : unit.Runs W (i, m) (i + 2, m₁) := by
    refine .straight (c := [mov edi src, xor eax eax])
      (hunit.left (d := (measureCode src top done).drop 2)) ?_
    show ((if src.width = some .dword then some (m.load (m.address src) .dword) else none).bind
      _).bind _ = _
    rw [if_pos hsrc]
    rfl
  have hs₁ : m₁.HasString (m.load (m.address src) .dword) s := ⟨hs.bytes, hs.nonzero⟩
  obtain ⟨m', hruns, hmem, heax, hregs⟩ :=
    runs_measure_loop (W := W) hunit (hlabels 2 top rfl) (hlabels 7 done rfl) hs₁ rfl
    (Nat.zero_le _) BitVec.xor_self
  refine ⟨m', Relation.ReflTransGen.trans hstart hruns, hmem, heax, fun r hr hr' => ?_⟩
  rw [hregs r hr]
  exact (if_neg hr).trans (if_neg hr')

/-! ### Asking for memory -/

/-- The machine asks the operating system for `n` bytes of memory. -/
structure Machine.AsksFor (m : Machine) (n : Nat) : Prop where
  eax : m.regs eax = .ofNat 32 sysMap
  ebx : m.regs ebx = 0
  ecx : m.regs ecx = .ofNat 32 n
  edx : m.regs edx = .ofNat 32 protReadWrite
  esi : m.regs esi = .ofNat 32 mapPrivateAnonymous
  edi : m.regs edi = -1
  ebp : m.regs ebp = 0

/-- The operating system grants a request for `n` bytes.  It gives the address of a block of that
size outside the memory that is in use, and changes nothing but the block. -/
def World.Maps (W : World) (used : BitVec 32 → Prop) (n : Nat) : Prop :=
  ∀ m : Machine, m.AsksFor n → ∃ m', W.kernel m = some m' ∧ (∀ r, r ≠ eax → m'.regs r = m.regs r) ∧
    (∀ x, Span (m'.regs eax) n x → ¬ used x) ∧ ∀ x, ¬ Span (m'.regs eax) n x → m'.mem x = m.mem x

section

variable {W : World} {used : BitVec 32 → Prop} {m₀ m : Machine} {n room : Nat}
  {ws : List (BitVec 32)}

/-- The request for memory.  The frame pointer waits on the stack meanwhile. -/
theorem executes_map (hW : W.Maps used n) (h : m₀.Stands room (fun _ => False) ws m)
    (hecx : m.regs ecx = .ofNat 32 n) (hlength : ws.length < room) (hroom : 4 * room ≤ 2 ^ 32)
    (hused : ∀ x, Span (m₀.regs esp - .ofNat 32 (4 * room)) (4 * room) x → used x) :
    Primitive.map.Executes W m fun m' => (∀ x, Span (m'.regs eax) n x → ¬ used x) ∧
      m₀.Stands room (Span (m'.regs eax) n) ws m' ∧ m'.regs ebp = m.regs ebp := by
  let m₁ := m.push (m.regs ebp)
  have h₁ : m₀.Stands room (fun _ => False) (m.regs ebp :: ws) m₁ := h.push hlength hroom _
  let m₂ := { ((((({ m₁.setReg eax (.ofInt 32 sysMap) with
      flags := some (.of (m.regs ebx ^^^ m.regs ebx) false false) } : Machine).setReg ebx
        (m.regs ebx ^^^ m.regs ebx)).setReg
      edx (.ofInt 32 protReadWrite)).setReg esi (.ofInt 32 mapPrivateAnonymous)).setReg edi
          (.ofInt 32 (-1))) with
      flags := some (.of (m.regs ebp ^^^ m.regs ebp) false false) }
  let m₃ := m₂.setReg ebp (m.regs ebp ^^^ m.regs ebp)
  have hrun :
      Code.run W.symbol [push ebp, mov eax (.imm sysMap), xor ebx ebx, mov edx (.imm protReadWrite),
        mov esi (.imm mapPrivateAnonymous), mov edi (.imm (-1)), xor ebp ebp] m = some m₃ := rfl
  have hasks : m₃.AsksFor n := ⟨rfl, BitVec.xor_self, hecx, rfl, rfl, rfl, BitVec.xor_self⟩
  -- the new block is not in use, so the words on the stack stay what they are
  obtain ⟨m₄, hkernel, hregs, hblock, hmem⟩ := hW m₃ hasks
  have h₄ : m₀.Stands room (Span (m₄.regs eax) n) (m.regs ebp :: ws) m₄ := by
    refine ((h₁.congr rfl rfl).mono fun _ => False.elim).write hlength
      (fun x hx hscratch => hblock x hx (hused x hscratch)) (hregs esp nofun) hmem
  refine .append (c := [push ebp, mov eax (.imm sysMap), xor ebx ebx, mov edx (.imm protReadWrite),
      mov esi (.imm mapPrivateAnonymous), mov edi (.imm (-1)), xor ebp ebp])
      (P := fun m' => m' = m₃) (.straight hrun rfl) ?_
  rintro _ rfl
  refine .append (c := [kernel]) (d := [pop ebp]) (P := fun m' => m' = m₄) (.kernel hkernel rfl) ?_
  rintro _ rfl
  obtain ⟨hebp, hstands⟩ := h₄.pop (r := ebp) nofun
  exact .straight rfl ⟨hblock, hstands, hebp⟩

end

/-! ### Arguments -/

/-- The argument in `src` is the number `v`.  The operand is memory in use, and not in the part of
the stack where there is room for `room` words. -/
structure Machine.Hands (m : Machine) (room : Nat) (used : BitVec 32 → Prop) (src : Mem)
    (v : BitVec 32) : Prop where
  base : src.base = ebp
  index : src.index = none
  width : src.width = some .dword
  value : m.load (m.address src) .dword = v
  inUse : ∀ x, Span (m.address src) 4 x → used x ∧
    ¬ Span (m.regs esp - .ofNat 32 (4 * room)) (4 * room) x

/-- The argument in `src` is the string `s`.  The operand and the string are memory in use, and not
in the part of the stack where there is room for `room` words. -/
structure Machine.Passes (m : Machine) (room : Nat) (used : BitVec 32 → Prop) (src : Mem)
    (s : List (BitVec 8)) : Prop where
  base : src.base = ebp
  index : src.index = none
  width : src.width = some .dword
  string : m.HasString (m.load (m.address src) .dword) s
  inUse : ∀ x, Span (m.address src) 4 x ∨ Span (m.load (m.address src) .dword) (s.length + 1) x →
    used x ∧ ¬ Span (m.regs esp - .ofNat 32 (4 * room)) (4 * room) x

section

variable {W : World} {used B : BitVec 32 → Prop} {m₀ m : Machine} {n room : Nat}
  {ws : List (BitVec 32)} {src : Mem} {s : List (BitVec 8)}

/-- While words are on the stack and other memory is written, an argument stays what it is. -/
theorem Machine.Hands.keeps {v : BitVec 32} (h : m₀.Hands room used src v)
    (hm : m₀.Stands room B ws m)
    (hB : ∀ x, B x → ¬ used x) (hebp : m.regs ebp = m₀.regs ebp) :
    m.load (m.address src) .dword = v := by
  have haddress : m.address src = m₀.address src := by
    unfold Machine.address
    rw [h.base, h.index, hebp]
    rfl
  rw [haddress, ← h.value]
  exact Machine.load_congr fun x hx => hm.mem x (h.inUse x hx).2 fun hx' =>
    hB x hx' (h.inUse x hx).1

/-- The argument is the address of the string. -/
theorem Machine.Passes.hands (h : m₀.Passes room used src s) :
    m₀.Hands room used src (m₀.load (m₀.address src) .dword) :=
  ⟨h.base, h.index, h.width, rfl, fun x hx => h.inUse x (.inl hx)⟩

theorem Machine.Passes.keeps (h : m₀.Passes room used src s) (hm : m₀.Stands room B ws m)
    (hB : ∀ x, B x → ¬ used x) (hebp : m.regs ebp = m₀.regs ebp) :
    m.load (m.address src) .dword = m₀.load (m₀.address src) .dword ∧
      m.HasString (m₀.load (m₀.address src) .dword) s := by
  refine ⟨h.hands.keeps hm hB hebp, h.string.bytes.congr fun x hx => ?_, h.string.nonzero⟩
  rw [List.length_append] at hx
  exact hm.mem x (h.inUse x (.inr hx)).2 fun hx' => hB x hx' (h.inUse x (.inr hx)).1

/-- Bytes of an argument are copied to the place in the new block that `edi` points at. -/
theorem executes_copyArgument (off j : Nat) {d : Int} (h : m₀.Passes room used src s)
    (hbs : m₀.HasBytes (m₀.load (m₀.address src) .dword) bs) (hlength : bs.length ≤ s.length + 1)
    (hm : m₀.Stands room (Span q n) ws m) (hroom : ws.length ≤ room)
    (hused : ∀ x, Span (m₀.regs esp - .ofNat 32 (4 * room)) (4 * room) x → used x)
    (hblock : ∀ x, Span q n x → ¬ used x)
    (hebp : m.regs ebp = m₀.regs ebp) (hword : ws[j]? = some (.ofNat 32 bs.length))
    (hd : d = (4 * j : Nat))
    (hedi : m.regs edi = q + .ofNat 32 off) (hfit : off + bs.length ≤ n) (hn : n < 2 ^ 32) :
    Code.Executes W ([mov esi src, mov ecx (Mem.dword esp d)] ++ Primitive.copy) m fun m' =>
      m₀.Stands room (Span q n) ws m' ∧ m'.regs ebp = m₀.regs ebp ∧ m'.regs eax = m.regs eax ∧
        m'.regs edi = q + .ofNat 32 (off + bs.length) ∧ m'.HasBytes (q + .ofNat 32 off) bs ∧
        ∀ x, ¬ Span (q + .ofNat 32 off) bs.length x → m'.mem x = m.mem x := by
  obtain ⟨hpointer, hstring⟩ := h.keeps hm hblock hebp
  let p := m₀.load (m₀.address src) .dword
  have hcount : m.load (m.address (Mem.dword esp d)) .dword = .ofNat 32 bs.length := by
    rw [← hm.words j _ hword, hd]
    show m.load (m.regs esp + 0#32 + .ofInt 32 (4 * j : Nat)) .dword = _
    rw [BitVec.add_zero, BitVec.ofInt_natCast]
  let m₁ := (m.setReg esi p).setReg ecx (.ofNat 32 bs.length)
  have hrun : Code.run W.symbol [mov esi src, mov ecx (Mem.dword esp d)] m = some m₁ := by
    show ((if src.width = some .dword then some (m.load (m.address src) .dword) else none).bind
      _).bind _ = _
    rw [if_pos h.width, hpointer]
    show some ((m.setReg esi p).setReg ecx
      ((m.setReg esi p).load (m.address (Mem.dword esp d)) .dword)) = _
    rw [Machine.load_setReg, hcount]
  refine .append (P := fun m' => m' = m₁) (.straight hrun rfl) ?_
  rintro _ rfl
  have hsource :
      ∀ x, Span p bs.length x → used x ∧ ¬ Span (m₀.regs esp - .ofNat 32 (4 * room)) (4 * room) x :=
    fun x hx => h.inUse x (.inr (Nat.lt_of_lt_of_le hx hlength))
  have hinside : ∀ x, Span (q + .ofNat 32 off) bs.length x → Span q n x := by
    intro x hx
    unfold Span at *
    bv_omega
  have hbytes : m₁.HasBytes (m₁.regs esi) bs :=
    hbs.congr fun x hx => hm.mem x (hsource x hx).2 fun hx' => hblock x hx' (hsource x hx).1
  -- what is copied is in use and the block is not, so no byte is overwritten before it is read
  have hapart : ∀ x, Span (m₁.regs esi) bs.length x → ¬ Span (m₁.regs edi) bs.length x := by
    intro x hx hx'
    rw [show m₁.regs edi = q + .ofNat 32 off from hedi] at hx'
    exact hblock x (hinside x hx') (hsource x hx).1
  refine (executes_copy (n := bs.length) (by omega) rfl).weaken
    fun m' ⟨hcopies, hedi', hregs, hmem⟩ => ?_
  have hcopied := hcopies bs rfl hbytes hapart
  rw [show m₁.regs edi = q + .ofNat 32 off from hedi] at hcopied hedi' hmem
  refine ⟨(hm.congr rfl rfl : m₀.Stands room (Span q n) ws m₁).write hroom
    (fun x hx hx' => hblock x hx (hused x hx'))
    (hregs esp nofun nofun nofun) fun x hx => hmem x fun hx' => hx (hinside x hx'), ?_, ?_, ?_,
    hcopied, hmem⟩
  · exact (hregs ebp nofun nofun nofun).trans hebp
  · exact hregs eax nofun nofun nofun
  · rw [hedi', BitVec.add_assoc, BitVec.ofNat_add]

end

/-! ### Joining and copying -/

/-- A library function gives back the bytes `bs` in a new block of that size.  It wrote nothing
outside the block and the part of the stack where there is room for `room` words, and the stack and
the frame are as before. -/
structure Machine.Delivers (m : Machine) (room : Nat) (used : BitVec 32 → Prop)
    (bs : List (BitVec 8)) (m' : Machine) : Prop where
  bytes : m'.HasBytes (m'.regs eax) bs
  size : m'.regs edx = .ofNat 32 bs.length
  fresh : ∀ x, Span (m'.regs eax) bs.length x → ¬ used x
  kept : ∀ x, ¬ Span (m.regs esp - .ofNat 32 (4 * room)) (4 * room) x →
    ¬ Span (m'.regs eax) bs.length x → m'.mem x = m.mem x
  ebp : m'.regs ebp = m.regs ebp
  esp : m'.regs esp = m.regs esp

theorem Machine.Delivers.of_stands {m' : Machine} {used : BitVec 32 → Prop}
    (h : m.Stands room (Span q bs.length) [] m')
    (heax : m'.regs Reg.eax = q) (hedx : m'.regs edx = .ofNat 32 bs.length)
    (hblock : ∀ x, Span q bs.length x → ¬ used x) (hbytes : m'.HasBytes q bs)
    (hebp : m'.regs Reg.ebp = m.regs Reg.ebp) : m.Delivers room used bs m' := by
  subst heax
  exact ⟨hbytes, hedx, hblock, h.mem, hebp, h.esp.trans (BitVec.sub_zero _)⟩

section

variable {W : World} {used : BitVec 32 → Prop} {m : Machine}

/-- A copy of a string. -/
theorem executes_dup {src : Mem} (h : m.Passes 2 used src s) (hW : W.Maps used (s.length + 1))
    (hsize : s.length + 1 < 2 ^ 32) (hused : ∀ x, Span (m.regs esp - 8) 8 x → used x)
    (top done : Label) :
      Code.Executes W (measureCode src top done ++ [mov ecx eax, inc ecx, push ecx] ++
        Primitive.map ++ [mov edi eax, mov esi src, mov ecx (Mem.dword esp 0)] ++ Primitive.copy ++
          [pop edx]) m (m.Delivers 2 used (s ++ [0])) := by
  simp only [List.append_assoc]
  refine .append (executes_measure h.width top done h.string) fun m₁ ⟨hmem₁, heax₁, hregs₁⟩ => ?_
  have h₁ : m.Stands 2 (fun _ => False) [] m₁ :=
    (Machine.Stands.nil m 2 _).congr (hregs₁ esp nofun nofun) hmem₁
  -- the size waits on the stack
  obtain ⟨m₂, hinc, hecx₂, hregs₂, hmem₂⟩ :=
    Machine.exec_inc_ecx W.symbol (m₁.setReg ecx (m₁.regs eax))
  have hsize₂ : m₂.regs ecx = .ofNat 32 (s ++ [0]).length := by
    rw [hecx₂, List.length_append, List.length_singleton, BitVec.ofNat_add]
    exact congrArg (· + 1#32) heax₁
  have hebp₂ : m₂.regs ebp = m.regs ebp := (hregs₂ ebp nofun).trans (hregs₁ ebp nofun nofun)
  have hrun₂ :
      Code.run W.symbol [mov ecx eax, inc ecx, push ecx] m₁ = some (m₂.push (m₂.regs ecx)) := by
    rw [Code.run_cons]
    show Code.run W.symbol [inc ecx, push ecx] (m₁.setReg ecx (m₁.regs eax)) = _
    rw [Code.run_cons, hinc]
    rfl
  refine .append (P := fun m' => m' = m₂.push (m₂.regs ecx)) (.straight hrun₂ rfl) ?_
  rintro _ rfl
  have h₂ : m.Stands 2 (fun _ => False) [.ofNat 32 (s ++ [0]).length] (m₂.push (m₂.regs ecx)) := by
    rw [hsize₂]
    exact (h₁.congr (hregs₂ esp nofun) hmem₂).push Nat.two_pos (by decide) _
  have hlength : (s ++ [0]).length = s.length + 1 := List.length_append
  have hecx : (m₂.push (m₂.regs ecx)).regs ecx = .ofNat 32 (s ++ [0]).length := hsize₂
  refine .append (executes_map (hlength ▸ hW) h₂ hecx Nat.one_lt_two (by decide) hused)
    fun m₃ ⟨hblock, h₃, hebp₃⟩ => ?_
  refine .append (c := [mov edi eax]) (P := fun m' => m' = m₃.setReg edi (m₃.regs eax))
    (.straight rfl rfl) ?_
  rintro _ rfl
  refine .append (c := [mov esi src, mov ecx (Mem.dword esp 0)] ++ Primitive.copy)
    (executes_copyArgument 0 0 h
      h.string.bytes (Nat.le_of_eq hlength) (h₃.congr rfl rfl) (by simp) hused hblock
      (hebp₃.trans hebp₂) rfl rfl (BitVec.add_zero _).symm (by omega) (by rwa [hlength])) ?_
  rintro m₄ ⟨h₄, hebp₄, heax₄, -, hbytes, -⟩
  obtain ⟨hedx, h₅⟩ := h₄.pop (r := edx) nofun
  rw [BitVec.add_zero] at hbytes
  exact .straight rfl (.of_stands h₅ heax₄ hedx hblock hbytes hebp₄)

/-- A zero byte behind the bytes in the new block. -/
theorem executes_terminate (hbytes : m.HasBytes q bs)
    (h : m₀.Stands room (Span q (bs.length + 1)) ws m)
    (hroom : ws.length ≤ room)
    (hused : ∀ x, Span (m₀.regs esp - .ofNat 32 (4 * room)) (4 * room) x → used x)
    (hblock : ∀ x, Span q (bs.length + 1) x → ¬ used x) (hsize : bs.length + 1 < 2 ^ 32)
    (hedi : m.regs edi = q + .ofNat 32 bs.length) :
    Primitive.terminate.Executes W m fun m' => m₀.Stands room (Span q (bs.length + 1)) ws m' ∧
      m'.HasBytes q (bs ++ [0]) ∧ m'.regs = m.regs := by
  let m' := m.store (m.regs edi + 0#32 + 0#32) .byte 0#8
  have hmem (x : BitVec 32) : m'.mem x = if x = q + .ofNat 32 bs.length then 0#8 else m.mem x := by
    show (m.store (m.regs edi + 0#32 + 0#32) .byte 0#8).mem x = _
    rw [Machine.mem_store_byte, BitVec.add_zero, BitVec.add_zero, hedi]
  have hlast : ∀ x, x ≠ q + .ofNat 32 bs.length → m'.mem x = m.mem x :=
    fun x hx => (hmem x).trans (if_neg hx)
  have hrun : Code.run W.symbol Primitive.terminate m = some m' := rfl
  refine .straight hrun ⟨h.write hroom (fun x hx hx' => hblock x hx (hused x hx')) rfl fun x hx =>
    hlast x ?_, ?_, rfl⟩
  · rintro rfl
    apply hx
    unfold Span
    bv_omega
  · refine (hbytes.congr fun x hx => hlast x ?_).append fun k b hb => ?_
    · rintro rfl
      unfold Span at hx
      bv_omega
    · obtain ⟨rfl, rfl⟩ : k = 0 ∧ b = 0 := by
        cases k with
        | zero => exact ⟨rfl, (Option.some.inj hb).symm⟩
        | succ k => cases hb
      rw [BitVec.add_zero]
      exact (hmem _).trans (if_pos rfl)

/-- The size is taken off the stack, and whatever waits below it. -/
theorem executes_handOver (h : m₀.Stands room (Span q bs.length) (.ofNat 32 bs.length :: ws) m)
    (hn : n = 4 * ws.length)
    (heax : m.regs eax = q) (hblock : ∀ x, Span q bs.length x → ¬ used x) (hbytes : m.HasBytes q bs)
    (hebp : m.regs ebp = m₀.regs ebp) :
    Code.Executes W [pop edx, add esp (.imm n)] m (m₀.Delivers room used bs) := by
  obtain ⟨hedx, h₁⟩ := h.pop (r := edx) nofun
  obtain ⟨m', hadd, hesp, hregs, hmem⟩ := Machine.exec_add_esp W.symbol (m.pop edx) n
  have hrun : Code.run W.symbol [pop edx, add esp (.imm n)] m = some m' :=
    congrArg (Option.bind · (Code.run W.symbol [])) hadd
  have hdone := h₁.drop (k := ws.length) (Nat.le_refl _) (hn ▸ hesp) hmem
  rw [List.drop_length] at hdone
  exact .straight hrun (.of_stands hdone ((hregs eax nofun).trans heax)
    ((hregs edx nofun).trans hedx) hblock
    (hbytes.congr fun z _ => congrFun hmem z) ((hregs ebp nofun).trans hebp))

/-- The lengths of both strings and the size of the result wait on the stack. -/
theorem run_sizes (symbol : Label → BitVec 32) {a b : Nat}
    (h : m₀.Stands 4 (fun _ => False) [.ofNat 32 a] m) (heax : m.regs eax = .ofNat 32 b) :
    ∃ m', Code.run symbol [push eax, mov ecx (Mem.dword esp 0), add ecx (Mem.dword esp 4), inc ecx,
      push ecx] m = some m' ∧ m₀.Stands 4 (fun _ => False) [.ofNat 32 (a + b + 1), .ofNat 32 b,
        .ofNat 32 a] m' ∧ m'.regs ecx = .ofNat 32 (a + b + 1) ∧ m'.regs ebp = m.regs ebp := by
  let m₁ := m.push (m.regs eax)
  have h₁ : m₀.Stands 4 (fun _ => False) [.ofNat 32 b, .ofNat 32 a] m₁ := by
    rw [← heax]
    exact h.push (by simp) (by decide) _
  have hb : m₁.load (m₁.regs esp + 0#32 + 0#32) .dword = .ofNat 32 b := by
    rw [← h₁.words 0 _ rfl, BitVec.add_zero]
  have ha : m₁.load (m₁.regs esp + 0#32 + 4#32) .dword = .ofNat 32 a := by
    rw [← h₁.words 1 _ rfl, BitVec.add_zero]
  let m₂ := m₁.setReg ecx (m₁.load (m₁.regs esp + 0#32 + 0#32) .dword)
  let x := m₁.load (m₁.regs esp + 0#32 + 0#32) .dword
  let y := m₂.load (m₁.regs esp + 0#32 + 4#32) .dword
  let m₃ := Machine.setReg { m₂ with flags := Arith.add.flags x y } ecx (x + y)
  obtain ⟨m₄, hinc, hecx, hregs, hmem⟩ := Machine.exec_inc_ecx symbol m₃
  have hsum : m₄.regs ecx = .ofNat 32 (a + b + 1) := by
    rw [hecx]
    show m₁.load (m₁.regs esp + 0#32 + 0#32) .dword + m₂.load (m₁.regs esp + 0#32 + 4#32)
      .dword + 1 = _
    rw [Machine.load_setReg, hb, ha, BitVec.ofNat_add, BitVec.ofNat_add,
      BitVec.add_comm (BitVec.ofNat 32 b)]
    rfl
  refine ⟨m₄.push (m₄.regs ecx), ?_, ?_, hsum, hregs ebp nofun⟩
  · show Code.run symbol [inc ecx, push ecx] m₃ = _
    rw [Code.run_cons, hinc]
    rfl
  · rw [hsum]
    exact (h₁.congr (hregs esp nofun) hmem).push (by simp) (by decide) _

/-- Two strings joined. -/
theorem executes_append {x y : Mem} {a b : List (BitVec 8)} (hx : m.Passes 4 used x a)
    (hy : m.Passes 4 used y b)
    (hW : W.Maps used (a.length + b.length + 1)) (hsize : a.length + b.length + 1 < 2 ^ 32)
    (hused : ∀ z, Span (m.regs esp - 16) 16 z → used z) (top done top' done' : Label) :
    Code.Executes W (measureCode x top done ++ [push eax] ++ measureCode y top' done' ++
      [push eax, mov ecx (Mem.dword esp 0), add ecx (Mem.dword esp 4), inc ecx, push ecx] ++
        Primitive.map ++ [mov edi eax, mov esi x, mov ecx (Mem.dword esp 8)] ++ Primitive.copy ++
      [mov esi y, mov ecx (Mem.dword esp 4)] ++
        Primitive.copy ++ Primitive.terminate ++ [pop edx, add esp 8]) m
      (m.Delivers 4 used (a ++ b ++ [0])) := by
  generalize hjoin : a ++ b ++ [0] = bs
  simp only [List.append_assoc]
  subst hjoin
  refine .append (executes_measure hx.width top done hx.string) fun m₁ ⟨hmem₁, heax₁, hregs₁⟩ => ?_
  have h₁ : m.Stands 4 (fun _ => False) [] m₁ :=
    (Machine.Stands.nil m 4 _).congr (hregs₁ esp nofun nofun) hmem₁
  refine .append (P := fun m' => m' = m₁.push (m₁.regs eax)) (.straight rfl rfl) ?_
  rintro _ rfl
  have h₂ : m.Stands 4 (fun _ => False) [.ofNat 32 a.length] (m₁.push (m₁.regs eax)) := by
    rw [heax₁]
    exact h₁.push (by decide) (by decide) _
  have hebp₂ : (m₁.push (m₁.regs eax)).regs ebp = m.regs ebp := hregs₁ ebp nofun nofun
  obtain ⟨hpointer, hstring⟩ := hy.keeps h₂ (fun _ => False.elim) hebp₂
  rw [← hpointer] at hstring
  refine .append (executes_measure hy.width top' done' hstring) fun m₃ ⟨hmem₃, heax₃, hregs₃⟩ => ?_
  obtain ⟨m₄, hrun₄, h₄, hecx₄, hebp₄⟩ :=
    run_sizes W.symbol (h₂.congr (hregs₃ esp nofun nofun) hmem₃) heax₃
  refine .append (P := fun m' => m' = m₄) (.straight hrun₄ rfl) ?_
  rintro _ rfl
  refine .append (executes_map hW h₄ hecx₄ (by simp) (by decide) hused)
    fun m₅ ⟨hblock, h₅, hebp₅⟩ => ?_
  have hebp : m₅.regs ebp = m.regs ebp :=
    hebp₅.trans (hebp₄.trans ((hregs₃ ebp nofun nofun).trans hebp₂))
  refine .append (c := [mov edi eax]) (P := fun m' => m' = m₅.setReg edi (m₅.regs eax))
    (.straight rfl rfl) ?_
  rintro _ rfl
  refine .append (c := [mov esi x, mov ecx (Mem.dword esp 8)] ++ Primitive.copy)
    (executes_copyArgument 0 2 hx
      hx.string.bytes.left (Nat.le_succ _) (h₅.congr rfl rfl) (by simp) hused hblock hebp rfl rfl
      (BitVec.add_zero _).symm (by omega) hsize) ?_
  rintro m₆ ⟨h₆, hebp₆, heax₆, hedi₆, hbytes₆, -⟩
  rw [BitVec.add_zero] at hbytes₆
  rw [Nat.zero_add] at hedi₆
  refine .append (c := [mov esi y, mov ecx (Mem.dword esp 4)] ++ Primitive.copy)
    (executes_copyArgument a.length
      1 hy hy.string.bytes.left (Nat.le_succ _) h₆ (by simp) hused hblock hebp₆ rfl rfl hedi₆
      (by omega) hsize) ?_
  rintro m₇ ⟨h₇, hebp₇, heax₇, hedi₇, hbytes₇, hmem₇⟩
  -- the first string is not touched by what comes behind it
  have hjoined : m₇.HasBytes (m₅.regs eax) (a ++ b) := by
    refine (hbytes₆.congr fun z hz => hmem₇ z fun hz' => ?_).append hbytes₇
    unfold Span at hz hz'
    bv_omega
  have hlength : (a ++ b).length + 1 = a.length + b.length + 1 :=
    congrArg (· + 1) List.length_append
  rw [← hlength] at h₇ hblock hsize
  refine .append (executes_terminate hjoined h₇ (by simp) hused hblock hsize
    (by rw [hedi₇, List.length_append])) ?_
  rintro m₈ ⟨h₈, hbytes₈, hregs₈⟩
  have hall : (a ++ b ++ [0]).length = (a ++ b).length + 1 := List.length_append
  rw [← hall] at h₈ hblock
  refine executes_handOver h₈ rfl ?_ hblock hbytes₈ ?_
  · rw [hregs₈, heax₇, heax₆]
    rfl
  · rw [hregs₈, hebp₇]

/-- Strings are copied faithfully.  Joining and copying compile, and each label of the code is used
once.  Let the arguments be strings of any bytes other than zero, let the part of the stack below
the stack pointer be memory in use, and let the operating system grant a block of as many bytes as
the result needs, outside the memory in use.  Then the code of joining gets to its end with the
bytes of both strings and a zero in the block, and the code of copying with those of one string and
its zero.  The size of the block is in `edx`, nothing else in memory is changed but for four words
of the stack, or two, and the frame pointer and the stack pointer are as before. -/
theorem append_dup_copy (W : World) (used : BitVec 32 → Prop) (m : Machine)
    (σ : Session × Listing) :
    (∀ (x y : Mem) (a b : List (BitVec 8)), m.Passes 4 used x a → m.Passes 4 used y b →
      a.length + b.length + 1 < 2 ^ 32 → W.Maps used (a.length + b.length + 1) →
      (∀ z, Span (m.regs esp - 16) 16 z → used z) →
      ∃ code σ', (Primitive.append.body [x, y]).run σ = .ok (code, σ') ∧ code.defines.Nodup ∧
        code.Executes W m (m.Delivers 4 used (a ++ b ++ [0]))) ∧
    ∀ (x : Mem) (a : List (BitVec 8)), m.Passes 2 used x a → a.length + 1 < 2 ^ 32 →
      W.Maps used (a.length + 1) → (∀ z, Span (m.regs esp - 8) 8 z → used z) →
      ∃ code σ', (Primitive.dup.body [x]).run σ = .ok (code, σ') ∧ code.defines.Nodup ∧
        code.Executes W m (m.Delivers 2 used (a ++ [0])) := by
  refine ⟨fun x y a b hx hy hsize hW hused =>
    ⟨_, _, rfl, ?_, executes_append hx hy hW hsize hused _ _ _ _⟩,
    fun x a hx hsize hW hused => ⟨_, _, rfl, ?_, executes_dup hx hW hsize hused _ _⟩⟩
  · refine .of_map Label.number ?_
    show [σ.1.nextLabel, σ.1.nextLabel + 1, σ.1.nextLabel + 2, σ.1.nextLabel + 3].Nodup
    simp
  · refine .of_map Label.number ?_
    show [σ.1.nextLabel, σ.1.nextLabel + 1].Nodup
    simp

end

/-- A machine with two arguments: the string "ab" at 7000 and the string "c" at 7010. -/
def twoStrings : Machine where
  regs r := match r with
    | .ebp => 4000
    | .esp => 3000
    | _ => 0
  flags := none
  down := true
  mem a := match a.toNat with
    | 3996 => 0x58
    | 3997 => 0x1b
    | 3992 => 0x62
    | 3993 => 0x1b
    | 7000 => 97
    | 7001 => 98
    | 7010 => 99
    | _ => 0

/-- An operating system that grants memory from 9000 on. -/
def grantingWorld : World where
  symbol _ := 0
  address _ := 0
  line _ := none
  kernel m := some (m.setReg eax 9000)

theorem grantingWorld_maps (hn : n ≤ 2 ^ 31) : grantingWorld.Maps (·.toNat < 9000) n := by
  refine fun m _ => ⟨m.setReg eax 9000, rfl, fun r hr => if_neg hr, fun x hx => ?_, fun _ _ => rfl⟩
  have hspan : (x - 9000#32).toNat < n := hx
  show ¬ x.toNat < 9000
  bv_omega

/-- The joined string is "abc" in four bytes, and the copy of the first one "ab" in three. -/
theorem append_dup_copy_twoStrings : ∃ code code' σ σ' m₁ m₂,
    (Primitive.append.body [Mem.dword ebp (-4), Mem.dword ebp (-8)]).run (.empty, .empty) =
      .ok (code, σ) ∧
    code.Runs grantingWorld (0, twoStrings) (code.length, m₁) ∧
    m₁.HasBytes (m₁.regs eax) [97, 98, 99, 0] ∧ m₁.regs edx = 4 ∧
    (Primitive.dup.body [Mem.dword ebp (-4)]).run (.empty, .empty) = .ok (code', σ') ∧
    code'.Runs grantingWorld (0, twoStrings) (code'.length, m₂) ∧
    m₂.HasBytes (m₂.regs eax) [97, 98, 0] ∧ m₂.regs edx = 3 := by
  have hbytes : ∀ {p : BitVec 32} {bs : List (BitVec 8)},
      (∀ k < bs.length, bs[k]? = some (twoStrings.mem (p + .ofNat 32 k))) →
      twoStrings.HasBytes p bs := by
    intro p bs h k b hb
    exact Option.some.inj ((h k (List.getElem?_eq_some_iff.1 hb).1).symm.trans hb)
  have hfirst :
      ∀ room ≤ 100, twoStrings.Passes room (·.toNat < 9000) (Mem.dword ebp (-4)) [97, 98] := by
    intro room hroom
    refine ⟨rfl, rfl, rfl, ⟨hbytes (by decide), by decide⟩, fun x hx => ?_⟩
    have hspan : (x - 3996#32).toNat < 4 ∨ (x - 7000#32).toNat < 3 := hx
    show x.toNat < 9000 ∧ ¬ (x - (3000#32 - .ofNat 32 (4 * room))).toNat < 4 * room
    bv_omega
  have hsecond : twoStrings.Passes 4 (·.toNat < 9000) (Mem.dword ebp (-8)) [99] := by
    refine ⟨rfl, rfl, rfl, ⟨hbytes (by decide), by decide⟩, fun x hx => ?_⟩
    have hspan : (x - 3992#32).toNat < 4 ∨ (x - 7010#32).toNat < 2 := hx
    show x.toNat < 9000 ∧ ¬ (x - 2984#32).toNat < 16
    bv_omega
  have hstack : ∀ n ≤ 16, ∀ z, Span (twoStrings.regs esp - .ofNat 32 n) n z → z.toNat < 9000 := by
    intro n hn z hz
    have hspan : (z - (3000#32 - .ofNat 32 n)).toNat < n := hz
    bv_omega
  obtain ⟨happend, hdup⟩ :=
    append_dup_copy grantingWorld (·.toNat < 9000) twoStrings (.empty, .empty)
  obtain ⟨code, σ, hcode, hlabels, hexec⟩ :=
    happend _ _ _ _ (hfirst 4 (by decide)) hsecond (by decide)
    (grantingWorld_maps (by decide)) (hstack 16 (by decide))
  obtain ⟨code', σ', hcode', hlabels', hexec'⟩ := hdup _ _ (hfirst 2 (by decide)) (by decide)
    (grantingWorld_maps (by decide)) (hstack 8 (by decide))
  obtain ⟨m₁, hruns, h₁⟩ := hexec.runs hlabels
  obtain ⟨m₂, hruns', h₂⟩ := hexec'.runs hlabels'
  exact ⟨code, code', σ, σ', m₁, m₂, hcode, hruns, h₁.bytes, h₁.size, hcode', hruns',
    h₂.bytes, h₂.size⟩

end KuAsm
