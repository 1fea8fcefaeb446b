import KuAsm.Proofs.Copying

/-!
# Parts of strings

The library function for a part of a string subtracts the two bounds, takes a negative difference
for zero, asks for one byte more than that, and copies so many bytes from where the part begins.
The difference has 32 bits and wraps around.  So bounds in the wrong order give the empty string
only as long as they are at most 2^31 apart; beyond that the difference counts as a large length.

## Main definitions

* `sliceLength`: the length that the code computes from the bounds.

## Main statements

* `executes_clamp`: the code computes `sliceLength`.
* `executes_slice`: so many bytes are copied, whatever the bounds are.
* `slice_takes_part`: the part of the string, and the empty string for bounds in the wrong order.
* `slice_clamp_fails_farApart`: bounds in the wrong order that are too far apart.
-/

namespace KuAsm

open Asm Reg Convention

variable {first last p : BitVec 32}

/-! ### The length of a part -/

/-- The difference of the bounds, or zero if it is negative as a number of 32 bits. -/
def sliceLength (first last : BitVec 32) : BitVec 32 :=
  if (last - first).msb then 0 else last - first

/-- The length is that of the part, if the bounds are in order and not negative. -/
theorem sliceLength_of_le (h : 0 ≤ first.toInt) (hle : first.toInt ≤ last.toInt) :
    sliceLength first last = .ofNat 32 (last.toNat - first.toNat) := by
  have hmsb : (last - first).msb = false := by
    rw [BitVec.msb_eq_false_iff_two_mul_lt]
    rw [BitVec.toInt_eq_toNat_cond] at h hle
    rw [BitVec.toInt_eq_toNat_cond] at hle
    split at h <;> split at hle <;> bv_omega
  rw [sliceLength, hmsb, if_neg Bool.false_ne_true]
  rw [BitVec.toInt_eq_toNat_cond] at h hle
  rw [BitVec.toInt_eq_toNat_cond] at hle
  split at h <;> split at hle <;> bv_omega

/-- The length is zero if the bounds are in the wrong order and their difference fits into 32
bits. -/
theorem sliceLength_of_ge (hle : last.toInt ≤ first.toInt)
    (hfits : first.toInt - last.toInt ≤ 2 ^ 31) : sliceLength first last = 0 := by
  unfold sliceLength
  cases hmsb : (last - first).msb with
  | true => rfl
  | false =>
    rw [BitVec.msb_eq_false_iff_two_mul_lt] at hmsb
    rw [if_neg Bool.false_ne_true]
    rw [BitVec.toInt_eq_toNat_cond, BitVec.toInt_eq_toNat_cond] at hle hfits
    split at hle <;> split at hle <;> bv_omega

/-- The length is a large one if the bounds are in the wrong order and farther apart than that. -/
theorem sliceLength_of_farApart (h : 2 ^ 31 < first.toInt - last.toInt) :
    sliceLength first last = .ofNat 32 (2 ^ 32 - (first.toInt - last.toInt)).toNat := by
  have hmsb : (last - first).msb = false := by
    rw [BitVec.msb_eq_false_iff_two_mul_lt]
    rw [BitVec.toInt_eq_toNat_cond, BitVec.toInt_eq_toNat_cond] at h
    split at h <;> split at h <;> bv_omega
  rw [sliceLength, hmsb, if_neg Bool.false_ne_true]
  rw [BitVec.toInt_eq_toNat_cond, BitVec.toInt_eq_toNat_cond] at h ⊢
  split at h <;> split at h <;> simp only [*, if_true, if_false] <;> bv_omega

/-- The code that computes the length of a part. -/
def clampCode (first last : Mem) (counted : Label) : Code :=
  [mov ecx last, sub ecx first, test ecx ecx, jcc .ge counted, xor ecx ecx, .label counted]

/-- The code computes the length in `ecx` and changes nothing else. -/
theorem executes_clamp {W : World} {m : Machine} {first last : Mem}
    (hfirst : first.width = some .dword)
    (hlast : last.width = some .dword) (hbase : first.base ≠ ecx) (hindex : first.index = none)
    (counted : Label) : (clampCode first last counted).Executes W m fun m' =>
      m'.regs ecx = sliceLength (m.load (m.address first) .dword) (m.load (m.address last) .dword) ∧
        m'.mem = m.mem ∧ ∀ r, r ≠ ecx → m'.regs r = m.regs r := by
  intro unit i hunit hlabels
  let a := m.load (m.address first) .dword
  let b := m.load (m.address last) .dword
  -- the flags tell the sign of the difference, without the overflow that the subtraction may have
  -- had
  let f : Flags := .of ((b - a) &&& (b - a)) false false
  let m₁ : Machine :=
    { Machine.setReg { m.setReg ecx b with flags := Arith.sub.flags b a } ecx (b - a) with
      flags := some f }
  have haddress : (m.setReg ecx b).address first = m.address first := by
    unfold Machine.address
    rw [hindex, Machine.regs_setReg, if_neg hbase]
    rfl
  have hrun : Code.run W.symbol [mov ecx last, sub ecx first, test ecx ecx] m = some m₁ := by
    show ((if last.width = some .dword then some b else none).bind _).bind _ = _
    rw [if_pos hlast]
    show ((if first.width = some .dword then
      some ((m.setReg ecx b).load ((m.setReg ecx b).address first) .dword)
      else none).bind _).bind _ = _
    rw [if_pos hfirst, haddress, Machine.load_setReg]
    rfl
  have hstart : unit.Runs W (i, m) (i + 3, m₁) :=
    .straight (hunit.left (d := (clampCode first last counted).drop 3)) hrun
  have hbranch : unit.step W (i + 3) m₁ = some (if (b - a).msb then i + 4 else i + 5, m₁) := by
    unfold Code.step
    rw [hunit 3 _ rfl]
    show (if (((b - a) &&& (b - a)).msb == false) = true then (unit.target counted).map _ else _) =
      _
    rw [BitVec.and_self, hlabels 5 counted rfl]
    cases (b - a).msb <;> rfl
  have hlabel (m' : Machine) : unit.step W (i + 5) m' = some (i + 6, m') := by
    unfold Code.step
    rw [hunit 5 _ rfl]
  have hregs : ∀ r, r ≠ ecx → m₁.regs r = m.regs r := fun r hr => (if_neg hr).trans (if_neg hr)
  unfold sliceLength
  cases hmsb : (b - a).msb with
  | false =>
    rw [hmsb] at hbranch
    exact ⟨m₁, (hstart.tail hbranch).tail (hlabel m₁), rfl, rfl, hregs⟩
  | true =>
    rw [hmsb] at hbranch
    let m₂ :=
      Machine.setReg { m₁ with flags := some (.of (m₁.regs ecx ^^^ m₁.regs ecx) false false) } ecx
      (m₁.regs ecx ^^^ m₁.regs ecx)
    refine ⟨m₂, ((hstart.tail hbranch).tail (Code.step_of_exec (hunit 4 _ rfl) rfl)).tail
      (hlabel m₂), BitVec.xor_self, rfl, fun r hr => ?_⟩
    exact (if_neg hr).trans (hregs r hr)

/-! ### Copying the part -/

section

variable {W : World} {used : BitVec 32 → Prop} {m : Machine}

/-- A run that gets to the end of a unit ends in one machine only. -/
theorem Code.Runs.unique {code : Code} {p : Nat × Machine} {m₁ m₂ : Machine}
    (h₁ : code.Runs W p (code.length, m₁)) (h₂ : code.Runs W p (code.length, m₂)) : m₁ = m₂ := by
  have hstuck : ∀ {a b : Machine}, code.Runs W (code.length, a) (code.length, b) → a = b := by
    intro a b h
    rcases Relation.ReflTransGen.cases_head h with heq | ⟨q, hstep, -⟩
    · exact congrArg Prod.snd heq
    · unfold Code.step at hstep
      rw [List.getElem?_eq_none (Nat.le_refl _)] at hstep
      cases hstep
  rcases Relation.ReflTransGen.total_of_right_unique
    (fun _ _ _ h h' => Option.some.inj (h.symm.trans h')) h₁ h₂ with h | h
  · exact hstuck h
  · exact (hstuck h).symm

/-- Whatever bytes there are. -/
theorem Machine.hasBytes_ofFn (m : Machine) (p : BitVec 32) (n : Nat) :
    m.HasBytes p (List.ofFn fun k : Fin n => m.mem (p + .ofNat 32 k)) := by
  intro k b hb
  rw [List.getElem?_ofFn] at hb
  split at hb
  · exact Option.some.inj hb
  · cases hb

/-- So many bytes at one place are what they are. -/
theorem Machine.HasBytes.unique {bs cs : List (BitVec 8)} (h : m.HasBytes p bs)
    (h' : m.HasBytes p cs) (hlength : bs.length = cs.length) : bs = cs := by
  refine List.ext_getElem hlength fun k hk hk' => ?_
  rw [← h k _ (List.getElem?_eq_getElem hk), ← h' k _ (List.getElem?_eq_getElem hk')]

/-- The length of the part and the size of the result wait on the stack. -/
theorem run_pushSizes (symbol : Label → BitVec 32) {m₀ : Machine} {n : Nat}
    (h : m₀.Stands 3 (fun _ => False) [] m)
    (hecx : m.regs ecx = .ofNat 32 n) :
      ∃ m', Code.run symbol [push ecx, inc ecx, push ecx] m = some m' ∧
      m₀.Stands 3 (fun _ => False) [.ofNat 32 (n + 1), .ofNat 32 n] m' ∧ m'.regs ecx = .ofNat 32
      (n + 1) ∧ m'.regs ebp = m.regs ebp := by
  obtain ⟨m₁, hinc, hecx₁, hregs, hmem⟩ := Machine.exec_inc_ecx symbol (m.push (m.regs ecx))
  have hsize : m₁.regs ecx = .ofNat 32 (n + 1) := by
    rw [hecx₁, BitVec.ofNat_add]
    exact congrArg (· + 1#32) hecx
  refine ⟨m₁.push (m₁.regs ecx), ?_, ?_, hsize, hregs ebp nofun⟩
  · show Code.run symbol [inc ecx, push ecx] (m.push (m.regs ecx)) = _
    rw [Code.run_cons, hinc]
    rfl
  · rw [hsize]
    rw [hecx] at hregs hmem
    exact ((h.push (by decide) (by decide) _).congr (hregs esp nofun) hmem).push (by simp)
      (by decide) _

/-- The registers of the copy: where the part begins, the new block, and the length. -/
theorem run_pointers (symbol : Label → BitVec 32) {m₀ : Machine} {B : BitVec 32 → Prop} {x y : Mem}
    {w v : BitVec 32} (hx : m₀.Hands 3 used x p) (hy : m₀.Hands 3 used y first)
    (h : m₀.Stands 3 B [w, v] m) (hB : ∀ a, B a → ¬ used a) (hebp : m.regs ebp = m₀.regs ebp) :
    ∃ m', Code.run symbol [mov edi eax, mov esi x, add esi y, mov ecx (Mem.dword esp 4)] m =
      some m' ∧ m₀.Stands 3 B [w, v] m' ∧
      (∀ r, r ≠ edi → r ≠ esi → r ≠ ecx → m'.regs r = m.regs r) ∧
      m'.regs esi = p + first ∧ m'.regs edi = m.regs eax ∧ m'.regs ecx = v := by
  let m₁ := m.setReg edi (m.regs eax)
  have h₁ : m₀.Stands 3 B [w, v] m₁ := h.congr rfl rfl
  let m₂ := m₁.setReg esi p
  have h₂ : m₀.Stands 3 B [w, v] m₂ := h₁.congr rfl rfl
  let m₃ := Machine.setReg { m₂ with flags := Arith.add.flags p first } esi (p + first)
  have h₃ : m₀.Stands 3 B [w, v] m₃ := h₂.congr rfl rfl
  have hcount : m₃.load (m₃.regs esp + 0#32 + 4#32) .dword = v := by
    rw [← h₃.words 1 _ rfl, BitVec.add_zero]
  refine ⟨m₃.setReg ecx v, ?_, h₃.congr rfl rfl, fun r hr hr' hr'' => ?_, rfl, rfl, rfl⟩
  · show ((if x.width = some .dword then some (m₁.load (m₁.address x) .dword) else none).bind
      _).bind _ = _
    rw [if_pos hx.width, hx.keeps h₁ hB hebp]
    show ((if y.width = some .dword then some (m₂.load (m₂.address y) .dword) else none).bind
      _).bind _ = _
    rw [if_pos hy.width, hy.keeps h₂ hB hebp]
    show some (m₃.setReg ecx (m₃.load (m₃.regs esp + 0#32 + 4#32) .dword)) = _
    rw [hcount]
  · exact (if_neg hr'').trans ((if_neg hr').trans ((if_neg hr').trans (if_neg hr)))

/-- The code of the library function for a part of a string. -/
def sliceCode (src first last : Mem) (counted : Label) : Code :=
  clampCode first last counted ++ [push ecx, inc ecx, push ecx] ++ Primitive.map ++
    [mov edi eax, mov esi src, add esi first, mov ecx (Mem.dword esp 4)] ++ Primitive.copy ++
      Primitive.terminate ++ [pop edx, add esp 4]

/-- So many bytes as the bounds say are given back, with a zero behind them.  They are those that
stand where the part begins, if these are memory in use. -/
theorem executes_slice {x y z : Mem} {n : Nat} (hx : m.Hands 3 used x p)
    (hy : m.Hands 3 used y first)
    (hz : m.Hands 3 used z last) (hn : sliceLength first last = .ofNat 32 n)
    (hsize : n + 1 < 2 ^ 32)
    (hW : W.Maps used (n + 1)) (hused : ∀ a, Span (m.regs esp - 12) 12 a → used a)
    (counted : Label) : (sliceCode x y z counted).Executes W m fun m' => ∃ bs, bs.length = n ∧
      m.Delivers 3 used (bs ++ [0]) m' ∧ ∀ cs, cs.length = n → m.HasBytes (p + first) cs →
        (∀ a, Span (p + first) n a → used a ∧ ¬ Span (m.regs esp - 12) 12 a) → bs = cs := by
  unfold sliceCode
  simp only [List.append_assoc]
  have hbase : y.base ≠ ecx := by
    rw [hy.base]
    nofun
  refine .append (executes_clamp hy.width hz.width hbase hy.index counted)
    fun m₁ ⟨hecx₁, hmem₁, hregs₁⟩ => ?_
  rw [hy.value, hz.value, hn] at hecx₁
  have h₁ : m.Stands 3 (fun _ => False) [] m₁ :=
    (Machine.Stands.nil m 3 _).congr (hregs₁ esp nofun) hmem₁
  obtain ⟨m₂, hrun₂, h₂, hecx₂, hebp₂⟩ := run_pushSizes W.symbol h₁ hecx₁
  refine .append (P := fun m' => m' = m₂) (.straight hrun₂ rfl) ?_
  rintro _ rfl
  refine .append (executes_map hW h₂ hecx₂ (by simp) (by decide) hused)
    fun m₃ ⟨hblock, h₃, hebp₃⟩ => ?_
  have hebp : m₃.regs ebp = m.regs ebp := hebp₃.trans (hebp₂.trans (hregs₁ ebp nofun))
  obtain ⟨m₄, hrun₄, h₄, hregs₄, hesi₄, hedi₄, hecx₄⟩ := run_pointers W.symbol hx hy h₃ hblock hebp
  refine .append (P := fun m' => m' = m₄) (.straight hrun₄ rfl) ?_
  rintro _ rfl
  refine .append (executes_copy (by omega) hecx₄) fun m₅ ⟨hcopied, hedi₅, hregs₅, hmem₅⟩ => ?_
  rw [hesi₄, hedi₄] at hcopied
  rw [hedi₄] at hedi₅ hmem₅
  have hinside : ∀ a, Span (m₃.regs eax) n a → Span (m₃.regs eax) (n + 1) a :=
    fun _ ha => Nat.lt_succ_of_lt ha
  have h₅ : m.Stands 3 (Span (m₃.regs eax) (n + 1)) [.ofNat 32 (n + 1), .ofNat 32 n] m₅ :=
    h₄.write (by simp) (fun a ha ha' => hblock a ha (hused a ha')) (hregs₅ esp nofun nofun nofun)
        fun a ha =>
      hmem₅ a fun ha' => ha (hinside a ha')
  -- the bytes of the block, whether or not they have come from another place
  obtain ⟨bs, hbytes, hlength⟩ : ∃ bs, m₅.HasBytes (m₃.regs eax) bs ∧ bs.length = n :=
    ⟨_, m₅.hasBytes_ofFn _ n, List.length_ofFn⟩
  have hall :
    (bs ++ [0]).length = n + 1 := by rw [List.length_append, List.length_singleton, hlength]
  rw [← hlength] at h₅ hblock hsize hedi₅
  refine .append (executes_terminate hbytes h₅ (by simp) hused hblock hsize hedi₅)
    fun m₆ ⟨h₆, hbytes₆, hregs₆⟩ => ?_
  rw [hlength, ← hall] at h₆ hblock
  refine (executes_handOver h₆ rfl ?_ hblock hbytes₆ ?_).weaken fun m' hdelivers =>
    ⟨bs, hlength, hdelivers, ?_⟩
  · rw [hregs₆, hregs₅ eax nofun nofun nofun, hregs₄ eax nofun nofun nofun]
  · rw [hregs₆, hregs₅ ebp nofun nofun nofun, hregs₄ ebp nofun nofun nofun, hebp]
  · intro cs hcs hsource hinUse
    refine hbytes.unique (hcopied cs hcs ?_ fun a ha ha' => ?_) (hlength.trans hcs.symm)
    · refine hsource.congr fun a ha => ?_
      rw [hcs] at ha
      exact h₄.mem a (hinUse a ha).2 fun ha' => hblock a (hall.symm ▸ ha') (hinUse a ha).1
    · exact hblock a (hall.symm ▸ hinside a ha') (hinUse a ha).1

/-- A part of a string is given back.  The function compiles, and each label of its code is used
once.  Let the arguments be a string of bytes other than zero and two numbers, let the three words
below the stack pointer be memory in use, and let the operating system grant a block of as many
bytes as are asked for.  Bounds in the order of the string give the bytes between them with a zero
behind them.  Bounds in the wrong order that are at most 2^31 apart give the empty string, in a
block of one byte; if they are farther apart, the result has as many bytes as their difference wraps
to.  The size of the block is in `edx`, and the frame pointer and the stack pointer are as
before. -/
theorem slice_takes_part (W : World) (used : BitVec 32 → Prop) (m : Machine) (σ : Session × Listing)
    {x y z : Mem} {s : List (BitVec 8)} {first last : BitVec 32} (hx : m.Passes 3 used x s)
    (hy : m.Hands 3 used y first) (hz : m.Hands 3 used z last)
    (hused : ∀ a, Span (m.regs esp - 12) 12 a → used a) :
    ∃ code σ', (Primitive.slice.body [x, y, z]).run σ = .ok (code, σ') ∧ code.defines.Nodup ∧
      (0 ≤ first.toInt → first.toInt ≤ last.toInt → last.toInt ≤ s.length →
        W.Maps used (last.toNat - first.toNat + 1) →
        code.Executes W m (m.Delivers 3 used
          ((s.drop first.toNat).take (last.toNat - first.toNat) ++ [0]))) ∧
      (last.toInt ≤ first.toInt → first.toInt - last.toInt ≤ 2 ^ 31 → W.Maps used 1 →
        code.Executes W m (m.Delivers 3 used [0])) ∧
      ∀ n : Nat, 2 ^ 31 < first.toInt - last.toInt → n = 2 ^ 32 - (first.toInt - last.toInt) →
        W.Maps used (n + 1) → code.Executes W m fun m' =>
          ∃ bs, bs.length = n ∧ m.Delivers 3 used (bs ++ [0]) m' := by
  refine ⟨_, _, rfl, List.nodup_singleton _, fun h hle hlength hW => ?_, fun hle hfits hW => ?_,
    fun n hapart hn hW => ?_⟩
  · have hbounds : first.toNat ≤ last.toNat ∧ last.toNat ≤ s.length ∧ last.toNat < 2 ^ 31 := by
      rw [BitVec.toInt_eq_toNat_cond] at h hle hlength
      rw [BitVec.toInt_eq_toNat_cond] at hle
      split at h <;> split at hle <;> omega
    obtain ⟨hle', hlength', hsmall⟩ := hbounds
    refine (executes_slice hx.hands hy hz (sliceLength_of_le h hle) (by omega) hW hused _).weaken ?_
    rintro m' ⟨bs, -, hdelivers, hbytes⟩
    rw [hbytes _ ?_ ?_ fun a ha => ?_] at hdelivers
    · exact hdelivers
    · rw [List.length_take, List.length_drop]
      omega
    · intro k b hb
      rw [List.getElem?_take, List.getElem?_drop] at hb
      split at hb
      · rw [← hx.string.bytes.left (first.toNat + k) b hb]
        congr 1
        bv_omega
      · cases hb
    · refine hx.inUse a (.inr ?_)
      unfold Span at ha ⊢
      bv_omega
  · refine (executes_slice hx.hands hy hz (sliceLength_of_ge hle hfits) (by decide) hW hused
      _).weaken ?_
    rintro m' ⟨bs, hlength, hdelivers, -⟩
    rwa [List.length_eq_zero_iff.1 hlength] at hdelivers
  · have hlength : (2 ^ 32 - (first.toInt - last.toInt)).toNat = n := by omega
    have hbound : n < 2 ^ 31 := by omega
    refine (executes_slice hx.hands hy hz (hlength ▸ sliceLength_of_farApart hapart)
      (by omega) hW hused _).weaken ?_
    rintro m' ⟨bs, hlength, hdelivers, -⟩
    exact ⟨bs, hlength, hdelivers⟩

end

/-- A machine with three arguments: the string "ab" at 7000, and two numbers. -/
def bounded (first last : BitVec 32) : Machine :=
  (twoStrings.store 3992#32 .dword first).store 3988#32 .dword last

theorem bounded_passes (first last : BitVec 32) :
    (bounded first last).Passes 3 (·.toNat < 9000) (Mem.dword ebp (-4)) [97, 98] ∧
      (bounded first last).Hands 3 (·.toNat < 9000) (Mem.dword ebp (-8)) first ∧
      (bounded first last).Hands 3 (·.toNat < 9000) (Mem.dword ebp (-12)) last ∧
      ∀ a, Span ((bounded first last).regs esp - 12) 12 a → a.toNat < 9000 := by
  have haddress (d : Int) :
      (bounded first last).address (Mem.dword ebp d) = 4000#32 + .ofInt 32 d :=
    congrArg (· + _) (BitVec.add_zero 4000#32)
  have hmem : ∀ x : BitVec 32, 3996 ≤ x.toNat → (bounded first last).mem x = twoStrings.mem x := by
    intro x hx
    refine (Machine.mem_store_of_not_span (w := .dword) _ _ fun h => ?_).trans
      (Machine.mem_store_of_not_span (w := .dword) _ _ fun h => ?_) <;>
      unfold Span Width.bytes at h <;> bv_omega
  have hapart : ∀ a n : BitVec 32, a.toNat + n.toNat ≤ 9000 → 3988 ≤ a.toNat → ∀ x,
      (x - a).toNat < n.toNat → x.toNat < 9000 ∧ ¬ (x - (3000#32 - 12#32)).toNat < 12 := by
    intro a n ha hlow x hx
    bv_omega
  have hpointer : (bounded first last).load 3996#32 .dword = 7000#32 := by
    have hsame : (bounded first last).load 3996#32 .dword = twoStrings.load 3996#32 .dword := by
      refine Machine.load_congr fun x hx => hmem x ?_
      have hspan : (x - 3996#32).toNat < 4 := hx
      bv_omega
    exact hsame.trans (by decide)
  have hfirst : (bounded first last).load 3992#32 .dword = first := by
    refine Eq.trans (Machine.load_store_of_apart _ _ fun x hx hx' => ?_)
      (twoStrings.load_store 3992#32 .dword first)
    unfold Span Width.bytes at hx hx'
    bv_omega
  have hlast : (bounded first last).load 3988#32 .dword = last :=
    Machine.load_store _ 3988#32 .dword last
  have hstring : (bounded first last).HasString 7000#32 [97, 98] := by
    refine ⟨fun k b hb => ?_, by decide⟩
    have hk : k < 3 := (List.getElem?_eq_some_iff.1 hb).1
    have hall : ∀ j < 3, [97#8, 98#8, 0#8][j]? = some (twoStrings.mem (7000#32 + .ofNat 32 j)) := by
      decide
    rw [hmem _ (by bv_omega)]
    exact Option.some.inj ((hall k hk).symm.trans hb)
  have h₄ : 4000#32 + .ofInt 32 (-4) = 3996#32 := by decide
  have h₈ : 4000#32 + .ofInt 32 (-8) = 3992#32 := by decide
  have h₁₂ : 4000#32 + .ofInt 32 (-12) = 3988#32 := by decide
  refine ⟨⟨rfl, rfl, rfl, ?_, ?_⟩, ⟨rfl, rfl, rfl, ?_, ?_⟩, ⟨rfl, rfl, rfl, ?_, ?_⟩, fun x hx => ?_⟩
  · rw [haddress, h₄, hpointer]
    exact hstring
  · rw [haddress, h₄, hpointer]
    rintro x (hx | hx)
    · exact hapart 3996#32 4#32 (by decide) (by decide) x hx
    · exact hapart 7000#32 3#32 (by decide) (by decide) x hx
  · rw [haddress, h₈, hfirst]
  · rw [haddress, h₈]
    exact hapart 3992#32 4#32 (by decide) (by decide)
  · rw [haddress, h₁₂, hlast]
  · rw [haddress, h₁₂]
    exact hapart 3988#32 4#32 (by decide) (by decide)
  · have hspan : (x - (3000#32 - 12#32)).toNat < 12 := hx
    bv_omega

/-- The part of "ab" from 1 to 2 is "b" in two bytes, and from 2 to 1 it is the empty string in one
byte. -/
theorem slice_takes_part_bounded : ∃ code code' σ σ' m₁ m₂,
    (Primitive.slice.body [Mem.dword ebp (-4), Mem.dword ebp (-8), Mem.dword ebp (-12)]).run
      (.empty, .empty) = .ok (code, σ) ∧
    code.Runs grantingWorld (0, bounded 1 2) (code.length, m₁) ∧
    m₁.HasBytes (m₁.regs eax) [98, 0] ∧ m₁.regs edx = 2 ∧
    (Primitive.slice.body [Mem.dword ebp (-4), Mem.dword ebp (-8), Mem.dword ebp (-12)]).run
      (.empty, .empty) = .ok (code', σ') ∧
    code'.Runs grantingWorld (0, bounded 2 1) (code'.length, m₂) ∧
    m₂.HasBytes (m₂.regs eax) [0] ∧ m₂.regs edx = 1 := by
  obtain ⟨hx, hy, hz, hused⟩ := bounded_passes 1 2
  obtain ⟨code, σ, hcode, hlabels, hpart, -, -⟩ :=
    slice_takes_part grantingWorld (·.toNat < 9000) _ (.empty, .empty) hx hy hz hused
  obtain ⟨m₁, hruns, h₁⟩ :=
    (hpart (by decide) (by decide) (by decide) (grantingWorld_maps (by decide))).runs hlabels
  obtain ⟨hx', hy', hz', hused'⟩ := bounded_passes 2 1
  obtain ⟨code', σ', hcode', hlabels', -, hempty, -⟩ :=
    slice_takes_part grantingWorld (·.toNat < 9000) _ (.empty, .empty) hx' hy' hz' hused'
  obtain ⟨m₂, hruns', h₂⟩ :=
    (hempty (by decide) (by decide) (grantingWorld_maps (by decide))).runs hlabels'
  exact ⟨code, code', σ, σ', m₁, m₂, hcode, hruns, h₁.bytes, h₁.size, hcode', hruns',
    h₂.bytes, h₂.size⟩

/-- From 1 to the least number there is no byte, but the operating system is asked for 2^31 bytes,
and that is the size given back. -/
theorem slice_clamp_fails_farApart : ∃ code σ m',
    (Primitive.slice.body [Mem.dword ebp (-4), Mem.dword ebp (-8), Mem.dword ebp (-12)]).run
      (.empty, .empty) = .ok (code, σ) ∧
    (bounded 1 0x80000000).Passes 3 (·.toNat < 9000) (Mem.dword ebp (-4)) [97, 98] ∧
    (bounded 1 0x80000000).Hands 3 (·.toNat < 9000) (Mem.dword ebp (-8)) 1 ∧
    (bounded 1 0x80000000).Hands 3 (·.toNat < 9000) (Mem.dword ebp (-12)) 0x80000000 ∧
    (0x80000000 : BitVec 32).toInt ≤ (1 : BitVec 32).toInt ∧
    (∀ n ≤ 2 ^ 31, grantingWorld.Maps (·.toNat < 9000) n) ∧
    code.Runs grantingWorld (0, bounded 1 0x80000000) (code.length, m') ∧ m'.regs edx = 0x80000000 ∧
    ∀ m'', code.Runs grantingWorld (0, bounded 1 0x80000000) (code.length, m'') →
      m''.regs edx ≠ 1 := by
  obtain ⟨hx, hy, hz, hused⟩ := bounded_passes 1 0x80000000
  obtain ⟨m', hruns, bs, hlength, hdelivers, -⟩ :=
    (executes_slice (n := 2 ^ 31 - 1) hx.hands hy hz (by decide) (by decide)
      (grantingWorld_maps (by decide)) hused (.fresh 0 "slice_counted")).runs
      (List.nodup_singleton _)
  have hedx : m'.regs edx = 0x80000000 := by
    rw [hdelivers.size, List.length_append, hlength]
    rfl
  refine ⟨_, _, m', rfl, hx, hy, hz, by decide, fun n hn => grantingWorld_maps hn, hruns, hedx,
    fun m'' hruns' => ?_⟩
  rw [← hruns.unique hruns', hedx]
  decide

end KuAsm
