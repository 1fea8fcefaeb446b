import KuAsm.Proofs.FunctionChart

/-!
# Charts of library functions

The functions of the library are written like all others; only their bodies are given as
instructions.  A body stays in the frame of its function from the first line to the last.  All it
takes from the frame are its arguments, and the slots that its result goes to.

## Main statements

* `Primitive.body_isLocal`: the instructions of a library function stay in one frame.
* `primitiveBody_isBody`: they are the body of a function.
-/

namespace KuAsm

open Asm Reg Lower

variable {args : List Mem} {s t : State}

/-- The code stays in the frame of a scope. -/
def Code.IsLocal (Γ : Ground) (k : ScopeId) (code : Code) : Prop :=
  ∀ J x base, Piece Γ J x base (.within k) code (.within k) [] []

/-- The operands are slots of the frame of a scope. -/
def Ground.Offers (Γ : Ground) (k : ScopeId) (args : List Mem) : Prop :=
  (Γ.tree.enclosing (some k))[0]? = some k ∧ ∀ a ∈ args, ∃ slot ∈ Γ.slots k,
    Mem.slot ebp slot = .ok a

namespace Code.IsLocal

variable {Γ : Ground} {k : ScopeId} {a b code : Code} {args : List Mem} {arg : Mem} {y : Line}

theorem append (ha : Code.IsLocal Γ k a) (hb : Code.IsLocal Γ k b) : Code.IsLocal Γ k (a ++ b) :=
  fun J x base => (ha J x base).append (hb J x _)

theorem steady (h : code.all Line.isSteady = true) : Code.IsLocal Γ k code :=
  fun _ _ _ => .steady h rfl

theorem keeps_read (hargs : Γ.Offers k args) (harg : arg ∈ args) (hkind : y.kind = .plain)
    (hmems : y.mems = [arg])
    (hlea : y.isLea = false) (hcall : ∀ entry, y ≠ Asm.call entry) {J : Label → Spot → Prop}
    {i : Nat} : y.Keeps Γ J (.within k) code i := by
  obtain ⟨slot, hslot, hm⟩ := hargs.2 arg harg
  refine .plain hkind hcall (.inl rfl) fun a ha hbase =>
    .inl ⟨k, slot, a, ?_, hslot, ?_, by rw [hlea]; rfl⟩
  · rw [hmems] at ha
    rw [List.mem_singleton.1 ha, Mem.base_of_slot hm]
    exact .inl ⟨rfl, hargs.1⟩
  · rw [hmems] at ha
    rw [List.mem_singleton.1 ha, Mem.base_of_slot hm]
    exact hm

/-- A line that reads an argument. -/
theorem read (hargs : Γ.Offers k args) (harg : arg ∈ args) (hkind : y.kind = .plain)
    (hmems : y.mems = [arg])
    (hlea : y.isLea = false) (hcall : ∀ entry, y ≠ Asm.call entry) : Code.IsLocal Γ k [y] :=
  fun _ _ _ =>
  .keeps fun _ z hz => by
    rw [List.mem_singleton.1 (List.mem_of_getElem? hz)]
    exact keeps_read hargs harg hkind hmems hlea hcall

/-- A system call behind a line that is no end of the process. -/
theorem trap (hy : ∀ {J code i}, y.Keeps Γ J (.within k) code i) (hbusy : y.isBusy = true) :
    Code.IsLocal Γ k [y, kernel] := fun _ _ _ => .keeps fun i z hz => by
  match i with
  | 0 =>
    cases hz
    exact hy
  | 1 =>
    cases hz
    exact .kernel rfl Nat.one_pos rfl hbusy
  | _ + 2 => cases hz

theorem measure (hargs : Γ.Offers k args) (harg : arg ∈ args)
    (h : Primitive.Body.lift (Primitive.measure arg) s = .ok code t) : Code.IsLocal Γ k code := by
  obtain ⟨top, u, -, h₁⟩ := Primitive.Body.lift_bind_eq_ok h
  obtain ⟨done, v, -, h₂⟩ := Primitive.Body.lift_bind_eq_ok h₁
  cases h₂
  refine fun J x base => .keeps fun i y hy => ?_
  match i with
  | 0 =>
    cases hy
    exact keeps_read hargs harg rfl rfl rfl (by rintro _ ⟨⟩)
  | 1 | 3 | 5 =>
    cases hy
    exact .steady rfl (.inl rfl)
  | 2 | 7 =>
    cases hy
    exact .label rfl
  | 4 =>
    cases hy
    exact .branch rfl (.inr (by simp))
  | 6 =>
    cases hy
    exact .jump rfl (.inr (by simp))
  | _ + 8 => cases hy

theorem map : Code.IsLocal Γ k Primitive.map := by
  have hfirst : Code.IsLocal Γ k [push ebp, mov eax (.imm Convention.sysMap), xor ebx ebx,
    mov edx (.imm Convention.protReadWrite), mov esi (.imm Convention.mapPrivateAnonymous),
    mov edi (.imm (-1))] := steady rfl
  have hlast : Code.IsLocal Γ k [pop ebp] := steady rfl
  exact (hfirst.append (trap (y := xor ebp ebp) (.steady rfl (.inl rfl)) rfl)).append hlast

end Code.IsLocal

namespace Primitive

theorem argument_eq_ok {index : Nat} {m : Mem} (h : Body.lift (argument args index) s = .ok m t) :
    m ∈ args ∧ t = s := by
  unfold argument at h
  cases hget : args[index]? with
  | none =>
    rw [hget] at h
    cases h
  | some m' =>
    rw [hget] at h
    cases h
    exact ⟨List.mem_of_getElem? hget, rfl⟩

/-- The instructions of a library function stay in one frame. -/
theorem body_isLocal (p : Primitive) {Γ : Ground} {k : ScopeId} (hargs : Γ.Offers k args)
    {code : Code} (h : Body.lift (p.body args) s = .ok code t) : Code.IsLocal Γ k code := by
  cases p with
  | len =>
    obtain ⟨a, _, ha, h₁⟩ := Body.lift_bind_eq_ok h
    exact .measure hargs (argument_eq_ok ha).1 h₁
  | append =>
    obtain ⟨a, _, ha, h₁⟩ := Body.lift_bind_eq_ok h
    obtain ⟨b, _, hb, h₂⟩ := Body.lift_bind_eq_ok h₁
    obtain ⟨first, _, hfirst, h₃⟩ := Body.lift_bind_eq_ok h₂
    obtain ⟨second, _, hsecond, h₄⟩ := Body.lift_bind_eq_ok h₃
    cases h₄
    have hcopied : ∀ {a : Mem} {n}, a ∈ args →
        Code.IsLocal Γ k ([mov esi a, mov ecx (Mem.dword esp n)] ++ copy) :=
      fun ha => (Code.IsLocal.read hargs ha rfl rfl rfl (by rintro _ ⟨⟩)).append (.steady rfl)
    have hall :=
      (((Code.IsLocal.measure hargs (argument_eq_ok ha).1 hfirst).append (b := [push eax])
        (.steady rfl)).append (.measure hargs (argument_eq_ok hb).1 hsecond)).append
      (b := [push eax, mov ecx (Mem.dword esp 0), add ecx (Mem.dword esp 4), inc ecx, push ecx])
      (.steady rfl)
    have hfilled := ((((hall.append .map).append (b := [mov edi eax]) (.steady rfl)).append
      (hcopied (n := 8) (argument_eq_ok ha).1)).append
      (hcopied (n := 4) (argument_eq_ok hb).1)).append
      (b := terminate ++ [pop edx, add esp 8]) (.steady rfl)
    simpa only [List.append_assoc, List.cons_append, List.nil_append] using hfilled
  | slice =>
    obtain ⟨a, _, ha, h₁⟩ := Body.lift_bind_eq_ok h
    obtain ⟨b, _, hb, h₂⟩ := Body.lift_bind_eq_ok h₁
    obtain ⟨c, _, hc, h₃⟩ := Body.lift_bind_eq_ok h₂
    obtain ⟨counted, _, -, h₄⟩ := Body.lift_bind_eq_ok h₃
    cases h₄
    have hcounted : Code.IsLocal Γ k [mov ecx c, sub ecx b, test ecx ecx, jcc .ge counted,
        xor ecx ecx, .label counted] := by
      refine fun J x base => .keeps fun i y hy => ?_
      match i with
      | 0 =>
        cases hy
        exact Code.IsLocal.keeps_read hargs (argument_eq_ok hc).1 rfl rfl rfl (by rintro _ ⟨⟩)
      | 1 =>
        cases hy
        exact Code.IsLocal.keeps_read hargs (argument_eq_ok hb).1 rfl rfl rfl (by rintro _ ⟨⟩)
      | 2 | 4 =>
        cases hy
        exact .steady rfl (.inl rfl)
      | 3 =>
        cases hy
        exact .branch rfl (.inr (by simp))
      | 5 =>
        cases hy
        exact .label rfl
      | _ + 6 => cases hy
    have hstart :=
      (Code.IsLocal.read (y := mov esi a) hargs (argument_eq_ok ha).1 rfl rfl rfl
        (by rintro _ ⟨⟩)).append
      (.read (y := add esi b) hargs (argument_eq_ok hb).1 rfl rfl rfl (by rintro _ ⟨⟩))
    have hall :=
      ((((hcounted.append (b := [push ecx, inc ecx, push ecx]) (.steady rfl)).append .map).append
        (b := [mov edi eax]) (.steady rfl)).append hstart).append
      (b := [mov ecx (Mem.dword esp 4)] ++ copy ++ terminate ++ [pop edx, add esp 4]) (.steady rfl)
    simpa only [List.append_assoc, List.cons_append, List.nil_append] using hall
  | syscall =>
    obtain ⟨a, _, ha, h₁⟩ := Body.lift_bind_eq_ok h
    obtain ⟨b, _, hb, h₂⟩ := Body.lift_bind_eq_ok h₁
    obtain ⟨c, _, hc, h₃⟩ := Body.lift_bind_eq_ok h₂
    obtain ⟨d, _, hd, h₄⟩ := Body.lift_bind_eq_ok h₃
    cases h₄
    exact (Code.IsLocal.read (y := mov eax a) hargs (argument_eq_ok ha).1 rfl rfl rfl
      (by rintro _ ⟨⟩)).append
      ((Code.IsLocal.read (y := mov ebx b) hargs (argument_eq_ok hb).1 rfl rfl rfl
        (by rintro _ ⟨⟩)).append
        ((Code.IsLocal.read (y := mov ecx c) hargs (argument_eq_ok hc).1 rfl rfl rfl
          (by rintro _ ⟨⟩)).append
          (.trap (Code.IsLocal.keeps_read hargs (argument_eq_ok hd).1 rfl rfl rfl (by rintro _ ⟨⟩))
            rfl)))
  | key =>
    cases h
    have hfirst : Code.IsLocal Γ k [push 0, mov eax (.imm Convention.sysRead), xor ebx ebx,
      mov ecx esp] := .steady rfl
    exact (hfirst.append (.trap (y := mov edx 1) (.steady rfl (.inl rfl)) rfl)).append
      (b := [pop eax]) (.steady rfl)
  | out =>
    obtain ⟨a, _, ha, h₁⟩ := Body.lift_bind_eq_ok h
    obtain ⟨newline, _, -, h₂⟩ := Body.lift_bind_eq_ok h₁
    obtain ⟨length, _, hlength, h₃⟩ := Body.lift_bind_eq_ok h₂
    cases h₃
    have hprint : Code.IsLocal Γ k [mov eax (.imm Convention.sysWrite), kernel] :=
      .trap (.steady rfl (.inl rfl)) rfl
    have htext :=
      ((Code.IsLocal.measure hargs (argument_eq_ok ha).1 hlength).append
        (b := [push eax, mov edx eax])
        (.steady rfl)).append (.read (y := mov ecx a) hargs (argument_eq_ok ha).1 rfl rfl rfl
          (by rintro _ ⟨⟩))
    have hall := ((((htext.append (b := [mov ebx 1]) (.steady rfl)).append hprint).append
      (b := [mov edx 1, mov ecx newline, mov ebx 1]) (.steady rfl)).append hprint).append
      (b := [pop eax, inc eax]) (.steady rfl)
    simpa only [List.append_assoc, List.cons_append, List.nil_append] using hall
  | dup =>
    obtain ⟨a, _, ha, h₁⟩ := Body.lift_bind_eq_ok h
    obtain ⟨length, _, hlength, h₂⟩ := Body.lift_bind_eq_ok h₁
    cases h₂
    have hall := (((((Code.IsLocal.measure hargs (argument_eq_ok ha).1 hlength).append
      (b := [mov ecx eax, inc ecx, push ecx]) (.steady rfl)).append .map).append
      (b := [mov edi eax]) (.steady rfl)).append
      (.read (y := mov esi a) hargs (argument_eq_ok ha).1 rfl rfl rfl (by rintro _ ⟨⟩))).append
      (b := [mov ecx (Mem.dword esp 0)] ++ copy ++ [pop edx]) (.steady rfl)
    simpa only [List.append_assoc, List.cons_append, List.nil_append] using hall

end Primitive

/-! ### Bodies -/

/-- The operands of parameters are slots of the current frame. -/
theorem paramOperands_offers {params : List Param} (h : paramOperands params s = .ok args t) :
    t = s ∧ ∀ a ∈ args, ∃ x ∈ s.here.slots, Mem.slot ebp x = .ok a := by
  obtain ⟨sc, u, hsc, h₁⟩ := bind_eq_ok.1 h
  obtain ⟨rfl, rfl⟩ := scope_eq_ok.1 hsc
  have hall : ∀ x ∈ params.filterMap fun p => u.here.getVariable? p.name,
      x.slot ∈ u.here.slots := by
    intro x hx
    obtain ⟨p, -, hp⟩ := List.mem_filterMap.1 hx
    exact Scope.mem_slots.2 (.inr (.inl ⟨x, List.mem_of_find?_eq_some hp, .inl rfl⟩))
  clear h
  generalize (params.filterMap fun p => u.here.getVariable? p.name) = xs at h₁ hall
  induction xs generalizing args with
  | nil =>
    obtain ⟨rfl, rfl⟩ := pure_eq_ok.1 h₁
    exact ⟨rfl, fun a ha => nomatch ha⟩
  | cons x xs ih =>
    rw [List.mapM_cons] at h₁
    obtain ⟨m, v, hm, h₂⟩ := bind_eq_ok.1 h₁
    obtain ⟨hslot, rfl⟩ := frameSlot_eq_ok.1 hm
    obtain ⟨ms, w, hms, h₃⟩ := bind_eq_ok.1 h₂
    obtain ⟨rfl, rfl⟩ := pure_eq_ok.1 h₃
    obtain ⟨rfl, hmems⟩ := ih hms fun y hy => hall y (List.mem_cons_of_mem _ hy)
    refine ⟨rfl, fun a ha => ?_⟩
    rcases List.mem_cons.1 ha with rfl | ha
    · exact ⟨x.slot, hall x List.mem_cons_self, hslot⟩
    · exact hmems a ha

/-- The instructions of a library function are the body of a function. -/
theorem primitiveBody_isBody (p : Primitive) :
    Lower.IsBody (primitiveBody p) False (fun _ => []) fun _ => [] := by
  intro F s m a t hs _ _ hfunction h
  rw [primitiveBody_eq] at h
  obtain ⟨args, w, hargs, h₁⟩ := bind_eq_ok.1 h
  obtain ⟨rfl, hoffers⟩ := paramOperands_offers hargs
  obtain ⟨code, v, hcode, h₂⟩ := bind_eq_ok.1 h₁
  obtain ⟨result, x, hresult, h₃⟩ := bind_eq_ok.1 h₂
  obtain rfl := emit_eq_ok.1 h₃
  obtain ⟨y, hy, hrun⟩ := p.body_isModest args
  have hq := IsQuiet.law.modest hy _ _ _ hs.formed (hrun _ _ _ hcode)
  have htree : v.tree = w.tree := by
    unfold Primitive.Body.lift at hcode
    split at hcode
    · cases hcode
      rfl
    · cases hcode
  obtain ⟨rfl, hput⟩ := resultCode_isValue hresult
  have hs₁ : Settles F w F x := .congr hs htree hq.current hq.root hq.target hq.labels
  have hs₂ := Settles.wrote hs₁.laid (code ++ result)
  rw [stashed_nil, growSlots_nil]
  refine ⟨hs₁.trans hs₂, fun Γ hΓ J _ => ?_⟩
  have hΓs := hΓ.back hs (hs₁.trans hs₂)
  have hlocal : Code.IsLocal Γ w.current code :=
    p.body_isLocal ⟨hΓs.here_enclosing, fun a ha => ?_⟩ hcode
  · have hslots : m.result ∈ Γ.slots w.current ∧ m.resultSize ∈ Γ.slots w.current :=
      ⟨hΓs.slot hs.current_lt (Scope.mem_slots.2 (.inl ⟨m, hfunction, .inl rfl⟩)),
        hΓs.slot hs.current_lt (Scope.mem_slots.2 (.inl ⟨m, hfunction, .inr rfl⟩))⟩
    have hresult' : ValuePiece Γ w result fun _ => [] :=
      (ValuePiece.congr hq hs.target).1
        (hput Γ w.current (hq.current ▸ hΓs.here_enclosing) hslots.1 hslots.2)
    have hvalue : ValuePiece Γ w code fun _ => [] := fun J ahead => hlocal J _ _
    exact Emits.value (.quiet hq) hs.target (hvalue.snoc hresult') nofun
  · obtain ⟨slot, hslot, hm⟩ := hoffers a ha
    exact ⟨slot, hΓs.slot hs.current_lt hslot, hm⟩

end KuAsm
