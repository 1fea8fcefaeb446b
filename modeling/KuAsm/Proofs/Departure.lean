import KuAsm.Proofs.Closure
import KuAsm.Proofs.Reckoning
import KuAsm.Proofs.Onward
import KuAsm.Proofs.Sweep

/-!
# Exits from loops and functions

An exit leaves frames from the innermost outwards.  Leaving a loop also leaves the frame of the
round, going on with the next round stays in it, and a return stays in the frame of the function,
which is swept but not left.

A string that is returned must not be released on the way.  Whether it is copied and which id is
kept depends on what its value carries.

## Main definitions

* `HandsOver`: the lines that make a string ready to be returned, and the id that is kept.
* `StoresResult`: the lines that put a value where the end of the function finds it.

## Main statements

* `exits_sweep_what_they_leave`: every exit sweeps the frames that it leaves, and no others.
* `returned_string_is_kept`: a string that is returned reaches the caller as a heap value of its
  own, and everything else that is pending on the way is released once.
-/

namespace KuAsm

open Asm Reg Lower

variable {code : Code} {m : FunctionExit} {es : List (ReclaimId × Staged)}
  {keep spent : List ReclaimId}
  {is : List ScopeId} {v : Lowered} {base : Nat} {r : Resolved} {t : ScopeTree} {s : State}

/-! ### Scopes on the way out -/

theorem Kept.inOrder (h : Kept base spent s) (hspaced : s.tree.Spaced) {i : ScopeId}
    (hi : i < s.tree.size) (his : ∀ j ∈ is, j ∈ s.tree.path i) : s.tree.InOrder is := by
  intro j hj
  have hmem := s.tree.scope_mem (h.formed.ordered.lt_size_of_mem_path hi (his j hj))
  exact ⟨hspaced.settled hmem, h.held_le_one hmem⟩

theorem Kept.inOrder_self (h : Kept base spent s) (hspaced : s.tree.Spaced) {i : ScopeId}
    (hi : i < s.tree.size) : s.tree.InOrder [i] := by
  refine h.inOrder hspaced hi fun j hj => ?_
  rw [List.mem_singleton.1 hj]
  exact h.formed.ordered.mem_path_self hi

theorem State.Quiet.path {t : State} (h : s.Quiet t) (hs : s.Formed) :
    t.tree.path t.current = s.tree.path s.current := by
  rw [h.current]
  exact hs.ordered.path_congr (h.formed hs).ordered s.current hs.current_lt
    (by rw [h.size]; exact hs.current_lt) fun j _ => (h.sameNames j).parent

theorem ScopeTree.chain_eq {start i : ScopeId} {depth : Nat} (h : (t.path start)[depth]? = some i) :
    t.chain start depth = (t.path start).take depth ++ [i] := by
  unfold ScopeTree.chain
  rw [List.take_add_one, h]
  rfl

/-- Scopes that have the same to release are swept alike. -/
theorem Unwinds.congr {u : ScopeTree} (h : Unwinds t keep is es code)
    (hdues : ∀ i ∈ is, (u.scope i).dues = (t.scope i).dues) : Unwinds u keep is es code := by
  induction h with
  | nil => exact .nil
  | cons hsweep _ ih =>
    exact .cons (hsweep.congr (hdues _ List.mem_cons_self))
      (ih fun i hi => hdues i (List.mem_cons_of_mem _ hi))

/-- What is released on the way out is what the scopes on the way have to release. -/
theorem Unwinds.perm (h : Unwinds t keep is es code) :
    es.Perm ((is.flatMap fun i => (t.scope i).dues).filter fun x => !keep.contains x.1) := by
  induction h with
  | nil => exact .refl _
  | cons hsweep _ ih =>
    rw [List.flatMap_cons, List.filter_append]
    exact hsweep.perm.append ih

/-- No two scopes hold the same id. -/
theorem Kept.held_add_le_one (h : Kept base spent s) {i j : Nat} (hi : i < s.tree.size)
    (hj : j < s.tree.size) (hne : j ≠ i) (id : ReclaimId) :
    (s.tree.scope i).held id + (s.tree.scope j).held id ≤ 1 := by
  -- emptying the first scope leaves the second one as it is
  have hformed : State.Formed { s with current := i } := ⟨h.formed.ordered, hi, h.formed.root_eq⟩
  have hempty := State.held_withScope hformed (Scope.fresh none default) id
  have hmem : s.tree.scope j ∈
      (State.withScope { s with current := i } (Scope.fresh none default)).tree.scopes := by
    have hself : (State.withScope { s with current := i } (Scope.fresh none default)).tree.scope j =
        s.tree.scope j := State.scope_withScope_of_ne _ hne
    rw [← hself]
    refine ScopeTree.scope_mem _ ?_
    show j < (s.tree.set i _).size
    rw [ScopeTree.size_set]
    exact hj
  have hle := State.held_le_of_mem hmem id
  have hcons := h.conserved_le_one id
  have hzero : (Scope.fresh none default).held id = 0 := rfl
  change _ + (s.tree.scope i).held id = s.held id + _ at hempty
  omega

/-- No id is pending twice in different scopes, or twice in one. -/
theorem Kept.nodup_dues (h : Kept base spent s) (hspaced : s.tree.Spaced) (his : is.Nodup)
    (hlt : ∀ i ∈ is, i < s.tree.size) :
    ((is.flatMap fun i => (s.tree.scope i).dues).map (·.1)).Nodup := by
  have hcount :
      ∀ i ∈ is, ∀ id, ((s.tree.scope i).dues.map (·.1)).count id = (s.tree.scope i).held id :=
    fun i hi => Scope.count_dues (hspaced.settled (s.tree.scope_mem (hlt i hi)))
  rw [List.map_flatMap, List.nodup_flatMap]
  refine ⟨fun i hi => ?_, ?_⟩
  · rw [List.nodup_iff_count_le_one]
    intro id
    rw [hcount i hi]
    exact h.held_le_one (s.tree.scope_mem (hlt i hi)) id
  · refine his.imp_of_mem fun {i j} hi hj hne id hidi hidj => ?_
    have hle := h.held_add_le_one (hlt i hi) (hlt j hj) (Ne.symm hne) id
    rw [← hcount i hi, ← hcount j hj] at hle
    have hposi : 0 < ((s.tree.scope i).dues.map (·.1)).count id := List.count_pos_iff.2 hidi
    have hposj : 0 < ((s.tree.scope j).dues.map (·.1)).count id := List.count_pos_iff.2 hidj
    omega

/-! ### Exits from loops -/

/-- What leaving frames from `s` writes before the jump at its end. -/
theorem unwind_ends (hs : Kept base spent s) (hspaced : s.tree.Spaced) (frames : Nat)
    (keep : List ReclaimId) (target : Label) :
    (unwind frames keep >>= fun _ => emit [jmp target]).Ends s
      (s.tree.Vast ((s.tree.path s.current).take frames)) fun _ t => ∃ es code session,
        Unwinds s.tree keep ((s.tree.path s.current).take frames) es code ∧
        t = ({ s with session } : State).wrote (code ++ [jmp target]) := by
  have horder : s.tree.InOrder ((s.tree.path s.current).take frames) :=
    hs.inOrder hspaced hs.formed.current_lt fun j hj => List.mem_of_mem_take hj
  refine .bind (.after (x := get) rfl (exitFrames_ends keep _ s horder)) ?_
  rintro - t ⟨es, code, session, hcode, rfl⟩
  exact .of_eq_ok rfl ⟨es, code, session, hcode, State.wrote_wrote _ _ _⟩

theorem leaveLoop_ends (hs : Kept base spent s) (hspaced : s.tree.Spaced) {m : LoopExit}
    (hm : s.tree.lookupLoop s.current = some (r, m)) (l : Location) :
    (leaveLoop l).Ends s (s.tree.Vast ((s.tree.path s.current).take (r.depth + 1))) fun _ t =>
      ∃ es code session, Unwinds s.tree [] ((s.tree.path s.current).take (r.depth + 1)) es code ∧
        t = ({ s with session } : State).wrote (code ++ [jmp m.exit]) :=
  .after (enclosingLoop_eq_ok.2 ⟨hm, rfl⟩) (unwind_ends hs hspaced _ _ _)

theorem nextRound_ends (hs : Kept base spent s) (hspaced : s.tree.Spaced) {m : LoopExit}
    (hm : s.tree.lookupLoop s.current = some (r, m)) (l : Location) :
    (nextRound l).Ends s (s.tree.Vast ((s.tree.path s.current).take r.depth)) fun _ t =>
      ∃ es code session, Unwinds s.tree [] ((s.tree.path s.current).take r.depth) es code ∧
        t = ({ s with session } : State).wrote (code ++ [jmp m.next]) :=
  .after (enclosingLoop_eq_ok.2 ⟨hm, rfl⟩) (unwind_ends hs hspaced _ _ _)

/-! ### Ends of blocks and of the program -/

/-- The size of a frame can be written down unless it does not fit into 32 bits. -/
theorem defineFrameSize_ends (s : State) (i : ScopeId) :
    (defineFrameSize i).Ends s (wordCount ≤ (s.tree.scope i).used + 3) fun _ t => ∃ bytes,
      (s.tree.scope i).frameBytes = .ok bytes ∧
      t = s.wrote [.constant (s.tree.scope i).frameSize bytes] := by
  refine .after (x := get) rfl
    (.bind (Q := fun bytes t => (s.tree.scope i).frameBytes = .ok bytes ∧ t = s) ?_ ?_)
  · unfold Scope.frameBytes
    dsimp only
    split
    next h => exact Nat.le_trans h (Nat.div_mul_le_self _ 4)
    next => exact .of_eq_ok rfl ⟨rfl, rfl⟩
  · rintro bytes t ⟨hbytes, rfl⟩
    exact .of_eq_ok rfl ⟨bytes, hbytes, rfl⟩

/-- A block whose end can be reached is swept and left there. -/
theorem closeBlock_ends (hs : Kept base spent s) (hspaced : s.tree.Spaced) :
    (closeBlock true).Ends s (s.tree.Vast [s.current] ∨ wordCount ≤ s.here.used + 3) fun _ t =>
      ∃ es code bytes, Sweeps s.here [] es code ∧ s.here.frameBytes = .ok bytes ∧
        t.listing = s.listing.append s.target
        (code ++ [bare .leave, .constant s.here.frameSize bytes]) := by
  have hleave := exitFrame_ends (hs.inOrder_self hspaced hs.formed.current_lt) []
  refine .after (x := get) rfl (.bind (hleave.mono .inl fun _ _ h => h) ?_)
  rintro - t ⟨es, code, session, hcode, rfl⟩
  refine .bind ((defineFrameSize_ends _ _).mono .inr fun _ _ h => h) ?_
  rintro - t ⟨bytes, hbytes, rfl⟩
  refine .of_eq_ok rfl ⟨es, code, bytes, hcode, hbytes, ?_⟩
  rw [State.wrote_wrote, List.append_assoc]
  rfl

/-- The main program sweeps and leaves the outermost frame before the process ends. -/
theorem closeProgram_ends (hs : Kept base spent s) (hspaced : s.tree.Spaced) :
    (closeProgram false).Ends s (s.tree.Vast [s.root] ∨ wordCount ≤ (s.tree.scope s.root).used + 3)
    fun _ t =>
      ∃ es code bytes, Sweeps (s.tree.scope s.root) [] es code ∧ (s.tree.scope s.root).frameBytes =
        .ok bytes ∧ t.listing = s.listing.append s.target
          (code ++ [bare .leave, mov eax (.imm Convention.sysExit), xor ebx ebx,
            kernel, .constant (s.tree.scope s.root).frameSize bytes]) := by
  have hleave := exitFrame_ends (hs.inOrder_self hspaced hs.formed.root_lt) []
  refine .after (x := get) rfl (.bind (hleave.mono .inl fun _ _ h => h) ?_)
  rintro - t ⟨es, code, session, hcode, rfl⟩
  refine .after (a := ()) (emit_eq_ok.2 rfl)
    (.bind ((defineFrameSize_ends _ _).mono .inr fun _ _ h => h) ?_)
  rintro - t ⟨bytes, hbytes, rfl⟩
  refine .of_eq_ok rfl ⟨es, code, bytes, hcode, hbytes, ?_⟩
  show State.listing
    (((({ s with session } : State).wrote (code ++ [bare .leave])).wrote _).wrote _) = _
  rw [State.wrote_wrote, State.wrote_wrote, List.append_assoc]
  rfl

/-! ### Returned values -/

/-- The lines that copy the string in `eax`: it is put into a new slot of the current frame, and the
function of the library that copies strings is called with it. -/
structure Copies (s : State) (code : Code) : Prop where
  exists_call : ∃ f a note call, (s.tree.scope s.root).getFunction? "dup" = some f ∧
    Mem.slot ebp ⟨s.here.used, 4⟩ = .ok a ∧ Code.IsNote note ∧
    Convention.call [⟨s.here.used, 4⟩] (s.tree.depthToRoot s.current) f.entry = .ok call ∧
    code = [mov a eax] ++ note ++ call

/-- How a string is made ready to be returned through the scopes of `chain`, given what it carries:
the ids that are kept, and the lines behind its code.

* A new value is returned as it is, and its id is kept.
* The id of a variable of these scopes is kept too.  The value is copied if its size in `edx` is
  zero.
* Anything else is copied, and nothing is kept. -/
inductive HandsOver (s : State) (chain : List ScopeId) : Ownership → List ReclaimId → Code → Prop
  | fresh (id : ReclaimId) : HandsOver s chain (.fresh id) [id] []
  | owned {id : ReclaimId} {i : ScopeId} {code : Code} (skip : Label) : i ∈ chain →
    (s.tree.scope i).owns id = true → Copies s code →
    HandsOver s chain (.borrowed id) [id] ([test edx edx, jcc .nz skip] ++ (code ++ [.label skip]))
  | other {o : Ownership} {code : Code} (skip : Label) : (∀ id, o ≠ .fresh id) →
    (∀ id, o = .borrowed id → ∀ i ∈ chain, (s.tree.scope i).owns id = false) → Copies s code →
    HandsOver s chain o [] (code ++ [.label skip])

/-- The lines that put the value in `eax`, and for a string the size in `edx`, where the end of the
function finds them, `depth` frames outwards. -/
structure StoresResult (depth : Nat) (m : FunctionExit) (code : Code) : Prop where
  exists_mov : ∃ a, Mem.slot (Convention.chase depth).2 m.result = .ok a ∧
    if m.ret.isHeap then ∃ z, Mem.slot (Convention.chase depth).2 m.resultSize = .ok z ∧
      code = (Convention.chase depth).1 ++ [mov a eax, mov z edx]
    else code = (Convention.chase depth).1 ++ [mov a eax]

theorem reserve_ends (s : State) : (reserve 4).Ends s (halfCount ≤ s.here.used + 4) fun slot t =>
    slot = ⟨s.here.used, 4⟩ ∧ t = s.withScope { s.here with used := s.here.used + 4 } := by
  by_cases hlt : wordCount ≤ s.here.used + 4
  · unfold Ends
    rw [reserve_apply, if_pos hlt]
    exact Nat.le_trans (by decide) hlt
  · exact .of_eq_ok (reserve_eq_ok.2 ⟨Nat.lt_of_not_le hlt, rfl, rfl⟩) ⟨rfl, rfl⟩

theorem call_ends (s : State) (x : Slot) (depth : Nat) (entry : Label) (hx : x.size = 4) :
    (checked (Convention.call [x] depth entry)).Ends s (halfCount ≤ x.bound) fun code t =>
      Convention.call [x] depth entry = .ok code ∧ t = s := by
  have hslot := Ends.checkedSlot (s := s) ebp x
  obtain ⟨offset, size⟩ := x
  obtain rfl : size = 4 := hx
  unfold Convention.call Convention.pushArguments
  cases hm : Mem.slot ebp ⟨offset, 4⟩ with
  | error f =>
    rw [hm] at hslot
    simp only [List.reverse_singleton, List.mapM_cons, show Convention.argBytes = 4 from rfl, hm]
    exact hslot
  | ok m =>
    simp only [List.reverse_singleton, List.mapM_cons, show Convention.argBytes = 4 from rfl, hm]
    exact .of_eq_ok rfl ⟨rfl, rfl⟩

/-- The path ends at the outermost scope, wherever it was measured. -/
theorem State.Quiet.depthToRoot {t : State} (h : s.Quiet t) (hs : s.Formed) :
    t.tree.depthToRoot t.current = s.tree.depthToRoot s.current := by
  have ht := (h.formed hs).ordered.getElem?_path_depthToRoot (h.formed hs).current_lt
  rw [h.path hs] at ht
  have hnodup := hs.ordered.nodup_path _ hs.current_lt
  exact (List.getElem?_inj (List.getElem?_eq_some_iff.1 ht).1 hnodup).1
    (ht.trans (hs.ordered.getElem?_path_depthToRoot hs.current_lt).symm)

theorem State.dues_reserved (hs : s.Formed) (used : Nat) (i : Nat) :
    ((s.withScope { s.here with used }).tree.scope i).dues = (s.tree.scope i).dues := by
  by_cases hi : i = s.current
  · subst hi
    show (s.withScope { s.here with used }).here.dues = _
    rw [State.here_withScope hs]
    rfl
  · rw [State.scope_withScope_of_ne _ hi]

/-- Copying the string in `eax` before it is returned reserves a slot of the current frame, and
leaves what has to be released as it is. -/
theorem copied_ends (hs : s.Formed) (hequipped : s.Equipped) (v : Lowered) (copying : Copying)
    (hcopying : copying ≠ .never) :
    (ownedResult v copying).Ends s (halfCount ≤ s.here.used + 4) fun code t =>
      (∃ copy skip, Copies s copy ∧
        code = v.code ++ ((if copying = .ifBorrowed then [test edx edx, jcc .nz skip] else []) ++
          (copy ++ [.label skip]))) ∧
      t.listing = s.listing ∧ ∀ i : Nat, (t.tree.scope i).dues = (s.tree.scope i).dues := by
  obtain ⟨f, hf, -, -⟩ := hequipped .dup
  unfold ownedResult
  rw [if_neg hcopying]
  refine .after (libraryFunction?_eq_ok.2 ⟨rfl, rfl⟩) ?_
  rw [show (s.tree.scope s.root).getFunction? "dup" = some f from hf]
  refine .after (mintLabel_eq_ok.2 ⟨rfl, rfl⟩) (.bind (reserve_ends _) ?_)
  rintro slot u ⟨rfl, rfl⟩
  refine .bind (Ends.checkedSlot _ _) ?_
  rintro a u ⟨ha, rfl⟩
  refine .bind (.remark _) ?_
  rintro note u ⟨hnote, rfl⟩
  refine .after (depthToRoot_eq_ok.2 ⟨rfl, rfl⟩) ?_
  refine .bind (call_ends _ _ _ _ rfl) ?_
  rintro call u ⟨hcall, rfl⟩
  have hquiet : s.Quiet (s.withScope { s.here with used := s.here.used + 4 }) :=
    .withScope hs ⟨rfl, rfl, rfl, rfl, rfl, rfl⟩ (Nat.le_add_right _ _)
  have hcall := (congrArg (Convention.call _ · _) (hquiet.depthToRoot hs)).symm.trans hcall
  refine .of_eq_ok rfl ⟨⟨[mov a eax] ++ note ++ call, .fresh s.session.nextLabel "owned",
    ⟨f, a, note, call, hf, ha, hnote, hcall, rfl⟩, ?_⟩, rfl, State.dues_reserved hs _⟩
  simp only [List.append_assoc]

/-- Which ids are kept and what is copied follows what the value carries. -/
theorem ownedResult_ends (hs : s.Formed) (hequipped : s.Equipped) (v : Lowered)
    (chain : List ScopeId) :
    (ownedResult v (returnPlan s.tree chain v.ownership).1).Ends s (halfCount ≤ s.here.used + 4)
    fun code t =>
      (∃ copy, HandsOver s chain v.ownership (returnPlan s.tree chain v.ownership).2 copy ∧
        code = v.code ++ copy) ∧
      t.listing = s.listing ∧ ∀ i : Nat, (t.tree.scope i).dues = (s.tree.scope i).dues := by
  cases ho : v.ownership with
  | fresh id => exact .of_eq_ok rfl ⟨⟨[], .fresh id, (List.append_nil _).symm⟩, rfl, fun _ => rfl⟩
  | plain =>
    refine (copied_ends hs hequipped v .always nofun).mono (fun h => h) ?_
    rintro code t ⟨⟨copy, skip, hcopy, rfl⟩, hrest⟩
    exact ⟨⟨_, .other skip nofun nofun hcopy, rfl⟩, hrest⟩
  | borrowed id =>
    rw [show returnPlan s.tree chain (.borrowed id) =
      if chain.any fun i => (s.tree.scope i).owns id then (.ifBorrowed, [id]) else (.always, [])
      from rfl]
    by_cases howns : (chain.any fun i => (s.tree.scope i).owns id) = true
    · rw [if_pos howns]
      refine (copied_ends hs hequipped v .ifBorrowed nofun).mono (fun h => h) ?_
      rintro code t ⟨⟨copy, skip, hcopy, rfl⟩, hrest⟩
      obtain ⟨i, hi, hid⟩ := List.any_eq_true.1 howns
      exact ⟨⟨_, .owned skip hi hid hcopy, rfl⟩, hrest⟩
    · rw [if_neg howns]
      refine (copied_ends hs hequipped v .always nofun).mono (fun h => h) ?_
      rintro code t ⟨⟨copy, skip, hcopy, rfl⟩, hrest⟩
      refine ⟨⟨_, .other skip nofun ?_ hcopy, rfl⟩, hrest⟩
      rintro _ ⟨⟩ i hi
      exact Bool.eq_false_iff.2 fun hid => howns (List.any_eq_true.2 ⟨i, hi, hid⟩)

theorem resultCode_ends (s : State) (depth : Nat) (m : FunctionExit) :
    (resultCode depth m).Ends s (halfCount ≤ m.result.bound ∨ halfCount ≤ m.resultSize.bound)
    fun code t =>
      StoresResult depth m code ∧ t = s := by
  unfold resultCode
  refine .bind ((Ends.checkedSlot _ _).mono .inl fun _ _ h => h) ?_
  rintro a t ⟨ha, rfl⟩
  by_cases hheap : m.ret.isHeap = true
  · rw [if_pos hheap]
    refine .bind ((Ends.checkedSlot _ _).mono .inr fun _ _ h => h) ?_
    rintro z t ⟨hz, rfl⟩
    refine .of_eq_ok rfl ⟨⟨a, ha, ?_⟩, rfl⟩
    rw [if_pos hheap]
    exact ⟨z, hz, rfl⟩
  · rw [if_neg hheap]
    refine .of_eq_ok rfl ⟨⟨a, ha, ?_⟩, rfl⟩
    rw [if_neg hheap]
    rfl

/-! ### Returns -/

/-- The lines of a return from `s`, where `value` computes what is returned and `copy` makes it
ready.  The result is stored first.  Then the scopes inside the function are swept and left, and the
scope of the function is swept.  All that is released on the way is `es`. -/
inductive Returns (s : State) (r : Resolved) (m : FunctionExit) (value copy : Code)
    (keep : List ReclaimId) : List (ReclaimId × Staged) → Code → Prop
  | mk {result inner last es fs} : StoresResult r.depth m result →
    Unwinds s.tree keep ((s.tree.path s.current).take r.depth) es inner →
    Sweeps (s.tree.scope r.scope) keep fs last →
    Returns s r m value copy keep (es ++ fs)
      (value ++ copy ++ result ++ inner ++ last ++ [jmp m.returnLabel])

/-- A return from `s` uses a slot that ends 2^31 bytes or more from the frame pointer. -/
def State.Overflows (s : State) (r : Resolved) (m : FunctionExit) : Prop :=
  halfCount ≤ s.here.used + 4 ∨ (halfCount ≤ m.result.bound ∨ halfCount ≤ m.resultSize.bound) ∨
    s.tree.Vast (s.tree.chain s.current r.depth)

theorem ScopeTree.Vast.of_dues {u : ScopeTree} {js : List ScopeId} (h : t.Vast is)
    (hdues : ∀ i : Nat, (t.scope i).dues = (u.scope i).dues) (hsub : is ⊆ js) : u.Vast js := by
  obtain ⟨i, hi, e, he, hvast⟩ := h
  exact ⟨i, hsub hi, e, hdues i ▸ he, hvast⟩

/-- What a return writes once its value is known. -/
theorem leaveFunction_ends {u : State} {l : Location} {value : ScalarType → Lower Lowered}
    (hm : s.tree.lookupFunctionExit s.current = some (r, m)) (hv : value m.ret s = .ok v u)
    (hquiet : s.Quiet u) (hs : s.Formed) (hkept : Kept base spent u) (hspaced : u.tree.Spaced)
    (hequipped : u.Equipped) :
    (leaveFunction l value).Ends s (u.Overflows r m) fun _ t => ∃ keep copy es code,
      (if m.ret.isHeap then HandsOver u (u.tree.chain u.current r.depth) v.ownership keep copy
        else keep = [] ∧ copy = []) ∧
      Returns u r m v.code copy keep es code ∧ t.listing = u.listing.append u.target code := by
  have hu := hkept.formed
  unfold leaveFunction
  refine .after (x := get) rfl ?_
  rw [hm]
  refine .after hv (.after (x := get) rfl ?_)
  -- the value is made ready
  obtain ⟨plan, hplan⟩ : ∃ plan, plan = if m.ret.isHeap = true then
      returnPlan u.tree (u.tree.chain u.current r.depth) v.ownership else (Copying.never, []) :=
        ⟨_, rfl⟩
  rw [← hplan]
  have hready : (ownedResult v plan.1).Ends u (u.Overflows r m) fun code w =>
      (∃ copy, (if m.ret.isHeap then HandsOver u (u.tree.chain u.current r.depth) v.ownership plan.2
        copy else plan.2 = [] ∧ copy = []) ∧ code = v.code ++ copy) ∧
      w.listing = u.listing ∧ ∀ i : Nat, (w.tree.scope i).dues = (u.tree.scope i).dues := by
    by_cases hheap : m.ret.isHeap = true
    · simp only [if_pos hheap] at hplan ⊢
      rw [hplan]
      exact (ownedResult_ends hu hequipped v _).mono .inl fun _ _ h => h
    · simp only [if_neg hheap] at hplan ⊢
      rw [hplan]
      exact .of_eq_ok rfl ⟨⟨[], ⟨rfl, rfl⟩, (List.append_nil _).symm⟩, rfl, fun _ => rfl⟩
  have hafter : ∀ code w, ownedResult v plan.1 u = .ok code w → u.Quiet w ∧ Kept base spent w :=
    fun code w hrun => ⟨IsQuiet.law.ownedResult v plan.1 u code w hu hrun,
      (IsThrifty.law.ownedResult v plan.1).kept hkept hrun⟩
  refine .bind (hready.conj hafter) ?_
  rintro code w ⟨⟨⟨copy, hcopy, rfl⟩, hlisting, hdues⟩, hquietw, hkeptw⟩
  -- the result is stored
  refine .bind ((resultCode_ends w r.depth m).mono (fun h => .inr (.inl h)) fun _ _ h => h) ?_
  rintro result w ⟨hresult, rfl⟩
  refine .after (a := ()) rfl ?_
  -- the frames are left
  have hpath : w.tree.path w.current = u.tree.path u.current := hquietw.path hu
  have hfound := (ScopeTree.lookupFunctionExit_eq_some hm).1
  rw [← hquiet.path hs] at hfound
  have hchain := ScopeTree.chain_eq hfound
  have hspacedw := (hquietw.grows hu).onward.spaced hspaced
  have hinner : w.tree.InOrder ((w.tree.path w.current).take r.depth) :=
    hkeptw.inOrder hspacedw hkeptw.formed.current_lt fun j hj => List.mem_of_mem_take hj
  have hlast : w.tree.InOrder [r.scope] := by
    refine hkeptw.inOrder hspacedw hkeptw.formed.current_lt fun j hj => ?_
    rw [List.mem_singleton.1 hj, hpath]
    exact List.mem_of_getElem? hfound
  refine .bind (.after (x := get) rfl ((exitFrames_ends plan.2 _ (w.wrote _) hinner).mono
    (fun h => .inr (.inr (h.of_dues hdues ?_))) fun _ _ h => h)) ?_
  · rw [hchain, hpath]
    exact List.subset_append_left _ _
  rintro - x ⟨es, inner, session, hinnerCode, hx⟩
  have htree : x.tree = w.tree := by rw [hx]; rfl
  refine .bind ((sweep_ends (htree.symm ▸ hlast) plan.2).mono (fun h => .inr (.inr ?_))
    fun _ _ h => h) ?_
  · rw [htree] at h
    refine h.of_dues hdues ?_
    rw [hchain]
    exact List.subset_append_right _ _
  rintro - _ ⟨fs, last, session', hlastCode, rfl⟩
  rw [htree] at hlastCode
  have hunwinds : Unwinds u.tree plan.2 ((u.tree.path u.current).take r.depth) es inner :=
    (hpath ▸ hinnerCode : Unwinds w.tree _ _ es inner).congr fun i _ => (hdues i).symm
  refine .of_eq_ok rfl ⟨plan.2, copy, es ++ fs, _, hcopy,
    .mk hresult hunwinds (hlastCode.congr (hdues _).symm), ?_⟩
  show (x.listing.append x.target last).append x.target _ = _
  rw [hx]
  show (((w.listing.append w.target _).append w.target inner).append w.target last).append
    w.target _ = _
  rw [hlisting, hquietw.target]
  simp only [Listing.append_append, List.append_assoc]

/-! ### Counting calls of the operating system -/

theorem Unwinds.count_kernel (h : Unwinds t keep is es code) : code.count kernel = es.length := by
  induction h with
  | nil => rfl
  | cons hsweep _ ih =>
    rw [List.count_append, List.count_append, hsweep.releases.count_kernel, ih, List.length_append]
    rfl

theorem Copies.shows (h : Copies s code) : code.Shows .system 0 := by
  obtain ⟨f, a, note, call, -, -, hnote, hcall, rfl⟩ := h.exists_call
  have hmov : Code.Shows .system [mov a eax] 0 := .ordinary rfl
  have hnote : note.Shows .system 0 := by rcases hnote with rfl | ⟨text, rfl⟩ <;> exact ⟨nofun, rfl⟩
  exact (hmov.append hnote).append (.call hcall)

theorem HandsOver.shows {chain : List ScopeId} {o : Ownership} (h : HandsOver s chain o keep code) :
    code.Shows .system 0 := by
  cases h with
  | fresh id => exact .nil
  | owned skip _ _ hcopy =>
    have hcheck : Code.Shows .system [test edx edx, jcc .nz skip] 0 := .ordinary rfl
    exact hcheck.append (hcopy.shows.append (.ordinary rfl))
  | other skip _ _ hcopy => exact hcopy.shows.append (.ordinary rfl)

theorem StoresResult.shows {depth : Nat} (h : StoresResult depth m code) :
    code.Shows .system 0 := by
  obtain ⟨a, -, hcode⟩ := h.exists_mov
  split at hcode
  · obtain ⟨z, -, rfl⟩ := hcode
    exact (Code.IsDull.chase depth).shows.append (.ordinary rfl)
  · rw [hcode]
    exact (Code.IsDull.chase depth).shows.append (.ordinary rfl)

namespace Returns

variable {s : State} {r : Resolved} {m : FunctionExit} {value copy : Code} {keep : List ReclaimId}
  {es : List (ReclaimId × Staged)} {code : Code}

/-- Nothing but the sweeps of a return calls the operating system. -/
theorem count_kernel (h : Returns s r m value copy keep es code) (hvalue : value.Shows .system 0)
    (hcopy : copy.Shows .system 0) : code.count kernel = es.length := by
  obtain ⟨hresult, hinner, hlast⟩ := h
  simp only [List.count_append, List.length_append, hinner.count_kernel,
    hlast.releases.count_kernel,
    hvalue.count_kernel, hcopy.count_kernel, hresult.shows.count_kernel, Nat.zero_add]
  rfl

/-- A return releases what is pending in the scopes from the current one to that of the function,
except what is kept. -/
theorem perm (h : Returns s r m value copy keep es code)
    (hscope : (s.tree.path s.current)[r.depth]? = some r.scope) :
    es.Perm (((s.tree.chain s.current r.depth).flatMap fun i => (s.tree.scope i).dues).filter
      fun x => !keep.contains x.1) := by
  obtain ⟨-, hinner, hlast⟩ := h
  rw [ScopeTree.chain_eq hscope, List.flatMap_append, List.filter_append, List.flatMap_singleton]
  exact hinner.perm.append hlast.perm

end Returns

/-! ### Between two statements -/

section

variable {p : Program} {session : Session} {comments : Bool} {ev : Event} {s : State}

theorem Program.kept_of_mem_trace (hev : ev ∈ p.trace session comments)
    (hs : ev.between? = some s) : ∃ spent, Kept session.nextReclaim spent s := by
  obtain ⟨before, after, hsplit⟩ := List.append_of_mem hev
  have halong := p.keptAlong_trace session comments
  rw [hsplit] at halong
  exact ⟨_, halong.at_event hs⟩

/-- A return between two statements. -/
theorem return_ends (hev : ev ∈ p.trace session comments) (hs : ev.between? = some s)
    (hm : s.tree.lookupFunctionExit s.current = some (r, m)) (l : Location) {value : Option Node}
    {u : State} (hv : Node.evaluateOr value m.ret s = .ok v u) :
    (leaveFunction l (Node.evaluateOr value)).Ends s (u.Overflows r m) fun _ t =>
      ∃ keep copy es code,
        (if m.ret.isHeap then HandsOver u (u.tree.chain u.current r.depth) v.ownership keep copy
          else keep = [] ∧ copy = []) ∧
      Returns u r m v.code copy keep es code ∧ t.listing = u.listing.append u.target code := by
  obtain ⟨spent, hkept⟩ := Program.kept_of_mem_trace hev hs
  have hquiet := IsQuiet.law.evaluateOr value m.ret s v u hkept.formed hv
  have hkeptu := (IsThrifty.law.evaluateOr value m.ret).kept hkept hv
  have hequipped := Program.equipped_of_mem_trace hev hs
  have honward := (hquiet.grows hkept.formed).onward
  exact leaveFunction_ends hm hv hquiet hkept.formed hkeptu
    (honward.spaced (Program.spaced_of_mem_trace hev (Event.state?_of_between? hs)).scope)
    (honward.equipped hkept.formed hequipped)

end

/-- Every exit sweeps the frames that it leaves, from the innermost outwards, and no others.
Leaving a loop leaves the frame of the round too, going on with the next round stays in it, and a
return sweeps the frame of the function without leaving it.  The end of a block leaves its frame
alone, and the end of the program the outermost one.  A sweep releases each value that is pending in
a scope once, in ascending order of ids; if nothing is kept, these are as many as the free set has
entries and the scope has strings. -/
theorem exits_sweep_what_they_leave {p : Program} {session : Session} {comments : Bool} {ev : Event}
    {s : State} (hev : ev ∈ p.trace session comments) (hs : ev.between? = some s) (l : Location) :
    (∀ r m, s.tree.lookupLoop s.current = some (r, m) →
      ((Node.mk .breakLoop l).execute.Ends s
        (s.tree.Vast ((s.tree.path s.current).take (r.depth + 1)))
        fun _ t => ∃ es code session,
          Unwinds s.tree [] ((s.tree.path s.current).take (r.depth + 1)) es code ∧
          t = ({ s with session } : State).wrote (code ++ [jmp m.exit])) ∧
      ((Node.mk .continueLoop l).execute.Ends s (s.tree.Vast ((s.tree.path s.current).take r.depth))
        fun _ t => ∃ es code session,
          Unwinds s.tree [] ((s.tree.path s.current).take r.depth) es code ∧
          t = ({ s with session } : State).wrote (code ++ [jmp m.next]))) ∧
    (∀ r m value v u, s.tree.lookupFunctionExit s.current = some (r, m) →
      Node.evaluateOr value m.ret s = .ok v u →
      (Node.mk (.ret value) l).execute.Ends s (u.Overflows r m) fun _ t => ∃ keep copy es code,
        (if m.ret.isHeap then HandsOver u (u.tree.chain u.current r.depth) v.ownership keep copy
          else keep = [] ∧ copy = []) ∧
        Returns u r m v.code copy keep es code ∧ code.count kernel = es.length ∧
        t.listing = u.listing.append u.target code) ∧
    ((closeBlock true).Ends s (s.tree.Vast [s.current] ∨ wordCount ≤ s.here.used + 3) fun _ t =>
      ∃ es code bytes, Sweeps s.here [] es code ∧ s.here.frameBytes = .ok bytes ∧
        t.listing = s.listing.append s.target
          (code ++ [bare .leave, .constant s.here.frameSize bytes])) ∧
    ((closeProgram false).Ends s (s.tree.Vast [s.root] ∨ wordCount ≤ (s.tree.scope s.root).used + 3)
      fun _ t => ∃ es code bytes, Sweeps (s.tree.scope s.root) [] es code ∧
        (s.tree.scope s.root).frameBytes = .ok bytes ∧
        t.listing = s.listing.append s.target
          (code ++ [bare .leave, mov eax (.imm Convention.sysExit), xor ebx ebx, kernel,
            .constant (s.tree.scope s.root).frameSize bytes])) ∧
    ∀ sc ∈ s.tree.scopes, ∀ es code, Sweeps sc [] es code →
      es.length = sc.freeSet.entries.length + (sc.vars.filter (·.ty = .string)).length ∧
      (es.map (·.1)).Nodup ∧ code.count kernel = es.length := by
  obtain ⟨spent, hkept⟩ := Program.kept_of_mem_trace hev hs
  have hspaced := (Program.spaced_of_mem_trace hev (Event.state?_of_between? hs)).scope
  refine ⟨fun r m hm => ⟨?_, ?_⟩, fun r m value v u hm hv => ?_, closeBlock_ends hkept hspaced,
    closeProgram_ends hkept hspaced, fun sc hsc es code hsweep => ?_⟩
  · exact .bind (leaveLoop_ends hkept hspaced hm l) fun _ _ h => .of_eq_ok rfl h
  · exact .bind (nextRound_ends hkept hspaced hm l) fun _ _ h => .of_eq_ok rfl h
  · refine .bind (return_ends hev hs hm l hv) ?_
    rintro - t ⟨keep, copy, es, code, hcopy, hreturns, hlisting⟩
    have hshows : copy.Shows .system 0 := by
      split at hcopy
      · exact hcopy.shows
      · rw [hcopy.2]
        exact .nil
    exact .of_eq_ok rfl ⟨keep, copy, es, code, hcopy, hreturns,
      hreturns.count_kernel (Node.evaluateOr_system hkept.formed hv) hshows,
      hlisting⟩
  · exact ⟨hsweep.length_eq (hspaced.settled hsc), hsweep.nodup, hsweep.releases.count_kernel⟩

/-- A loop whose rounds have a string, and that is left from an inner block with a string of its
own. -/
def interrupted : Program :=
  ⟨[.unplaced (.whileLoop (.unplaced (.bool true))
      [.unplaced (.declare "s" .string (some (.unplaced (.binary .add (.unplaced (.str "a"))
        (.unplaced (.str "b")))))),
       .unplaced (.conditional (.unplaced (.bool true))
        [.unplaced (.declare "t" .string none), .unplaced .breakLoop] .absent)])]⟩

/-- Where it is left, the loop is one step outwards, and leaving it sweeps two scopes. -/
theorem exits_sweep_what_they_leave_interrupted : ∃ ev s r m, ev ∈ interrupted.trace .empty false ∧
    ev.between? = some s ∧ s.tree.lookupLoop s.current = some (r, m) ∧ r.depth = 1 ∧
    (Node.mk .breakLoop .internal).execute.Ends s (s.tree.Vast ((s.tree.path s.current).take 2))
      fun _ t => ∃ es code session, Unwinds s.tree [] ((s.tree.path s.current).take 2) es code ∧
        t = ({ s with session } : State).wrote (code ++ [jmp m.exit]) := by
  have hfound : ((interrupted.trace .empty false).any fun ev => ev.between?.any fun s =>
      (s.tree.lookupLoop s.current).any (·.1.depth = 1)) = true := by
    decide +kernel
  obtain ⟨ev, s, hev, hs, hany⟩ := Event.exists_of_any hfound
  obtain ⟨⟨r, m⟩, hm, hdepth⟩ := (Option.any_eq_true _ _).1 hany
  have hdepth : r.depth = 1 := of_decide_eq_true hdepth
  have hbreak := ((exits_sweep_what_they_leave hev hs .internal).1 r m hm).1
  rw [hdepth] at hbreak
  exact ⟨ev, s, r, m, hev, hs, hm, hdepth, hbreak⟩

/-! ### Strings that are returned -/

/-- The value is that of a variable with the given id.  Its code ends with a load of the size that
stands beside the variable. -/
structure Lends (s : State) (value : Option Node) (v : Lowered) (id : ReclaimId) : Prop where
  exists_variable : ∃ name l r x cell c front, value = some (.mk (.var name) l) ∧
    s.tree.lookupVariable s.current name = some (r, x) ∧ x.reclaim = some id ∧
    x.sizeCell = some cell ∧
    Mem.slot (Convention.chase r.depth).2 cell = .ok c ∧ v.code = front ++ [load edx c]

/-- The value of a variable: strings have ids and cells for sizes as they should. -/
theorem readVariable_lends {name : String} {l : Location} {t : State}
    (hs : s.Spaced) (h : readVariable name l s = .ok v t) (id : ReclaimId) :
    v.ownership = .borrowed id ↔ Lends s (some (.mk (.var name) l)) v id := by
  obtain ⟨r, x, m, size, hx, -, hsize, rfl⟩ := readVariable_eq_ok h
  have hlent : x.lent = .borrowed id ↔ x.reclaim = some id := by
    unfold Variable.lent
    cases x.reclaim <;> simp
  refine hlent.trans ⟨fun hid => ?_, ?_⟩
  · obtain ⟨hscope, hvar⟩ := ScopeTree.lookupVariable_eq_some hx
    have hmem := hs.formed.ordered.lt_size_of_mem_path hs.formed.current_lt
      (List.mem_of_getElem? hscope)
    have hplaced := (hs.scope _ hmem).placed x (List.mem_of_find?_eq_some hvar)
    have hcell := hplaced.lends.trans hplaced.cell.symm
    rw [hid] at hcell
    rcases (loadSize_eq_ok hsize).2 with ⟨hnone, -⟩ | ⟨cell, c, hsome, hc, rfl⟩
    · rw [hnone] at hcell
      cases hcell
    · exact ⟨name, l, r, x, cell, c, _, rfl, hx, hid, hsome, hc, rfl⟩
  · rintro ⟨_, _, r', x', _, _, _, hnode, hx', hid, -⟩
    cases hnode
    rw [hx] at hx'
    cases hx'
    exact hid

theorem Node.evaluateOr_lends {value : Option Node} {ty : ScalarType} {t : State}
    (hs : s.Spaced) (h : Node.evaluateOr value ty s = .ok v t) (id : ReclaimId) :
    v.ownership = .borrowed id ↔ Lends s value v id := by
  constructor
  · intro hv
    cases value with
    | none => exact absurd hv ((Makes.literal _).ownership_ne_borrowed hs.formed h id)
    | some n =>
      have hrun := (expect_eq_ok.1 h).1
      obtain ⟨name, l, rfl⟩ := Node.eq_var_of_borrowed hs.formed hrun hv
      exact (readVariable_lends hs hrun id).1 hv
  · intro hlends
    obtain ⟨name, l, _, _, _, _, _, rfl, -⟩ := hlends.exists_variable
    exact (readVariable_lends hs (expect_eq_ok.1 h).1 id).2 hlends

/-- A string that is returned, by a statement or at the end of the function, reaches the caller as a
heap value of its own.

* If it is a new value, its id is kept and nothing is copied.  If it is the value of a variable of
  the scopes that the return goes through, the id of the variable is kept, and the value is copied
  if the size that was loaded with it is zero.  In any other case it is copied, and nothing is kept.
* Between the store of the result and the jump to the end of the function everything that is pending
  in these scopes is released once, except what is kept. -/
theorem returned_string_is_kept {p : Program} {session : Session} {comments : Bool} {ev : Event}
    {s : State} (hev : ev ∈ p.trace session comments) (hs : ev.between? = some s)
    {r : Resolved} {m : FunctionExit} (hm : s.tree.lookupFunctionExit s.current = some (r, m))
    (hret : m.ret = .string) (l : Location) {value : Option Node} {v : Lowered} {u : State}
    (hv : Node.evaluateOr value .string s = .ok v u) :
    ((leaveFunction l (Node.evaluateOr value)).Ends s (u.Overflows r m) fun _ t =>
      ∃ keep copy es code, HandsOver u (u.tree.chain u.current r.depth) v.ownership keep copy ∧
        Returns u r m v.code copy keep es code ∧ t.listing = u.listing.append u.target code ∧
        (es.map (·.1)).Nodup ∧ ∀ id, id ∈ es.map (·.1) ↔ id ∉ keep ∧
          ∃ i ∈ u.tree.chain u.current r.depth, id ∈ (u.tree.scope i).dues.map (·.1)) ∧
    (∀ id, v.ownership = .fresh id → id ∈ u.here.stagedIds) ∧
    ∀ id, v.ownership = .borrowed id ↔ Lends s value v id := by
  obtain ⟨spent, hkept⟩ := Program.kept_of_mem_trace hev hs
  rw [← hret] at hv
  have hquiet := IsQuiet.law.evaluateOr value m.ret s v u hkept.formed hv
  have hkeptu := (IsThrifty.law.evaluateOr value m.ret).kept hkept hv
  have hspaced := Program.spaced_of_mem_trace hev (Event.state?_of_between? hs)
  refine ⟨?_, fun id hid => (IsMinting.evaluateOr value m.ret s v u id hkept.formed hv hid).2,
    fun id => Node.evaluateOr_lends hspaced hv id⟩
  refine (return_ends hev hs hm l hv).mono (fun h => h) ?_
  rintro - t ⟨keep, copy, es, code, hcopy, hreturns, hlisting⟩
  rw [if_pos (by rw [hret]; rfl)] at hcopy
  have hscope := (ScopeTree.lookupFunctionExit_eq_some hm).1
  rw [← hquiet.path hkept.formed] at hscope
  have hperm := hreturns.perm hscope
  have hpath := hkeptu.formed.ordered.nodup_path _ hkeptu.formed.current_lt
  have hnodup := hkeptu.nodup_dues ((hquiet.grows hkept.formed).onward.spaced hspaced.scope)
      (hpath.sublist (List.take_sublist (r.depth + 1) _)) fun i hi =>
    hkeptu.formed.ordered.lt_size_of_mem_path hkeptu.formed.current_lt (List.mem_of_mem_take hi)
  refine ⟨keep, copy, es, code, hcopy, hreturns, hlisting, ?_, fun id => ?_⟩
  · exact (hperm.map _).nodup_iff.2 (hnodup.sublist (List.filter_sublist.map _))
  · rw [(hperm.map _).mem_iff]
    simp only [List.mem_map, List.mem_filter, List.mem_flatMap, Bool.not_eq_true',
      List.contains_eq_mem, decide_eq_false_iff_not]
    constructor
    · rintro ⟨e, ⟨⟨i, hi, he⟩, hkeep⟩, rfl⟩
      exact ⟨hkeep, i, hi, e, he, rfl⟩
    · rintro ⟨hkeep, i, hi, e, he, rfl⟩
      exact ⟨e, ⟨⟨i, hi, he⟩, hkeep⟩, rfl⟩

/-- A function that returns one of its strings from an inner block. -/
def handover : Program :=
  ⟨[.unplaced (.function "f" [] .string
      [.unplaced (.declare "s" .string (some (.unplaced (.binary .add (.unplaced (.str "a"))
        (.unplaced (.str "b")))))),
       .unplaced (.conditional (.unplaced (.bool true))
        [.unplaced (.declare "t" .string none), .unplaced (.ret (some (.unplaced (.var "s"))))]
        .absent)])]⟩

/-- The string is a variable of the function, one step outwards, and its id is kept. -/
theorem returned_string_is_kept_handover : ∃ ev s r m v u id, ev ∈ handover.trace .empty false ∧
    ev.between? = some s ∧ s.tree.lookupFunctionExit s.current = some (r, m) ∧ m.ret = .string ∧
    r.depth = 1 ∧ Node.evaluateOr (some (.unplaced (.var "s"))) .string s = .ok v u ∧
    v.ownership = .borrowed id ∧
    (leaveFunction .internal (Node.evaluateOr (some (.unplaced (.var "s"))))).Ends s
      (u.Overflows r m) fun _ t => ∃ keep copy es code,
        HandsOver u (u.tree.chain u.current r.depth) (.borrowed id) keep copy ∧
        Returns u r m v.code copy keep es code ∧ t.listing = u.listing.append u.target code ∧
        (es.map (·.1)).Nodup ∧ ∀ id, id ∈ es.map (·.1) ↔ id ∉ keep ∧
          ∃ i ∈ u.tree.chain u.current r.depth, id ∈ (u.tree.scope i).dues.map (·.1) := by
  have hfound : ((handover.trace .empty false).any fun ev => ev.between?.any fun s =>
      (s.tree.lookupFunctionExit s.current).any (fun x => x.2.ret = .string && x.1.depth = 1) &&
        match Node.evaluateOr (some (.unplaced (.var "s"))) .string s with
        | .ok v _ => match v.ownership with
          | .borrowed _ => true
          | _ => false
        | .error _ _ => false) = true := by
    decide +kernel
  obtain ⟨ev, s, hev, hs, hany⟩ := Event.exists_of_any hfound
  obtain ⟨hany, hrun⟩ := Bool.and_eq_true_iff.1 hany
  obtain ⟨⟨r, m⟩, hm, hexit⟩ := (Option.any_eq_true _ _).1 hany
  obtain ⟨hret, hdepth⟩ := Bool.and_eq_true_iff.1 hexit
  cases hv : Node.evaluateOr (some (.unplaced (.var "s"))) .string s with
  | error e t =>
    rw [hv] at hrun
    cases hrun
  | ok v u =>
    rw [hv] at hrun
    cases hown : v.ownership with
    | fresh id => simp [hown] at hrun
    | plain => simp [hown] at hrun
    | borrowed id =>
      have hkept := (returned_string_is_kept hev hs hm (of_decide_eq_true hret) .internal hv).1
      rw [hown] at hkept
      exact ⟨ev, s, r, m, v, u, id, hev, hs, hm, of_decide_eq_true hret, of_decide_eq_true hdepth,
        hv, hown, hkept⟩

end KuAsm
