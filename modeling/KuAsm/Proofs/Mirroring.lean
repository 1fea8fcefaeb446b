import KuAsm.Proofs.Checking
import KuAsm.Proofs.Likeness
import KuAsm.Proofs.LoopStep

/-!
# Compilations that mirror each other

This module shows construct by construct that compilations whose parts mirror each other mirror each
other.  Where a construct has parts that include files, these are gone through in the order in which
they are compiled.

The library is set up before the program in both compilations, with the same names.  It declares no
variable in the outermost scope, so the states in which the programs start are alike under any
spelling.

## Main statements

* `Mirrors.declare`, `Mirrors.loop`, `Mirrors.defineFunction` and so on: constructs with parts that
  mirror each other.
* `Mirrors.registerLibrary`: the library mirrors itself.
* `compileIn_alike`: programs whose statements mirror each other have the same unit but for numbers,
  or fail alike.
-/

namespace KuAsm

open Asm Reg Lower

variable {R S : Bool → Bool → Prop} {form form' : Form} {Λ : Likeness} {body body' : List Node}
  {included : List String}
  {I J : List String → List String → Prop} {l : Location} {condition condition' : Lower Lowered}
  {a a' : Node} {value value' : ScalarType → Lower Lowered} {i : ScopeId} {name : String}
  {α β : Type}

namespace Mirrors

variable {Λ : Likeness} {I J K : List String → List String → Prop} {l l' : Location}

/-! ### Heap values -/

theorem registerFresh :
    Mirrors Λ I I (Via fun x => (Λ.code x.1, Λ.reclaim x.2)) Lower.registerFresh
    Lower.registerFresh := by
  refine next mintReclaim fun id => next (reserve 4) fun address => next (reserve 4) fun size =>
    bind scope fun a b hab => next (setScope { hab with freeSet := ?_ }) fun _ =>
        next (frameSlot _) fun m =>
    next (frameSlot _) fun c => next (remark _ _) fun note => pure ?_
  · rw [hab.freeSet]
    exact Λ.freeSet_insert _ id _
  · show ([store m eax] ++ ([store c edx] ++ Λ.code note), _) =
      (Λ.code ([store m eax] ++ ([store c edx] ++ note)), _)
    rw [Λ.code_append, Λ.code_append, Λ.code_store, Λ.code_store]

theorem takeOwnership (o : Ownership) (name name' : String) (l l' : Location) :
    Mirrors Λ I I (Via fun x => (Λ.code x.1, x.2.map Λ.reclaim)) (Lower.takeOwnership o name l)
      (Lower.takeOwnership (Λ.ownership o) name' l') := by
  cases o with
  | plain => exact pure rfl
  | borrowed id => exact next (tell _ _) fun _ => pure rfl
  | fresh id =>
    refine bind scope fun a b hab => next (setScope { hab with freeSet := ?_ }) fun _ =>
      next (tell _ _) fun _ => pure rfl
    rw [hab.freeSet]
    exact Λ.freeSet_erase _ id

theorem recordFree :
    Mirrors Λ I I (Via id) (Lower.withSession fun s => ((), s.recordFree))
      (Lower.withSession fun s => ((), s.recordFree)) :=
  withSession fun _ _ ⟨hI, hs⟩ => ⟨rfl, .mk hI hs⟩

theorem release (base : Reg) (id : ReclaimId) (e : Staged) :
    Mirrors Λ I I (Via Λ.code) (Lower.release base id e) (Lower.release base (Λ.reclaim id) e) := by
  refine next (mintLabel _) fun skip => next (remark _ _) fun note => next (checked _) fun size =>
    next (checked _) fun address => next recordFree fun _ => pureVia ?_
  rw [Λ.code_append]
  rfl

theorem releaseAll (keep : List ReclaimId) : ∀ es : List (ReclaimId × Staged),
    Mirrors Λ I I (Via Λ.code) (Lower.releaseAll keep es)
    (Lower.releaseAll (keep.map Λ.reclaim) (Λ.entries es))
  | [] => pure rfl
  | (i, e) :: rest => by
    have hrest (code : Code) : Mirrors Λ I I (Via Λ.code)
        (Lower.releaseAll keep rest >>= fun more => Pure.pure (code ++ more))
        (Lower.releaseAll (keep.map Λ.reclaim) (Λ.entries rest) >>= fun more =>
          Pure.pure (Λ.code code ++ more)) :=
      next (releaseAll keep rest) fun more => pure (Λ.code_append code more).symm
    show Mirrors Λ I I _ _ (if (keep.map Λ.reclaim).contains (Λ.reclaim i) = true then _ else _)
    rw [Λ.contains_map_reclaim]
    exact ite (next (remark _ _) hrest) (next (release _ _ _) hrest)

theorem sweep (hi : Λ.InProgram i) (keep : List ReclaimId) :
    Mirrors Λ I I (Via id) (Lower.sweep i keep) (Lower.sweep i (keep.map Λ.reclaim)) := by
  refine bind get fun s t h => ?_
  rw [(h.tree.scope i hi).pendingFrees]
  exact next (releaseAll keep _) fun _ => emit rfl

/-! ### Calls -/

theorem stageArguments : ∀ (count : Nat) (args : List Lowered),
    Mirrors Λ I I (Via fun x => (Λ.code x.1, x.2)) (Lower.stageArguments count args)
      (Lower.stageArguments count (args.map Λ.lowered))
  | _, [] => by
    unfold Lower.stageArguments
    exact pure rfl
  | 0, a :: rest => next (stageArguments 0 rest) fun x => pureVia (by rw [Λ.code_append]; rfl)
  | count + 1, a :: rest =>
    next (reserve _) fun slot => next (frameSlot _) fun m =>
        next (stageArguments count rest) fun x =>
      pureVia (by rw [Λ.code_append, Λ.code_append]; rfl)

theorem recordCall (name name' : String) :
    Mirrors Λ I I (Via id) (Lower.withSession fun s => ((), s.recordCall name))
      (Lower.withSession fun s => ((), s.recordCall name')) :=
  withSession fun _ _ ⟨hI, hs⟩ => ⟨rfl, .mk hI hs⟩

theorem invoke {f g : Signature} (hfg : f.Alike Λ g) (depth : Nat) (args : List Lowered) :
    Mirrors Λ I I (Via Λ.lowered) (Lower.invoke f depth args)
    (Lower.invoke g depth (args.map Λ.lowered)) := by
  unfold Lower.invoke
  rw [hfg.length_params, hfg.entry, hfg.ret]
  refine next (stageArguments _ _) fun staged => next (remark _ _) fun note =>
    next (checkedVia (Λ.call_label _ _ _)) fun call => next (recordCall _ _) fun _ =>
      ite ?_ (pure ?_)
  · refine next registerFresh fun x => pure ?_
    show Lowered.mk .. = Lowered.mk ..
    rw [Λ.code_append, Λ.code_append, Λ.code_append]
    rfl
  · exact Λ.lowered_plain _ (by simp)

theorem resolveCall (name : String) (count : Nat) (hl : Λ.place l l') :
    Mirrors Λ I I (fun x y => y.1 = x.1 ∧ x.2.Alike Λ y.2) (Lower.resolveCall name count l)
      (Lower.resolveCall name count l') := by
  refine bind (resolveFunction name hl) fun x y hxy => ?_
  dsimp only
  rw [hxy.2.length_params]
  exact ite (reject hl rfl) (pure hxy)

/-! ### Expressions -/

theorem literal (v : Literal) :
    Mirrors Λ I I (Via Λ.lowered) (Lower.literal v) (Lower.literal v) := by
  cases v with
  | number v => exact pure rfl
  | char v => exact pure rfl
  | bool v => exact pure (by cases v <;> rfl)
  | decimal v => exact next (remark _ _) fun _ => pure rfl
  | str v => exact next (place v) fun _ => pure rfl

theorem loadSize (base : Reg) (v : Variable) :
    Mirrors Λ I I (Via Λ.code) (Lower.loadSize base v) (Lower.loadSize base (Λ.var v)) := by
  obtain ⟨name, ty, slot, sizeCell, id⟩ := v
  cases sizeCell with
  | none => exact pure rfl
  | some cell => exact next (checked _) fun c => pure (Λ.code_load _ _).symm

theorem readVariable (name : String) (hl : Λ.place l l') :
    Mirrors Λ I I (Via Λ.lowered) (Lower.readVariable name l)
    (Lower.readVariable (Λ.spell name) l') := by
  refine next (resolveVariable name hl) fun x => ?_
  have hchase := Λ.code_chase x.1.depth
  dsimp only
  generalize Convention.chase x.1.depth = chase at hchase ⊢
  obtain ⟨up, base⟩ := chase
  refine next (checked _) fun m => next (loadSize _ _) fun size => pure ?_
  show Lowered.mk _ _ (up ++ _ ++ _) = Lowered.mk _ _ (Λ.code (up ++ _ ++ _))
  rw [Λ.code_append, Λ.code_append, hchase, Λ.code_load, Λ.var_lent]
  rfl

theorem addressOf (name : String) (hl : Λ.place l l') :
    Mirrors Λ I I (Via Λ.lowered) (Lower.addressOf name l) (Lower.addressOf (Λ.spell name) l') := by
  refine next (resolveVariable name hl) fun x => ?_
  have hchase := Λ.code_chase x.1.depth
  dsimp only
  generalize Convention.chase x.1.depth = chase at hchase ⊢
  obtain ⟨up, base⟩ := chase
  refine next (checked _) fun m => pure (Λ.lowered_plain _ ?_)
  rw [Λ.code_append, hchase]
  rfl

theorem decimalCode (op : BinaryOp) :
    Mirrors Λ I I (Via Λ.code) (Lower.decimalCode op) (Lower.decimalCode op) := by
  refine ite (next (mintLabel _) fun again => pure rfl) ?_
  cases op.floatPair? with
  | some pair => exact pure rfl
  | none => exact pure rfl

theorem concat (left right : Lowered) (hl : Λ.place l l') :
    Mirrors Λ I I (Via Λ.lowered) (Lower.concat left right l)
    (Lower.concat (Λ.lowered left) (Λ.lowered right) l') := by
  refine bind (libraryFunction? _) fun f g hfg => ?_
  cases hfg with
  | none => exact reject hl rfl
  | some hfg => exact next depthToRoot fun depth => invoke hfg depth [left, right]

theorem combine (op : BinaryOp) (left right : Lowered) (hl : Λ.place l l') :
    Mirrors Λ I I (Via Λ.lowered) (Lower.combine op left right l)
      (Lower.combine op (Λ.lowered left) (Λ.lowered right) l') := by
  refine ite (reject hl rfl) (ite (concat left right hl) (ite (reject hl rfl) (ite ?_ (pure ?_))))
  · refine next (decimalCode op) fun code => pure (Λ.lowered_plain _ ?_)
    rw [Λ.code_append, Λ.code_append, Λ.code_append]
    rfl
  · refine Λ.lowered_plain _ ?_
    rw [Λ.code_append, Λ.code_append, Λ.code_append, Λ.code_append]
    cases op <;> rfl

theorem applySign (sign : Sign) (v : Lowered) (hl : Λ.place l l') :
    Mirrors Λ I I (Via Λ.lowered) (Lower.applySign sign v l)
    (Lower.applySign sign (Λ.lowered v) l') := by
  refine ite (reject hl rfl) ?_
  cases sign with
  | plus => exact pure rfl
  | minus =>
    refine pure (Λ.lowered_plain _ ?_)
    rw [Λ.code_append]
    show Λ.code v.code ++ negateCode v.ty = _
    cases v.ty <;> rfl

theorem stepVariable (name : String) (op : StepOp) (fixity : Fixity) (hl : Λ.place l l') :
    Mirrors Λ I I (Via Λ.lowered) (Lower.stepVariable name op fixity l)
      (Lower.stepVariable (Λ.spell name) op fixity l') := by
  refine next (resolveVariable name hl) fun x => ite (reject hl rfl) ?_
  have hchase := Λ.code_chase x.1.depth
  dsimp only
  generalize Convention.chase x.1.depth = chase at hchase ⊢
  obtain ⟨up, base⟩ := chase
  refine next (checked _) fun m => ?_
  cases fixity with
  | leading =>
    refine pure (Λ.lowered_plain _ ?_)
    show up ++ ([_] ++ [_]) = Λ.code (up ++ ([_] ++ [load eax m]))
    rw [Λ.code_append, hchase, Λ.code_append, Λ.code_load]
    rfl
  | trailing =>
    refine pure (Λ.lowered_plain _ ?_)
    show up ++ ([_] ++ [_]) = Λ.code (up ++ ([load eax m] ++ [_]))
    rw [Λ.code_append, hchase, Λ.code_append, Λ.code_load]
    rfl

theorem applyCast (v : Lowered) (ty : ScalarType) (mode : CastMode) (hl : Λ.place l l') :
    Mirrors Λ I I (Via Λ.lowered) (Lower.applyCast v ty mode l)
    (Lower.applyCast (Λ.lowered v) ty mode l') := by
  have hsize : Λ.code (if ty.isHeap then [xor edx edx] else []) = if ty.isHeap then
      [xor edx edx] else [] := by
    split <;> rfl
  cases mode with
  | deref =>
    refine ite (reject hl rfl) (pure (Λ.lowered_plain _ ?_))
    rw [Λ.code_append, Λ.code_append, Λ.code_load, hsize]
    rfl
  | immediate =>
    have hnarrow : Λ.code (if ty.size = 1 ∧ v.ty.size ≠ 1 then [movzx eax al] else []) =
        if ty.size = 1 ∧ v.ty.size ≠ 1 then [movzx eax al] else [] := by
      split <;> rfl
    refine pure (Λ.lowered_plain _ ?_)
    rw [Λ.code_append, Λ.code_append, hnarrow, hsize]
    rfl

/-! ### Declarations, assignments and stores -/

theorem declare (name : String) (ty : ScalarType) (hl : Λ.place l l') {value value' : Lower Lowered}
    (h : Mirrors Λ I I (Via Λ.lowered) value value') :
    Mirrors Λ I I (Via id) (Lower.declare name ty l value)
    (Lower.declare (Λ.spell name) ty l' value') := by
  refine next h fun v => next (declareVariable name ty hl) fun x => next (remark _ _) fun note =>
    next (frameSlot x.slot) fun m => ?_
  obtain ⟨xname, xty, slot, sizeCell, reclaim⟩ := x
  cases sizeCell with
  | none =>
    refine emit ?_
    rw [Λ.code_append, Λ.code_append, Λ.code_store]
    rfl
  | some cell =>
    refine next (takeOwnership v.ownership _ _ _ _) fun taken => next (φ := Λ.reclaim) ?_ fun i =>
      next (frameSlot cell) fun c => next (own name i) fun _ => emit ?_
    · obtain ⟨taken, i | i⟩ := taken
      · exact mintReclaim
      · exact pure rfl
    · rw [Λ.code_append, Λ.code_append, Λ.code_append, Λ.code_append, Λ.code_store, Λ.code_store]
      rfl

theorem releaseOld (base : Reg) (x : Variable) (cell : Slot) :
    Mirrors Λ I I (Via Λ.code) (Lower.releaseOld base x cell)
    (Lower.releaseOld base (Λ.var x) cell) := by
  obtain ⟨name, ty, slot, sizeCell, reclaim⟩ := x
  cases reclaim with
  | none => exact pure rfl
  | some i => exact release base i ⟨slot, cell⟩

theorem replaceString (x : Variable) (cell : Slot) (depth : Nat) (v : Lowered) (l l' : Location) :
    Mirrors Λ I I (Via id) (Lower.replaceString x cell depth v l)
      (Lower.replaceString (Λ.var x) cell depth (Λ.lowered v) l') := by
  unfold Lower.replaceString
  have hchase := Λ.code_chase depth
  generalize Convention.chase depth = chase at hchase ⊢
  obtain ⟨up, base⟩ := chase
  refine next (takeOwnership v.ownership _ _ _ _) fun taken => next (releaseOld base x cell)
      fun old =>
    next (checked _) fun m => next (checked _) fun c => emit ?_
  show _ ++ _ ++ _ ++ up ++ _ ++ ([pop edx, pop eax] ++ ([store m eax] ++ [store c edx])) =
    Λ.code (_ ++ _ ++ _ ++ up ++ _ ++ ([pop edx, pop eax] ++ ([store m eax] ++ [store c edx])))
  simp only [Λ.code_append, hchase, Λ.code_store]
  rfl

theorem assign (name : String) (hl : Λ.place l l')
    (h : ∀ ty, Mirrors Λ I I (Via Λ.lowered) (value ty) (value' ty)) :
    Mirrors Λ I I (Via id) (Lower.assign name l value) (Lower.assign (Λ.spell name) l' value') := by
  refine next (resolveVariable name hl) fun x => next (h x.2.ty) fun v => ?_
  obtain ⟨r, ⟨xname, xty, slot, sizeCell, reclaim⟩⟩ := x
  cases sizeCell with
  | none =>
    have hchase := Λ.code_chase r.depth
    dsimp only [Likeness.var]
    generalize Convention.chase r.depth = chase at hchase ⊢
    obtain ⟨up, base⟩ := chase
    refine next (checked _) fun m => emit ?_
    rw [Λ.code_append, Λ.code_append, hchase, Λ.code_store]
    rfl
  | some cell =>
    -- both sides agree on whether the variable is assigned to itself, since ids are mapped
    -- injectively
    have hself : ((reclaim.map Λ.reclaim).map Ownership.borrowed = some (Λ.lowered v).ownership) ↔
        reclaim.map Ownership.borrowed = some v.ownership := by
      cases reclaim with
      | none => simp
      | some i =>
        show some (Λ.ownership (.borrowed i)) = some (Λ.ownership v.ownership) ↔ _
        rw [Option.some_inj, Λ.ownership_inj]
        simp
    show Mirrors Λ I I (Via id) (if reclaim.map Ownership.borrowed = some v.ownership then _ else _)
      (if (reclaim.map Λ.reclaim).map Ownership.borrowed = some (Λ.lowered v).ownership then
        _ else _)
    simp only [hself]
    exact ite (next (remark _ _) fun note => emit rfl) (replaceString _ cell r.depth v l l')

theorem storeAt {address address' value value' : Lower Lowered} (hl : Λ.place l l')
    (ha : Mirrors Λ I I (Via Λ.lowered) address address')
    (hv : Mirrors Λ I I (Via Λ.lowered) value value') :
    Mirrors Λ I I (Via id) (Lower.storeAt address value l) (Lower.storeAt address' value' l') := by
  refine next ha fun a => ite (reject hl rfl) (next hv fun v => emit ?_)
  show _ ++ _ ++ _ ++ ([pop ecx] ++ [store _ eax]) =
    Λ.code (_ ++ _ ++ _ ++ ([pop ecx] ++ [store _ eax]))
  rw [Λ.code_append, Λ.code_append, Λ.code_append, Λ.code_append, Λ.code_store]
  rfl

/-! ### Blocks and loops -/

theorem openBlock :
    Mirrors Λ I I (fun i j => j = i ∧ Λ.InProgram i) Lower.openBlock Lower.openBlock := by
  refine next (mintLabel _) fun l => bind (pushScope l) fun i j hij => ?_
  obtain ⟨rfl, hi⟩ := hij
  exact next (emit rfl) fun _ => next (modify fun _ _ h => { h with current := rfl, inside := hi })
    fun _ => pure ⟨rfl, hi⟩

theorem exitFrame (hi : Λ.InProgram i) (keep : List ReclaimId) :
    Mirrors Λ I I (Via id) (Lower.exitFrame i keep) (Lower.exitFrame i (keep.map Λ.reclaim)) :=
  next (sweep hi keep) fun _ => emit rfl

theorem defineFrameSize (hi : Λ.InProgram i) :
    Mirrors Λ I I (Via id) (Lower.defineFrameSize i) (Lower.defineFrameSize i) := by
  refine bind get fun s t h => ?_
  have hscope := h.tree.scope i hi
  unfold Scope.frameBytes
  rw [hscope.used, hscope.frameSize]
  exact next (checked _) fun bytes => emit rfl

theorem closeBlock (reachable : Bool) :
    Mirrors Λ I I (Via id) (Lower.closeBlock reachable) (Lower.closeBlock reachable) := by
  -- the scope around a scope of the program is one of the program
  have hback {i : ScopeId} (hi : Λ.InProgram i) (s t : State) (h : s.Alike Λ I t) :
      { s with current := (s.tree.scope i).parent.getD s.root }.Alike Λ I
        { t with current := (t.tree.scope i).parent.getD t.root } := by
    have hscope := h.tree.scope i hi
    refine { h with current := ?_, inside := ?_ }
    · rw [hscope.parent, h.root.1, h.root.2]
    · show Λ.InProgram ((s.tree.scope i).parent.getD s.root)
      cases hp : (s.tree.scope i).parent with
      | none => exact .inl h.root.1
      | some p => exact hscope.inside p hp
  refine bind get fun s t h => ?_
  rw [h.current]
  cases reachable with
  | true =>
    exact next (exitFrame h.inside []) fun _ => next (defineFrameSize h.inside) fun _ =>
      modify (hback h.inside)
  | false => exact next (defineFrameSize h.inside) fun _ => modify (hback h.inside)

theorem block {body body' : Lower Bool} (h : Mirrors Λ I J (Via id) body body') :
    Mirrors Λ I J (Via id) (Lower.block body) (Lower.block body') :=
  bind openBlock fun _ _ _ => next h fun _ => closeBlock _

theorem branchUnless (target : Label) (hl : Λ.place l l')
    (h : Mirrors Λ I I (Via Λ.lowered) condition condition') :
    Mirrors Λ I I (Via id) (Lower.branchUnless target l condition)
      (Lower.branchUnless (Λ.label target) l' condition') := by
  refine next h fun c => ite (reject hl rfl) (emit ?_)
  rw [Λ.code_append]
  rfl

theorem guarded (target : Label) (hl : Λ.place l l') {body body' : Lower Bool}
    (hc : Mirrors Λ I I (Via Λ.lowered) condition condition')
    (hb : Mirrors Λ I J (Via id) body body') :
    Mirrors Λ I J (Via id) (Lower.guarded target l condition body)
      (Lower.guarded (Λ.label target) l' condition' body') :=
  next (branchUnless target hl hc) fun _ => block hb

theorem openLoop :
    Mirrors Λ I I (fun f g => g = Λ.loopFrame f ∧ Λ.InProgram f.scope) Lower.openLoop
    Lower.openLoop := by
  refine next (mintLabel _) fun top => next (mintLabel _) fun after => next (mintLabel _)
      fun exit =>
    next (mintLabel _) fun done => next (emit rfl) fun _ => bind openBlock fun i j hij =>
        bind scope fun a b hab =>
    next (setScope { hab with loop := rfl }) fun _ => pure ⟨by rw [hij.1]; rfl, hij.2⟩

theorem closeLoop {f : LoopFrame} (hf : Λ.InProgram f.scope) :
    Mirrors Λ I I (Via id) (Lower.closeLoop f) (Lower.closeLoop (Λ.loopFrame f)) :=
  next (exitFrame hf []) fun _ => next (emit rfl) fun _ => next (emit rfl) fun _ =>
      next (closeBlock true) fun _ =>
    emit rfl

theorem loop (hl : Λ.place l l') {body body' post post' : Lower Bool}
    (hc : Mirrors Λ I I (Via Λ.lowered) condition condition') (hb : Mirrors Λ I J R body body')
    (hp : Mirrors Λ J K S post post') :
    Mirrors Λ I K (Via id) (Lower.loop l condition body post)
    (Lower.loop l' condition' body' post') := by
  refine bind openLoop fun f g hfg => ?_
  obtain ⟨rfl, hf⟩ := hfg
  exact next (branchUnless _ hl hc) fun _ => bind hb fun _ _ _ => next (emit rfl) fun _ =>
      bind hp fun _ _ _ =>
    closeLoop hf

/-! ### Exits -/

theorem unwind (frames : Nat) (keep : List ReclaimId) :
    Mirrors Λ I I (Via id) (Lower.unwind frames keep)
    (Lower.unwind frames (keep.map Λ.reclaim)) := by
  refine bind get fun s t h => ?_
  rw [h.current, h.tree.path h.inside]
  exact forM _ fun i hi =>
    exitFrame (h.tree.inProgram_of_mem_path h.inside (List.mem_of_mem_take hi)) keep

theorem leaveLoop (hl : Λ.place l l') :
    Mirrors Λ I I (Via id) (Lower.leaveLoop l) (Lower.leaveLoop l') :=
  next (enclosingLoop _ hl) fun _ => next (unwind _ []) fun _ => emit rfl

theorem nextRound (hl : Λ.place l l') :
    Mirrors Λ I I (Via id) (Lower.nextRound l) (Lower.nextRound l') :=
  next (enclosingLoop _ hl) fun _ => next (unwind _ []) fun _ => emit rfl

theorem ownedResult (v : Lowered) (copying : Copying) :
    Mirrors Λ I I (Via Λ.code) (Lower.ownedResult v copying)
    (Lower.ownedResult (Λ.lowered v) copying) := by
  refine ite (pure rfl) (bind (libraryFunction? _) fun f g hfg => ?_)
  cases hfg with
  | none => exact pure rfl
  | some hfg =>
    dsimp only
    rw [hfg.entry]
    refine next (mintLabel _) fun skip => next (reserve _) fun slot =>
        next (frameSlot slot) fun m =>
      next (remark _ _) fun note => next depthToRoot fun depth =>
          next (checkedVia (Λ.call_label _ _ _)) fun call =>
      next (recordCall _ _) fun _ => pureVia ?_
    simp only [Λ.code_append]
    by_cases hcopying : copying = .ifBorrowed
    · rw [if_pos hcopying, if_pos hcopying]
      rfl
    · rw [if_neg hcopying, if_neg hcopying]
      rfl

theorem resultCode (depth : Nat) (m : FunctionExit) :
    Mirrors Λ I I (Via Λ.code) (Lower.resultCode depth m)
    (Lower.resultCode depth (Λ.functionExit m)) := by
  unfold Lower.resultCode
  have hchase := Λ.code_chase depth
  generalize Convention.chase depth = chase at hchase ⊢
  obtain ⟨up, base⟩ := chase
  refine next (checked _) fun result => ite (next (checked _) fun size => pureVia ?_) (pureVia ?_)
  · rw [Λ.code_append, hchase]
    rfl
  · rw [Λ.code_append, hchase]
    rfl

end Mirrors

/-- A string is returned through the scopes of a chain in the same way. -/
theorem ScopeTree.Alike.returnPlan {t u : ScopeTree} {i : Nat} (h : t.Alike Λ u)
    (hi : Λ.InProgram i) (depth : Nat)
    (o : Ownership) : Lower.returnPlan u (u.chain i depth) (Λ.ownership o) =
      ((Lower.returnPlan t (t.chain i depth) o).1,
        (Lower.returnPlan t (t.chain i depth) o).2.map Λ.reclaim) := by
  cases o with
  | plain => rfl
  | fresh id => rfl
  | borrowed id =>
    have howns : (t.chain i depth).any (fun j => (u.scope j).owns (Λ.reclaim id)) =
        (t.chain i depth).any fun j => (t.scope j).owns id := by
      rw [Bool.eq_iff_iff, List.any_eq_true, List.any_eq_true]
      refine exists_congr fun j => and_congr_right fun hj => ?_
      rw [(h.scope j (h.inProgram_of_mem_path hi (List.mem_of_mem_take hj))).owns id]
    show (if (u.chain i depth).any (fun j => (u.scope j).owns (Λ.reclaim id)) then _ else _) = _
    rw [h.chain hi, howns]
    unfold Lower.returnPlan
    dsimp only
    split <;> rfl

namespace Mirrors

variable {Λ : Likeness} {I J K : List String → List String → Prop} {l l' : Location}

theorem leaveFunction (hl : Λ.place l l')
    (h : ∀ ty, Mirrors Λ I I (Via Λ.lowered) (value ty) (value' ty)) :
    Mirrors Λ I I (Via id) (Lower.leaveFunction l value) (Lower.leaveFunction l' value') := by
  refine bind get fun s t hst => ?_
  have hlookup :
      Option.Rel _ (s.tree.lookupFunctionExit s.current) (t.tree.lookupFunctionExit s.current) :=
    hst.tree.lookup (R := Via Λ.functionExit) hst.inside
      (fun a b hab => by rw [hab.function, Option.isSome_map])
      fun a b hab => by rw [hab.function]; exact Via.option _
  rw [hst.current]
  generalize s.tree.lookupFunctionExit s.current = x, t.tree.lookupFunctionExit s.current =
    y at hlookup
  cases hlookup with
  | none => exact reject hl rfl
  | @some x y hxy =>
    obtain ⟨r, m⟩ := x
    obtain ⟨hr, hscope, hm⟩ := hxy
    obtain rfl : y = (r, Λ.functionExit m) := Prod.ext hr hm
    refine next (h m.ret) fun v => bind get fun s t hst => ?_
    -- what is kept of the value depends on the frames that are left, which are alike
    have hplan : (if (Λ.functionExit m).ret.isHeap = true then
          Lower.returnPlan t.tree (t.tree.chain t.current r.depth) (Λ.lowered v).ownership else
            (.never, [])) =
        ((if m.ret.isHeap = true then Lower.returnPlan s.tree (s.tree.chain s.current r.depth)
          v.ownership else (.never, [])).1,
         (if m.ret.isHeap = true then Lower.returnPlan s.tree (s.tree.chain s.current r.depth)
          v.ownership else (.never, [])).2.map Λ.reclaim) := by
      rw [hst.current]
      show (if m.ret.isHeap = true then Lower.returnPlan _ _ (Λ.ownership v.ownership) else _) = _
      rw [hst.tree.returnPlan hst.inside]
      split <;> rfl
    dsimp only
    rw [hplan]
    exact next (ownedResult v _) fun code => next (resultCode _ m) fun result =>
      next (emit (Λ.code_append _ _).symm) fun _ => next (unwind _ _) fun _ => next (sweep hscope _)
        fun _ => emit rfl

/-! ### Functions -/

theorem adopt (p : Param) :
    Mirrors Λ I I (Via id) (Lower.adopt p) (Lower.adopt (p.respell Λ.spell)) :=
  ite (next mintReclaim fun i => own p.name i) (pure rfl)

theorem bindParam (hl : Λ.place l l') (index : Nat) (p : Param) :
    Mirrors Λ I I (Via Λ.code) (Lower.bindParam l index p)
    (Lower.bindParam l' index (p.respell Λ.spell)) := by
  refine next (declareVariable p.name p.ty hl) fun x => next (checked _) fun disp =>
      next (frameSlot _) fun m =>
    next (adopt p) fun _ => pure ?_
  show _ :: [store m eax] = _ :: Λ.code [store m eax]
  rw [Λ.code_store]
  rfl

theorem bindParams (hl : Λ.place l l') : ∀ (index : Nat) (params : List Param),
    Mirrors Λ I I (Via Λ.code) (Lower.bindParams l index params)
      (Lower.bindParams l' index (params.map (Param.respell Λ.spell)))
  | _, [] => pure rfl
  | index, p :: rest =>
    next (bindParam hl index p) fun _ => next (bindParams hl (index + 1) rest) fun _ =>
      pure (Λ.code_append _ _).symm

theorem announce (name : String) (params : List Param) (ret : ScalarType) (hl : Λ.place l l') :
    Mirrors Λ I I (fun x y => x.1.Alike Λ y.1 ∧ y.2 = Λ.label x.2)
      (Lower.announce name params ret l)
      (Lower.announce name (params.map (Param.respell Λ.spell)) ret l') := by
  refine next (mintLabel _) fun entry => next (mintLabel _) fun returnLabel =>
    bind scope fun a b hab => ?_
  have hfg : Signature.Alike Λ ⟨name, ret, params, entry, returnLabel⟩
      ⟨name, ret, params.map (Param.respell Λ.spell), Λ.label entry, Λ.label returnLabel⟩ :=
    ⟨rfl, rfl, by rw [List.map_map]; rfl, rfl, rfl⟩
  exact bind (accepted (hab.declareFunction hfg hl)) fun _ _ hab => next (setScope hab) fun _ =>
    next (mintLabel _) fun _ => pure ⟨hfg, rfl⟩

theorem openBody {f g : Signature} (hfg : f.Alike Λ g) :
    Mirrors Λ I I (Via Λ.functionExit) (Lower.openBody f) (Lower.openBody g) := by
  refine next (mintLabel _) fun l => bind (pushScope l) fun i j hij => ?_
  obtain ⟨rfl, hi⟩ := hij
  rw [hfg.ret, hfg.returnLabel]
  exact next (modify fun _ _ h => { h with current := rfl, target := rfl, inside := hi }) fun _ =>
      next (reserve 4) fun _ =>
    next (reserve 4) fun _ => bind scope fun a b hab => next (setScope { hab with function := rfl })
      fun _ => pure rfl

theorem openFunction (name : String) (params : List Param) (ret : ScalarType) (hl : Λ.place l l') :
    Mirrors Λ I I (fun f g => g = Λ.functionFrame f ∧ Λ.InProgram f.scope ∧ Λ.InProgram f.outer)
      (Lower.openFunction name params ret l)
      (Lower.openFunction name (params.map (Param.respell Λ.spell)) ret l') := by
  refine bind (announce name params ret hl) fun x y hxy => bind get fun before before' hbefore =>
    next (openBody hxy.1) fun exit => next (remark _ _) fun note => next (bindParams hl 0 params)
        fun copies =>
    bind get fun s t h => ?_
  rw [h.current, (h.tree.scope _ h.inside).frameSize, hxy.1.entry, hxy.2, hbefore.current,
    hbefore.target]
  refine next (emit ?_) fun _ => pure ⟨rfl, h.inside, hbefore.inside⟩
  rw [Λ.code_append, Λ.code_append, Λ.code_append]
  rfl

theorem fetchResult (m : FunctionExit) :
    Mirrors Λ I I (Via Λ.code) (Lower.fetchResult m) (Lower.fetchResult (Λ.functionExit m)) :=
  next (frameSlot _) fun _ => ite (next (frameSlot _) fun _ => pure rfl) (pure rfl)

theorem closeFunction (name : String) {f : FunctionFrame} (hscope : Λ.InProgram f.scope)
    (houter : Λ.InProgram f.outer) :
    Mirrors Λ I I (Via id) (Lower.closeFunction name f)
    (Lower.closeFunction name (Λ.functionFrame f)) := by
  refine next (fetchResult f.exit) fun code => next (emit ?_) fun _ =>
      next (defineFrameSize hscope) fun _ =>
    next (emit rfl) fun _ =>
        next (modify fun _ _ h => { h with current := rfl, target := rfl, inside := houter })
        fun _ =>
    withSession fun _ _ ⟨hI, hs⟩ => ⟨rfl, .mk hI hs⟩
  rw [Λ.code_append, Λ.code_append]
  rfl

theorem defineFunction (name : String) (params : List Param) (ret : ScalarType) (hl : Λ.place l l')
    {body body' : FunctionExit → Lower Unit}
    (h : ∀ exit, Mirrors Λ I J (Via id) (body exit) (body' (Λ.functionExit exit))) :
    Mirrors Λ I J (Via id) (Lower.defineFunction name params ret l body)
      (Lower.defineFunction name (params.map (Param.respell Λ.spell)) ret l' body') := by
  refine bind (openFunction name params ret hl) fun f g hfg => ?_
  obtain ⟨rfl, hscope, houter⟩ := hfg
  exact next (h _) fun _ => closeFunction name hscope houter

theorem functionBody (hl : Λ.place l l') {statements statements' : Lower Bool} (exit : FunctionExit)
    (h : Mirrors Λ I J (Via id) statements statements') :
    Mirrors Λ I J (Via id) (Lower.functionBody l statements exit)
      (Lower.functionBody l' statements' (Λ.functionExit exit)) := by
  refine next h fun jumped => ?_
  cases jumped with
  | true => exact pure rfl
  | false => exact leaveFunction hl fun ty => literal ty.zero

/-! ### The library -/

theorem frameSlots : ∀ xs : List Variable,
    Mirrors Λ I I (Via id) (xs.mapM fun x => Lower.frameSlot x.slot)
      ((xs.map Λ.var).mapM fun x => Lower.frameSlot x.slot)
  | [] => pure rfl
  | x :: xs => by
    rw [List.map_cons, List.mapM_cons, List.mapM_cons]
    exact next (frameSlot x.slot) fun _ => next (frameSlots xs) fun _ => pure rfl

theorem paramOperands (params : List Param) :
    Mirrors Λ I I (Via id) (Lower.paramOperands params)
      (Lower.paramOperands (params.map (Param.respell Λ.spell))) := by
  refine bind scope fun a b hab => ?_
  have hparams : ((params.map (Param.respell Λ.spell)).filterMap fun p => b.getVariable? p.name) =
      (params.filterMap fun p => a.getVariable? p.name).map Λ.var := by
    rw [List.filterMap_map, List.map_filterMap]
    exact congrArg (List.filterMap · params) (funext fun p => hab.getVariable? p.name)
  rw [hparams]
  exact frameSlots _

end Mirrors

namespace Primitive

variable {Λ : Likeness} {I : List String → List String → Prop} {α β γ δ : Type} {R : α → β → Prop}
  {S : γ → δ → Prop}

theorem Body.mirrors_bind {x : Body α} {y : Body β} {f : α → Body γ} {g : β → Body δ}
    (hxy : Mirrors Λ I I R (Body.lift x) (Body.lift y))
    (hfg : ∀ a b, R a b → Mirrors Λ I I S (Body.lift (f a)) (Body.lift (g b))) :
    Mirrors Λ I I S (Body.lift (x >>= f)) (Body.lift (y >>= g)) := by
  intro s t hst
  have hends := hxy.bind hfg s t hst
  rw [Body.lift_bind, Body.lift_bind]
  generalize (Body.lift x >>= fun a => Body.lift (f a)) s = p,
    (Body.lift y >>= fun b => Body.lift (g b)) t = q at hends
  cases hends with
  | ok hab huv => exact .ok hab huv
  | error he _ => exact .error he hst.stats

theorem Body.mirrors_next {x : Body α} {y : Body β} {φ : α → β} {f : α → Body γ} {g : β → Body δ}
    (hxy : Mirrors Λ I I (Via φ) (Body.lift x) (Body.lift y))
    (hfg : ∀ a, Mirrors Λ I I S (Body.lift (f a)) (Body.lift (g (φ a)))) :
    Mirrors Λ I I S (Body.lift (x >>= f)) (Body.lift (y >>= g)) :=
  Body.mirrors_bind hxy fun a b (hab : b = φ a) => hab ▸ hfg a

theorem mirrors_argument (args : List Mem) (index : Nat) :
    Mirrors Λ I I (Via id) (Body.lift (argument args index)) (Body.lift (argument args index)) := by
  rw [lift_argument]
  exact .checked _

theorem mirrors_label (hint : String) :
    Mirrors Λ I I (Via Λ.label) (Body.lift (label hint)) (Body.lift (label hint)) :=
  .mintLabel hint

theorem mirrors_measure (src : Mem) :
    Mirrors Λ I I (Via Λ.code) (Body.lift (measure src)) (Body.lift (measure src)) :=
  Body.mirrors_next (mirrors_label _) fun _ => Body.mirrors_next (mirrors_label _) fun _ =>
    .pure rfl

theorem mirrors_body (p : Primitive) (args : List Mem) :
    Mirrors Λ I I (Via Λ.code) (Body.lift (p.body args)) (Body.lift (p.body args)) := by
  have hargument {γ δ : Type} {S : γ → δ → Prop} {index : Nat} {f : Mem → Body γ} {g : Mem → Body δ}
      (hfg : ∀ m, Mirrors Λ I I S (Body.lift (f m)) (Body.lift (g m))) :
      Mirrors Λ I I S (Body.lift (argument args index >>= f))
      (Body.lift (argument args index >>= g)) := Body.mirrors_next (mirrors_argument args index) hfg
  cases p with
  | len => exact hargument fun _ => mirrors_measure _
  | append =>
    refine hargument fun a => hargument fun b => Body.mirrors_next (mirrors_measure _) fun first =>
      Body.mirrors_next (mirrors_measure _) fun second => .pureVia ?_
    simp only [Λ.code_append]
    rfl
  | slice =>
    exact hargument fun _ => hargument fun _ => hargument fun _ =>
      Body.mirrors_next (mirrors_label _) fun _ => .pure rfl
  | syscall =>
    exact hargument fun _ => hargument fun _ => hargument fun _ => hargument fun _ => .pure rfl
  | key => exact .pure rfl
  | out =>
    refine hargument fun a => Body.mirrors_next (φ := Λ.label) (.place _) fun newline =>
      Body.mirrors_next (mirrors_measure _) fun length => .pureVia ?_
    rw [Λ.code_append]
    rfl
  | dup =>
    refine hargument fun a => Body.mirrors_next (mirrors_measure _) fun length => .pureVia ?_
    simp only [Λ.code_append]
    rfl

end Primitive

/-! ### Expressions -/

/-- Two expressions are evaluated alike, and their places correspond. -/
structure Node.EvaluatesAlike (Λ : Likeness) (I : List String → List String → Prop) (e e' : Node) :
    Prop where
  evaluate : Mirrors Λ I I (Via Λ.lowered) e.evaluate e'.evaluate
  location : Λ.place e.location e'.location

namespace Node.EvaluatesAlike

variable {Λ : Likeness} {I : List String → List String → Prop} {l l' : Location} (hl : Λ.place l l')
include hl

theorem constant {v : Literal} (h : form.literal? = some v) :
    (Node.mk form l).EvaluatesAlike Λ I (.mk form l') := by
  refine ⟨?_, hl⟩
  rw [Node.evaluate_literal h, Node.evaluate_literal h]
  exact .literal v

theorem var : (Node.mk (.var name) l).EvaluatesAlike Λ I (.mk (.var (Λ.spell name)) l') :=
  ⟨.readVariable _ hl, hl⟩

theorem addressOf :
    (Node.mk (.addressOf name) l).EvaluatesAlike Λ I (.mk (.addressOf (Λ.spell name)) l') :=
  ⟨.addressOf _ hl, hl⟩

theorem step {name : String} {op : StepOp} {fixity : Fixity} :
    (Node.mk (.step name op fixity) l).EvaluatesAlike Λ I
    (.mk (.step (Λ.spell name) op fixity) l') :=
  ⟨.stepVariable _ _ _ hl, hl⟩

theorem binary {op : BinaryOp} {b b' : Node} (ha : a.EvaluatesAlike Λ I a')
    (hb : b.EvaluatesAlike Λ I b') :
    (Node.mk (.binary op a b) l).EvaluatesAlike Λ I (.mk (.binary op a' b') l') := by
  refine ⟨?_, hl⟩
  unfold Node.evaluate
  exact .next ha.evaluate fun x => .next hb.evaluate fun y => .combine _ x y hl

theorem signed {sign : Sign} (ha : a.EvaluatesAlike Λ I a') :
    (Node.mk (.signed sign a) l).EvaluatesAlike Λ I (.mk (.signed sign a') l') := by
  refine ⟨?_, hl⟩
  unfold Node.evaluate
  exact .next ha.evaluate fun v => .applySign _ v hl

theorem cast {ty : ScalarType} {mode : CastMode} (ha : a.EvaluatesAlike Λ I a') :
    (Node.mk (.cast a ty mode) l).EvaluatesAlike Λ I (.mk (.cast a' ty mode) l') := by
  refine ⟨?_, hl⟩
  unfold Node.evaluate
  exact .next ha.evaluate fun v => .applyCast v _ _ hl

theorem misplaced (h : form.isExpression = false) (h' : form'.isExpression = false)
    (hname : form'.name = form.name) : (Node.mk form l).EvaluatesAlike Λ I (.mk form' l') := by
  refine ⟨?_, hl⟩
  rw [Node.evaluate_misplaced h, Node.evaluate_misplaced h', hname]
  exact .reject hl rfl

omit hl in
/-- Arguments evaluated alike one by one are evaluated alike, for parameters of the same types. -/
theorem args {ns ns' : List Node} (h : List.Forall₂ (Node.EvaluatesAlike Λ I) ns ns') :
    ∀ {params params' : List Param}, params'.map Param.ty = params.map Param.ty →
      Mirrors Λ I I (Via (List.map Λ.lowered)) (Node.evaluateArgs name params ns)
        (Node.evaluateArgs name params' ns') := by
  induction h with
  | nil =>
    intro params params' _
    unfold Node.evaluateArgs
    exact .pure rfl
  | cons hn _ ih =>
    intro params params' hty
    cases params with
    | nil =>
      obtain rfl := List.map_eq_nil_iff.1 hty
      unfold Node.evaluateArgs
      exact .next (.tell _ _) fun _ => .next hn.evaluate fun _ => .next (ih rfl) fun _ => .pure rfl
    | cons p params =>
      obtain ⟨p', params', rfl, hp, hparams⟩ := List.map_eq_cons_iff.1 hty
      unfold Node.evaluateArgs
      rw [hp]
      exact .next (.expect _ hn.location hn.evaluate) fun _ => .next (ih hparams) fun _ => .pure rfl

theorem call {args args' : List Node} (h : List.Forall₂ (Node.EvaluatesAlike Λ I) args args') :
    (Node.mk (.call name args) l).EvaluatesAlike Λ I (.mk (.call name args') l') := by
  refine ⟨?_, hl⟩
  unfold Node.evaluate
  rw [← h.length_eq]
  refine .bind (.resolveCall name args.length hl) fun x y hxy => ?_
  obtain ⟨r, f⟩ := x
  obtain ⟨r', g⟩ := y
  obtain ⟨rfl, hfg⟩ := hxy
  exact .next (Node.EvaluatesAlike.args h hfg.types) fun values => .invoke hfg _ values

end Node.EvaluatesAlike

theorem Mirrors.evaluateOr {value value' : Option Node}
    (h : Option.Rel (Node.EvaluatesAlike Λ I) value value')
    (ty : ScalarType) :
    Mirrors Λ I I (Via Λ.lowered) (Node.evaluateOr value ty) (Node.evaluateOr value' ty) := by
  cases h with
  | none => exact .literal _
  | some hv => exact .expect ty hv.location hv.evaluate

/-! ### Statements -/

namespace Node

variable {Λ : Likeness} {I J K L : List String → List String → Prop} {l l' : Location}

theorem mirrors_function (hl : Λ.place l l') {params : List Param} {ret : ScalarType}
    (h : Mirrors Λ I J (Via id) (Node.executeAll false body) (Node.executeAll false body')) :
    Mirrors Λ I J (Via id) (Node.mk (.function name params ret body) l).execute
      (Node.mk (.function name (params.map (Param.respell Λ.spell)) ret body') l').execute := by
  unfold Node.execute
  exact .next (.defineFunction _ _ _ hl fun exit => .functionBody hl exit h) fun _ => .pure rfl

theorem mirrors_declare (hl : Λ.place l l') {ty : ScalarType} {value value' : Option Node}
    (h : Option.Rel (Node.EvaluatesAlike Λ I) value value') :
    Mirrors Λ I I (Via id) (Node.mk (.declare name ty value) l).execute
      (Node.mk (.declare (Λ.spell name) ty value') l').execute := by
  unfold Node.execute
  exact .next (.declare name ty hl (.evaluateOr h ty)) fun _ => .pure rfl

theorem mirrors_assign (hl : Λ.place l l') {value value' : Node}
    (h : value.EvaluatesAlike Λ I value') :
    Mirrors Λ I I (Via id) (Node.mk (.assign name value) l).execute
    (Node.mk (.assign (Λ.spell name) value') l').execute := by
  unfold Node.execute
  exact .next (.assign name hl fun _ => .expect _ h.location h.evaluate) fun _ => .pure rfl

theorem mirrors_store (hl : Λ.place l l') {address address' value value' : Node}
    (ha : address.EvaluatesAlike Λ I address') (hv : value.EvaluatesAlike Λ I value') :
    Mirrors Λ I I (Via id) (Node.mk (.store address value) l).execute
    (Node.mk (.store address' value') l').execute := by
  unfold Node.execute
  exact .next (.storeAt hl ha.evaluate hv.evaluate) fun _ => .pure rfl

theorem mirrors_conditional {condition condition' : Node} {o o' : Otherwise}
    (hc : condition.EvaluatesAlike Λ I condition')
    (hbody : Mirrors Λ I J (Via id) (Node.executeAll false body) (Node.executeAll false body'))
    (hlabel : ∀ exit, Mirrors Λ I I (Via Λ.label) (o.label exit) (o'.label (Λ.label exit)))
    (hrest : ∀ exit next, Mirrors Λ J K (Via id) (o.execute exit next)
      (o'.execute (Λ.label exit) (Λ.label next))) :
    Mirrors Λ I K (Via id) (Node.mk (.conditional condition body o) l).execute
      (Node.mk (.conditional condition' body' o') l').execute := by
  unfold Node.execute
  exact .next (.mintLabel _) fun exit => .next (hlabel exit) fun after =>
    .next (.guarded after hc.location hc.evaluate hbody) fun _ => .next (hrest exit after) fun _ =>
      .pure rfl

theorem mirrors_whileLoop {condition condition' : Node}
    (hc : condition.EvaluatesAlike Λ I condition')
    (hbody : Mirrors Λ I J R (Node.executeAll false body) (Node.executeAll false body')) :
    Mirrors Λ I J (Via id) (Node.mk (.whileLoop condition body) l).execute
      (Node.mk (.whileLoop condition' body') l').execute := by
  unfold Node.execute
  exact .next (.loop hc.location hc.evaluate hbody (.pure (R := Via id) rfl)) fun _ => .pure rfl

theorem mirrors_forLoop {T : Bool → Bool → Prop}
    {start start' condition condition' step step' : Node}
    (hstart : Mirrors Λ I J S start.execute start'.execute)
    (hc : condition.EvaluatesAlike Λ J condition')
    (hbody : Mirrors Λ J K R (Node.executeAll false body) (Node.executeAll false body'))
    (hstep : Mirrors Λ K L T step.execute step'.execute) :
    Mirrors Λ I L (Via id) (Node.mk (.forLoop start condition step body) l).execute
      (Node.mk (.forLoop start' condition' step' body') l').execute := by
  unfold Node.execute
  exact .next (.block (.bind hstart fun _ _ _ => .next (.loop hc.location hc.evaluate hbody hstep)
    fun _ => .pure rfl)) fun _ => .pure rfl

/-- A file is skipped in both compilations or in neither. -/
theorem mirrors_included {path : String} {program program' : List Node}
    (hseen : ∀ a b, I a b → (path ∈ b ↔ path ∈ a))
    (hold : ∀ a b, I a b → path ∈ a → J a b)
    (hnew : ∀ a b, I a b → path ∉ a → J (path :: a) (path :: b)) (hskip : ∀ a b, J a b → K a b)
    (hprogram : Mirrors Λ J K R (Node.executeAll false program) (Node.executeAll false program')) :
    Mirrors Λ I K (Via id) (Node.mk (.included path program) l).execute
      (Node.mk (.included path program') l').execute := by
  unfold Node.execute
  refine .next (.markIncluded hseen hold hnew) fun isNew => ?_
  cases isNew with
  | true =>
    exact .next (.remark _ _) fun _ => .next (.emit rfl) fun _ => .bind hprogram fun _ _ _ =>
      .pure rfl
  | false => exact .weaken hskip (.next (.tell _ _) fun _ => .pure rfl)

theorem mirrors_breakLoop (hl : Λ.place l l') :
    Mirrors Λ I I (Via id) (Node.mk .breakLoop l).execute (Node.mk .breakLoop l').execute :=
  .next (.leaveLoop hl) fun _ => .pure rfl

theorem mirrors_continueLoop (hl : Λ.place l l') :
    Mirrors Λ I I (Via id) (Node.mk .continueLoop l).execute (Node.mk .continueLoop l').execute :=
  .next (.nextRound hl) fun _ => .pure rfl

theorem mirrors_ret (hl : Λ.place l l') {value value' : Option Node}
    (h : Option.Rel (Node.EvaluatesAlike Λ I) value value') :
    Mirrors Λ I I (Via id) (Node.mk (.ret value) l).execute (Node.mk (.ret value') l').execute := by
  unfold Node.execute
  exact .next (.leaveFunction hl (.evaluateOr h)) fun _ => .pure rfl

theorem mirrors_call {args args' : List Node}
    (h : (Node.mk (.call name args) l).EvaluatesAlike Λ I (.mk (.call name args') l')) :
    Mirrors Λ I I (Via id) (Node.mk (.call name args) l).execute
    (Node.mk (.call name args') l').execute := by
  unfold Node.execute
  exact .next h.evaluate fun _ => .next (.emit rfl) fun _ => .pure rfl

theorem mirrors_step (hl : Λ.place l l') {op : StepOp} {fixity : Fixity} :
    Mirrors Λ I I (Via id) (Node.mk (.step name op fixity) l).execute
      (Node.mk (.step (Λ.spell name) op fixity) l').execute := by
  unfold Node.execute
  exact .next (.stepVariable _ _ _ hl) fun _ => .next (.emit rfl) fun _ => .pure rfl

theorem mirrors_misplaced (hl : Λ.place l l') (h : form.isStatement = false)
    (h' : form'.isStatement = false)
    (hname : form'.name = form.name) :
    Mirrors Λ I J (Via id) (Node.mk form l).execute (Node.mk form' l').execute := by
  rw [Node.execute_misplaced h, Node.execute_misplaced h', hname]
  exact .reject hl rfl

end Node

namespace Otherwise

variable {Λ : Likeness} {I J K : List String → List String → Prop}

theorem mirrors_block (exit next : Label)
    (h : Mirrors Λ I J (Via id) (Node.executeAll false body) (Node.executeAll false body')) :
    Mirrors Λ I J (Via id) ((Otherwise.block body).execute exit next)
    ((Otherwise.block body').execute (Λ.label exit) (Λ.label next)) := by
  unfold Otherwise.execute
  exact .next (.emit rfl) fun _ => .next (.block h) fun _ => .emit rfl

theorem mirrors_chained {condition condition' : Node} {o o' : Otherwise} {l' : Location}
    (exit next : Label) (hc : condition.EvaluatesAlike Λ I condition')
    (hbody : Mirrors Λ I J (Via id) (Node.executeAll false body) (Node.executeAll false body'))
    (hlabel : ∀ exit, Mirrors Λ I I (Via Λ.label) (o.label exit) (o'.label (Λ.label exit)))
    (hrest : ∀ exit next, Mirrors Λ J K (Via id) (o.execute exit next)
      (o'.execute (Λ.label exit) (Λ.label next))) :
    Mirrors Λ I K (Via id) ((Otherwise.chained (.mk (.conditional condition body o) l)).execute exit
      next) ((Otherwise.chained (.mk (.conditional condition' body' o') l')).execute (Λ.label exit)
        (Λ.label next)) := by
  unfold Otherwise.execute
  exact .next (.emit rfl) fun _ => .next (hlabel exit) fun after =>
    .next (.guarded after hc.location hc.evaluate hbody) fun _ => hrest exit after

theorem mirrors_misplaced {l' : Location} (exit next : Label) (hl : Λ.place l l')
    (h : form.isConditional = false)
    (h' : form'.isConditional = false) (hname : form'.name = form.name) :
    Mirrors Λ I J (Via id) ((Otherwise.chained (.mk form l)).execute exit next)
      ((Otherwise.chained (.mk form' l')).execute (Λ.label exit) (Λ.label next)) := by
  rw [Otherwise.execute_misplaced h, Otherwise.execute_misplaced h', hname]
  exact .next (.emit rfl) fun _ => .reject hl rfl

end Otherwise

/-! ### Programs that are spelled alike -/

/-- The likeness of programs that differ in their includes only. -/
def Likeness.same (behind : Session) (library : Nat) : Likeness :=
  ⟨behind, id, Function.injective_id, library, Eq⟩

theorem Failure.Alike.eq_same {σ : Session} {k : Nat} :
    ∀ {e e' : Failure}, e.Alike (.same σ k) e' → e' = e
  | .rejected ⟨cause, location⟩, .rejected ⟨_, _⟩, ⟨hcause, hlocation⟩ => by
    obtain rfl : location = _ := hlocation
    obtain rfl : _ = cause := hcause.trans (Cause.respell_id cause)
    rfl
  | .fault _, .fault _, h => congrArg Failure.fault h

theorem ResultsAlike.eq_map {σ : Session} {k : Nat} {f : α → β} {x : Except Failure α}
    {y : Except Failure β} (h : ResultsAlike (Failure.Alike (.same σ k)) (Via f) x y) :
    y = x.map f := by
  cases h with
  | ok hab => exact congrArg Except.ok hab
  | error he => exact congrArg Except.error he.eq_same

theorem Param.map_respell_id (params : List Param) : params.map (Param.respell id) = params :=
  List.map_id _

section

variable {σ : Session} {k : Nat} {I : List String → List String → Prop}

theorem Node.same_expressionCases :
    ExpressionCases (fun n => n.EvaluatesAlike (.same σ k) I n)
      (fun ns => List.Forall₂ (Node.EvaluatesAlike (.same σ k) I) ns ns) where
  constant hv := .constant rfl hv
  var := .var rfl
  binary hleft hright := .binary rfl hleft hright
  signed hvalue := .signed rfl hvalue
  step := .step rfl
  call hargs := .call rfl hargs
  addressOf := .addressOf rfl
  cast hvalue := .cast rfl hvalue
  misplaced hform := .misplaced rfl hform hform rfl
  nil := .nil
  cons hn hns := .cons hn hns

theorem Node.evaluatesAlike_same (n : Node) : n.EvaluatesAlike (.same σ k) I n :=
  Node.same_expressionCases.node n

theorem Node.evaluatesAlike_same_option (value : Option Node) :
    Option.Rel (Node.EvaluatesAlike (.same σ k) I) value value := by
  cases value with
  | none => exact .none
  | some v => exact .some v.evaluatesAlike_same

theorem Node.mirrors_function_same {params : List Param} {ret : ScalarType}
    (h : Mirrors (.same σ k) I J (Via id) (Node.executeAll false body)
      (Node.executeAll false body')) :
    Mirrors (.same σ k) I J (Via id) (Node.mk (.function name params ret body) l).execute
      (Node.mk (.function name params ret body') l).execute := by
  have hfunction :
      Mirrors (.same σ k) I J (Via id) (Node.mk (.function name params ret body) l).execute
      (Node.mk (.function name (params.map (Param.respell id)) ret body') l).execute :=
      Node.mirrors_function rfl h
  rwa [Param.map_respell_id] at hfunction

theorem Mirrors.primitiveBody (p : Primitive) (exit : FunctionExit) :
    Mirrors (.same σ k) I I (Via id) (Lower.primitiveBody p exit)
      (Lower.primitiveBody p (Likeness.functionExit (.same σ k) exit)) := by
  have hparams := paramOperands (Λ := .same σ k) (I := I) p.params
  rw [show p.params.map (Param.respell (Likeness.same σ k).spell) = p.params from
    Param.map_respell_id _] at hparams
  rw [primitiveBody_eq, primitiveBody_eq]
  exact next hparams fun _ => next (Primitive.mirrors_body p _) fun _ =>
      next (resultCode 0 exit) fun _ =>
    emit (Likeness.code_append _ _ _).symm

/-- The library mirrors itself. -/
theorem Mirrors.registerLibrary :
    Mirrors (.same σ k) I I (Via id) Lower.registerLibrary Lower.registerLibrary := by
  refine next (forM _ fun p _ => ?_) fun _ => tell _ _
  have hfunction := defineFunction (Λ := .same σ k) (I := I) p.name p.params p.ret (l := .internal)
      rfl fun exit =>
    primitiveBody p exit
  rwa [show p.params.map (Param.respell (Likeness.same σ k).spell) = p.params from
    Param.map_respell_id _] at hfunction

end

/-! ### Whole compilations -/

section

variable {Λ : Likeness} {I J : List String → List String → Prop}

theorem Mirrors.openProgram : Mirrors Λ I I (Via id) KuAsm.openProgram KuAsm.openProgram := by
  refine .bind .get fun s t h => .next (.remark _ _) fun note => .bind .get fun s' t' h' => .emit ?_
  rw [h.root.1, h.root.2, (h'.tree.scope 0 (.inl rfl)).frameSize, Λ.code_append]
  rfl

theorem Mirrors.closeProgram (jumped : Bool) :
    Mirrors Λ I I (Via id) (KuAsm.closeProgram jumped) (KuAsm.closeProgram jumped) := by
  refine .bind .get fun s t h => ?_
  rw [h.root.1, h.root.2]
  have hroot : Λ.InProgram 0 := .inl rfl
  have hend : Mirrors Λ I I (Via id)
      (do Lower.emit [mov eax (.imm Convention.sysExit), xor ebx ebx, kernel]
          Lower.defineFrameSize 0
          Lower.tell (.programLowered (← MonadState.get).tree.size))
      (do Lower.emit [mov eax (.imm Convention.sysExit), xor ebx ebx, kernel]
          Lower.defineFrameSize 0
          Lower.tell (.programLowered (← MonadState.get).tree.size)) :=
    .next (.emit rfl) fun _ => .next (.defineFrameSize hroot) fun _ => .bind .get fun _ _ _ =>
      .tell _ _
  cases jumped with
  | true => exact hend
  | false => exact .next (.exitFrame hroot []) fun _ => hend

/-- The states in which compilations start are alike. -/
theorem State.start_alike (σ session : Session) (journal : List Notice)
    (hI : I session.included included)
    (comments : Bool) : (State.start session comments).Alike (.same σ 0) I
      (State.start (Likeness.session (.same σ 0) session journal included) false) := by
  have hframe (n : Nat) :
      Likeness.label (.same σ 0) (.fresh n "frame") = .fresh (σ.nextLabel + n) "frame" := by
    refine if_neg fun h => ?_
    have hhint := congrArg Label.hint h
    exact absurd (show (Label.fresh 0 "frame").hint = (default : Label).hint from hhint)
      (by decide +kernel)
  have hscope : (Scope.fresh none (.fresh session.nextLabel "frame")).Alike (.same σ 0)
      (.fresh none (.fresh (σ.nextLabel + session.nextLabel) "frame")) :=
    ⟨rfl, rfl, .nil, rfl, rfl, rfl, rfl, (hframe _).symm, nofun⟩
  refine ⟨.mk hI (Nat.succ_pos _), rfl, ⟨rfl, Nat.zero_le _, fun i _ => ?_⟩, rfl, ⟨rfl, rfl⟩, rfl,
    rfl, .inl rfl⟩
  cases i with
  | zero => exact hscope
  | succ i => exact .default

end

/-- The library is set up in any session. -/
theorem registerLibrary_ok (session : Session) :
    ∃ s, registerLibrary (State.start session false) = .ok () s := by
  obtain ⟨s, hs, -⟩ := registerLibrary_situation false
  have hends :=
    Mirrors.registerLibrary _ _
    (State.start_alike (I := fun _ b => b = session.included) session .empty
      session.journal rfl false)
  rw [hs] at hends
  change EndsAlike _ _ _ _ (registerLibrary (State.start session false)) at hends
  generalize registerLibrary (State.start session false) = y at hends ⊢
  cases hends
  exact ⟨_, rfl⟩

/-- The outermost scope has no variables, and there are no other scopes of the program yet, so the
spelling makes no difference. -/
theorem State.Alike.spelled {s t : State} (h : s.Alike (.same Λ.behind 0) I t)
    (hcurrent : s.current = 0)
    (hvars : (s.tree.scope 0).vars = []) (hparent : (s.tree.scope 0).parent = none) :
    s.Alike { Λ with library := s.tree.size } I t := by
  have hsession (σ : Session) : s.session.Alike (.same Λ.behind 0) I σ →
      s.session.Alike { Λ with library := s.tree.size } I σ := fun ⟨hI, hs⟩ => .mk hI hs
  have hzero := h.tree.scope 0 (.inl rfl)
  have hscope : (s.tree.scope 0).Alike { Λ with library := s.tree.size } (t.tree.scope 0) :=
    { hzero with
      vars := by
        rw [hzero.vars, hvars]
        rfl
      functions := hzero.functions.imp fun _ _ hfg =>
        ⟨hfg.name, hfg.ret, hfg.types, hfg.entry, hfg.returnLabel⟩
      inside := by
        rw [hparent]
        nofun }
  refine
    { h with
      session := hsession _ h.session
      tree := ⟨h.tree.size, Nat.le_refl _, fun i hi => ?_⟩
      inside := .inl hcurrent }
  rcases hi with rfl | hi
  · exact hscope
  · rw [ScopeTree.scope_of_le hi, ScopeTree.scope_of_le (h.tree.size ▸ hi)]
    exact .default

/-- Behind the library the states are alike under any spelling. -/
theorem registerLibrary_alike (Λ : Likeness) (session : Session) (journal : List Notice)
    (hI : I session.included included) (comments : Bool) :
    ∃ s t, registerLibrary (State.start session comments) = .ok () s ∧
      registerLibrary (State.start (Λ.session session journal included) false) = .ok () t ∧
      s.Alike { Λ with library := s.tree.size } I t := by
  have hends := Mirrors.registerLibrary _ _ (State.start_alike Λ.behind session journal hI comments)
  obtain ⟨t, ht⟩ := registerLibrary_ok (Λ.session session journal included)
  change EndsAlike _ _ _ _
    (registerLibrary (State.start (Λ.session session journal included) false)) at hends
  rw [ht] at hends
  generalize hs : registerLibrary (State.start session comments) = x at hends
  cases hends with
  | @ok _ _ s _ _ hst =>
    have hkeeps : registerLibrary.KeepsVars :=
      .bind (KeepsVars.law.forM (fun p => KeepsVars.localLaw.defineFunction _ _ _ _ fun exit =>
        IsGrowing.law.primitiveBody p exit) _) fun _ => KeepsVars.law.tell _
    obtain ⟨hgrows, hvars⟩ := hkeeps _ _ _ (State.formed_start session comments) hs
    have hcurrent : s.current = 0 := hgrows.current
    refine ⟨s, t, rfl, ht, hst.spelled hcurrent ?_ ?_⟩
    · rw [← hcurrent]
      exact hvars
    · rw [← hcurrent]
      exact hgrows.here.parent

/-- The unit in the place of another one. -/
def Likeness.assembly (Λ : Likeness) (a : Assembly) : Assembly :=
  ⟨Λ.code a.code, Λ.behind.stats.plus a.stats⟩

/-- Programs whose statements mirror each other are compiled to units that differ in numbers, or
fail alike, and the counts of the other session are added. -/
theorem compileIn_alike (Λ : Likeness) (session : Session) (journal : List Notice)
    (hI : I session.included included) {p p' : Program}
    (h : ∀ k, Mirrors { Λ with library := k } I J (Via id) (Node.executeAll false p.body)
      (Node.executeAll false p'.body)) (comments : Bool) (entry : String) :
    ResultsAlike (Failure.Alike Λ) (Via Λ.assembly) (compileIn session { comments, entry } p).1
        (compileIn (Λ.session session journal included) { comments := false, entry } p').1 ∧
      (compileIn (Λ.session session journal included) { comments := false, entry } p').2.stats =
        Λ.behind.stats.plus (compileIn session { comments, entry } p).2.stats := by
  obtain ⟨s, t, hs, ht, hst⟩ := registerLibrary_alike Λ session journal hI comments
  have hprogram :
      Mirrors { Λ with library := s.tree.size } I J (Via id) (lowerProgram p) (lowerProgram p') :=
    .next .openProgram fun _ => .next (h _) fun jumped => .closeProgram jumped
  have hends := hprogram s t hst
  have hrun : (lowerUnit p).run (State.start session comments) = lowerProgram p s :=
    bind_of_eq_ok hs
  have hrun' : (lowerUnit p').run (State.start (Λ.session session journal included) false) =
      lowerProgram p' t := bind_of_eq_ok ht
  unfold compileIn
  dsimp only
  rw [hrun, hrun']
  generalize lowerProgram p s = x, lowerProgram p' t = y at hends
  cases hends with
  | error he hstats => exact ⟨.error he, hstats⟩
  | ok _ hst =>
    refine ⟨.ok ?_, hst.stats⟩
    rw [hst.listing, hst.stats]
    exact congrArg (Assembly.mk · _) (Likeness.listing_assemble _ _ _)

end KuAsm
