import KuAsm.Proofs.Checking
import KuAsm.Proofs.Layout

/-!
# How far frames grow

Bytes of a frame are reserved and never given back, and every new heap value gets an id.  What a
construct reserves is charged to its nodes: compiling a program of `N` nodes and parameters reserves
at most `12 * N` bytes of any frame and makes at most `N` ids.  An expression costs four bytes less
than its nodes pay for, and these stage it as an argument.

As long as no frame reaches the middle of the address space, no slot is out of reach, and no
calculation of an offset leaves the range of its numbers.

## Main statements

* `Program.weight`: the number of nodes and parameters of a program.
* `Lower.Costs`: an action reserves so many bytes, makes so many ids, and stops with a fault only if
  frames are large.
* `Lower.Meets`: the same, together with all states that are met on the way.
* `frames_stay_small`: the bounds for whole programs, and what follows for programs that are not
  huge.
-/

namespace KuAsm

open Lower Asm Reg

/-! ### The weight of nodes -/

/-- The number of parameters of a function. -/
def Node.arity : Node → Nat
  | .mk (.function _ params _ _) _ => params.length
  | _ => 0

/-- The number of nodes, each function counted with its parameters. -/
def Node.weigh (ns : List Node) : Nat := (ns.map fun n => 1 + n.arity).sum

theorem Node.weigh_append (ns ms : List Node) : weigh (ns ++ ms) = weigh ns + weigh ms := by
  simp [weigh]

theorem Node.weigh_nodes (form : Form) (l : Location) :
    weigh (Node.mk form l).nodes = 1 + (Node.mk form l).arity + weigh form.nodes := by
  simp [weigh, Node.nodes]

theorem Node.weigh_nodes_pos (n : Node) : 1 ≤ weigh n.nodes := by
  obtain ⟨form, l⟩ := n
  rw [weigh_nodes]
  omega

/-! ### Room in frames -/

/-- No slot that the scope knows of ends beyond byte `M` of its frame. -/
def Scope.Within (M : Nat) (sc : Scope) : Prop := ∀ x ∈ sc.slots, x.bound ≤ M

/-- The slots of a variable end no further. -/
structure Variable.Within (M : Nat) (v : Variable) : Prop where
  slot : v.slot.bound ≤ M
  cell : ∀ c, v.sizeCell = some c → c.bound ≤ M

/-- The slots of a result end no further. -/
structure FunctionExit.Within (M : Nat) (m : FunctionExit) : Prop where
  result : m.result.bound ≤ M
  resultSize : m.resultSize.bound ≤ M

theorem signedWord_of_lt {n : Nat} (h : n < halfCount) : signedWord n = n := by
  unfold signedWord
  rw [Nat.mod_eq_of_lt (Nat.lt_trans h (by decide)), if_pos h]

theorem Slot.disp_of_lt {x : Slot} (h : x.bound < halfCount) : x.disp = .ok (-(x.bound : Int)) := by
  unfold Slot.disp
  rw [if_neg (Nat.not_le_of_lt (Nat.lt_trans h (by decide))), if_neg (Nat.ne_of_lt h),
    signedWord_of_lt h]

theorem Mem.exists_slot {x : Slot} (base : Reg) (h : x.bound < halfCount) :
    ∃ m, Mem.slot base x = .ok m := by
  rw [Mem.slot, Slot.disp_of_lt h]
  exact ⟨_, rfl⟩

/-- A value that is to be released enters the free set. -/
theorem Scope.Within.insert {M : Nat} {sc : Scope} {id : ReclaimId} {e : Staged} (h : sc.Within M)
    (haddress : e.address.bound ≤ M) (hsize : e.size.bound ≤ M) :
    Scope.Within M { sc with freeSet := sc.freeSet.insert id e } := by
  intro x hx
  rcases Scope.mem_slots.1 hx with hm | hv | ⟨e', he, hx⟩
  · exact h x (Scope.mem_slots.2 (.inl hm))
  · exact h x (Scope.mem_slots.2 (.inr (.inl hv)))
  · rcases FreeSet.mem_insertEntry he with rfl | he
    · simp only [Staged.slots, List.mem_cons, List.not_mem_nil, or_false] at hx
      rcases hx with rfl | rfl
      · exact haddress
      · exact hsize
    · exact h x (Scope.mem_slots.2 (.inr (.inr ⟨e', he, hx⟩)))

theorem Scope.Within.same {M : Nat} {sc sc' : Scope} (h : sc.Within M)
    (hfixed : sc'.fixed = sc.fixed)
    (hfree : ∀ e ∈ sc'.freeSet.entries, e ∈ sc.freeSet.entries) : sc'.Within M := by
  intro x hx
  rw [Scope.mem_slots_of_fixed, hfixed] at hx
  exact h x (Scope.mem_slots_of_fixed.2 (hx.imp id fun ⟨e, he, hx⟩ => ⟨e, hfree e he, hx⟩))

theorem Scope.Within.declared {M : Nat} {sc : Scope} {name : String} {ty : ScalarType}
    (h : sc.Within M) (hused : (sc.declared name ty).used ≤ M) :
    (sc.newVariable name ty).Within M ∧ (sc.declared name ty).Within M := by
  have hnew : (sc.newVariable name ty).Within M := by
    unfold Scope.declared at hused
    refine ⟨Nat.le_of_add_right_le hused, fun c hc => ?_⟩
    unfold Scope.newVariable at hc
    split at hc
    · cases hc
      simpa [Slot.bound, *] using hused
    · cases hc
  refine ⟨hnew, fun x hx => ?_⟩
  rcases Scope.mem_slots.1 hx with hm | ⟨v, hv, hx⟩ | he
  · exact h x (Scope.mem_slots.2 (.inl hm))
  · rcases List.mem_append.1 hv with hv | hv
    · exact h x (Scope.mem_slots.2 (.inr (.inl ⟨v, hv, hx⟩)))
    · rw [List.mem_singleton.1 hv] at hx
      rcases hx with rfl | hx
      · exact hnew.slot
      · exact hnew.cell x hx
  · exact h x (Scope.mem_slots.2 (.inr (.inr he)))

/-- Every frame has room for `b` bytes more before it is larger than `M`. -/
structure State.Room (M b : Nat) (s : State) : Prop where
  used : ∀ i : Nat, (s.tree.scope i).used + b ≤ M
  within : ∀ i : Nat, (s.tree.scope i).Within M

/-- No frame has grown by more than `b` bytes from `s` to `t`, and no more than `n` ids were
made. -/
structure State.Charged (M b n : Nat) (s t : State) : Prop where
  used : ∀ i : Nat, (t.tree.scope i).used ≤ (s.tree.scope i).used + b
  ids : t.session.nextReclaim ≤ s.session.nextReclaim + n
  within : ∀ i : Nat, (t.tree.scope i).Within M

variable {M b b' n n' : Nat} {s t u : State}

namespace State

theorem Room.mono (h : s.Room M b) (hb : b' ≤ b) : s.Room M b' :=
  ⟨fun i => Nat.le_trans (Nat.add_le_add_left hb _) (h.used i), h.within⟩

theorem Charged.mono (h : s.Charged M b n t) (hb : b ≤ b') (hn : n ≤ n') : s.Charged M b' n' t :=
  ⟨fun i => Nat.le_trans (h.used i) (Nat.add_le_add_left hb _),
    Nat.le_trans h.ids (Nat.add_le_add_left hn _), h.within⟩

theorem Charged.room (h : s.Charged M b n t) (hs : s.Room M (b + b')) : t.Room M b' := by
  refine ⟨fun i => ?_, h.within⟩
  have hused := h.used i
  have hroom := hs.used i
  omega

theorem Charged.trans (h : s.Charged M b n t) (k : t.Charged M b' n' u) :
    s.Charged M (b + b') (n + n') u where
  used i := by
    have hused := h.used i
    have hmore := k.used i
    omega
  ids := by
    have hids := h.ids
    have hmore := k.ids
    omega
  within := k.within

/-- Another scope in the place of one. -/
theorem Room.revised {i : ScopeId} {sc : Scope} (hs : s.Room M b) (htree : t.tree = s.tree.set i sc)
    (hused : sc.used ≤ (s.tree.scope i).used + b) (hsc : sc.Within M)
    (hids : t.session.nextReclaim ≤ s.session.nextReclaim + n) : s.Charged M b n t := by
  have hscope (j : Nat) : (t.tree.scope j).used ≤ (s.tree.scope j).used + b ∧
      (t.tree.scope j).Within M := by
    rw [htree]
    by_cases hj : j = i
    · subst hj
      by_cases hlt : j < s.tree.size
      · rw [ScopeTree.scope_set_self sc hlt]
        exact ⟨hused, hsc⟩
      · have hnone : (s.tree.set j sc).scope j = s.tree.scope j := by
          rw [ScopeTree.scope_of_le (Nat.le_of_not_lt hlt),
            ScopeTree.scope_of_le (by simpa using hlt)]
        rw [hnone]
        exact ⟨Nat.le_add_right _ _, hs.within j⟩
    · rw [ScopeTree.scope_set_of_ne sc hj]
      exact ⟨Nat.le_add_right _ _, hs.within j⟩
  exact ⟨fun j => (hscope j).1, hids, fun j => (hscope j).2⟩

/-- What is in no scope takes no room. -/
theorem Room.same (hs : s.Room M b) (htree : t.tree = s.tree)
    (hids : t.session.nextReclaim ≤ s.session.nextReclaim + n) : s.Charged M b n t := by
  refine ⟨fun i => ?_, hids, ?_⟩
  · rw [htree]
    exact Nat.le_add_right _ _
  · rw [htree]
    exact hs.within

/-- A new scope takes no room. -/
theorem Room.pushed {parent : Option ScopeId} {l : Label} (hs : s.Room M b)
    (htree : t.tree = s.tree.push parent l)
    (hids : t.session.nextReclaim ≤ s.session.nextReclaim + n) : s.Charged M b n t := by
  have hscope (j : Nat) : (t.tree.scope j).used ≤ (s.tree.scope j).used ∧
      (t.tree.scope j).Within M := by
    rw [htree]
    rcases Nat.lt_trichotomy j s.tree.size with hlt | rfl | hlt
    · rw [ScopeTree.scope_push_of_lt parent l hlt]
      exact ⟨Nat.le_refl _, hs.within j⟩
    · rw [ScopeTree.scope_push_size]
      exact ⟨Nat.zero_le _, List.forall_mem_nil _⟩
    · rw [ScopeTree.scope_of_le (by simp [ScopeTree.push, ScopeTree.size] at hlt ⊢; omega)]
      exact ⟨Nat.zero_le _, List.forall_mem_nil _⟩
  exact ⟨fun j => Nat.le_trans (hscope j).1 (Nat.le_add_right _ _), hids, fun j => (hscope j).2⟩

end State

/-! ### Costs of actions -/

/-- From `s`, if there is room, the action grows no frame by more than `b` bytes and makes no more
than `n` ids, however it ends.  It yields what `Q` says, and it stops with a fault only if the
frames may reach the middle of the address space. -/
def Lower.Costs {α : Type} (M b n : Nat) (x : Lower α) (s : State) (Q : α → Prop := fun _ => True) :
    Prop :=
  s.Room M b → match x s with
    | .ok a t => s.Charged M b n t ∧ Q a
    | .error e t => s.Charged M b n t ∧ ∀ f, e = .fault f → halfCount ≤ M

/-- An action that does nothing to scopes and ids. -/
class Lower.IsIdle {α : Type} (x : Lower α) : Prop where
  run : ∀ s, ∃ a t, x s = .ok a t ∧ t.tree = s.tree ∧ t.session.nextReclaim = s.session.nextReclaim

instance (hint : String) : (mintLabel hint).IsIdle := ⟨fun _ => ⟨_, _, rfl, rfl, rfl⟩⟩

instance (n : Notice) : (tell n).IsIdle := ⟨fun _ => ⟨_, _, rfl, rfl, rfl⟩⟩

instance (text : String) : (remark text).IsIdle := ⟨fun _ => ⟨_, _, rfl, rfl, rfl⟩⟩

instance (code : Code) : (emit code).IsIdle := ⟨fun _ => ⟨_, _, rfl, rfl, rfl⟩⟩

instance (name : String) : (withSession fun s => ((), s.recordCall name)).IsIdle :=
  ⟨fun _ => ⟨_, _, rfl, rfl, rfl⟩⟩

instance (name : String) : (withSession fun s => ((), s.recordFunction name)).IsIdle :=
  ⟨fun _ => ⟨_, _, rfl, rfl, rfl⟩⟩

instance (path : String) : (withSession (·.markIncluded path)).IsIdle :=
  ⟨fun s => ⟨_, _, rfl, rfl, by
    show (s.session.markIncluded path).2.nextReclaim = _
    unfold Session.markIncluded
    split <;> rfl⟩⟩

instance : (withSession fun s => ((), s.recordFree)).IsIdle := ⟨fun _ => ⟨_, _, rfl, rfl, rfl⟩⟩

instance (name : String) : (libraryFunction? name).IsIdle := ⟨fun _ => ⟨_, _, rfl, rfl, rfl⟩⟩

instance : depthToRoot.IsIdle := ⟨fun _ => ⟨_, _, rfl, rfl, rfl⟩⟩

instance (text : String) : (place text).IsIdle := by
  refine ⟨fun s => ⟨_, _, rfl, rfl, ?_⟩⟩
  show (s.listing.place s.session text).2.2.nextReclaim = _
  unfold Listing.place
  split <;> rfl

namespace Lower.Costs

variable {α β : Type} {x y : Lower α} {f : α → Lower β} {Q Q' : α → Prop} {R : β → Prop}

theorem room (h : s.Room M b → x.Costs M b n s Q) : x.Costs M b n s Q := fun hs => h hs hs

theorem mono (h : x.Costs M b n s Q) (hb : b ≤ b') (hn : n ≤ n') (hQ : ∀ a, Q a → Q' a) :
    x.Costs M b' n' s Q' := by
  intro hs
  have hx := h (hs.mono hb)
  split at hx
  · exact ⟨hx.1.mono hb hn, hQ _ hx.2⟩
  · exact ⟨hx.1.mono hb hn, hx.2⟩

/-- The same at a higher price. -/
theorem upTo (h : x.Costs M b n s Q) (hb : b ≤ b') (hn : n ≤ n') : x.Costs M b' n' s Q :=
  h.mono hb hn fun _ => id

theorem pure {a : α} (ha : Q a) : (Pure.pure a : Lower α).Costs M 0 0 s Q :=
  fun hs => ⟨hs.same rfl (Nat.le_refl _), ha⟩

theorem bind (hx : x.Costs M b n s Q) (hf : ∀ a t, Q a → (f a).Costs M b' n' t R) :
    (x >>= f).Costs M (b + b') (n + n') s R := by
  intro hs
  have hxs := hx (hs.mono (Nat.le_add_right _ _))
  show match EStateM.bind x f s with
    | .ok c t => s.Charged M (b + b') (n + n') t ∧ R c
    | .error e t => s.Charged M (b + b') (n + n') t ∧ ∀ f, e = .fault f → halfCount ≤ M
  unfold EStateM.bind
  cases hrun : x s with
  | error e t =>
    rw [hrun] at hxs
    exact ⟨hxs.1.mono (Nat.le_add_right _ _) (Nat.le_add_right _ _), hxs.2⟩
  | ok a t =>
    rw [hrun] at hxs
    have hfs := hf a t hxs.2 (hxs.1.room hs)
    dsimp only
    split at hfs
    · exact ⟨hxs.1.trans hfs.1, hfs.2⟩
    · exact ⟨hxs.1.trans hfs.1, hfs.2⟩

/-- Reading the state. -/
theorem read {f : State → Lower β} (hf : s.Room M b → (f s).Costs M b n s R) :
    ((get : Lower State) >>= f).Costs M b n s R := fun hs => hf hs hs

theorem reject (c : Cause) (l : Location) : (Lower.reject c l : Lower α).Costs M 0 0 s Q :=
  fun hs => ⟨hs.same rfl (Nat.le_refl _), nofun⟩

theorem ite {c : Prop} [Decidable c] (hx : x.Costs M b n s Q) (hy : y.Costs M b' n' s Q) :
    (if c then x else y).Costs M (max b b') (max n n') s Q := by
  split
  · exact hx.upTo (Nat.le_max_left _ _) (Nat.le_max_left _ _)
  · exact hy.upTo (Nat.le_max_right _ _) (Nat.le_max_right _ _)

/-- Nothing is left to do. -/
theorem done {a : α} : (Pure.pure a : Lower α).Costs M 0 0 s := pure trivial

theorem idle [h : x.IsIdle] : x.Costs M 0 0 s := by
  intro hs
  obtain ⟨a, t, hrun, htree, hids⟩ := h.run s
  rw [hrun]
  exact ⟨hs.same htree (Nat.le_of_eq hids), trivial⟩

/-- What follows an action that costs nothing. -/
theorem next (hx : x.Costs M 0 0 s Q) (hf : ∀ a t, Q a → (f a).Costs M b n t R) :
    (x >>= f).Costs M b n s R :=
  upTo (hx.bind hf) (Nat.le_of_eq (Nat.zero_add b)) (Nat.le_of_eq (Nat.zero_add n))

/-- What follows an idle action. -/
theorem skip [x.IsIdle] (hf : ∀ a t, (f a).Costs M b n t R) : (x >>= f).Costs M b n s R :=
  next idle fun a t _ => hf a t

/-- A change to neither scopes nor ids. -/
theorem modified {f : State → State} (htree : (f s).tree = s.tree)
    (hids : (f s).session.nextReclaim = s.session.nextReclaim) :
    (modify f : Lower Unit).Costs M 0 0 s :=
  fun hs => ⟨hs.same htree (Nat.le_of_eq hids), trivial⟩

theorem checked {z : Except Fault α} (h : M < halfCount → ∃ a, z = .ok a) :
    (Lower.checked z).Costs M 0 0 s := by
  intro hs
  cases z with
  | ok a => exact ⟨hs.same rfl (Nat.le_refl _), trivial⟩
  | error f =>
    exact ⟨hs.same rfl (Nat.le_refl _), fun _ _ => Nat.le_of_not_lt fun hM => nomatch h hM⟩

theorem slot {x : Slot} (base : Reg) (h : x.bound ≤ M) :
    (Lower.checked (Mem.slot base x)).Costs M 0 0 s :=
  checked fun hM => Mem.exists_slot base (Nat.lt_of_le_of_lt h hM)

/-- The scope that is being compiled. -/
theorem scope {f : Scope → Lower β} (hf : s.Room M b → (f s.here).Costs M b n s R) :
    (Lower.scope >>= f).Costs M b n s R := fun hs => hf hs hs

theorem setScope {sc : Scope} (hused : sc.used = s.here.used)
    (hsc : s.here.Within M → sc.Within M) : (Lower.setScope sc).Costs M 0 0 s :=
  fun hs => ⟨hs.revised rfl (Nat.le_of_eq hused) (hsc (hs.within _)) (Nat.le_refl _), trivial⟩

theorem mintReclaim : Lower.mintReclaim.Costs M 0 1 s :=
  fun hs => ⟨hs.same rfl (Nat.le_refl _), trivial⟩

theorem reserve (size : Nat) :
    (Lower.reserve size).Costs M size 0 s (fun x => x.size = size ∧ x.bound ≤ M) := by
  intro hs
  have hle := hs.used s.current
  rw [reserve_apply]
  by_cases hword : wordCount ≤ s.here.used + size
  · rw [if_pos hword]
    exact ⟨hs.same rfl (Nat.le_refl _), fun _ _ =>
      Nat.le_trans (by decide) (Nat.le_trans hword hle)⟩
  · rw [if_neg hword]
    exact ⟨hs.revised rfl (Nat.le_refl _) (hs.within s.current) (Nat.le_refl _), rfl, hle⟩

/-! ### Heap values and calls -/

theorem registerFresh : Lower.registerFresh.Costs M 8 1 s :=
  upTo (bind mintReclaim fun _ _ _ => bind (reserve 4) fun _ _ haddress => bind (reserve 4)
      fun _ _ hsize =>
    scope fun _ => next (setScope rfl fun h => h.insert haddress.2 hsize.2) fun _ _ _ =>
      next (slot _ haddress.2) fun _ _ _ => next (slot _ hsize.2) fun _ _ _ => skip fun _ _ => done)
    (by omega) (by omega)

theorem stageArguments (count : Nat) (args : List Lowered) (s : State) :
    (Lower.stageArguments count args).Costs M (4 * min count args.length) 0 s
      (fun p => p.2.length ≤ min count args.length ∧ ∀ x ∈ p.2, x.size = 4 ∧ x.bound ≤ M) := by
  induction args generalizing count s with
  | nil =>
    unfold Lower.stageArguments
    exact upTo (pure ⟨Nat.zero_le _, List.forall_mem_nil _⟩) (Nat.zero_le _) (Nat.le_refl _)
  | cons a rest ih =>
    unfold Lower.stageArguments
    cases count with
    | zero =>
      exact upTo (bind (ih 0 s) fun p t hp => pure (by simpa using hp)) (by omega) (by omega)
    | succ count =>
      simp only [List.length_cons]
      exact upTo (bind (reserve 4) fun x t hx => next (slot _ hx.2) fun _ u _ => bind (ih count u)
        fun p _ hp => pure ⟨by have := hp.1; simp only [List.length_cons]; omega,
          List.forall_mem_cons.2 ⟨hx, hp.2⟩⟩) (by omega) (by omega)

/-- The arguments of a call are in reach, and so much can be taken off the stack behind it. -/
theorem call {slots : List Slot} (depth : Nat) (entry : Label)
    (hslots : ∀ x ∈ slots, x.size = 4 ∧ x.bound ≤ M) (hlength : 4 * slots.length ≤ M) :
    (Lower.checked (Convention.call slots depth entry)).Costs M 0 0 s := by
  refine checked fun hM => ?_
  have hpush : ∀ xs : List Slot, (∀ x ∈ xs, x.size = 4 ∧ x.bound ≤ M) →
      ∃ code, Convention.pushArguments xs = .ok code := by
    intro xs hxs
    induction xs with
    | nil => exact ⟨_, rfl⟩
    | cons x xs ih =>
      obtain ⟨hx, hxs⟩ := List.forall_mem_cons.1 hxs
      obtain ⟨code, hcode⟩ := ih hxs
      obtain ⟨m, hm⟩ := Mem.exists_slot ebp (Nat.lt_of_le_of_lt hx.2 hM)
      rw [show x = ⟨x.offset, 4⟩ by rw [← hx.1]] at hm
      exact ⟨_, Convention.pushArguments_cons_eq_ok.2 ⟨code, m, hcode, hm, rfl⟩⟩
  obtain ⟨code, hcode⟩ := hpush slots hslots
  have hbytes :
      Convention.cleanupBytes slots.length = .ok ((slots.length % wordCount + 1) * 4) := by
    unfold Convention.cleanupBytes Convention.argBytes
    unfold halfCount at hM
    unfold wordCount
    rw [if_neg (by omega), if_neg (by omega)]
  unfold Convention.call
  rw [hcode, hbytes]
  exact ⟨_, rfl⟩

theorem invoke (f : Signature) (depth : Nat) (args : List Lowered) :
    (Lower.invoke f depth args).Costs M (4 * min f.params.length args.length + 8) 1 s :=
  room fun hs => upTo (bind (stageArguments _ _ _) fun staged t hstaged => skip fun _ _ =>
      next (call _ _ hstaged.2 (by
        have hle := hs.used 0
        have hlength := hstaged.1
        omega)) fun _ _ _ => skip fun _ _ => ite (bind registerFresh fun _ _ _ => done) (done))
    (by omega) (by omega)

/-! ### Expressions -/

theorem literal (v : Literal) : (Lower.literal v).Costs M 0 0 s := by
  cases v with
  | number v => exact done
  | decimal v => exact skip fun _ _ => done
  | char v => exact done
  | bool v => exact done
  | str v => exact skip fun _ _ => done

theorem resolveVariable (name : String) (l : Location) :
    (Lower.resolveVariable name l).Costs M 0 0 s (fun x => x.2.Within M) := by
  refine read fun hs => ?_
  cases hlook : s.tree.lookupVariable s.current name with
  | none => exact reject _ _
  | some x =>
    have hmem := List.mem_of_find?_eq_some (ScopeTree.lookupVariable_eq_some hlook).2
    exact pure ⟨hs.within _ _ (Scope.mem_slots.2 (.inr (.inl ⟨_, hmem, .inl rfl⟩))),
      fun c hc => hs.within _ _ (Scope.mem_slots.2 (.inr (.inl ⟨_, hmem, .inr hc⟩)))⟩

/-- A function is called with as many arguments as it has parameters, or more. -/
theorem resolveCall (name : String) (count : Nat) (l : Location) :
    (Lower.resolveCall name count l).Costs M 0 0 s (fun x => x.2.params.length ≤ count) := by
  refine next (Q := fun _ => True) (read fun _ => ?_) fun ⟨_, f⟩ _ _ => ?_
  · cases s.tree.lookupFunction s.current name with
    | none => exact reject _ _
    | some x => exact done
  · dsimp only
    split
    · exact reject _ _
    · exact pure (Nat.le_of_not_lt (by assumption))

theorem loadSize (base : Reg) {v : Variable} (hv : v.Within M) :
    (Lower.loadSize base v).Costs M 0 0 s := by
  unfold Lower.loadSize
  cases hcell : v.sizeCell with
  | none => exact done
  | some cell => exact next (slot _ (hv.cell cell hcell)) fun _ _ _ => done

theorem readVariable (name : String) (l : Location) : (Lower.readVariable name l).Costs M 0 0 s :=
  next (resolveVariable name l) fun _ _ hv => next (slot _ hv.slot) fun _ _ _ =>
    next (loadSize _ hv) fun _ _ _ => done

theorem addressOf (name : String) (l : Location) : (Lower.addressOf name l).Costs M 0 0 s :=
  next (resolveVariable name l) fun _ _ hv => next (slot _ hv.slot) fun _ _ _ => done

theorem combine (op : BinaryOp) (left right : Lowered) (l : Location) :
    (Lower.combine op left right l).Costs M 16 1 s := by
  have hconcat : (Lower.concat left right l).Costs M 16 1 s := by
    refine skip fun found _ => ?_
    cases found with
    | none => exact upTo (reject _ _) (by omega) (by omega)
    | some f =>
      refine upTo (skip fun _ _ => invoke _ _ _) ?_ (by omega)
      simp only [List.length_cons, List.length_nil]
      omega
  have hdecimal : (Lower.decimalCode op).Costs M 0 0 s := by
    refine ite (skip fun _ _ => done) ?_
    cases op.floatPair? with
    | none => exact done
    | some pair => exact done
  exact upTo (ite (reject _ _)
    (ite hconcat (ite (reject _ _) (ite (bind hdecimal fun _ _ _ => done) done))))
    (by omega) (by omega)

theorem applySign (sign : Sign) (v : Lowered) (l : Location) :
    (Lower.applySign sign v l).Costs M 0 0 s := by
  refine ite (reject _ _) ?_
  cases sign with
  | plus => exact done
  | minus => exact done

theorem stepVariable (name : String) (op : StepOp) (fixity : Fixity) (l : Location) :
    (Lower.stepVariable name op fixity l).Costs M 0 0 s := by
  refine next (resolveVariable name l) fun ⟨_, _⟩ _ hv =>
    ite (reject _ _) (next (slot _ hv.slot) fun _ _ _ => ?_)
  cases fixity with
  | leading => exact done
  | trailing => exact done

theorem applyCast (v : Lowered) (ty : ScalarType) (mode : CastMode) (l : Location) :
    (Lower.applyCast v ty mode l).Costs M 0 0 s := by
  cases mode with
  | deref => exact ite (reject _ _) done
  | immediate => exact done

/-! ### Declarations and assignments -/

theorem declareVariable (name : String) (ty : ScalarType) (l : Location) :
    (Lower.declareVariable name ty l).Costs M 8 0 s (Variable.Within M) := by
  refine scope fun hs => ?_
  have hle := hs.used s.current
  have hgrown : (s.here.declared name ty).used ≤ s.here.used + 8 := by
    have hsize := ty.size_eq
    unfold Scope.declared
    dsimp only
    split <;> omega
  by_cases hnew : s.here.getVariable? name = none
  · rw [Scope.declareVariable_eq hnew]
    split
    · rename_i hlarge
      exact fun hs => ⟨hs.same rfl (Nat.le_refl _), fun _ _ =>
        Nat.le_trans (by decide) (Nat.le_trans hlarge (Nat.le_trans hgrown hle))⟩
    · have hnewly := (hs.within s.current).declared (Nat.le_trans hgrown hle)
      exact fun hs => ⟨hs.revised rfl hgrown hnewly.2 (Nat.le_refl _), hnewly.1⟩
  · rw [Scope.declareVariable_of_declared hnew]
    exact fun hs => ⟨hs.same rfl (Nat.le_refl _), nofun⟩

theorem own (name : String) (id : ReclaimId) : (Lower.own name id).Costs M 0 0 s :=
  scope fun _ => setScope rfl fun h => h.same (s.here.fixed_bind name id) fun _ he => he

theorem takeOwnership (o : Ownership) (name : String) (l : Location) :
    (Lower.takeOwnership o name l).Costs M 0 0 s := by
  cases o with
  | fresh id =>
    exact scope fun _ => next (setScope rfl fun h => h.same rfl fun e he =>
        (List.mem_filter.1 he).1) fun _ _ _ =>
      skip fun _ _ => done
  | borrowed id => exact skip fun _ _ => done
  | plain => exact done

theorem declare {value : Lower Lowered} (hvalue : value.Costs M b n s) (name : String)
    (ty : ScalarType) (l : Location) :
    (Lower.declare name ty l value).Costs M (b + 8) (n + 1) s := by
  refine upTo (bind hvalue fun v _ _ => bind (declareVariable name ty l) fun x _ hx =>
      skip fun _ _ =>
    next (slot _ hx.slot) fun _ _ _ => (?_ : Costs M 0 1 _ _)) (by omega) (by omega)
  split
  · exact upTo idle (by omega) (by omega)
  · rename_i cell hcell
    refine next (takeOwnership _ _ _) fun ⟨_, id?⟩ _ _ =>
      upTo (bind (Q := fun _ => True) (b := 0) (n := 1) ?_ fun _ _ _ =>
        next (slot _ (hx.cell cell hcell)) fun _ _ _ => next (own _ _) fun _ _ _ => idle)
      (by omega) (by omega)
    cases id? with
    | none => exact mintReclaim
    | some id => exact upTo (done) (by omega) (by omega)

theorem release (base : Reg) (id : ReclaimId) {e : Staged} (he : ∀ x ∈ e.slots, x.bound ≤ M) :
    (Lower.release base id e).Costs M 0 0 s :=
  skip fun _ _ => skip fun _ _ => next (slot _ (he _ (by simp [Staged.slots]))) fun _ _ _ =>
    next (slot _ (he _ (by simp [Staged.slots]))) fun _ _ _ => skip fun _ _ => done

theorem releaseAll (keep : List ReclaimId) : ∀ (entries : List (ReclaimId × Staged)) (s : State),
    (∀ e ∈ entries, ∀ x ∈ e.2.slots, x.bound ≤ M) → (Lower.releaseAll keep entries).Costs M 0 0 s
  | [], s, _ => done
  | (id, e) :: rest, s, h => by
    obtain ⟨he, hrest⟩ := List.forall_mem_cons.1 h
    unfold Lower.releaseAll
    have hmore (code : Code) (t : State) :
        (Lower.releaseAll keep rest >>= fun more => Pure.pure (code ++ more)).Costs M 0 0 t :=
      next (releaseAll keep rest t hrest) fun _ _ _ => done
    exact ite (skip fun _ _ => hmore _ _) (next (release _ id he) fun _ _ _ => hmore _ _)

theorem sweep (id : ScopeId) (keep : List ReclaimId) : (Lower.sweep id keep).Costs M 0 0 s :=
  read fun hs => next (releaseAll keep _ _ fun _ he x hx =>
    hs.within id x (Scope.slots_of_pendingFrees he hx)) fun _ _ _ => idle

theorem replaceString {x : Variable} {cell : Slot} (hx : x.Within M)
    (hcell : x.sizeCell = some cell) (depth : Nat)
    (v : Lowered) (l : Location) : (Lower.replaceString x cell depth v l).Costs M 0 0 s := by
  have hcell := hx.cell cell hcell
  have hold (base : Reg) (t : State) : (Lower.releaseOld base x cell).Costs M 0 0 t := by
    unfold Lower.releaseOld
    split
    · exact release _ _ (by simp [Staged.slots, hx.slot, hcell])
    · exact done
  exact next (takeOwnership _ _ _) fun _ _ _ => next (hold _ _) fun _ _ _ => next (slot _ hx.slot)
      fun _ _ _ =>
    next (slot _ hcell) fun _ _ _ => idle

theorem assign (name : String) (l : Location) {value : ScalarType → Lower Lowered}
    (hvalue : ∀ ty t, (value ty).Costs M b n t) : (Lower.assign name l value).Costs M b n s := by
  refine next (resolveVariable name l) fun ⟨r, x⟩ t hx =>
    upTo (bind (hvalue x.ty t) fun v u _ => (?_ : Costs M 0 0 _ _)) (by omega) (by omega)
  split
  · exact next (slot _ hx.slot) fun _ _ _ => idle
  · rename_i cell hcell
    exact ite (skip fun _ _ => idle) (replaceString hx hcell _ _ _)

/-! ### Frames -/

theorem exitFrame (id : ScopeId) (keep : List ReclaimId) :
    (Lower.exitFrame id keep).Costs M 0 0 s :=
  next (sweep id keep) fun _ _ _ => idle

theorem openBlock : Lower.openBlock.Costs M 0 0 s :=
  fun hs => ⟨hs.pushed rfl (Nat.le_refl _), trivial⟩

theorem defineFrameSize (id : ScopeId) : (Lower.defineFrameSize id).Costs M 0 0 s := by
  refine read fun hs => next (checked fun hM => ?_) fun _ _ _ => idle
  have hused := hs.used id
  have hfits : ¬ wordCount ≤ ((s.tree.scope id).used + 3) / 4 * 4 := by
    unfold wordCount
    unfold halfCount at hM
    omega
  unfold Scope.frameBytes
  dsimp only
  rw [if_neg hfits]
  exact ⟨_, rfl⟩

theorem closeBlock (reachable : Bool) : (Lower.closeBlock reachable).Costs M 0 0 s := by
  have hdefine (id : ScopeId) (t : State) : (Lower.defineFrameSize id >>= fun _ =>
      modify fun s => { s with current := (s.tree.scope id).parent.getD s.root }).Costs M 0 0 t :=
    next (defineFrameSize id) fun _ _ _ => modified rfl rfl
  refine read fun _ => ?_
  cases reachable with
  | true => exact next (exitFrame _ _) fun _ _ _ => hdefine _ _
  | false => exact hdefine _ _

theorem openLoop : Lower.openLoop.Costs M 0 0 s :=
  skip fun _ _ => skip fun _ _ => skip fun _ _ => skip fun _ _ => skip fun _ _ =>
      next openBlock fun _ _ _ =>
    scope fun _ => next (setScope rfl fun h => h.same rfl fun _ => id) fun _ _ _ => done

theorem closeLoop (f : LoopFrame) : (Lower.closeLoop f).Costs M 0 0 s :=
  next (exitFrame _ _) fun _ _ _ => skip fun _ _ => skip fun _ _ => next (closeBlock _)
    fun _ _ _ => idle

theorem unwind (frames : Nat) (keep : List ReclaimId) :
    (Lower.unwind frames keep).Costs M 0 0 s := by
  refine read fun _ => ?_
  have hall : ∀ (ids : List ScopeId) (s : State),
      (ids.forM fun id => Lower.exitFrame id keep : Lower PUnit).Costs M 0 0 s := by
    intro ids
    induction ids with
    | nil => exact fun _ => done
    | cons id ids ih => exact fun _ => next (exitFrame id keep) fun _ _ _ => ih _
  exact hall _ _

theorem otherwiseLabel (exit : Label) (o : Otherwise) : (o.label exit).Costs M 0 0 s := by
  cases o with
  | absent => exact done
  | chained n => exact idle (x := mintLabel _)
  | block body => exact idle (x := mintLabel _)

theorem enclosingLoop (statement : String) (l : Location) :
    (Lower.enclosingLoop statement l).Costs M 0 0 s := by
  refine read fun _ => ?_
  cases s.tree.lookupLoop s.current with
  | none => exact reject _ _
  | some x => exact done

theorem leaveLoop (l : Location) : (Lower.leaveLoop l).Costs M 0 0 s :=
  next (enclosingLoop _ _) fun _ _ _ => next (unwind _ _) fun _ _ _ => idle

theorem nextRound (l : Location) : (Lower.nextRound l).Costs M 0 0 s :=
  next (enclosingLoop _ _) fun _ _ _ => next (unwind _ _) fun _ _ _ => idle

/-! ### Functions -/

theorem ownedResult (v : Lowered) (copying : Copying) :
    (Lower.ownedResult v copying).Costs M 4 0 s := by
  refine upTo (ite done (skip fun f _ => (?_ : Costs M 4 0 _ _))) (by omega) (by omega)
  cases f with
  | none => exact upTo done (Nat.zero_le _) (Nat.le_refl _)
  | some f =>
    exact skip fun _ _ => room fun hs =>
        upTo (bind (reserve 4) fun x _ hx => next (slot _ hx.2) fun _ _ _ =>
          skip fun _ _ => skip fun _ _ =>
          next (call _ _ (by simpa using hx) (Nat.le_of_add_left_le (hs.used 0)))
          fun _ _ _ => skip fun _ _ => done) (Nat.le_refl _) (Nat.le_refl _)

theorem resultCode (depth : Nat) {m : FunctionExit} (hm : m.Within M) :
    (Lower.resultCode depth m).Costs M 0 0 s :=
  next (slot _ hm.result) fun _ _ _ => ite (next (slot _ hm.resultSize) fun _ _ _ => done) done

theorem leaveFunction (l : Location) {value : ScalarType → Lower Lowered}
    (hvalue : ∀ ty, (value ty).Costs M b n s) :
    (Lower.leaveFunction l value).Costs M (b + 4) n s := by
  refine read fun hs => ?_
  cases hlook : s.tree.lookupFunctionExit s.current with
  | none => exact upTo (reject _ _) (Nat.zero_le _) (Nat.zero_le _)
  | some x =>
    obtain ⟨r, m⟩ := x
    have hfunction := (ScopeTree.lookupFunctionExit_eq_some hlook).2.1
    have hm : m.Within M := ⟨hs.within _ _ (Scope.mem_slots.2 (.inl ⟨m, hfunction, .inl rfl⟩)),
      hs.within _ _ (Scope.mem_slots.2 (.inl ⟨m, hfunction, .inr rfl⟩))⟩
    exact upTo (bind (hvalue m.ret) fun v _ _ => read fun _ => bind (ownedResult v _) fun _ _ _ =>
      next (resultCode _ hm) fun _ _ _ => skip fun _ _ => next (unwind _ _) fun _ _ _ =>
        next (sweep _ _) fun _ _ _ => idle) (by omega) (by omega)

theorem bindParam (l : Location) {index : Nat} (p : Param) (hindex : 8 * index + 16 ≤ M) :
    (Lower.bindParam l index p).Costs M 8 1 s := by
  have hadopt (t : State) : (Lower.adopt p).Costs M 0 1 t :=
    upTo (ite (bind mintReclaim fun _ _ _ => own _ _) done) (by omega) (by omega)
  refine upTo (bind (declareVariable _ _ _) fun x _ hx => next (checked fun hM => ?_) fun _ _ _ =>
    next (slot _ hx.slot) fun _ _ _ => bind (hadopt _) fun _ _ _ => done) (by omega) (by omega)
  have hword := signedWord_of_lt (show index < halfCount by omega)
  unfold halfCount at hM
  unfold Convention.paramDisp Convention.paramBase Convention.argBytes halfCount
  rw [hword, if_neg (by omega), if_neg (by omega)]
  exact ⟨_, rfl⟩

theorem bindParams (l : Location) : ∀ (index : Nat) (params : List Param) (s : State),
    8 * (index + params.length) + 8 ≤ M →
    (Lower.bindParams l index params).Costs M (8 * params.length) params.length s
  | _, [], _, _ => done
  | index, p :: params, s, h => by
    rw [List.length_cons] at h ⊢
    exact upTo (bind (bindParam l p (by omega)) fun _ _ _ =>
      bind (bindParams l (index + 1) params _ (by omega)) fun _ _ _ => done) (by omega) (by omega)

theorem announce (name : String) (params : List Param) (ret : ScalarType) (l : Location) :
    (Lower.announce name params ret l).Costs M 0 0 s := by
  refine skip fun _ _ => skip fun _ t => scope fun _ => ?_
  unfold Scope.declareFunction
  split
  · exact fun hs => ⟨hs.same rfl (Nat.le_refl _), nofun⟩
  · change (Lower.setScope _ >>= fun _ => mintLabel ("skip_" ++ name) >>= fun skip =>
      Pure.pure (_, skip)).Costs M 0 0 t
    exact next (setScope rfl fun h => h.same rfl fun _ he => he) fun _ _ _ => skip fun _ _ => done

theorem openBody (f : Signature) : (Lower.openBody f).Costs M 8 0 s (FunctionExit.Within M) := by
  refine upTo (skip fun _ _ =>
    next (Q := fun _ => True) (fun hs => ⟨hs.pushed rfl (Nat.le_refl _), trivial⟩)
    fun _ _ _ => next (modified rfl rfl) fun _ _ _ => bind (reserve 4) fun _ _ hresult =>
      bind (reserve 4) fun _ _ hsize => scope fun _ => next (setScope rfl fun h x hx => ?_)
        fun _ _ _ => pure ⟨hresult.2, hsize.2⟩)
    (by omega) (by omega)
  rcases Scope.mem_slots.1 hx with ⟨m, hm, hx⟩ | hx
  · cases hm
    rcases hx with rfl | rfl
    · exact hresult.2
    · exact hsize.2
  · exact h x (Scope.mem_slots.2 (.inr hx))

theorem openFunction (name : String) (params : List Param) (ret : ScalarType) (l : Location) :
    (Lower.openFunction name params ret l).Costs M (8 + 8 * params.length) params.length s
    (·.exit.Within M) := by
  refine room fun hs => next (announce name params ret l) fun ⟨f, _⟩ _ _ => read fun _ =>
    upTo (bind (openBody f) fun _ _ hexit => skip fun _ _ => bind (bindParams l 0 params _ ?_)
        fun _ _ _ => read fun _ => skip fun _ _ =>
      pure hexit) (by omega) (by omega)
  have hle := hs.used 0
  omega

theorem closeFunction (name : String) {f : FunctionFrame} (hf : f.exit.Within M) :
    (Lower.closeFunction name f).Costs M 0 0 s := by
  have hfetch : (Lower.fetchResult f.exit).Costs M 0 0 s :=
    next (slot _ hf.result) fun _ _ _ => ite (next (slot _ hf.resultSize) fun _ _ _ => done) done
  exact next hfetch fun _ _ _ => skip fun _ _ => next (defineFrameSize _) fun _ _ _ =>
      skip fun _ _ =>
    next (modified rfl rfl) fun _ _ _ => idle

end Lower.Costs

/-! ### Costs along a trace -/

/-- What an action costs, and that no state of the trace is further. -/
def Lower.Meets {α : Type} (M b n : Nat) (x : Lower α) (trace : State → List Event) (s : State) :
    Prop :=
  x.Costs M b n s ∧
    (s.Room M b → ∀ ev ∈ trace s, ∀ u, ev.state? = some u → s.Charged M b n u)

namespace Lower.Meets

variable {α β : Type} {x : Lower α} {f : α → Lower β} {Q : α → Prop} {trace : State → List Event}
  {rest : α → State → List Event}

theorem upTo (h : x.Meets M b n trace s) (hb : b ≤ b') (hn : n ≤ n') : x.Meets M b' n' trace s :=
  ⟨h.1.upTo hb hn, fun hs ev hev u hu => (h.2 (hs.mono hb) ev hev u hu).mono hb hn⟩

theorem nothing (h : x.Costs M b n s) : x.Meets M b n (fun _ => []) s :=
  ⟨h, fun _ _ hev => nomatch hev⟩

theorem before (hx : x.Meets M b n trace s) (hf : ∀ a t, (f a).Costs M b' n' t) :
    (x >>= f).Meets M (b + b') (n + n') trace s :=
  ⟨hx.1.bind fun a t _ => hf a t, fun hs ev hev u hu =>
    (hx.2 (hs.mono (Nat.le_add_right _ _)) ev hev u hu).mono (Nat.le_add_right _ _)
      (Nat.le_add_right _ _)⟩

theorem cons {ev : State → Event} (hev : ∀ s, (ev s).state? = some s) (hx : x.Meets M b n trace s) :
    x.Meets M b n (fun s => ev s :: trace s) s := by
  refine ⟨hx.1, fun hs e he u hu => ?_⟩
  rcases List.mem_cons.1 he with rfl | he
  · rw [hev s] at hu
    cases hu
    exact hs.same rfl (Nat.le_add_right _ _)
  · exact hx.2 hs e he u hu

theorem after (hx : x.Costs M b n s Q) (hf : ∀ a t, Q a → (f a).Meets M b' n' (rest a) t) :
    (x >>= f).Meets M (b + b') (n + n') (fun s => x.after s rest) s := by
  refine ⟨hx.bind fun a t ha => (hf a t ha).1, fun hs ev hev u hu => ?_⟩
  obtain ⟨a, t, hrun, hev⟩ := mem_after.1 hev
  have hxs := hx (hs.mono (Nat.le_add_right _ _))
  rw [hrun] at hxs
  exact hxs.1.trans ((hf a t hxs.2).2 (hxs.1.room hs) ev hev u hu)

theorem bind (hx : x.Meets M b n trace s) (hf : ∀ a t, (f a).Meets M b' n' (rest a) t) :
    (x >>= f).Meets M (b + b') (n + n') (fun s => trace s ++ x.after s rest) s := by
  have hafter := after hx.1 fun a t _ => hf a t
  refine ⟨hafter.1, fun hs ev hev u hu => ?_⟩
  rcases List.mem_append.1 hev with hev | hev
  · exact (hx.before fun a t => (hf a t).1).2 hs ev hev u hu
  · exact hafter.2 hs ev hev u hu

theorem expect {ty : ScalarType} {l : Location} {x : Lower Lowered} (hx : x.Meets M b n trace s) :
    (Lower.expect ty l x).Meets M b n trace s :=
  upTo (hx.before fun _ _ => .ite .done (.reject _ _)) (by omega) (by omega)

end Lower.Meets

/-- An expression costs four bytes less than its nodes pay for. -/
theorem Node.evaluate_meetsCases :
    ExpressionCases
      (fun n => ∀ ahead s, n.evaluate.Meets M (12 * weigh n.nodes - 4) (weigh n.nodes)
        (n.fragments · ahead) s) (fun ns => ns.length ≤ weigh (nodesAll ns) ∧ ∀ name params ahead s,
          (evaluateArgs name params ns).Meets M (12 * weigh (nodesAll ns) - 4 * ns.length)
          (weigh (nodesAll ns)) (Node.fragmentsAll name params ns · ahead) s) where
  constant hv ahead s := by
    rw [Node.evaluate_literal hv]
    simp only [Node.fragments_literal hv]
    exact .upTo (.cons (fun _ => rfl) (.nothing (.literal _))) (by omega) (by omega)
  var ahead s := .upTo (.cons (fun _ => rfl) (.nothing (.readVariable _ _))) (by omega) (by omega)
  binary {op left right l} hleft hright ahead s := by
    unfold Node.evaluate Node.fragments
    have hl := left.weigh_nodes_pos
    have hr := right.weigh_nodes_pos
    rw [weigh_nodes, Form.nodes, weigh_append]
    exact .upTo (.cons (fun _ => rfl) (.bind (hleft _ _) fun _ _ => (hright _ _).before fun _ _ =>
      .combine _ _ _ _)) (by omega) (by omega)
  signed {sign value l} hvalue ahead s := by
    unfold Node.evaluate Node.fragments
    rw [weigh_nodes, Form.nodes]
    exact .upTo (.cons (fun _ => rfl) ((hvalue _ _).before fun _ _ => .applySign _ _ _)) (by omega)
      (by omega)
  step ahead s := .upTo (.cons (fun _ => rfl) (.nothing (.stepVariable _ _ _ _))) (by omega)
    (by omega)
  call {name args l} hargs ahead s := by
    unfold Node.evaluate Node.fragments
    have hlength := hargs.1
    rw [weigh_nodes, Form.nodes]
    -- Every argument leaves the four bytes in which it is staged; a heap result needs eight more.
    exact .upTo (.cons (fun _ => rfl) (.after (.resolveCall _ _ _) fun x t hx =>
        (hargs.2 _ _ _ _).before fun vs u =>
      .upTo (.invoke x.2 x.1.depth vs) (by omega) (Nat.le_refl _)))
        (show 0 + (_ + (4 * args.length + 8)) ≤ _ by omega)
      (by omega)
  addressOf ahead s := .upTo (.cons (fun _ => rfl) (.nothing (.addressOf _ _))) (by omega)
    (by omega)
  cast {value ty mode l} hvalue ahead s := by
    unfold Node.evaluate Node.fragments
    rw [weigh_nodes, Form.nodes]
    exact .upTo (.cons (fun _ => rfl) ((hvalue _ _).before fun _ _ => .applyCast _ _ _ _))
      (by omega) (by omega)
  misplaced hform ahead s := by
    rw [Node.evaluate_misplaced hform]
    simp only [Node.fragments_misplaced hform]
    exact .upTo (.cons (fun _ => rfl) (.nothing (.reject _ _))) (by omega) (by omega)
  nil := ⟨Nat.zero_le _, fun name params ahead s => by
    unfold evaluateArgs Node.fragmentsAll
    exact .upTo (.nothing .done) (by omega) (by omega)⟩
  cons {n ns} hn hns := by
    have hpos := n.weigh_nodes_pos
    have hlength := hns.1
    rw [nodesAll, weigh_append]
    refine ⟨by simp only [List.length_cons]; omega, fun name params ahead s => ?_⟩
    cases params with
    | nil =>
      unfold evaluateArgs Node.fragmentsAll
      exact .upTo (.after .idle fun _ _ _ => .bind (hn _ _) fun _ _ => (hns.2 _ _ _ _).before
        fun _ _ => .done) (by simp only [List.length_cons]; omega) (by omega)
    | cons p params =>
      unfold evaluateArgs Node.fragmentsAll
      exact .upTo (.bind (hn _ _).expect fun _ _ => (hns.2 _ _ _ _).before fun _ _ => .done)
        (by simp only [List.length_cons]; omega) (by omega)

theorem Node.evaluate_meets (n : Node) (ahead : Nat) (s : State) :
    n.evaluate.Meets M (12 * weigh n.nodes - 4) (weigh n.nodes) (n.fragments · ahead) s :=
  evaluate_meetsCases.node n ahead s

namespace Lower.Meets

variable {α : Type} {x : Lower α} {trace trace' : State → List Event} {body : Lower Bool}

theorem branch (target : Label) (l : Location) (condition : Node) {f : Unit → Lower α}
    (hf : ∀ a t, (f a).Meets M b n trace t) :
    (branchUnless target l condition.evaluate >>= f).Meets M (12 * Node.weigh condition.nodes + b)
      (Node.weigh condition.nodes + n) (fun s =>
        condition.fragments s 0 ++ (branchUnless target l condition.evaluate).after s fun _ t =>
          trace t) s :=
  .upTo (.bind ((condition.evaluate_meets 0 s).before fun _ _ => .ite (.reject _ _) .idle) hf)
    (by omega) (by omega)

theorem block (hbody : ∀ t, body.Meets M b n trace t) :
    (Lower.block body).Meets M b n (fun s => Lower.openBlock.after s fun _ t => trace t) s :=
  .upTo (.after .openBlock fun _ t _ => (hbody t).before fun _ _ => .closeBlock _) (by omega)
    (by omega)

theorem guarded (target : Label) (l : Location) (condition : Node) {k : Unit → Lower α}
    (hbody : ∀ t, body.Meets M b n trace t) (hk : ∀ a t, (k a).Meets M b' n' trace' t) :
    (Lower.guarded target l condition.evaluate body >>= k).Meets M
      (12 * Node.weigh condition.nodes + (b + b')) (Node.weigh condition.nodes + (n + n')) (fun s =>
        condition.fragments s 0 ++ (branchUnless target l condition.evaluate).after s fun _ t =>
          Lower.openBlock.after t fun _ u => trace u ++ body.after u fun jumped v =>
            (Lower.closeBlock (!jumped)).after v fun _ w => trace' w) s := by
  rw [guarded_bind]
  exact .branch _ _ _ fun _ _ => .upTo (.after .openBlock fun _ t _ => .bind (hbody t) fun _ _ =>
    .after (.closeBlock _) fun _ u _ => hk _ u) (by omega) (by omega)

theorem loop (l : Location) (condition : Node) {post : Lower Bool}
    (hbody : ∀ t, body.Meets M b n trace t) (hpost : ∀ t, post.Meets M b' n' trace' t) :
    (Lower.loop l condition.evaluate body post).Meets M (12 * Node.weigh condition.nodes + (b + b'))
      (Node.weigh condition.nodes + (n + n')) (fun s => Lower.openLoop.after s fun f t =>
        condition.fragments t 0 ++ (branchUnless f.done l condition.evaluate).after t fun _ u =>
          trace u ++ body.after u fun _ v => (Lower.emit [.label f.exits.next]).after v fun _ w =>
            trace' w ++ post.after w fun _ x => [.finish x]) s :=
  .upTo (.after .openLoop fun f _ _ => .branch _ _ _ fun _ t => .bind (hbody t) fun _ _ =>
      .after .idle fun _ u _ =>
    .bind (hpost u) fun _ _ => .cons (fun _ => rfl) (.nothing (.closeLoop f))) (by omega) (by omega)

end Lower.Meets

theorem Lower.Costs.closeProgram (jumped : Bool) : (KuAsm.closeProgram jumped).Costs M 0 0 s := by
  have hclose (root : ScopeId) (t : State) : (do
      Lower.emit [mov eax (.imm Convention.sysExit), xor ebx ebx, kernel]
      Lower.defineFrameSize root
      tell (.programLowered (← get).tree.size) : Lower Unit).Costs M 0 0 t :=
    skip fun _ _ => next (defineFrameSize root) fun _ _ _ => read fun _ => idle
  refine read fun _ => ?_
  cases jumped with
  | true => exact hclose _ _
  | false => exact next (exitFrame _ _) fun _ _ _ => hclose _ _

end KuAsm
