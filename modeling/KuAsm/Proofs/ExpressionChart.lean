import KuAsm.Proofs.Ground

/-!
# Charts of expressions

The code of an expression begins and ends in the frame of the scope that it is evaluated in.
Variables are reached through as many links as their scopes lie outwards, and so are the frames that
calls hand over.

## Main definitions

* `ValuePiece`: code that begins and ends at the current scope, with the expressions in it.
* `Lower.IsValue`: whatever the action computes has such code.

## Main statements

* `Node.evaluate_isValue`: the code of every expression has a chart.
-/

namespace KuAsm

open Asm Reg Lower

variable {Γ : Ground} {a : Lowered} {F : ScopeId → List Slot} {s t : State}

/-- The number of the line that is written next. -/
def State.line (s : State) : Nat := (s.listing.lines s.target).length

theorem State.Quiet.line (h : s.Quiet t) (hs : s.target ≠ .data) : t.line = s.line := by
  unfold State.line
  rw [h.target]
  cases htarget : s.target with
  | data => exact absurd htarget hs
  | functions => exact congrArg List.length h.functions
  | program => exact congrArg List.length h.program

/-- Code that begins and ends at the current scope, wherever it will be written. -/
def ValuePiece (Γ : Ground) (s : State) (code : Code) (events : Nat → List Event) : Prop :=
  ∀ J ahead, Piece Γ J s.target (s.line + ahead) (.within s.current) code (.within s.current)
    (events ahead) []

namespace ValuePiece

variable {Γ : Ground} {s t : State} {a b code : Code} {es fs : Nat → List Event}

theorem congr (hq : s.Quiet t) (hs : s.target ≠ .data) :
    ValuePiece Γ t code es ↔ ValuePiece Γ s code es := by
  unfold ValuePiece
  rw [hq.target, hq.line hs, hq.current]

theorem append (h : ValuePiece Γ s a es) (k : ValuePiece Γ s b fs) :
    ValuePiece Γ s (a ++ b) fun ahead => es ahead ++ fs (ahead + a.length) := by
  intro J ahead
  refine (h J ahead).append ?_
  rw [Nat.add_assoc]
  exact k J (ahead + a.length)

/-- Lines behind the code of a value. -/
theorem snoc (h : ValuePiece Γ s a es) (k : ValuePiece Γ s b fun _ => []) :
    ValuePiece Γ s (a ++ b) es := by
  intro J ahead
  have hall : Piece Γ J _ _ _ (a ++ b) _ (es ahead ++ []) [] := h.append k J ahead
  rwa [List.append_nil] at hall

theorem steady (h : code.all Line.isSteady = true) : ValuePiece Γ s code fun _ => [] :=
  fun _ _ => .steady h rfl

theorem note (h : Code.IsNote code) : ValuePiece Γ s code fun _ => [] := fun _ _ => .note h

theorem nil : ValuePiece Γ s [] fun _ => [] := fun _ _ => .nil _

/-- The expression itself stands at the beginning of its code. -/
theorem here {n : Node} {v : Lowered} (h : ValuePiece Γ s v.code es) (hv : n.evaluate s = .ok v t) :
    ValuePiece Γ s v.code fun ahead => .expression n s ahead :: es ahead :=
  fun J ahead => (h J ahead).here rfl rfl ⟨v, t, hv, List.prefix_refl _⟩

end ValuePiece

/-- Whatever value the action ends with, its code has a chart on every ground.  The slots that it
reserves are those of its events. -/
def Lower.IsValue (x : Lower Lowered) (events : State → Nat → List Event) : Prop :=
  ∀ F s v t ahead, Laid F s → s.Equipped → x s = .ok v t →
    Settles F s (stashed F (events s ahead)) t ∧
      ∀ Γ, Γ.Holds (stashed F (events s ahead)) t → ValuePiece Γ s v.code (events s)

/-- An action that reserves nothing. -/
theorem Lower.IsValue.of_spare {x : Lower Lowered} (h : ∀ F s v t, Laid F s → x s = .ok v t →
    Settles F s F t ∧ ∀ Γ, Γ.Holds F t → ValuePiece Γ s v.code fun _ => []) : x.IsValue
    fun _ _ => [] := by
  intro F s v t ahead hs _ hv
  rw [stashed_nil]
  exact h F s v t hs hv

/-! ### Variables -/

section

variable {Γ : Ground} {F : ScopeId → List Slot} {s t : State}

theorem Ground.Holds.here_enclosing (h : Γ.Holds F s) :
    (Γ.tree.enclosing (some s.current))[0]? = some s.current := by
  rw [h.ordered.enclosing_eq h.current_lt]
  rfl

/-- A variable that was found has its slots in the frame that a chase leads to. -/
theorem Ground.Holds.variable (h : Γ.Holds F s) {name : String} {r : Resolved} {v : Variable}
    (hv : s.tree.lookupVariable s.current name = some (r, v)) :
    (Γ.tree.enclosing (some s.current))[r.depth]? = some r.scope ∧ v.slot ∈ Γ.slots r.scope ∧
      ∀ cell, v.sizeCell = some cell → cell ∈ Γ.slots r.scope := by
  obtain ⟨hpath, hget⟩ := ScopeTree.lookupVariable_eq_some hv
  have hmem : v ∈ (s.tree.scope r.scope).vars := List.mem_of_find?_eq_some hget
  refine ⟨h.enclosing hpath, ?_, fun cell hcell => ?_⟩
  · exact h.slot (h.lt_of_path hpath) (Scope.mem_slots.2 (.inr (.inl ⟨v, hmem, .inl rfl⟩)))
  · exact h.slot (h.lt_of_path hpath) (Scope.mem_slots.2 (.inr (.inl ⟨v, hmem, .inr hcell⟩)))

/-- Lines that reach a frame that was found. -/
theorem ValuePiece.reach {d : Nat} {i : ScopeId} {code : Code}
    (hd : (Γ.tree.enclosing (some s.current))[d]? = some i)
    (hcode : code ≠ []) (h : ∀ y ∈ code, y.Touches (Convention.chase d).2 (Γ.slots i)) :
    ValuePiece Γ s ((Convention.chase d).1 ++ code) fun _ => [] :=
  fun _ _ => .reach hd hcode h

end

namespace Lower.IsValue

theorem literal (v : Literal) : (literal v).IsValue fun _ _ => [] := by
  refine .of_spare fun F s w t hs h => ?_
  cases v with
  | number v | char v =>
    obtain ⟨rfl, rfl⟩ := pure_eq_ok.1 h
    exact ⟨.refl hs, fun _ _ => .steady rfl⟩
  | bool v =>
    obtain ⟨rfl, rfl⟩ := pure_eq_ok.1 h
    refine ⟨.refl hs, fun _ _ => .steady ?_⟩
    cases v <;> rfl
  | decimal v =>
    obtain ⟨note, u, hnote, h₁⟩ := bind_eq_ok.1 h
    obtain ⟨hnote', rfl⟩ := isNote_of_remark hnote
    obtain ⟨rfl, rfl⟩ := pure_eq_ok.1 h₁
    refine ⟨.refl hs, fun Γ _ => ?_⟩
    have hload : ValuePiece Γ t [mov eax (.bits v.bits)] fun _ => [] := .steady rfl
    exact hload.snoc (.note hnote')
  | str v =>
    obtain ⟨label, u, hplace, h₁⟩ := bind_eq_ok.1 h
    obtain ⟨-, rfl⟩ := place_eq_ok.1 hplace
    obtain ⟨rfl, rfl⟩ := pure_eq_ok.1 h₁
    have hq := State.Quiet.place s v
    exact ⟨.congr hs rfl rfl rfl rfl hq.labels, fun _ _ => .steady rfl⟩

theorem readVariable (name : String) (l : Location) :
    (readVariable name l).IsValue fun _ _ => [] := by
  refine .of_spare fun F s w t hs h => ?_
  obtain ⟨r, v, m, size, hvar, hslot, hsize, rfl⟩ := readVariable_eq_ok h
  obtain ⟨rfl, hcell⟩ := loadSize_eq_ok hsize
  refine ⟨.refl hs, fun Γ hΓ => ?_⟩
  obtain ⟨hd, hmem, hcells⟩ := hΓ.variable hvar
  show ValuePiece Γ _ ((Convention.chase r.depth).1 ++ [load eax m] ++ size) _
  rw [List.append_assoc]
  refine .reach hd nofun fun y hy => ?_
  rcases List.mem_append.1 hy with hy | hy
  · rw [List.mem_singleton.1 hy]
    exact .load nofun hslot hmem
  · rcases hcell with ⟨-, rfl⟩ | ⟨cell, c, hsome, hc, rfl⟩
    · cases hy
    · rw [List.mem_singleton.1 hy]
      exact .load nofun hc (hcells cell hsome)

theorem addressOf (name : String) (l : Location) : (addressOf name l).IsValue fun _ _ => [] := by
  refine .of_spare fun F s w t hs h => ?_
  obtain ⟨⟨r, v⟩, u, hfound, h₁⟩ := bind_eq_ok.1 h
  obtain ⟨hvar, rfl⟩ := resolveVariable_eq_ok.1 hfound
  obtain ⟨m, u₁, hm, h₂⟩ := bind_eq_ok.1 h₁
  obtain ⟨hslot, rfl⟩ := checked_eq_ok.1 hm
  obtain ⟨rfl, rfl⟩ := pure_eq_ok.1 h₂
  refine ⟨.refl hs, fun Γ hΓ => ?_⟩
  obtain ⟨hd, hmem, -⟩ := hΓ.variable hvar
  refine .reach hd nofun fun y hy => ?_
  rw [List.mem_singleton.1 hy]
  exact .lea nofun hslot hmem

theorem stepVariable (name : String) (op : StepOp) (fixity : Fixity) (l : Location) :
    (stepVariable name op fixity l).IsValue fun _ _ => [] := by
  refine .of_spare fun F s w t hs h => ?_
  obtain ⟨⟨r, v⟩, u, hfound, h₁⟩ := bind_eq_ok.1 h
  obtain ⟨hvar, rfl⟩ := resolveVariable_eq_ok.1 hfound
  dsimp only at h₁
  split at h₁
  · exact (reject_eq_ok.1 h₁).elim
  · obtain ⟨m, u₁, hm, h₂⟩ := bind_eq_ok.1 h₁
    obtain ⟨hslot, rfl⟩ := checked_eq_ok.1 hm
    have hcode : t = u₁ ∧
        (w.code = (Convention.chase r.depth).1 ++ [.instr (.unary op.unary m), load eax m] ∨
          w.code = (Convention.chase r.depth).1 ++ [load eax m, .instr (.unary op.unary m)]) := by
      cases fixity with
      | leading =>
        obtain ⟨rfl, rfl⟩ := pure_eq_ok.1 h₂
        exact ⟨rfl, .inl rfl⟩
      | trailing =>
        obtain ⟨rfl, rfl⟩ := pure_eq_ok.1 h₂
        exact ⟨rfl, .inr rfl⟩
    obtain ⟨rfl, hcode⟩ := hcode
    refine ⟨.refl hs, fun Γ hΓ => ?_⟩
    obtain ⟨hd, hmem, -⟩ := hΓ.variable hvar
    have hload : (load eax m).Touches (Convention.chase r.depth).2 (Γ.slots r.scope) :=
      .load nofun hslot hmem
    have hchange : (Line.instr (.unary op.unary m)).Touches (Convention.chase r.depth).2
        (Γ.slots r.scope) := by
      refine ⟨rfl, rfl, .of_slot (fun b hb => List.mem_singleton.1 hb) rfl hslot hmem⟩
    rcases hcode with hcode | hcode
    · rw [hcode]
      exact .reach hd nofun (by simp [hload, hchange])
    · rw [hcode]
      exact .reach hd nofun (by simp [hload, hchange])

end Lower.IsValue

/-! ### Calls -/

/-- The values of arguments, of which the first `count` are put into slots, and the expressions in
them. -/
inductive Values (Γ : Ground) (s : State) : Nat → List Lowered → (Nat → List Event) → Prop
  | nil {count} : Values Γ s count [] fun _ => []
  | staged {count v vs e es} : ValuePiece Γ s v.code e → Values Γ s count vs es →
    Values Γ s (count + 1) (v :: vs) fun ahead => e ahead ++ es (ahead + v.code.length + 1)
  | extra {v vs e es} : ValuePiece Γ s v.code e → Values Γ s 0 vs es →
    Values Γ s 0 (v :: vs) fun ahead => e ahead ++ es (ahead + v.code.length)

theorem Values.congr {count : Nat} {vs : List Lowered} {es : Nat → List Event}
    (hcode : ∀ code e, ValuePiece Γ s code e → ValuePiece Γ t code e) (h : Values Γ s count vs es) :
    Values Γ t count vs es := by
  induction h with
  | nil => exact .nil
  | staged hv _ ih => exact .staged (hcode _ _ hv) ih
  | extra hv _ ih => exact .extra (hcode _ _ hv) ih

theorem reserve_settles {slot : Slot} (hs : Laid F s) (h : reserve 4 s = .ok slot t) :
    Settles F s (growSlots F s.current [slot]) t ∧ slot.size = 4 := by
  obtain ⟨-, rfl, rfl⟩ := reserve_eq_ok.1 h
  exact ⟨.reserve hs (.inr rfl), rfl⟩

/-- What was stashed in a frame last is a slot of the ground. -/
theorem Ground.Holds.grown {i : ScopeId} {more : List Slot} {x : Slot}
    (h : Γ.Holds (growSlots F i more) t) (hx : x ∈ more) : x ∈ Γ.slots i := by
  refine h.stash ?_
  rw [growSlots_self]
  exact List.mem_append_right _ hx

/-- A slot of the current frame that a value is put into. -/
theorem ValuePiece.put (h : Γ.Holds F s) {slot : Slot} {m : Mem} {r : Reg}
    (hslot : slot ∈ Γ.slots s.current)
    (hm : Mem.slot ebp slot = .ok m) : ValuePiece Γ s [mov m r] fun _ => [] := by
  refine fun _ _ => .own h.here_enclosing fun y hy => ?_
  rw [List.mem_singleton.1 hy]
  exact ⟨rfl, rfl, .of_slot (fun b hb => List.mem_singleton.1 hb) rfl hm hslot⟩

theorem stageArguments_isValue {count : Nat} {vs : List Lowered} {code : Code} {slots : List Slot}
    (hs : Laid F s) (h : stageArguments count vs s = .ok (code, slots) t) :
    Settles F s (growSlots F s.current slots) t ∧ s.Quiet t ∧ (∀ x ∈ slots, x.size = 4) ∧
      ∀ Γ, Γ.Holds (growSlots F s.current slots) t →
        ∀ es, Values Γ s count vs es → ValuePiece Γ s code es := by
  induction vs generalizing F s t count code slots with
  | nil =>
    have h' : (pure ([], []) : Lower (Code × List Slot)) s = .ok (code, slots) t := by
      unfold stageArguments at h
      exact h
    obtain ⟨hpair, rfl⟩ := pure_eq_ok.1 h'
    cases hpair
    rw [growSlots_nil]
    refine ⟨.refl hs, .refl _, List.forall_mem_nil _, fun Γ _ es hes => ?_⟩
    cases hes
    exact .nil
  | cons v vs ih =>
    cases count with
    | zero =>
      unfold stageArguments at h
      obtain ⟨⟨rest, slots'⟩, u, hrest, h₁⟩ := bind_eq_ok.1 h
      obtain ⟨hpair, rfl⟩ := pure_eq_ok.1 h₁
      cases hpair
      obtain ⟨hsettles, hq, hslots, hpiece⟩ := ih hs hrest
      refine ⟨hsettles, hq, hslots, fun Γ hΓ es hes => ?_⟩
      cases hes with
      | extra hv hvs => exact hv.append (hpiece Γ hΓ _ hvs)
    | succ count =>
      unfold stageArguments at h
      obtain ⟨slot, u, hreserve, h₁⟩ := bind_eq_ok.1 h
      obtain ⟨m, u₁, hm, h₂⟩ := bind_eq_ok.1 h₁
      obtain ⟨hm', rfl⟩ := frameSlot_eq_ok.1 hm
      obtain ⟨⟨rest, slots'⟩, u₂, hrest, h₃⟩ := bind_eq_ok.1 h₂
      obtain ⟨hpair, rfl⟩ := pure_eq_ok.1 h₃
      cases hpair
      -- the slot is reserved before those of the later arguments
      obtain ⟨hs₁, hsize⟩ := reserve_settles hs hreserve
      have hq₁ := IsQuiet.reserve _ _ _ _ hs.formed hreserve
      obtain ⟨hs₂, hq₂, hslots, hpiece⟩ := ih hs₁.laid hrest
      rw [growSlots_append F _ _ hq₁.current, List.singleton_append] at hs₂ hpiece
      refine ⟨hs₁.trans hs₂, hq₁.trans hq₂, List.forall_mem_cons.2 ⟨hsize, hslots⟩,
        fun Γ hΓ es hes => ?_⟩
      · cases hes with
        | staged hv hvs =>
          have hput : ValuePiece Γ s [mov m eax] fun _ => [] :=
            .put (hΓ.back hs (hs₁.trans hs₂)) (hΓ.grown List.mem_cons_self) hm'
          have hlater := hpiece Γ hΓ _ (hvs.congr fun _ _ h => (ValuePiece.congr hq₁ hs.target).2 h)
          have hall := (hv.snoc hput).append ((ValuePiece.congr hq₁ hs.target).1 hlater)
          simp only [List.length_append, List.length_singleton, ← Nat.add_assoc] at hall
          exact hall

/-- A new heap value gets two slots of the current frame. -/
theorem registerFresh_isValue {code : Code} {id : ReclaimId} (hs : Laid F s)
    (h : registerFresh s = .ok (code, id) t) :
    Settles F s (growSlots F s.current (t.here.slotsOf (.fresh id))) t ∧
      ∀ Γ, Γ.Holds (growSlots F s.current (t.here.slotsOf (.fresh id))) t →
      ValuePiece Γ s code fun _ => [] := by
  obtain ⟨rfl, address, size, u, v, a, z, note, haddress, hsize, ha, hz, hnote, rfl, rfl⟩ :=
    registerFresh_eq_ok h
  have hs₁ : Settles F s F { s with session := s.session.mintReclaim.2 } :=
    .withSession hs (Nat.le_refl _)
  obtain ⟨hs₂, -⟩ := reserve_settles hs₁.laid haddress
  have hq₂ := IsQuiet.reserve _ _ _ _ hs₁.laid.formed haddress
  obtain ⟨hs₃, -⟩ := reserve_settles hs₂.laid hsize
  have hq₃ := hq₂.trans (IsQuiet.reserve _ _ _ _ hs₂.laid.formed hsize)
  rw [growSlots_append F _ _ hq₂.current] at hs₃
  have hslots : (v.withScope { v.here with
      freeSet := v.here.freeSet.insert ⟨s.session.nextReclaim⟩ ⟨address, size⟩ }).here.slotsOf
        (.fresh ⟨s.session.nextReclaim⟩) = [address, size] := by
    rw [State.here_withScope hs₃.laid.formed]
    show (FreeSet.get? (v.here.freeSet.insert _ _) _).elim [] Staged.slots = _
    rw [FreeSet.get?_insert_self]
    rfl
  rw [hslots]
  have hs₄ :
      Settles (growSlots F s.current [address, size]) v (growSlots F s.current [address, size])
      (v.withScope { v.here with
        freeSet := v.here.freeSet.insert ⟨s.session.nextReclaim⟩ ⟨address, size⟩ }) := by
    refine .replace hs₃.laid ⟨rfl, rfl, rfl, rfl, List.prefix_refl _⟩ rfl rfl fun e he x hx => ?_
    rcases FreeSet.mem_insertEntry he with rfl | he
    · rw [hq₃.current]
      exact growSlots_self F _ _ ▸ List.mem_append_right _ hx
    · exact hs₃.laid.pending _ hs₃.laid.current_lt e he x hx
  have hall := ((hs₁.trans hs₂).trans hs₃).trans hs₄
  refine ⟨hall, fun Γ hΓ => ?_⟩
  have hΓs := hΓ.back hs hall
  have hstores : ValuePiece Γ s [store a eax, store z edx] fun _ => [] := by
    refine fun _ _ => .own hΓs.here_enclosing fun y hy => ?_
    rcases List.mem_cons.1 hy with rfl | hy
    · exact .store ha (hΓ.grown List.mem_cons_self)
    · rw [List.mem_singleton.1 hy]
      exact .store hz (hΓ.grown (List.mem_cons_of_mem _ (List.mem_singleton_self _)))
  exact hstores.snoc (.note hnote)

/-- A call of a function that is declared in the scope at the given depth. -/
theorem invoke_isValue {f : Signature} {d : Nat} {vs : List Lowered} {v : Lowered} (hs : Laid F s)
    (h : invoke f d vs s = .ok v t) :
    Settles F s (growSlots F s.current (f.stash d vs s)) t ∧
      ∀ Γ, Γ.Holds (growSlots F s.current (f.stash d vs s)) t →
        ∀ k, (Γ.tree.enclosing (some s.current))[d]? = some k → f ∈ (Γ.tree.scope k).functions →
          ∀ es, Values Γ s f.params.length vs es → ValuePiece Γ s v.code es := by
  unfold Signature.stash
  rw [after_ok h]
  obtain ⟨staging, slots, u, note, call, hstaging, hnote, hcall, hcases⟩ := invoke_eq_ok h
  rw [after_ok hstaging]
  obtain ⟨hs₁, hq₁, hslots, hpiece⟩ := stageArguments_isValue hs hstaging
  have hs₂ : Settles (growSlots F s.current slots) u (growSlots F s.current slots)
      { u with session := u.session.recordCall f.name } := .withSession hs₁.laid (Nat.le_refl _)
  have hs₁₂ := hs₁.trans hs₂
  have hcode : ∀ Γ, Γ.Holds (growSlots F s.current slots) u →
      ∀ k, (Γ.tree.enclosing (some s.current))[d]? = some k → f ∈ (Γ.tree.scope k).functions →
      ∀ es, Values Γ s f.params.length vs es → ValuePiece Γ s (staging ++ note ++ call) es := by
    intro Γ hΓ k hk hf es hes
    have hΓs := hΓ.back hs hs₁
    refine ((hpiece Γ hΓ es hes).snoc (.note hnote)).snoc fun _ _ => ?_
    exact .call hΓs.here_enclosing (fun x hx => ⟨hΓ.grown hx, hslots x hx⟩) hk hf hcall
  rcases hcases with ⟨-, rfl, rfl⟩ | ⟨-, registered, id, hfresh, rfl⟩
  · rw [show Scope.slotsOf _ (Lowered.plain f.ret _).ownership = [] from rfl, List.append_nil]
    exact ⟨hs₁₂, fun Γ hΓ k hk hf es hes => hcode Γ (hΓ.back hs₁.laid hs₂) k hk hf es hes⟩
  · obtain ⟨hs₃, hregistered⟩ := registerFresh_isValue hs₂.laid hfresh
    rw [growSlots_append F _ _ hq₁.current] at hs₃ hregistered
    refine ⟨hs₁₂.trans hs₃, fun Γ hΓ k hk hf es hes => ?_⟩
    have hΓ₁ := (hΓ.back hs₂.laid hs₃).back hs₁.laid hs₂
    exact (hcode Γ hΓ₁ k hk hf es hes).snoc ((ValuePiece.congr hq₁ hs.target).1 (hregistered Γ hΓ))

/-! ### Operators -/

theorem decimalCode_isValue {op : BinaryOp} {code : Code} (hs : Laid F s)
    (h : decimalCode op s = .ok code t) :
    Settles F s F t ∧ ∀ Γ, ValuePiece Γ s code fun _ => [] := by
  unfold Lower.decimalCode at h
  dsimp only at h
  split at h
  · obtain ⟨again, u, hmint, h₁⟩ := bind_eq_ok.1 h
    obtain ⟨-, rfl⟩ := mintLabel_eq_ok.1 hmint
    obtain ⟨rfl, rfl⟩ := pure_eq_ok.1 h₁
    refine ⟨.withSession hs (Nat.le_succ _), fun Γ => ?_⟩
    have hfirst : ValuePiece Γ s ([push eax] ++ loadRounded (Mem.dword esp 0) ++
        loadRounded (Mem.dword esp 4)) fun _ => [] := .steady rfl
    have hloop :
        ValuePiece Γ s [.label again, bare .fprem, .instr .floatStatus, bare .sahf, jcc .p again,
          .instr .floatKeep] fun _ => [] := by
      refine fun _ _ => .keeps fun i y hy => ?_
      match i with
      | 0 =>
        cases hy
        exact .label rfl
      | 1 | 2 | 3 | 5 =>
        cases hy
        exact .steady rfl (.inl rfl)
      | 4 =>
        cases hy
        exact .branch rfl (.inr List.mem_cons_self)
      | _ + 6 => cases hy
    exact (hfirst.snoc hloop).snoc (.steady rfl)
  · cases hpair : op.floatPair? with
    | some pair =>
      rw [hpair] at h
      obtain ⟨rfl, rfl⟩ := pure_eq_ok.1 h
      exact ⟨.refl hs, fun _ => .steady rfl⟩
    | none =>
      rw [hpair] at h
      obtain ⟨rfl, rfl⟩ := pure_eq_ok.1 h
      exact ⟨.refl hs, fun _ => .steady rfl⟩

theorem integerCode_isSteady (op : BinaryOp) : (integerCode op).all Line.isSteady = true := by
  cases op <;> rfl

theorem negateCode_isSteady (ty : ScalarType) : (negateCode ty).all Line.isSteady = true := by
  cases ty <;> rfl

theorem Ground.Holds.root_enclosing (h : Γ.Holds F s) :
    (Γ.tree.enclosing (some s.current))[s.tree.depthToRoot s.current]? = some s.root := by
  refine h.enclosing ?_
  rw [h.laid.formed.root_eq]
  exact h.laid.formed.ordered.getElem?_path_depthToRoot h.laid.current_lt

theorem Ground.Holds.library (h : Γ.Holds F s) {name : String} {f : Signature}
    (hf : (s.tree.scope s.root).getFunction? name = some f) : f ∈ (Γ.tree.scope s.root).functions :=
  (h.tree.scope s.root h.laid.formed.root_lt).functions.subset (List.mem_of_find?_eq_some hf)

/-- Two values combined: the right one is computed one line behind the left one. -/
theorem combine_isValue {op : BinaryOp} {b v : Lowered} {l : Location} (hs : Laid F s)
    (heq : s.Equipped) (h : combine op a b l s = .ok v t) :
    Settles F s (growSlots F s.current (op.stash a b s)) t ∧
      ∀ Γ, Γ.Holds (growSlots F s.current (op.stash a b s)) t →
        ∀ es fs, ValuePiece Γ s a.code es → ValuePiece Γ s b.code fs →
          ValuePiece Γ s v.code fun ahead => es ahead ++ fs (ahead + a.code.length + 1) := by
  have hoperands : ∀ {Γ : Ground} {es fs : Nat → List Event} {rest : Code},
      ValuePiece Γ s a.code es → ValuePiece Γ s b.code fs → ValuePiece Γ s rest (fun _ => []) →
      ValuePiece Γ s (a.code ++ [push eax] ++ b.code ++ rest) fun ahead =>
      es ahead ++ fs (ahead + a.code.length + 1) := by
    intro Γ es fs rest ha hb hrest
    have hpush : ValuePiece Γ s [push eax] fun _ => [] := .steady rfl
    have hall := ((ha.snoc hpush).append hb).snoc hrest
    simp only [List.length_append, List.length_singleton, ← Nat.add_assoc] at hall
    exact hall
  unfold BinaryOp.stash
  rcases combine_eq_ok h with ⟨hjoins, f, hf, hcall⟩ | ⟨hjoins, -, code, hcode, rfl⟩
  · rw [if_pos hjoins]
    obtain ⟨f', hf', hparams, -⟩ := heq .append
    obtain rfl : f = f' := Option.some.inj (hf.symm.trans hf')
    rw [hf]
    obtain ⟨hs', hpiece⟩ := invoke_isValue hs hcall
    refine ⟨hs', fun Γ hΓ es fs ha hb => ?_⟩
    have hΓs := hΓ.back hs hs'
    have hvalues : Values Γ s f.params.length [a, b] fun ahead =>
        es ahead ++ (fs (ahead + a.code.length + 1) ++ []) := by
      rw [hparams]
      exact .staged ha (.staged hb .nil)
    simpa only [List.append_nil] using hpiece Γ hΓ _ hΓs.root_enclosing (hΓs.library hf) _ hvalues
  · rw [if_neg hjoins, growSlots_nil]
    rcases hcode with ⟨-, hcode⟩ | ⟨-, rfl, rfl⟩
    · obtain ⟨hs', hpiece⟩ := decimalCode_isValue hs hcode
      exact ⟨hs', fun Γ _ es fs ha hb => hoperands ha hb (hpiece Γ)⟩
    · exact ⟨.refl hs, fun Γ _ es fs ha hb => hoperands ha hb (.steady (integerCode_isSteady op))⟩

theorem applySign_isValue {sign : Sign} {v : Lowered} {l : Location} (hs : Laid F s)
    (h : applySign sign a l s = .ok v t) :
    Settles F s F t ∧ ∀ Γ es, ValuePiece Γ s a.code es → ValuePiece Γ s v.code es := by
  obtain ⟨rfl, -, code, hcode, rfl⟩ := applySign_eq_ok h
  refine ⟨.refl hs, fun _ _ ha => ha.snoc (.steady ?_)⟩
  rcases hcode with rfl | rfl
  · rfl
  · exact negateCode_isSteady a.ty

theorem isSteady_load {r : Reg} {a : Mem} (ha : a.base ≠ ebp ∧ a.base ≠ esi) :
    (load r a).isSteady = true := by
  refine Line.isSteady_iff.2 ⟨?_, ?_, ?_⟩ <;> unfold load
  · split
    · rfl
    · cases r <;> rfl
  · split <;> nofun
  · intro b hb
    have hb' : b = a := by
      split at hb <;> exact List.mem_singleton.1 hb
    rw [hb']
    exact fun h => h.elim ha.1 ha.2

theorem applyCast_isValue {ty : ScalarType} {mode : CastMode} {v : Lowered} {l : Location}
    (hs : Laid F s) (h : applyCast a ty mode l s = .ok v t) :
    Settles F s F t ∧ ∀ Γ es, ValuePiece Γ s a.code es → ValuePiece Γ s v.code es := by
  have hsize : (if ty.isHeap then [xor edx edx] else []).all Line.isSteady = true := by
    split <;> rfl
  obtain ⟨rfl, code, hcode, rfl⟩ := applyCast_eq_ok h
  refine ⟨.refl hs, fun Γ es ha => (ha.snoc (.steady ?_)).snoc (.steady hsize)⟩
  rcases hcode with rfl | rfl | rfl
  · rfl
  · rfl
  · have hbase :
        (Mem.sized eax 0 (.ofType ty)).base ≠ ebp ∧ (Mem.sized eax 0 (.ofType ty)).base ≠ esi :=
      ⟨Reg.noConfusion, Reg.noConfusion⟩
    rw [List.all_cons, isSteady_load hbase]
    rfl

/-! ### Expressions -/

namespace Lower.IsValue

/-- The expression itself stands at the beginning of its code.  It reserves nothing but for its
parts. -/
theorem here {n : Node} {es : State → Nat → List Event} (h : n.evaluate.IsValue es)
    (hn : ∀ s, n.stash s = []) :
    n.evaluate.IsValue fun s ahead => .expression n s ahead :: es s ahead := by
  intro F s v t ahead hs heq hv
  rw [stashed_cons (Event.stash_expression (hn s) ahead)]
  obtain ⟨hs', hpiece⟩ := h F s v t ahead hs heq hv
  exact ⟨hs', fun Γ hΓ => (hpiece Γ hΓ).here hv⟩

theorem expect {x : Lower Lowered} {es : State → Nat → List Event} (h : x.IsValue es)
    (ty : ScalarType) (l : Location) : (expect ty l x).IsValue es :=
  fun F s v t ahead hs heq hv => h F s v t ahead hs heq (expect_eq_ok.1 hv).1

/-- A value that is computed from another one. -/
theorem bind {x : Lower Lowered} {f : Lowered → Lower Lowered} {es : State → Nat → List Event}
    (hx : x.IsValue es) (hf : ∀ a F s v t, Laid F s → f a s = .ok v t →
      Settles F s F t ∧ ∀ Γ es, ValuePiece Γ s a.code es → ValuePiece Γ s v.code es) (hq :
        x.IsQuiet) : (x >>= f).IsValue es := by
  intro F s v t ahead hs heq h
  obtain ⟨a, u, ha, hv⟩ := bind_eq_ok.1 h
  obtain ⟨hs₁, hpiece⟩ := hx F s a u ahead hs heq ha
  obtain ⟨hs₂, hcode⟩ := hf a _ u v t hs₁.laid hv
  refine ⟨hs₁.trans hs₂, fun Γ hΓ => ?_⟩
  have hcongr : ∀ {code}, ValuePiece Γ u code (es s) ↔ ValuePiece Γ s code (es s) :=
    ValuePiece.congr (hq s a u hs.formed ha) hs.target
  exact hcongr.1 (hcode Γ _ (hcongr.2 (hpiece Γ (hΓ.back hs₁.laid hs₂))))

end Lower.IsValue

theorem resolveCall_eq_ok {name : String} {count : Nat} {l : Location} {x : Resolved × Signature}
    (h : resolveCall name count l s = .ok x t) :
    s.tree.lookupFunction s.current name = some x ∧ x.2.params.length ≤ count ∧ t = s := by
  obtain ⟨⟨r, f⟩, u, hfound, h₁⟩ := bind_eq_ok.1 h
  obtain ⟨hlook, rfl⟩ := resolveFunction_eq_ok.1 hfound
  dsimp only at h₁
  split at h₁
  · exact (reject_eq_ok.1 h₁).elim
  · obtain ⟨rfl, rfl⟩ := pure_eq_ok.1 h₁
    exact ⟨hlook, Nat.le_of_not_lt (by assumption), rfl⟩

/-- Arguments are evaluated one after the other, and each has code of its own. -/
def Node.AreValues (args : List Node) : Prop :=
  ∀ name params F s vs t ahead, Laid F s → s.Equipped → Node.evaluateArgs name params args s =
    .ok vs t → Settles F s (stashed F (Node.fragmentsAll name params args s ahead)) t ∧ s.Quiet t ∧
      ∀ Γ, Γ.Holds (stashed F (Node.fragmentsAll name params args s ahead)) t →
        Values Γ s params.length vs (Node.fragmentsAll name params args s)

theorem Node.stash_literal {form : Form} {v : Literal} (h : form.literal? = some v) (l : Location)
    (s : State) : Node.stash (.mk form l) s = [] := by
  cases form <;> cases h <;> rfl

theorem Node.evaluate_isValueCases :
    ExpressionCases (fun n => n.evaluate.IsValue n.fragments) Node.AreValues where
  constant {form v l} h := by
    have hvalue : (Node.mk form l).evaluate.IsValue fun _ _ => [] := by
      rw [Node.evaluate_literal h]
      exact .literal v
    rw [show (Node.mk form l).fragments = fun s ahead => [.expression (.mk form l) s ahead] from
      funext fun s => funext fun ahead => Node.fragments_literal h l s ahead]
    exact hvalue.here (Node.stash_literal h l)
  var {name l} := by
    have hvalue : (Node.mk (.var name) l).evaluate.IsValue fun _ _ => [] := .readVariable name l
    exact hvalue.here fun _ => rfl
  binary {op left right l} hleft hright := by
    intro F s v t ahead hs heq h
    have hrun := h
    unfold Node.evaluate at h
    obtain ⟨a, u, ha, h₁⟩ := bind_eq_ok.1 h
    obtain ⟨b, w, hb, hcombine⟩ := bind_eq_ok.1 h₁
    have hq₁ := Node.evaluate_quiet left s a u hs.formed ha
    have hevents : (Node.mk (.binary op left right) l).fragments s = fun ahead =>
        .expression (.mk (.binary op left right) l) s ahead ::
          (left.fragments s ahead ++ right.fragments u (ahead + a.code.length + 1)) := by
      funext ahead
      rw [Node.fragments, after_ok ha]
    have hown : (Node.mk (.binary op left right) l).stash s = op.stash a b w := by
      rw [Node.stash, after_ok ha, after_ok hb]
    obtain ⟨hs₁, hpiece₁⟩ := hleft F s a u ahead hs heq ha
    have heq₁ := (hq₁.grows hs.formed).onward.equipped hs.formed heq
    have hq₂ := Node.evaluate_quiet right u b w hs₁.laid.formed hb
    obtain ⟨hs₂, hpiece₂⟩ := hright _ u b w (ahead + a.code.length + 1) hs₁.laid heq₁ hb
    rw [← stashed_append] at hs₂ hpiece₂
    have heq₂ := (hq₂.grows hs₁.laid.formed).onward.equipped hs₁.laid.formed heq₁
    obtain ⟨hs₃, hpiece₃⟩ := combine_isValue hs₂.laid heq₂ hcombine
    rw [← hown, (hq₁.trans hq₂).current] at hs₃ hpiece₃
    have hperm := growSlots_stashed_perm (.expression (.mk (.binary op left right) l) s ahead)
      (left.fragments s ahead ++ right.fragments u (ahead + a.code.length + 1)) (fun _ => rfl) F
    rw [hevents]
    refine ⟨((hs₁.trans hs₂).trans hs₃).perm hperm, fun Γ hΓ' => ?_⟩
    have hΓ := hΓ'.perm fun j => (hperm j).symm
    have hΓ₂ := hΓ.back hs₂.laid hs₃
    have hw : ∀ {code es}, ValuePiece Γ w code es ↔ ValuePiece Γ s code es :=
      ValuePiece.congr (hq₁.trans hq₂) hs.target
    have hboth := hpiece₃ Γ hΓ _ _ (hw.2 (hpiece₁ Γ (hΓ₂.back hs₁.laid hs₂)))
      (hw.2 ((ValuePiece.congr hq₁ hs.target).1 (hpiece₂ Γ hΓ₂)))
    exact (hw.1 hboth).here hrun
  signed {sign value l} hvalue := by
    have hall : (Node.mk (.signed sign value) l).evaluate.IsValue value.fragments := by
      unfold Node.evaluate
      exact hvalue.bind (fun a F s v t hs h => applySign_isValue hs h) (Node.evaluate_quiet value)
    exact hall.here fun _ => rfl
  step {name op fixity l} := by
    have hvalue : (Node.mk (.step name op fixity) l).evaluate.IsValue fun _ _ => [] :=
      .stepVariable name op fixity l
    exact hvalue.here fun _ => rfl
  call {name args l} hargs := by
    intro F s v t ahead hs heq h
    have hrun := h
    unfold Node.evaluate at h
    obtain ⟨⟨r, f⟩, u, hresolve, h₁⟩ := bind_eq_ok.1 h
    obtain ⟨hlook, -, rfl⟩ := resolveCall_eq_ok hresolve
    obtain ⟨vs, w, hvs, hinvoke⟩ := bind_eq_ok.1 h₁
    have hevents : (Node.mk (.call name args) l).fragments u = fun ahead =>
        .expression (.mk (.call name args) l) u ahead :: Node.fragmentsAll name f.params args u
            ahead := by
      funext ahead
      rw [Node.fragments, after_ok hresolve]
    have hown : (Node.mk (.call name args) l).stash u = f.stash r.depth vs w := by
      rw [Node.stash, after_ok hresolve, after_ok hvs]
    obtain ⟨hs₁, hq₁, hvalues⟩ := hargs name f.params F u vs w ahead hs heq hvs
    obtain ⟨hs₂, hpiece⟩ := invoke_isValue hs₁.laid hinvoke
    rw [← hown, hq₁.current] at hs₂ hpiece
    have hperm := growSlots_stashed_perm (.expression (.mk (.call name args) l) u ahead)
      (Node.fragmentsAll name f.params args u ahead) (fun _ => rfl) F
    rw [hevents]
    refine ⟨(hs₁.trans hs₂).perm hperm, fun Γ hΓ' => ?_⟩
    have hΓ := hΓ'.perm fun j => (hperm j).symm
    have hΓ₁ := hΓ.back hs₁.laid hs₂
    have hΓu := hΓ₁.back hs hs₁
    obtain ⟨hpath, hget⟩ := ScopeTree.lookupFunction_eq_some hlook
    have hmem : f ∈ (Γ.tree.scope r.scope).functions :=
      (hΓu.tree.scope _ (hΓu.lt_of_path hpath)).functions.subset (List.mem_of_find?_eq_some hget)
    have hw : ∀ {code es}, ValuePiece Γ w code es ↔ ValuePiece Γ u code es :=
      ValuePiece.congr hq₁ hs.target
    have hcall := hpiece Γ hΓ r.scope (hΓu.enclosing hpath) hmem _
      ((hvalues Γ hΓ₁).congr fun _ _ h => hw.2 h)
    exact (hw.1 hcall).here hrun
  addressOf {name l} := by
    have hvalue : (Node.mk (.addressOf name) l).evaluate.IsValue fun _ _ => [] := .addressOf name l
    exact hvalue.here fun _ => rfl
  cast {value ty mode l} hvalue := by
    have hall : (Node.mk (.cast value ty mode) l).evaluate.IsValue value.fragments := by
      unfold Node.evaluate
      exact hvalue.bind (fun a F s v t hs h => applyCast_isValue hs h) (Node.evaluate_quiet value)
    exact hall.here fun _ => rfl
  misplaced h := by
    intro F s v t ahead hs _ hrun
    rw [Node.evaluate_misplaced h] at hrun
    exact (reject_eq_ok.1 hrun).elim
  nil := by
    intro name params F s vs t ahead hs _ h
    unfold Node.evaluateArgs at h
    obtain ⟨rfl, rfl⟩ := pure_eq_ok.1 h
    rw [show Node.fragmentsAll name params [] t = fun _ => [] from
      funext fun _ => by unfold Node.fragmentsAll; rfl, stashed_nil]
    exact ⟨.refl hs, .refl _, fun Γ _ => .nil⟩
  cons {n ns} hn hns := by
    intro name params F s vs t ahead hs heq h
    cases params with
    | nil =>
      unfold Node.evaluateArgs at h
      obtain ⟨_, u, htell, h₁⟩ := bind_eq_ok.1 h
      have hq := IsQuiet.tell _ _ _ _ hs.formed htell
      have hs₀ : Settles F s F u := by
        obtain rfl := tell_eq_ok.1 htell
        exact .withSession hs (Nat.le_refl _)
      have heq₀ := (hq.grows hs.formed).onward.equipped hs.formed heq
      obtain ⟨a, w, ha, h₂⟩ := bind_eq_ok.1 h₁
      obtain ⟨vs', w', hvs, h₃⟩ := bind_eq_ok.1 h₂
      obtain ⟨rfl, rfl⟩ := pure_eq_ok.1 h₃
      have hq₁ := Node.evaluate_quiet n u a w hs₀.laid.formed ha
      obtain ⟨hs₁, hpiece⟩ := hn F u a w ahead hs₀.laid heq₀ ha
      have heq₁ := (hq₁.grows hs₀.laid.formed).onward.equipped hs₀.laid.formed heq₀
      obtain ⟨hs₂, hq₂, hvalues⟩ := hns name [] _ w vs' t (ahead + a.code.length) hs₁.laid heq₁ hvs
      have hevents : Node.fragmentsAll name [] (n :: ns) s = fun ahead =>
          n.fragments u ahead ++ Node.fragmentsAll name [] ns w (ahead + a.code.length) := by
        funext ahead
        rw [Node.fragmentsAll, after_ok htell, after_ok ha]
      rw [hevents, stashed_append]
      refine ⟨(hs₀.trans hs₁).trans hs₂, (hq.trans hq₁).trans hq₂, fun Γ hΓ => ?_⟩
      refine .extra ((ValuePiece.congr hq hs.target).1 (hpiece Γ (hΓ.back hs₁.laid hs₂))) ?_
      exact (hvalues Γ hΓ).congr fun _ _ h => (ValuePiece.congr (hq.trans hq₁) hs.target).1 h
    | cons p params =>
      unfold Node.evaluateArgs at h
      obtain ⟨a, w, ha, h₁⟩ := bind_eq_ok.1 h
      obtain ⟨vs', w', hvs, h₂⟩ := bind_eq_ok.1 h₁
      obtain ⟨rfl, rfl⟩ := pure_eq_ok.1 h₂
      have ha' := (expect_eq_ok.1 ha).1
      have hq₁ := Node.evaluate_quiet n s a w hs.formed ha'
      obtain ⟨hs₁, hpiece⟩ := hn F s a w ahead hs heq ha'
      have heq₁ := (hq₁.grows hs.formed).onward.equipped hs.formed heq
      obtain ⟨hs₂, hq₂, hvalues⟩ :=
        hns name params _ w vs' t (ahead + a.code.length + 1) hs₁.laid heq₁ hvs
      have hevents : Node.fragmentsAll name (p :: params) (n :: ns) s = fun ahead =>
          n.fragments s ahead ++ Node.fragmentsAll name params ns w
              (ahead + a.code.length + 1) := by
        funext ahead
        rw [Node.fragmentsAll, after_ok ha]
      rw [hevents, stashed_append]
      refine ⟨hs₁.trans hs₂, hq₁.trans hq₂, fun Γ hΓ => ?_⟩
      refine .staged (hpiece Γ (hΓ.back hs₁.laid hs₂)) ?_
      exact (hvalues Γ hΓ).congr fun _ _ h => (ValuePiece.congr hq₁ hs.target).1 h

/-- The code of every expression has a chart, in which its parts stand where they are computed. -/
theorem Node.evaluate_isValue (n : Node) : n.evaluate.IsValue n.fragments :=
  Node.evaluate_isValueCases.node n

theorem Node.evaluateOr_isValue (value : Option Node) (ty : ScalarType) :
    (Node.evaluateOr value ty).IsValue (Node.fragmentsOr value) := by
  cases value with
  | none => exact .literal ty.zero
  | some n => exact (Node.evaluate_isValue n).expect ty n.location

end KuAsm
