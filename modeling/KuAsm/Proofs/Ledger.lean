import KuAsm.Proofs.Onward

/-!
# The ledger of heap values

Every heap value has an id, and whoever holds the id releases the value.  This module shows that ids
are neither lost nor held twice.

An id is held by a variable, or it is staged in the free set of a scope.  It is spent when a new
heap value is assigned to a variable that exists already: the variable keeps the id it has, and the
id of the new value is not needed any more.

## Main statements

* `Ledger base spent s`: in the state `s`, every id that was made since the counter stood at `base`
  is held once, staged once, or spent once, and no other id occurs.
* `ledger_between_statements`: the ledger is in order in every state between two statements of a
  compilation.  Hence no value is staged twice when a scope is left, and as many are staged as the
  free set has entries and the scope has strings.

The proof counts.  `State.held s id` says how often an id is held or staged, and an action that
works in the current scope changes it by what it changes in that scope.
-/

namespace KuAsm

variable {code : Code} {spent : List ReclaimId} {l : Location} {x : Lower Lowered} {base : Nat}
  {id : ReclaimId} {ty : ScalarType} {sc : Scope} {t : State} {name : String} {a : Unit}
  {v : Variable}

/-! ### Counting ids -/

/-- The ids that the variables of a scope own. -/
def Scope.ownedIds (sc : Scope) : List ReclaimId := sc.vars.filterMap (·.reclaim)

/-- The ids in the free set of a scope. -/
def Scope.stagedIds (sc : Scope) : List ReclaimId := sc.freeSet.entries.map (·.1)

/-- How often a scope has an id. -/
def Scope.held (sc : Scope) (id : ReclaimId) : Nat := sc.ownedIds.count id + sc.stagedIds.count id

/-- The ids that variables own. -/
def State.owned (s : State) : List ReclaimId := s.tree.scopes.flatMap Scope.ownedIds

/-- The ids in free sets. -/
def State.staged (s : State) : List ReclaimId := s.tree.scopes.flatMap Scope.stagedIds

/-- How often an id is owned or staged. -/
def State.held (s : State) (id : ReclaimId) : Nat := s.owned.count id + s.staged.count id

/-- A variable has an id exactly if it has a cell for a size, and that exactly if it is a string. -/
structure Variable.Settled (v : Variable) : Prop where
  reclaim_iff : v.reclaim.isSome ↔ v.sizeCell.isSome
  sizeCell_iff : v.sizeCell.isSome ↔ v.ty = .string

/-- Every id made since the counter stood at `base` is owned once, staged once or spent once, and no
other id occurs.  Variables have ids as their types ask for. -/
structure Ledger (base : Nat) (spent : List ReclaimId) (s : State) : Prop where
  conserved : ∀ id : ReclaimId, s.owned.count id + s.staged.count id + spent.count id =
    if base ≤ id.number ∧ id.number < s.session.nextReclaim then 1 else 0
  settled : ∀ sc ∈ s.tree.scopes, ∀ v ∈ sc.vars, v.Settled

/-- Replacing one member of a list changes a count by what it changes in that member. -/
theorem count_flatMap_set {α β : Type} [BEq β] (f : α → List β) (b : β) (x d : α) :
    ∀ (l : List α) (i : Nat), i < l.length →
      ((l.set i x).flatMap f).count b + (f (l.getD i d)).count b =
        (l.flatMap f).count b + (f x).count b
  | [], _, h => absurd h (Nat.not_lt_zero _)
  | y :: l, 0, _ => by
    simp only [List.set_cons_zero, List.flatMap_cons, List.count_append, List.getD_cons_zero]
    omega
  | y :: l, i + 1, h => by
    have ih := count_flatMap_set f b x d l i (Nat.lt_of_succ_lt_succ h)
    simp only [List.set_cons_succ, List.flatMap_cons, List.count_append, List.getD_cons_succ]
    omega

namespace State

variable {s t : State}

/-- Changing the current scope changes what is held by what is held there. -/
theorem held_withScope (hs : s.Formed) (sc : Scope) (id : ReclaimId) :
    (s.withScope sc).held id + s.here.held id = s.held id + sc.held id := by
  have howned := count_flatMap_set Scope.ownedIds id sc default s.tree.scopes s.current
    hs.current_lt
  have hstaged := count_flatMap_set Scope.stagedIds id sc default s.tree.scopes s.current
    hs.current_lt
  show ((s.tree.scopes.set s.current sc).flatMap Scope.ownedIds).count id
      + ((s.tree.scopes.set s.current sc).flatMap Scope.stagedIds).count id
      + ((s.tree.scopes.getD s.current default).ownedIds.count id
        + (s.tree.scopes.getD s.current default).stagedIds.count id)
    = (s.tree.scopes.flatMap Scope.ownedIds).count id +
      (s.tree.scopes.flatMap Scope.stagedIds).count id
      + (sc.ownedIds.count id + sc.stagedIds.count id)
  omega

/-- A new scope holds nothing. -/
theorem held_entered (s : State) (l : Label) (id : ReclaimId) :
    (s.entered l).held id = s.held id := by
  show ((s.tree.scopes ++ [Scope.fresh (some s.current) l]).flatMap Scope.ownedIds).count id
      + ((s.tree.scopes ++ [Scope.fresh (some s.current) l]).flatMap Scope.stagedIds).count id
    = (s.tree.scopes.flatMap Scope.ownedIds).count id +
      (s.tree.scopes.flatMap Scope.stagedIds).count id
  simp [List.flatMap_append, Scope.ownedIds, Scope.stagedIds, Scope.fresh, FreeSet.empty]

/-- A scope of the tree holds an id at most as often as the whole tree. -/
theorem held_le_of_mem (h : sc ∈ s.tree.scopes) (id : ReclaimId) : sc.held id ≤ s.held id := by
  have howned :=
    (List.sublist_flatten_of_mem (List.mem_map_of_mem (f := Scope.ownedIds) h)).count_le id
  have hstaged :=
    (List.sublist_flatten_of_mem (List.mem_map_of_mem (f := Scope.stagedIds) h)).count_le id
  exact Nat.add_le_add howned hstaged

end State

/-! ### Keeping the ledger -/

/-- Whether an id was made since the counter stood at `base`, as a number. -/
def State.made (base : Nat) (s : State) (id : ReclaimId) : Nat :=
  if base ≤ id.number ∧ id.number < s.session.nextReclaim then 1 else 0

/-- The books balance, and the state is in order. -/
structure Kept (base : Nat) (spent : List ReclaimId) (s : State) : Prop where
  conserved : ∀ id, s.held id + spent.count id = s.made base id
  formed : s.Formed
  base_le : base ≤ s.session.nextReclaim

/-- Counting on makes one id more. -/
theorem State.made_succ {s : State} (hbase : base ≤ s.session.nextReclaim)
    (hnext : t.session.nextReclaim = s.session.nextReclaim + 1) (id : ReclaimId) :
    t.made base id = s.made base id + if (⟨s.session.nextReclaim⟩ : ReclaimId) = id then
    1 else 0 := by
  unfold State.made
  rw [hnext]
  by_cases hid : (⟨s.session.nextReclaim⟩ : ReclaimId) = id
  · subst hid
    simp [hbase]
  · have hne : id.number ≠ s.session.nextReclaim := fun heq => hid (by rw [← heq])
    have hiff : (base ≤ id.number ∧ id.number < s.session.nextReclaim + 1) ↔
        (base ≤ id.number ∧ id.number < s.session.nextReclaim) := by omega
    rw [if_neg hid]
    simp only [hiff, Nat.add_zero]

namespace Kept

variable {base : Nat} {spent : List ReclaimId} {s t : State}

/-- The ledger after a change of the current scope.  The books balance if the scope holds more of an
id as far as ids were made, and less as far as ids were spent. -/
theorem replace {spent' : List ReclaimId} (h : Kept base spent s) (ht : t.Formed)
    (htree : t.tree = s.tree.set s.current sc)
    (hnext : s.session.nextReclaim ≤ t.session.nextReclaim)
    (hcount : ∀ id, sc.held id + spent'.count id + s.made base id = s.here.held id +
      spent.count id + t.made base id) : Kept base spent' t where
  conserved id := by
    have hheld := State.held_withScope h.formed sc id
    have hsame : (s.withScope sc).held id = t.held id := by
      unfold State.held State.owned State.staged
      rw [htree]
      rfl
    have hold := h.conserved id
    have hnew := hcount id
    omega
  formed := ht
  base_le := Nat.le_trans h.base_le hnext

/-- What is in no scope and not counted does not matter. -/
theorem congr (h : Kept base spent s) (ht : t.Formed) (htree : t.tree = s.tree)
    (hnext : t.session.nextReclaim = s.session.nextReclaim) : Kept base spent t where
  conserved id := by
    have hold := h.conserved id
    unfold State.held State.owned State.staged State.made at hold ⊢
    rw [htree, hnext]
    exact hold
  formed := ht
  base_le := by
    rw [hnext]
    exact h.base_le

/-- An id that is not made yet is held nowhere. -/
theorem held_next (h : Kept base spent s) : s.here.held ⟨s.session.nextReclaim⟩ = 0 := by
  have hle := State.held_le_of_mem h.formed.here_mem ⟨s.session.nextReclaim⟩
  have hcons := h.conserved ⟨s.session.nextReclaim⟩
  rw [State.made, if_neg (fun hlt => Nat.lt_irrefl _ hlt.2)] at hcons
  omega

/-- No id is held or spent twice. -/
theorem conserved_le_one (h : Kept base spent s) (id : ReclaimId) :
    s.held id + spent.count id ≤ 1 := by
  rw [h.conserved, State.made]
  split <;> decide

/-- No scope holds an id twice. -/
theorem held_le_one (h : Kept base spent s) (hsc : sc ∈ s.tree.scopes) (id : ReclaimId) :
    sc.held id ≤ 1 := by
  have hle := State.held_le_of_mem hsc id
  have hcons := h.conserved_le_one id
  omega

end Kept

/-- A thrifty action keeps the ledger in order without spending anything. -/
def Lower.IsThrifty {α : Type} (x : Lower α) : Prop :=
  ∀ base spent s a t, Kept base spent s → x s = .ok a t → Kept base spent t

namespace Lower

variable {α β : Type}

theorem IsThrifty.kept {x : Lower α} {s : State} {a : α} (hx : x.IsThrifty) (hs : Kept base spent s)
    (h : x s = .ok a t) : Kept base spent t :=
  hx base spent s a t hs h

theorem IsThrifty.bind {x : Lower α} {f : α → Lower β} (hx : x.IsThrifty)
    (hf : ∀ a, (f a).IsThrifty) : (x >>= f).IsThrifty := by
  intro base spent s b t hs h
  obtain ⟨a, u, hxa, hfa⟩ := bind_eq_ok.1 h
  exact (hf a).kept (hx.kept hs hxa) hfa

/-- An action that leaves the tree of scopes and the counter of heap values alone is thrifty. -/
theorem IsThrifty.of_same {x : Lower α} (hx : x.IsGrowing)
    (hsame : ∀ s a t, x s = .ok a t →
      t.tree = s.tree ∧ t.session.nextReclaim = s.session.nextReclaim) : x.IsThrifty := by
  intro base spent s a t hs h
  obtain ⟨htree, hnext⟩ := hsame s a t h
  exact hs.congr (hx s a t hs.formed h).formed htree hnext

/-! ### Actions that hold and spend nothing -/

theorem IsThrifty.pure (a : α) : (pure a : Lower α).IsThrifty := by
  refine .of_same (.pure a) fun s b t h => ?_
  obtain ⟨-, rfl⟩ := pure_eq_ok.1 h
  exact ⟨rfl, rfl⟩

theorem IsThrifty.tell (n : Notice) : (tell n).IsThrifty := by
  refine .of_same (IsQuiet.tell n).growing fun s a t h => ?_
  obtain rfl := tell_eq_ok.1 h
  exact ⟨rfl, rfl⟩

theorem IsThrifty.markIncluded (path : String) : (withSession (·.markIncluded path)).IsThrifty := by
  refine .of_same (.markIncluded path) fun s a t h => ?_
  obtain ⟨-, rfl⟩ := withSession_eq_ok.1 h
  refine ⟨rfl, ?_⟩
  unfold Session.markIncluded
  split <;> rfl

theorem IsThrifty.place (text : String) : (place text).IsThrifty := by
  refine .of_same (IsQuiet.law.place text).growing fun s a t h => ?_
  obtain ⟨-, rfl⟩ := place_eq_ok.1 h
  refine ⟨rfl, ?_⟩
  unfold Listing.place
  split <;> rfl

theorem IsThrifty.emit (code : Code) : (emit code).IsThrifty := by
  refine .of_same (.emit code) fun s a t h => ?_
  obtain rfl := emit_eq_ok.1 h
  exact ⟨rfl, rfl⟩

/-- Reserving bytes holds and spends nothing. -/
theorem IsThrifty.reserve (size : Nat) : (reserve size).IsThrifty := by
  intro base spent s a t hs h
  have ht := (IsQuiet.reserve size s a t hs.formed h).formed hs.formed
  obtain ⟨-, -, rfl⟩ := reserve_eq_ok.1 h
  exact hs.replace ht rfl (Nat.le_refl _) fun _ => rfl

end Lower

/-! ### Free sets -/

namespace FreeSet

/-- Adding an id that is not there yet adds one entry. -/
theorem perm_insertEntry (e : Staged) {xs : List (ReclaimId × Staged)} (h : id ∉ xs.map (·.1)) :
    (insertEntry id e xs).Perm ((id, e) :: xs) := by
  induction xs with
  | nil => exact .refl _
  | cons x xs ih =>
    rw [List.map_cons, List.mem_cons, not_or] at h
    unfold insertEntry
    split
    · exact .refl _
    · rw [if_neg h.1]
      exact ((ih h.2).cons x).trans (.swap _ _ _)

theorem count_insert {fs : FreeSet} (e : Staged) (h : id ∉ fs.entries.map (·.1)) (id' : ReclaimId) :
    ((fs.insert id e).entries.map (·.1)).count id' =
      (fs.entries.map (·.1)).count id' + if id = id' then 1 else 0 := by
  show ((insertEntry id e fs.entries).map (·.1)).count id' = _
  rw [((perm_insertEntry e h).map _).count_eq, List.map_cons, List.count_cons]
  simp

theorem mem_insert (fs : FreeSet) (id : ReclaimId) (e : Staged) :
    id ∈ (fs.insert id e).entries.map (·.1) := by
  obtain ⟨xs, hxs⟩ := fs
  show id ∈ (insertEntry id e xs).map (·.1)
  clear hxs
  induction xs with
  | nil => exact List.mem_singleton.2 rfl
  | cons x xs ih =>
    unfold insertEntry
    split
    · exact List.mem_cons_self
    · split
      · exact List.mem_cons_self
      · exact List.mem_cons_of_mem _ ih

theorem count_erase (fs : FreeSet) (id id' : ReclaimId) :
    ((fs.erase id).entries.map (·.1)).count id' =
      if id = id' then 0 else (fs.entries.map (·.1)).count id' := by
  obtain ⟨xs, hxs⟩ := fs
  show ((xs.filter (·.1 != id)).map (·.1)).count id' = if id = id' then 0 else
    (xs.map (·.1)).count id'
  clear hxs
  induction xs with
  | nil => simp
  | cons x xs ih =>
    by_cases hx : x.1 = id
    · rw [List.filter_cons_of_neg (by simp [hx]), ih, List.map_cons, List.count_cons]
      by_cases hid : id = id'
      · rw [if_pos hid, if_pos hid]
      · rw [if_neg hid, if_neg hid, hx]
        simp [hid]
    · rw [List.filter_cons_of_pos (by simp [hx]), List.map_cons, List.count_cons, ih, List.map_cons,
        List.count_cons]
      by_cases hid : id = id'
      · rw [if_pos hid, if_pos hid, ← hid]
        simp [hx]
      · rw [if_neg hid, if_neg hid]

end FreeSet

namespace Lower

variable {base : Nat} {spent : List ReclaimId} {s t : State}

/-! ### Making heap values -/

/-- The slots of a new heap value are the next ones of the current frame. -/
theorem registerFresh_stages (hs : s.Formed) (h : registerFresh s = .ok (code, id) t) :
    id = ⟨s.session.nextReclaim⟩ ∧ t.session = s.session.mintReclaim.2 ∧
      t.tree = s.tree.set s.current
        { s.here with
          used := s.here.used + 4 + 4
          freeSet := s.here.freeSet.insert id ⟨⟨s.here.used, 4⟩, ⟨s.here.used + 4, 4⟩⟩ } := by
  obtain ⟨rfl, address, size, u, v, m, c, note, haddress, hsize, -, -, -, -, rfl⟩ :=
    registerFresh_eq_ok h
  have hf₁ : State.Formed { s with session := s.session.mintReclaim.2 } :=
    ⟨hs.ordered, hs.current_lt, hs.root_eq⟩
  have hf₂ := (IsQuiet.reserve _ _ _ _ hf₁ haddress).formed hf₁
  obtain ⟨-, rfl, rfl⟩ := reserve_eq_ok.1 haddress
  obtain ⟨-, rfl, rfl⟩ := reserve_eq_ok.1 hsize
  refine ⟨rfl, rfl, ?_⟩
  rw [State.here_withScope hf₂, State.here_withScope hf₁]
  show ((s.tree.set s.current _).set s.current _).set s.current _ = _
  rw [ScopeTree.set_set, ScopeTree.set_set]
  rfl

/-- Making a heap value keeps the ledger in order: the new id is staged. -/
theorem IsThrifty.registerFresh : registerFresh.IsThrifty := by
  rintro base spent s ⟨code, id⟩ t hs h
  have ht := (IsQuiet.registerFresh s _ t hs.formed h).formed hs.formed
  obtain ⟨rfl, hsession, htree⟩ := registerFresh_stages hs.formed h
  have hnext : t.session.nextReclaim = s.session.nextReclaim + 1 := by
    rw [hsession]
    rfl
  have habsent : ⟨s.session.nextReclaim⟩ ∉ s.here.freeSet.entries.map (·.1) := by
    rw [← List.count_eq_zero]
    exact Nat.eq_zero_of_add_eq_zero_left hs.held_next
  refine hs.replace ht htree (by omega) fun id => ?_
  have hmade := State.made_succ hs.base_le hnext id
  have hcount := FreeSet.count_insert ⟨⟨s.here.used, 4⟩, ⟨s.here.used + 4, 4⟩⟩ habsent id
  show s.here.ownedIds.count id + ((s.here.freeSet.insert _ _).entries.map (·.1)).count id
      + spent.count id + s.made base id
    = s.here.ownedIds.count id + (s.here.freeSet.entries.map (·.1)).count id + spent.count id
      + t.made base id
  omega

/-- Thrift is a law that admits rejecting and writing. -/
theorem IsThrifty.law : StatementLaw @IsThrifty where
  pure := .pure
  bind := .bind
  read hf base spent s b t hs h := (hf s).kept hs (get_bind_eq_ok.1 h)
  fault f base spent s a t hs h := (throw_eq_ok.1 h).elim
  reject c l base spent s a t hs h := (reject_eq_ok.1 h).elim
  mintLabel hint := by
    refine .of_same (IsQuiet.mintLabel hint).growing fun s a t h => ?_
    obtain ⟨-, rfl⟩ := mintLabel_eq_ok.1 h
    exact ⟨rfl, rfl⟩
  tell := .tell
  recordCall name := by
    refine .of_same (IsGrowing.law.recordCall name) fun s a t h => ?_
    obtain ⟨-, rfl⟩ := withSession_eq_ok.1 h
    exact ⟨rfl, rfl⟩
  recordFree := by
    refine .of_same IsGrowing.law.recordFree fun s a t h => ?_
    obtain ⟨-, rfl⟩ := withSession_eq_ok.1 h
    exact ⟨rfl, rfl⟩
  reserve := .reserve
  place := .place
  registerFresh := .registerFresh
  weaken hrun _ _ hy base spent s a t hs h := hy.kept hs (hrun s a t h)
  emit := .emit

/-- A new heap value that comes out of a call has a new id and is staged in the current scope. -/
theorem invoke_fresh {f : Signature} {depth : Nat} {args : List Lowered} {v : Lowered}
    (hs : s.Formed) (h : invoke f depth args s = .ok v t) (hv : v.ownership = .fresh id) :
    s.session.nextReclaim ≤ id.number ∧ id ∈ t.here.stagedIds := by
  obtain ⟨staging, slots, u, note, call, hstage, -, -, ⟨-, -, rfl⟩ | ⟨-, code, id', hfresh, rfl⟩⟩ :=
    invoke_eq_ok h
  · cases hv
  · cases hv
    have hq₁ := IsQuiet.law.stageArguments _ _ _ _ _ hs hstage
    have hq₂ :=
      hq₁.trans (IsQuiet.law.recordCall f.name u () _ (hq₁.formed hs)
        (withSession_eq_ok.2 ⟨rfl, rfl⟩))
    obtain ⟨hid, -, htree⟩ := registerFresh_stages (hq₂.formed hs) hfresh
    refine ⟨by rw [hid]; exact hq₂.reclaims, ?_⟩
    unfold State.here
    rw [htree, (IsQuiet.registerFresh _ _ _ (hq₂.formed hs) hfresh).current,
      ScopeTree.scope_set_self _ (hq₂.formed hs).current_lt]
    exact FreeSet.mem_insert _ _ _

/-- An action whose result, if it is a new heap value, has a new id and is staged in the current
scope. -/
def IsMinting (x : Lower Lowered) : Prop :=
  ∀ s v t id, s.Formed → x s = .ok v t → v.ownership = .fresh id →
    s.session.nextReclaim ≤ id.number ∧ id ∈ t.here.stagedIds

theorem Makes.minting (hx : x.Makes) : IsMinting x := by
  intro s v t id hs h hv
  rcases hx s v t hs h with hbare | ⟨f, depth, args, u, hq, hcall⟩
  · rw [hbare.plain] at hv
    cases hv
  · obtain ⟨hnew, hstaged⟩ := invoke_fresh (hq.formed hs) hcall hv
    exact ⟨Nat.le_trans hq.reclaims hnew, hstaged⟩

/-- A new heap value that an expression yields has a new id and is staged in the current scope. -/
theorem IsMinting.evaluate (n : Node) : IsMinting n.evaluate := by
  rcases n.var_or_makes with ⟨name, l, rfl⟩ | hmakes
  · intro s v t id hs h hv
    obtain ⟨r, x, m, size, -, -, -, rfl⟩ := readVariable_eq_ok h
    change x.lent = .fresh id at hv
    unfold Variable.lent at hv
    split at hv <;> cases hv
  · exact hmakes.minting

theorem IsMinting.expect (hx : IsMinting x) : IsMinting (expect ty l x) := by
  intro s v t id hs h hv
  exact hx s v t id hs (expect_eq_ok.1 h).1 hv

theorem IsMinting.evaluateOr (value : Option Node) (ty : ScalarType) :
    IsMinting (Node.evaluateOr value ty) := by
  cases value with
  | none => exact (Makes.literal _).minting
  | some v => exact .expect (.evaluate v)

/-! ### Declaring and assigning -/

end Lower

/-- What a scope holds once a variable is added. -/
theorem Scope.count_ownedIds_append (sc : Scope) {sc' : Scope} (v : Variable)
    (h : sc'.vars = sc.vars ++ [v]) (id : ReclaimId) :
    sc'.ownedIds.count id = sc.ownedIds.count id + if v.reclaim = some id then 1 else 0 := by
  unfold Scope.ownedIds
  rw [h, List.filterMap_append, List.count_append]
  cases hv : v.reclaim with
  | none => simp [hv]
  | some id' =>
    by_cases hid : id' = id
    · simp [hv, hid]
    · simp [hv, hid]

namespace Kept

variable {base : Nat} {spent : List ReclaimId} {s t : State}

/-- Declaring a variable that has no id keeps the ledger in order. -/
theorem declared (hs : Kept base spent s) (hsc : s.here.declareVariable name ty l = .ok (v, sc)) :
    Kept base spent (s.withScope sc) := by
  have ht := hs.formed.declared hsc
  obtain ⟨-, rfl, used, -, rfl⟩ := Scope.declareVariable_eq_ok hsc
  refine hs.replace ht rfl (Nat.le_refl _) fun id => ?_
  unfold Scope.held
  rw [Scope.count_ownedIds_append s.here (s.here.newVariable name ty) rfl id]
  rfl

/-- Declaring a string that takes over a staged value keeps the ledger in order: the id moves from
the free set to the variable. -/
theorem boundStaged (hs : Kept base spent s) (hid : id ∈ s.here.stagedIds)
    (ht : t.Formed) (htree : t.tree = s.tree.set s.current sc)
    (hnext : t.session.nextReclaim = s.session.nextReclaim)
    (hvars : sc.vars = s.here.vars ++ [{ v with reclaim := some id }])
    (hfree : sc.freeSet = s.here.freeSet.erase id) : Kept base spent t := by
  refine hs.replace ht htree (Nat.le_of_eq hnext.symm) fun id' => ?_
  have hone := hs.held_le_one hs.formed.here_mem id
  have hpos : 0 < s.here.stagedIds.count id := List.count_pos_iff.2 hid
  have hcount := FreeSet.count_erase s.here.freeSet id id'
  have howned := Scope.count_ownedIds_append _ _ hvars id'
  have hmade : t.made base id' = s.made base id' := by
    unfold State.made
    rw [hnext]
  rw [← hfree] at hcount
  unfold Scope.held Scope.stagedIds at hone ⊢
  unfold Scope.stagedIds at hpos
  rw [howned, hcount, hmade]
  by_cases heq : id = id'
  · subst heq
    simp only [if_true]
    omega
  · have hne : (some id = some id') = False := by simp [heq]
    simp only [heq, hne, if_false]
    omega

/-- Declaring a string under a new id keeps the ledger in order. -/
theorem boundNew (hs : Kept base spent s) (ht : t.Formed) (htree : t.tree = s.tree.set s.current sc)
    (hnext : t.session.nextReclaim = s.session.nextReclaim + 1)
    (hvars : sc.vars = s.here.vars ++ [{ v with reclaim := some ⟨s.session.nextReclaim⟩ }])
    (hfree : sc.freeSet = s.here.freeSet) : Kept base spent t := by
  refine hs.replace ht htree (by omega) fun id => ?_
  have howned := Scope.count_ownedIds_append _ _ hvars id
  have hmade := State.made_succ hs.base_le hnext id
  simp only [Option.some.injEq] at howned
  unfold Scope.held Scope.stagedIds
  rw [howned, hmade, hfree]
  omega

/-- A staged value that is spent leaves the free set. -/
theorem spend (hs : Kept base spent s) (hid : id ∈ s.here.stagedIds) : Kept base (spent ++ [id])
      (s.withScope { s.here with freeSet := s.here.freeSet.erase id }) := by
  refine hs.replace (hs.formed.withScope rfl) rfl (Nat.le_refl _) fun id' => ?_
  have hone := hs.held_le_one hs.formed.here_mem id
  have hpos : 0 < s.here.stagedIds.count id := List.count_pos_iff.2 hid
  have hcount := FreeSet.count_erase s.here.freeSet id id'
  show s.here.ownedIds.count id' + ((s.here.freeSet.erase id).entries.map (·.1)).count id'
      + (spent ++ [id]).count id' + s.made base id'
    = s.here.ownedIds.count id' + (s.here.freeSet.entries.map (·.1)).count id' + spent.count id'
      + s.made base id'
  unfold Scope.held Scope.stagedIds at hone
  unfold Scope.stagedIds at hpos
  rw [hcount, List.count_append, List.count_singleton]
  by_cases heq : id = id'
  · subst heq
    simp only [if_true, beq_self_eq_true]
    omega
  · simp [heq]

end Kept

namespace Lower

variable {s t : State}

/-- A declaration keeps the ledger in order. -/
theorem IsThrifty.declare {value : Lower Lowered} (hvalue : value.IsThrifty)
    (hmint : IsMinting value) : (declare name ty l value).IsThrifty := by
  intro base spent s a t hs h
  cases hty : ty.isHeap with
  | false =>
    obtain ⟨v, u, sc, note, m, hv, hsc, -, -, rfl⟩ := declare_plain_eq_ok hty h
    exact IsThrifty.law.emit _ _ _ _ _ _ ((hvalue.kept hs hv).declared hsc) rfl
  | true =>
    obtain ⟨v, u, sc, note, m, c, taken, id?, w, id, x, hv, hsc, -, -, -, hw, hx, rfl⟩ :=
      declare_heap_eq_ok hty h
    have hu := hvalue.kept hs hv
    have hd := hu.formed.declared hsc
    have hqw := IsQuiet.takeOwnership _ _ _ _ _ _ hd hw
    have hqx := hqw.trans (IsQuiet.getDM id? _ _ _ (hqw.formed hd) hx)
    have hfinal : (x.withScope (x.here.bind name id)).Formed := (hqx.formed hd).withScope rfl
    refine IsThrifty.law.emit _ _ _ _ _ _ ?_ rfl
    obtain ⟨hnew, -, used, -, rfl⟩ := Scope.declareVariable_eq_ok hsc
    have hvars : x.here.vars = u.here.vars ++ [u.here.newVariable name ty] := by
      rw [hqx.here.vars, State.here_withScope hu.formed]
    have hbind := Scope.bind_append id hvars (Scope.getVariable?_eq_none_iff.1 hnew)
    change x.here.bind name id = _ at hbind
    by_cases hfresh : ∃ id', v.ownership = .fresh id'
    · obtain ⟨id', hown⟩ := hfresh
      have hmem := (hmint s v u id' hs.formed hv hown).2
      rw [hown] at hw
      obtain ⟨-, rfl, rfl⟩ := takeOwnership_fresh_eq_ok hw
      obtain ⟨rfl, rfl⟩ := pure_eq_ok.1 hx
      refine hu.boundStaged hmem hfinal ?_ rfl (congrArg Scope.vars hbind) ?_
      · show ((u.tree.set u.current _).set u.current _).set u.current _ = _
        rw [ScopeTree.set_set, ScopeTree.set_set]
      · show (State.withScope _ _).here.freeSet = _
        rw [State.here_withScope hd, State.here_withScope hu.formed]
    · obtain ⟨-, rfl, journal, rfl⟩ :=
        takeOwnership_other_eq_ok (fun id' hown => hfresh ⟨id', hown⟩) hw
      obtain ⟨rfl, rfl⟩ := mintReclaim_eq_ok.1 hx
      refine hu.boundNew hfinal ?_ rfl (congrArg Scope.vars hbind) ?_
      · show (u.tree.set u.current _).set u.current _ = _
        rw [ScopeTree.set_set]
      · show (State.withScope _ _).here.freeSet = _
        rw [State.here_withScope hu.formed]

/-- Putting another string in the place of the one that a variable holds spends a new value. -/
theorem replaceString_kept {x : Variable} {cell : Slot} {depth : Nat} {v : Lowered}
    (hs : Kept base spent s)
    (hcell : x.sizeCell = some cell)
    (hstaged : ∀ id, v.ownership = .fresh id → id ∈ s.here.stagedIds)
    (h : replaceString x cell depth v l s = .ok a t) :
    Kept base (spent ++ (x.spends v).filterMap Event.spent?) t := by
  obtain ⟨⟨taken, id?⟩, u, htake, h₁⟩ := bind_eq_ok.1 h
  have hrest : ∀ taken, IsThrifty (do
      let old ← releaseOld (Convention.chase depth).2 x cell
      let m ← checked (Mem.slot (Convention.chase depth).2 x.slot)
      let c ← checked (Mem.slot (Convention.chase depth).2 cell)
      emit (v.code ++ taken ++ [Asm.push Reg.eax, Asm.push Reg.edx] ++ (Convention.chase depth).1 ++
        old ++ [Asm.pop Reg.edx, Asm.pop Reg.eax, Asm.store m Reg.eax, Asm.store c Reg.edx])) := by
    intro taken
    have law := IsThrifty.law
    exact law.bind (law.releaseOld _ _ _) fun _ => law.bind (law.checked _) fun _ =>
      law.bind (law.checked _) fun _ => law.emit _
  refine (hrest taken).kept ?_ h₁
  unfold Variable.spends
  rw [hcell]
  cases hown : v.ownership with
  | fresh id =>
    rw [hown] at htake
    obtain ⟨-, -, rfl⟩ := takeOwnership_fresh_eq_ok htake
    have hspent := hs.spend (hstaged id hown)
    exact hspent.congr ⟨hspent.formed.ordered, hspent.formed.current_lt,
      hspent.formed.root_eq⟩ rfl rfl
  | borrowed id =>
    obtain ⟨-, -, journal, rfl⟩ :=
      takeOwnership_other_eq_ok (fun id' hfresh => by rw [hown] at hfresh; cases hfresh) htake
    rw [show spent ++ ([] : List Event).filterMap Event.spent? = spent from List.append_nil _]
    exact hs.congr ⟨hs.formed.ordered, hs.formed.current_lt, hs.formed.root_eq⟩ rfl rfl
  | plain =>
    obtain ⟨-, -, journal, rfl⟩ :=
      takeOwnership_other_eq_ok (fun id' hfresh => by rw [hown] at hfresh; cases hfresh) htake
    rw [show spent ++ ([] : List Event).filterMap Event.spent? = spent from List.append_nil _]
    exact hs.congr ⟨hs.formed.ordered, hs.formed.current_lt, hs.formed.root_eq⟩ rfl rfl

/-- What an assignment of a value to a variable uses up. -/
def spentBy (x : Variable) (v : Lowered) : List ReclaimId :=
  if x.assignedItself v then [] else (x.spends v).filterMap Event.spent?

/-- An assignment keeps the ledger in order, with what it spends noted. -/
theorem assign_kept {value : ScalarType → Lower Lowered} (hvalue : ∀ ty, (value ty).IsThrifty)
    (hmint : ∀ ty, IsMinting (value ty)) (hs : Kept base spent s)
    (h : assign name l value s = .ok a t) :
    ∃ x v u, resolveVariable name l s = .ok x s ∧ value x.2.ty s = .ok v u ∧
      Kept base (spent ++ spentBy x.2 v) t := by
  obtain ⟨r, x, v, u, hx, hv, hwrite⟩ := assign_eq_ok h
  have hu := (hvalue x.ty).kept hs hv
  refine ⟨(r, x), v, u, hx, hv, ?_⟩
  unfold spentBy Variable.assignedItself
  rcases hwrite with ⟨hcell, m, -, rfl⟩ | ⟨cell, hcell, hself, note, -, rfl⟩ | ⟨cell, hcell,
    hself, hrep⟩
  · have hspends : x.spends v = [] := by
      unfold Variable.spends
      rw [hcell]
    simp only [hcell, hspends, Option.isSome_none, Bool.false_and, List.filterMap_nil, ite_self,
      List.append_nil]
    exact (IsThrifty.emit _).kept hu rfl
  · simp only [hcell, hself, Option.isSome_some, decide_true, Bool.and_self, if_true,
      List.append_nil]
    exact (IsThrifty.emit _).kept hu rfl
  · have hstaged : ∀ id, v.ownership = .fresh id → id ∈ u.here.stagedIds :=
      fun id hown => (hmint x.ty s v u id hs.formed hv hown).2
    simp only [hself, decide_false, Bool.and_false]
    exact replaceString_kept hu hcell hstaged hrep

/-! ### Blocks and functions -/

end Lower

namespace Kept

variable {base : Nat} {spent : List ReclaimId} {s : State}

/-- A change of the current scope that leaves its variables and its free set alone does not
matter. -/
theorem withScope (hs : Kept base spent s) (hp : sc.parent = s.here.parent)
    (hvars : sc.vars = s.here.vars)
    (hfree : sc.freeSet = s.here.freeSet) : Kept base spent (s.withScope sc) := by
  refine hs.replace (hs.formed.withScope hp) rfl (Nat.le_refl _) fun id => ?_
  unfold Scope.held Scope.ownedIds Scope.stagedIds
  rw [hvars, hfree]
  rfl

/-- A new scope holds nothing. -/
theorem entered (hs : Kept base spent s) (l : Label) : Kept base spent (s.entered l) where
  conserved id := by
    rw [State.held_entered]
    exact hs.conserved id
  formed := (State.Inner.entered hs.formed l).formed
  base_le := hs.base_le

/-- Where work goes on does not matter. -/
theorem moved (hs : Kept base spent s) {current : ScopeId} (hcurrent : current < s.tree.size)
    (target : Section) : Kept base spent { s with current, target } where
  conserved := hs.conserved
  formed := ⟨hs.formed.ordered, hcurrent, hs.formed.root_eq⟩
  base_le := hs.base_le

end Kept

namespace Lower

variable {base : Nat} {spent : List ReclaimId} {s t : State}

theorem IsThrifty.openBlock : openBlock.IsThrifty := by
  intro base spent s id t hs h
  obtain ⟨-, rfl⟩ := openBlock_eq_ok.1 h
  exact ((IsThrifty.emit _).kept hs rfl).entered _

theorem IsThrifty.closeBlock (reachable : Bool) : (closeBlock reachable).IsThrifty := by
  intro base spent s a t hs h
  obtain ⟨u, v, hleave, hdef, rfl⟩ := closeBlock_eq_ok h
  have hsu := IsGrowing.law.ite (IsGrowing.law.exitFrame _ _) (.pure _) s _ u hs.formed hleave
  have hsv := hsu.trans (IsGrowing.law.defineFrameSize _ _ _ _ hsu.formed hdef)
  have hu := (IsThrifty.law.ite (IsThrifty.law.exitFrame _ _) (.pure _)).kept hs hleave
  have hv := (IsThrifty.law.defineFrameSize _).kept hu hdef
  have hlt := Nat.lt_of_lt_of_le hs.formed.current_lt hsv.size
  exact hv.moved (hv.formed.parent_lt hlt) v.target

theorem IsThrifty.openLoop : openLoop.IsThrifty := by
  have law := IsThrifty.law
  refine law.bind (law.mintLabel _) fun _ => law.bind (law.mintLabel _) fun _ =>
    law.bind (law.mintLabel _) fun _ => law.bind (law.mintLabel _) fun _ =>
      law.bind (law.emit _) fun _ => law.bind .openBlock fun _ => ?_
  intro base spent s a t hs h
  have h₁ := changeScope_bind_eq_ok.1 h
  obtain ⟨-, rfl⟩ := pure_eq_ok.1 h₁
  exact hs.withScope rfl rfl rfl

theorem IsThrifty.announce (name : String) (params : List Param) (ret : ScalarType) (l : Location) :
    (announce name params ret l).IsThrifty := by
  rintro base spent s ⟨f, skip⟩ t hs h
  have ht := (IsGrowing.announce name params ret l s _ t hs.formed h).formed
  obtain ⟨-, -, -, rfl⟩ := announce_eq_ok h
  have hdeclared :
      Kept base spent (s.withScope { s.here with functions := s.here.functions ++ [f] }) :=
    hs.withScope rfl rfl rfl
  exact hdeclared.congr ht rfl rfl

theorem IsThrifty.openBody (f : Signature) : (openBody f).IsThrifty := by
  intro base spent s exit t hs h
  obtain ⟨-, rfl⟩ := openBody_eq_ok h
  have hentered := hs.entered (.fresh s.session.nextLabel "frame")
  have hhere := State.here_entered s (.fresh s.session.nextLabel "frame")
  refine Kept.withScope (hentered.moved hentered.formed.current_lt .functions) ?_ ?_ ?_
  · exact (congrArg Scope.parent hhere).symm
  · exact (congrArg Scope.vars hhere).symm
  · exact (congrArg Scope.freeSet hhere).symm

/-- A string parameter gets a new id. -/
theorem IsThrifty.bindParam (l : Location) (index : Nat) (p : Param) :
    (bindParam l index p).IsThrifty := by
  intro base spent s code t hs h
  have ht := (IsGrowing.bindParam l index p s code t hs.formed h).formed
  obtain ⟨sc, disp, m, hsc, -, -, -, hadopt⟩ := bindParam_eq_ok h
  cases hty : p.ty.isHeap with
  | false =>
    obtain rfl := (adopt_plain_eq_ok hty).1 hadopt
    exact hs.declared hsc
  | true =>
    obtain ⟨u, id, hmint, rfl⟩ := (adopt_heap_eq_ok hty).1 hadopt
    obtain ⟨rfl, rfl⟩ := mintReclaim_eq_ok.1 hmint
    obtain ⟨hnew, -, used, -, rfl⟩ := Scope.declareVariable_eq_ok hsc
    have hhere := State.here_withScope hs.formed
      { s.here with used, vars := s.here.vars ++ [s.here.newVariable p.name p.ty] }
    have hbind := Scope.bind_append ⟨s.session.nextReclaim⟩ (congrArg Scope.vars hhere)
      (Scope.getVariable?_eq_none_iff.1 hnew)
    refine hs.boundNew ht ?_ rfl (congrArg Scope.vars hbind) ?_
    · exact ScopeTree.set_set ..
    · show (s.withScope _).here.freeSet = s.here.freeSet
      rw [hhere]

theorem IsThrifty.bindParams (l : Location) :
    ∀ (index : Nat) (params : List Param), (bindParams l index params).IsThrifty
  | _, [] => .pure _
  | index, p :: rest =>
    .bind (.bindParam l index p) fun _ => .bind (IsThrifty.bindParams l (index + 1) rest)
      fun _ => .pure _

theorem IsThrifty.openFunction (name : String) (params : List Param) (ret : ScalarType)
    (l : Location) : (openFunction name params ret l).IsThrifty := by
  have law := IsThrifty.law
  exact law.bind (.announce _ _ _ _) fun _ => law.read fun _ => law.bind (.openBody _) fun _ =>
    law.bind (law.remark _) fun _ => law.bind (.bindParams _ _ _) fun _ => law.read fun _ =>
      law.bind (law.emit _) fun _ => law.pure _

/-- The end of a function keeps the ledger in order, if it leads back to a scope of the tree. -/
theorem closeFunction_kept {g : FunctionFrame} (hs : Kept base spent s) (ht : t.Formed)
    (h : closeFunction name g s = .ok a t) : Kept base spent t := by
  obtain ⟨code, -, -, -, -, -, rfl⟩ := closeFunction_eq_ok h
  exact hs.congr ht rfl rfl

theorem IsThrifty.defineFunction (name : String) (params : List Param) (ret : ScalarType)
    (l : Location) {body : FunctionExit → Lower Unit} (hgrows : ∀ exit, (body exit).IsGrowing)
    (hbody : ∀ exit, (body exit).IsThrifty) :
    (defineFunction name params ret l body).IsThrifty := by
  intro base spent s a t hs h
  have ht := (IsGrowing.defineFunction name params ret l hgrows s a t hs.formed h).formed
  obtain ⟨g, u, hopen, h₁⟩ := bind_eq_ok.1 h
  obtain ⟨_, v, hrun, hclose⟩ := bind_eq_ok.1 h₁
  exact closeFunction_kept ((hbody _).kept ((IsThrifty.openFunction _ _ _ _).kept hs hopen) hrun)
    ht hclose

end Lower

/-! ### Along a trace -/

/-- The ids that the events of a trace use up. -/
def spents (es : List Event) : List ReclaimId := es.filterMap Event.spent?

theorem spents_append (es fs : List Event) : spents (es ++ fs) = spents es ++ spents fs :=
  List.filterMap_append

theorem spents_quiet {trace : State → List Event} (h : MeetsQuietly trace) (s : State) :
    spents (trace s) = [] := by
  refine List.filterMap_eq_nil_iff.2 fun ev hev => ?_
  obtain ⟨e, u, ahead, rfl, -⟩ := h s ev hev
  rfl

theorem spents_cons (ev : Event) (es : List Event) :
    spents (ev :: es) = ev.spent?.toList ++ spents es := by
  unfold spents
  rw [List.filterMap_cons]
  cases ev.spent? <;> rfl

/-- The ledger is in order in all states between statements of a trace, if `spent` was used up
before it. -/
inductive KeptAlong (base : Nat) : List ReclaimId → List Event → Prop
  | nil {spent : List ReclaimId} : KeptAlong base spent []
  | cons {spent : List ReclaimId} {ev : Event} {es : List Event}
      (head : ∀ t, ev.between? = some t → Kept base spent t)
      (tail : KeptAlong base (spent ++ ev.spent?.toList) es) : KeptAlong base spent (ev :: es)

namespace KeptAlong

variable {base : Nat} {spent : List ReclaimId}

theorem append {es fs : List Event} (hes : KeptAlong base spent es)
    (hfs : KeptAlong base (spent ++ spents es) fs) : KeptAlong base spent (es ++ fs) := by
  induction hes with
  | nil =>
    rw [show spents [] = [] from rfl, List.append_nil] at hfs
    exact hfs
  | cons head tail ih =>
    rw [spents_cons, ← List.append_assoc] at hfs
    exact .cons head (ih hfs)

/-- A trace with no state between statements says nothing about the ledger. -/
theorem inner {es : List Event} (h : ∀ ev ∈ es, ev.between? = none) : KeptAlong base spent es := by
  induction es generalizing spent with
  | nil => exact .nil
  | cons ev es ih =>
    refine .cons (fun t ht => ?_) (ih fun ev hev => h ev (List.mem_cons_of_mem _ hev))
    rw [h ev List.mem_cons_self] at ht
    cases ht

/-- The ledger is in order at every point of a trace. -/
theorem at_event {before after : List Event} {ev : Event}
    (h : KeptAlong base spent (before ++ ev :: after))
    (ht : ev.between? = some t) : Kept base (spent ++ spents before) t := by
  induction before generalizing spent with
  | nil =>
    cases h with
    | cons head tail =>
      rw [show spents [] = [] from rfl, List.append_nil]
      exact head t ht
  | cons e before ih =>
    cases h with
    | cons head tail =>
      rw [spents_cons, ← List.append_assoc]
      exact ih tail

end KeptAlong

/-- An action that keeps the ledger in order along a trace, and spends what the trace says. -/
def Lower.Accounts {α : Type} (x : Lower α) (trace : State → List Event) : Prop :=
  ∀ base spent s, Kept base spent s → KeptAlong base spent (trace s) ∧
    ∀ a t, x s = .ok a t → Kept base (spent ++ spents (trace s)) t

namespace Lower

variable {α β : Type} {x : Lower α} {f : α → Lower β} {trace : State → List Event}

/-- A thrifty action with nothing but expressions in its trace. -/
theorem Accounts.expressions (hx : x.IsThrifty) (h : MeetsQuietly trace) : x.Accounts trace := by
  intro base spent s hs
  refine ⟨KeptAlong.inner fun ev hev => ?_, fun a t hxs => ?_⟩
  · obtain ⟨e, u, ahead, rfl, -⟩ := h s ev hev
    rfl
  · rw [spents_quiet h, List.append_nil]
    exact hx.kept hs hxs

/-- A sequence keeps the ledger along the traces of its parts. -/
theorem Accounts.bind {rest : α → State → List Event} (hx : x.Accounts trace)
    (hf : ∀ a, (f a).Accounts (rest a)) :
    (x >>= f).Accounts fun s => trace s ++ x.after s rest := by
  intro base spent s hs
  obtain ⟨htrace, hend⟩ := hx base spent s hs
  show KeptAlong base spent (trace s ++ x.after s rest) ∧ ∀ b t, (x >>= f) s = .ok b t →
    Kept base (spent ++ spents (trace s ++ x.after s rest)) t
  cases hrun : x s with
  | error e u =>
    have hafter : x.after s rest = [] := by rw [Lower.after, hrun]
    rw [hafter, List.append_nil]
    refine ⟨htrace, fun b t h => ?_⟩
    obtain ⟨a, u', hxa, -⟩ := bind_eq_ok.1 h
    rw [hrun] at hxa
    cases hxa
  | ok a u =>
    rw [Lower.after_ok hrun]
    obtain ⟨hrest, hlast⟩ := hf a base _ u (hend a u hrun)
    refine ⟨htrace.append hrest, fun b t h => ?_⟩
    obtain ⟨a', u', hxa, hfa⟩ := bind_eq_ok.1 h
    rw [hrun] at hxa
    cases hxa
    rw [spents_append, ← List.append_assoc]
    exact hlast b t hfa

/-- What comes after a trace adds nothing to it, if it is thrifty. -/
theorem Accounts.before (hx : x.Accounts trace) (hf : ∀ a, (f a).IsThrifty) :
    (x >>= f).Accounts trace := by
  intro base spent s hs
  obtain ⟨htrace, hend⟩ := hx base spent s hs
  refine ⟨htrace, fun b t h => ?_⟩
  obtain ⟨a, u, hxa, hfa⟩ := bind_eq_ok.1 h
  exact (hf a).kept (hend a u hxa) hfa

/-- A state between two statements in front of a trace. -/
theorem Accounts.cons {ev : State → Event} (hev : ∀ s, (ev s).between? = some s)
    (hx : x.Accounts trace) : x.Accounts fun s => ev s :: trace s := by
  intro base spent s hs
  obtain ⟨htrace, hend⟩ := hx base spent s hs
  have hnone : spent ++ (ev s).spent?.toList = spent := by
    rw [Event.spent?_of_between? (hev s)]
    exact List.append_nil _
  refine ⟨.cons (fun t ht => ?_) (by rw [hnone]; exact htrace), fun a t hxs => ?_⟩
  · rw [hev s] at ht
    cases ht
    exact hs
  · rw [spents_cons, ← List.append_assoc, hnone]
    exact hend a t hxs

/-- The end of a function keeps the ledger that its body leaves. -/
theorem Accounts.function {params : List Param} {ret : ScalarType} {statements : Lower Bool}
    (hgrows : statements.IsGrowing)
    (hopened : (openFunction name params ret l >>= fun g =>
      functionBody l statements g.exit).Accounts trace) :
    (defineFunction name params ret l (functionBody l statements)).Accounts trace := by
  intro base spent s hkept
  obtain ⟨htrace, hend⟩ := hopened base spent s hkept
  refine ⟨htrace, fun a t h => ?_⟩
  have ht := (IsGrowing.defineFunction name params ret l (IsGrowing.law.functionBody l hgrows)
    s a t hkept.formed h).formed
  obtain ⟨g, u, hopen, h₁⟩ := bind_eq_ok.1 h
  obtain ⟨b, v, hrun, hclose⟩ := bind_eq_ok.1 h₁
  exact closeFunction_kept (hend b v (bind_eq_ok.2 ⟨g, u, hopen, hrun⟩)) ht hclose

/-- An assignment, with the expressions in its value and the new heap value it spends. -/
theorem Accounts.assign (name : String) (l : Location) (value : Node) :
    (assign name l fun ty => expect ty value.location value.evaluate).Accounts
    (Node.assignTrace name l value) := by
  have law := IsThrifty.law
  intro base spent s hs
  refine ⟨.inner fun ev hev => ?_, fun a t h => ?_⟩
  · rcases Node.mem_assignTrace hev with hnone | hvalue
    · cases ev with
      | spent id => rfl
      | statement | finish | expression => cases hnone
    · obtain ⟨e, u, ahead, rfl, -⟩ := MeetsQuietly.fragments value 0 s ev hvalue
      rfl
  · obtain ⟨x, v, u, hx, hv, hkept⟩ :=
      assign_kept (fun _ => law.expect (law.evaluate value))
        (fun _ => .expect (.evaluate value)) hs h
    show Kept base (spent ++ spents ((resolveVariable name l).after s _)) t
    rw [after_ok hx, after_ok hv]
    unfold spentBy at hkept
    by_cases hself : x.2.assignedItself v = true
    · rw [if_pos hself] at hkept ⊢
      exact hkept
    · rw [if_neg hself] at hkept ⊢
      rw [spents_append, spents_quiet (MeetsQuietly.fragments value 0)]
      exact hkept

/-- Compiling keeps the ledger in order along its trace. -/
theorem Accounts.law : TraceLaw @IsThrifty @Accounts where
  toStatementLaw := IsThrifty.law
  openBlock := .openBlock
  closeBlock := .closeBlock
  openLoop := .openLoop
  openFunction := .openFunction
  library p := .defineFunction _ _ _ _ (IsGrowing.law.primitiveBody p)
    (IsThrifty.law.primitiveBody p)
  declare _ _ _ value := .declare (IsThrifty.law.evaluateOr value _) (.evaluateOr _ _)
  markIncluded := .markIncluded
  expressions := .expressions
  sequence := .bind
  before := .before
  cons := .cons
  assign := .assign
  function _ _ _ _ _ _ _ hgrows _ hopened := .function hgrows hopened

end Lower

/-! ### What a scope releases -/

namespace FreeSet

/-- Adding an id that is not there yet keeps the entries that are there. -/
theorem get?_insert {fs : FreeSet} {id' : ReclaimId} (e : Staged) {e' : Staged}
    (h : id ∉ fs.entries.map (·.1))
    (hget : fs.get? id' = some e') : (fs.insert id e).get? id' = some e' := by
  have hne : id ≠ id' := by
    rintro rfl
    obtain ⟨x, hx, -⟩ := Option.map_eq_some_iff.1 hget
    have hid := List.find?_some hx
    exact h (List.mem_map.2 ⟨x, List.mem_of_find?_eq_some hx, beq_iff_eq.1 hid⟩)
  suffices hfind : ∀ xs : List (ReclaimId × Staged), id ∉ xs.map (·.1) →
      (insertEntry id e xs).find? (·.1 == id') = xs.find? (·.1 == id') by
    show ((insertEntry id e fs.entries).find? _).map _ = _
    rw [hfind fs.entries h]
    exact hget
  have hskip : ∀ xs : List (ReclaimId × Staged),
      ((id, e) :: xs).find? (·.1 == id') = xs.find? (·.1 == id') :=
    fun xs => List.find?_cons_of_neg (by simpa using hne)
  intro xs hxs
  induction xs with
  | nil => exact hskip []
  | cons x xs ih =>
    rw [List.map_cons, List.mem_cons, not_or] at hxs
    unfold insertEntry
    split
    · exact hskip _
    · rw [if_neg hxs.1, List.find?_cons, List.find?_cons, ih hxs.2]

end FreeSet

/-- In a scope where variables have slots of their own they have ids as their types ask for. -/
theorem ScopeTree.Spaced.settled {t : ScopeTree} (h : t.Spaced) (hsc : sc ∈ t.scopes) :
    ∀ v ∈ sc.vars, v.Settled := by
  intro v hv
  obtain ⟨i, hi⟩ := List.mem_iff_getElem?.1 hsc
  have hscope : t.scope i = sc := by
    rw [scope, List.getD_eq_getElem?_getD, hi]
    rfl
  have hplaced := (h i (List.getElem?_eq_some_iff.1 hi).1).placed v (hscope ▸ hv)
  refine ⟨by rw [hplaced.lends, hplaced.cell], ?_⟩
  rw [hplaced.cell]
  cases v.ty <;> decide

/-- Staging what variables own, if none of their ids is there yet, keeps what is there and adds one
entry for each owner. -/
theorem foldl_stage {vs : List Variable} (hsettled : ∀ v ∈ vs, v.Settled) :
    ∀ fs : FreeSet, (∀ id, (vs.filterMap Variable.reclaim).count id + (fs.entries.map (·.1)).count
      id ≤ 1) → (∀ id e, fs.get? id = some e →
        (vs.foldl (fun pending v => v.stage pending) fs).get? id = some e) ∧
      (vs.foldl (fun pending v => v.stage pending) fs).entries.length =
        fs.entries.length + (vs.filterMap Variable.reclaim).length := by
  induction vs with
  | nil => exact fun fs _ => ⟨fun _ _ h => h, rfl⟩
  | cons v vs ih =>
    intro fs hcount
    have ih := ih fun w hw => hsettled w (List.mem_cons_of_mem _ hw)
    cases hid : v.reclaim with
    | none =>
      rw [List.filterMap_cons_none hid] at hcount ⊢
      rw [List.foldl_cons]
      have hstage : v.stage fs = fs := by
        unfold Variable.stage
        rw [hid]
      rw [hstage]
      exact ih fs hcount
    | some id =>
      obtain ⟨cell, hcell⟩ : ∃ cell, v.sizeCell = some cell :=
        Option.isSome_iff_exists.1 ((hsettled v List.mem_cons_self).reclaim_iff.1
          (by rw [hid]; rfl))
      have hstage : v.stage fs = fs.insert id ⟨v.slot, cell⟩ := by
        unfold Variable.stage
        rw [hid, hcell]
      rw [List.filterMap_cons_some hid] at hcount ⊢
      rw [List.foldl_cons, hstage]
      have habsent : id ∉ fs.entries.map (·.1) := by
        have hle := hcount id
        rw [List.count_cons_self] at hle
        exact List.count_eq_zero.1 (by omega)
      -- the owners that follow have other ids, which the larger set lacks too
      have hcount' : ∀ id', (vs.filterMap Variable.reclaim).count id'
          + ((fs.insert id ⟨v.slot, cell⟩).entries.map (·.1)).count id' ≤ 1 := by
        intro id'
        have hle := hcount id'
        rw [List.count_cons] at hle
        rw [FreeSet.count_insert _ habsent]
        simp only [beq_iff_eq] at hle
        omega
      obtain ⟨hkeep, hlength⟩ := ih _ hcount'
      refine ⟨fun id' e hget => hkeep id' e (FreeSet.get?_insert _ habsent hget), ?_⟩
      rw [hlength, List.length_cons]
      have hone : (fs.insert id ⟨v.slot, cell⟩).entries.length = fs.entries.length + 1 :=
        (FreeSet.perm_insertEntry _ habsent).length_eq
      omega

/-- A scope owns as many ids as it has strings. -/
theorem Scope.length_ownedIds (hsettled : ∀ v ∈ sc.vars, v.Settled) :
    sc.ownedIds.length = (sc.vars.filter (·.ty = .string)).length := by
  unfold Scope.ownedIds
  rw [List.length_filterMap_eq_countP, List.countP_eq_length_filter]
  refine congrArg List.length (List.filter_congr fun v hv => ?_)
  have hv := hsettled v hv
  exact Bool.eq_iff_iff.2 ((hv.reclaim_iff.trans hv.sizeCell_iff).trans decide_eq_true_iff.symm)

/-- A scope that has no id twice releases what is in its free set and what its strings own. -/
theorem Scope.pendingFrees_of_held_le (hsettled : ∀ v ∈ sc.vars, v.Settled)
    (hheld : ∀ id, sc.held id ≤ 1) :
    (∀ id e, sc.freeSet.get? id = some e → sc.pendingFrees.get? id = some e) ∧
      sc.pendingFrees.entries.length =
        sc.freeSet.entries.length + (sc.vars.filter (·.ty = .string)).length := by
  have hperm : sc.owners.Perm (sc.vars.filter (·.reclaim.isSome)) := List.mergeSort_perm _ _
  have hids : (sc.owners.filterMap Variable.reclaim).Perm sc.ownedIds := by
    refine (hperm.filterMap _).trans (.of_eq ?_)
    rw [List.filterMap_filter]
    refine congrArg (List.filterMap · sc.vars) (funext fun v => ?_)
    cases v.reclaim <;> rfl
  obtain ⟨hkeep, hlength⟩ :=
    foldl_stage (fun v hv => hsettled v (List.mem_filter.1 (hperm.mem_iff.1 hv)).1)
    sc.freeSet fun id => by
      rw [hids.count_eq]
      exact hheld id
  refine ⟨hkeep, ?_⟩
  rw [← length_ownedIds hsettled, ← hids.length_eq]
  exact hlength

/-! ### A whole program -/

/-- Nothing is held when a compilation starts. -/
theorem Kept.start (session : Session) (comments : Bool) :
    Kept session.nextReclaim [] (.start session comments) where
  conserved id := by
    show 0 = if session.nextReclaim ≤ id.number ∧ id.number < session.nextReclaim then 1 else 0
    rw [if_neg (by omega)]
  formed := State.formed_start session comments
  base_le := Nat.le_refl _

/-- The ledger is in order along the trace of every program. -/
theorem Program.keptAlong_trace (p : Program) (session : Session) (comments : Bool) :
    KeptAlong session.nextReclaim [] (p.trace session comments) :=
  (Lower.Accounts.law.lowerUnit p _ _ _ (Kept.start session comments)).1

/-- **The ledger between statements.**  A program is compiled in any session, and `t` is a state of
its compilation between two statements.  Then every id made since the start is owned by one variable
of one scope, or is in the free set of one scope, or was spent by an assignment before, and only one
of these; a variable has an id exactly if it has a cell for a size, exactly if it is a string.
Hence what the free set of a scope has to release stays when the scope adds what its variables own,
and the scope releases as many values as its free set has entries and it has strings. -/
theorem ledger_between_statements (p : Program) (session : Session) (comments : Bool)
    {before after : List Event} {ev : Event} {t : State}
    (htrace : p.trace session comments = before ++ ev :: after) (ht : ev.between? = some t) :
    Ledger session.nextReclaim (spents before) t ∧ ∀ sc ∈ t.tree.scopes,
      (∀ id e, sc.freeSet.get? id = some e → sc.pendingFrees.get? id = some e) ∧
      sc.pendingFrees.entries.length =
        sc.freeSet.entries.length + (sc.vars.filter (·.ty = .string)).length := by
  have halong := p.keptAlong_trace session comments
  rw [htrace] at halong
  have hkept := halong.at_event ht
  rw [List.nil_append] at hkept
  have hspaced := (Program.spaced_of_mem_trace (htrace ▸ List.mem_append_right _ List.mem_cons_self)
    (Event.state?_of_between? ht)).scope
  refine ⟨⟨hkept.conserved, fun sc hsc => hspaced.settled hsc⟩, fun sc hsc => ?_⟩
  exact sc.pendingFrees_of_held_le (hspaced.settled hsc) (hkept.held_le_one hsc)

/-- A string that is declared with a new heap value and gets another one later. -/
def reassignment : Program :=
  ⟨[.unplaced (.declare "s" .string (some (.unplaced (.binary .add (.unplaced (.str "a"))
      (.unplaced (.str "b")))))),
    .unplaced (.assign "s"
      (.unplaced (.binary .add (.unplaced (.var "s")) (.unplaced (.str "c")))))]⟩

/-- The second of the two values is spent.  The parameters of the library have the six ids before
the first of them. -/
theorem ledger_between_statements_reassignment : ∃ before ev t,
    reassignment.trace { nextReclaim := 5 } false = before ++ [ev] ∧ ev.between? = some t ∧
      Ledger 5 [⟨12⟩] t ∧ ∀ sc ∈ t.tree.scopes,
        (∀ id e, sc.freeSet.get? id = some e → sc.pendingFrees.get? id = some e) ∧
        sc.pendingFrees.entries.length =
          sc.freeSet.entries.length + (sc.vars.filter (·.ty = .string)).length := by
  have hend :
      ((reassignment.trace { nextReclaim := 5 } false).getLast?.bind Event.between?).isSome =
        true := by
    decide +kernel
  have hspents : spents (reassignment.trace { nextReclaim := 5 } false).dropLast = [⟨12⟩] := by
    decide +kernel
  obtain ⟨t, ht⟩ := Option.isSome_iff_exists.1 hend
  obtain ⟨ev, hlast, hev⟩ := Option.bind_eq_some_iff.1 ht
  obtain ⟨before, hbefore⟩ := List.getLast?_eq_some_iff.1 hlast
  rw [hbefore, List.dropLast_concat] at hspents
  obtain ⟨hledger, hscopes⟩ := ledger_between_statements _ _ _ hbefore hev
  rw [hspents] at hledger
  exact ⟨before, ev, t, hbefore, hev, hledger, hscopes⟩

end KuAsm
