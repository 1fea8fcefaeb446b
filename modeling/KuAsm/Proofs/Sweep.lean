import KuAsm.Proofs.Ledger
import Mathlib.Data.List.Nodup

/-!
# Leaving frames

A frame is swept where it is left: what is in the free set of the scope and what its variables own
is released, except what is kept.  This module says which lines a sweep writes, and which lines are
written where several frames are left one after the other.

## Main definitions

* `Scope.dues`: what a scope has to release, with ids.
* `Sweeps`, `Unwinds`: the code sweeps a scope, or sweeps and leaves several.
* `Lower.Ends`: an action ends well in a given way, or stops with a fault for a given reason.

## Main statements

* `Sweeps.length_eq`: a scope from which nothing is kept releases as many values as its free set has
  entries and it has strings.
* `sweep_ends`, `unwind_ends`: what sweeping a scope and leaving frames writes.
-/

namespace KuAsm

open Asm Reg Lower

/-! ### What a scope has to release -/

/-- What a variable has to release, with its id. -/
def Variable.due? (v : Variable) : Option (ReclaimId × Staged) :=
  v.reclaim.bind fun id => v.sizeCell.map fun cell => (id, ⟨v.slot, cell⟩)

/-- What a scope has to release, with ids. -/
def Scope.dues (sc : Scope) : List (ReclaimId × Staged) :=
  sc.freeSet.entries ++ sc.vars.filterMap Variable.due?

namespace Variable

variable {v : Variable}

theorem stage_eq (v : Variable) (fs : FreeSet) :
    v.stage fs = match v.due? with
      | some e => fs.insert e.1 e.2
      | none => fs := by
  unfold stage due?
  cases v.reclaim <;> cases v.sizeCell <;> rfl

theorem Settled.map_fst_due? (h : v.Settled) : v.due?.map (·.1) = v.reclaim := by
  have hiff := h.reclaim_iff
  unfold due?
  cases hid : v.reclaim with
  | none => rfl
  | some id =>
    rw [hid] at hiff
    obtain ⟨cell, hcell⟩ := Option.isSome_iff_exists.1 (hiff.1 rfl)
    rw [hcell]
    rfl

end Variable

/-- Staging what variables own adds one entry for each, if no id occurs twice. -/
theorem foldl_stage_perm (vs : List Variable) : ∀ fs : FreeSet,
    (∀ id, ((vs.filterMap Variable.due?).map (·.1)).count id + (fs.entries.map (·.1)).count
      id ≤ 1) → (vs.foldl (fun pending v => v.stage pending) fs).entries.Perm
      (fs.entries ++ vs.filterMap Variable.due?) := by
  induction vs with
  | nil =>
    intro fs _
    rw [List.filterMap_nil, List.append_nil]
    exact .refl _
  | cons v vs ih =>
    intro fs hcount
    rw [List.foldl_cons, v.stage_eq]
    cases hdue : v.due? with
    | none =>
      rw [List.filterMap_cons_none hdue] at hcount ⊢
      exact ih fs hcount
    | some e =>
      rw [List.filterMap_cons_some hdue] at hcount ⊢
      have habsent : e.1 ∉ fs.entries.map (·.1) := by
        have hle := hcount e.1
        rw [List.map_cons, List.count_cons_self] at hle
        exact List.count_eq_zero.1 (by omega)
      refine (ih (fs.insert e.1 e.2) fun id => ?_).trans ?_
      · have hle := hcount id
        rw [List.map_cons, List.count_cons] at hle
        rw [FreeSet.count_insert _ habsent]
        simp only [beq_iff_eq] at hle
        omega
      · exact ((FreeSet.perm_insertEntry e.2 habsent).append_right _).trans List.perm_middle.symm

namespace Scope

variable {sc : Scope}

theorem map_fst_dues (hsettled : ∀ v ∈ sc.vars, v.Settled) :
    sc.dues.map (·.1) = sc.stagedIds ++ sc.ownedIds := by
  unfold dues
  rw [List.map_append, List.map_filterMap]
  exact congrArg (sc.stagedIds ++ ·) (List.filterMap_congr fun v hv => (hsettled v hv).map_fst_due?)

/-- No id occurs more often among what is released than the scope holds it. -/
theorem count_dues (hsettled : ∀ v ∈ sc.vars, v.Settled) (id : ReclaimId) :
    (sc.dues.map (·.1)).count id = sc.held id := by
  rw [map_fst_dues hsettled, List.count_append, Nat.add_comm]
  rfl

/-- A sweep releases all that the scope has to release. -/
theorem pendingFrees_perm (hsettled : ∀ v ∈ sc.vars, v.Settled) (hheld : ∀ id, sc.held id ≤ 1) :
    sc.pendingFrees.entries.Perm sc.dues := by
  have hperm : sc.owners.Perm (sc.vars.filter (·.reclaim.isSome)) := List.mergeSort_perm _ _
  have hdues : (sc.owners.filterMap Variable.due?).Perm (sc.vars.filterMap Variable.due?) := by
    refine (hperm.filterMap _).trans (.of_eq ?_)
    rw [List.filterMap_filter]
    refine congrArg (List.filterMap · sc.vars) (funext fun v => ?_)
    unfold Variable.due?
    cases v.reclaim <;> rfl
  refine (foldl_stage_perm sc.owners sc.freeSet fun id => ?_).trans (hdues.append_left _)
  have hcount := count_dues hsettled id
  unfold dues at hcount
  rw [List.map_append, List.count_append] at hcount
  rw [(hdues.map (·.1)).count_eq]
  have hle := hheld id
  omega

end Scope

/-! ### Ends of actions -/

/-- From `s` the action ends well, as `Q` says.  It stops with a fault only if `C` holds, and it
never rejects the program. -/
def Lower.Ends {α : Type} (x : Lower α) (s : State) (C : Prop) (Q : α → State → Prop) : Prop :=
  match x s with
  | .ok a t => Q a t
  | .error (.fault _) _ => C
  | .error (.rejected _) _ => False

namespace Lower.Ends

variable {α β : Type} {x : Lower α} {f : α → Lower β} {s t : State} {C C' : Prop}
  {Q Q' : α → State → Prop} {R : β → State → Prop}

theorem of_eq_ok {a : α} (h : x s = .ok a t) (hq : Q a t) : x.Ends s C Q := by
  unfold Ends
  rw [h]
  exact hq

theorem mono (h : x.Ends s C Q) (hC : C → C') (hQ : ∀ a t, Q a t → Q' a t) : x.Ends s C' Q' := by
  unfold Ends at h ⊢
  split at h
  · exact hQ _ _ h
  · exact hC h
  · exact h

theorem bind (hx : x.Ends s C Q) (hf : ∀ a t, Q a t → (f a).Ends t C R) : (x >>= f).Ends s C R := by
  show match EStateM.bind x f s with
    | .ok b t => R b t
    | .error (.fault _) _ => C
    | .error (.rejected _) _ => False
  unfold EStateM.bind
  unfold Ends at hx
  cases hrun : x s with
  | ok a t =>
    rw [hrun] at hx
    exact hf a t hx
  | error e t =>
    rw [hrun] at hx
    cases e <;> exact hx

/-- An action that is known to end well comes first. -/
theorem after {a : α} (h : x s = .ok a t) (hf : (f a).Ends t C R) : (x >>= f).Ends s C R := by
  refine bind (Q := fun a' t' => a' = a ∧ t' = t) (.of_eq_ok h ⟨rfl, rfl⟩) fun a' t' ha => ?_
  rw [ha.1, ha.2]
  exact hf

/-- What is known of all runs that end well may be added. -/
theorem conj (h : x.Ends s C Q) (hrun : ∀ a t, x s = .ok a t → Q' a t) :
    x.Ends s C fun a t => Q a t ∧ Q' a t := by
  unfold Ends at h ⊢
  cases hx : x s with
  | ok a t =>
    rw [hx] at h
    exact ⟨h, hrun a t hx⟩
  | error e t =>
    rw [hx] at h
    cases e <;> exact h

theorem remark (text : String) : (remark text).Ends s C fun note t => Code.IsNote note ∧ t = s :=
  have hrun : Lower.remark text s = .ok _ s := remark_eq_ok.2 ⟨rfl, rfl⟩
  .of_eq_ok hrun ⟨(isNote_of_remark hrun).1, rfl⟩

/-- A slot has a displacement unless it ends 2^31 bytes or more from the frame pointer. -/
theorem checkedSlot (base : Reg) (y : Slot) :
    (checked (Mem.slot base y)).Ends s (halfCount ≤ y.bound)
      fun m t => Mem.slot base y = .ok m ∧ t = s := by
  unfold Mem.slot Slot.disp
  by_cases hword : wordCount ≤ y.bound
  · rw [if_pos hword]
    exact Nat.le_trans (by decide) hword
  · rw [if_neg hword]
    by_cases hhalf : y.bound = halfCount
    · rw [if_pos hhalf]
      exact Nat.le_of_eq hhalf.symm
    · rw [if_neg hhalf]
      exact .of_eq_ok rfl ⟨rfl, rfl⟩

end Lower.Ends

/-! ### Sweeps -/

/-- The code releases the values of the list one after the other: each of them with one call of the
operating system, which is skipped if the size is zero. -/
inductive Releases : List (ReclaimId × Staged) → Code → Prop
  | nil : Releases [] []
  | comment {es code} (text : String) : Releases es code → Releases es (.comment text :: code)
  | cons {id e es a z code} (skip : Label) : Mem.slot ebp e.address = .ok a →
    Mem.slot ebp e.size = .ok z →
    Releases es code → Releases ((id, e) :: es) (releaseCode a z skip ++ .label skip :: code)

/-- The code sweeps a scope: it releases whatever the scope has to release but for `keep`, in
ascending order of ids. -/
structure Sweeps (sc : Scope) (keep : List ReclaimId) (es : List (ReclaimId × Staged))
    (code : Code) : Prop where
  releases : Releases es code
  ascending : es.Pairwise fun x y => x.1.number < y.1.number
  perm : es.Perm (sc.dues.filter fun x => !keep.contains x.1)

/-- The code sweeps the scopes of a list and leaves their frames, one after the other. -/
inductive Unwinds (t : ScopeTree) (keep : List ReclaimId) :
    List ScopeId → List (ReclaimId × Staged) → Code → Prop
  | nil : Unwinds t keep [] [] []
  | cons {i is es fs code more} : Sweeps (t.scope i) keep es code → Unwinds t keep is fs more →
    Unwinds t keep (i :: is) (es ++ fs) (code ++ [bare .leave] ++ more)

theorem Code.IsNote.releases {note code : Code} (h : Code.IsNote note)
    {es : List (ReclaimId × Staged)} (hcode : Releases es code) : Releases es (note ++ code) := by
  rcases h with rfl | ⟨text, rfl⟩
  · exact hcode
  · exact .comment text hcode

/-- There is one call of the operating system for each value. -/
theorem Releases.count_kernel {es : List (ReclaimId × Staged)} {code : Code}
    (h : Releases es code) : code.count kernel = es.length := by
  induction h with
  | nil => rfl
  | comment text _ ih => rw [List.count_cons_of_ne (by simp [kernel]), ih]
  | cons skip _ _ _ ih =>
    rw [List.count_append, List.count_cons_of_ne (by simp [kernel]), ih, List.length_cons,
      Nat.add_comm]
    rfl

namespace Sweeps

variable {sc : Scope} {keep : List ReclaimId} {es : List (ReclaimId × Staged)} {code : Code}

/-- No value is released twice. -/
theorem nodup (h : Sweeps sc keep es code) : (es.map (·.1)).Nodup := by
  rw [List.Nodup, List.pairwise_map]
  refine h.ascending.imp fun {x y} (hlt : x.1.number < y.1.number) (heq : x.1 = y.1) => ?_
  rw [heq] at hlt
  exact Nat.lt_irrefl _ hlt

/-- A scope from which nothing is kept releases as many values as its free set has entries and it
has strings. -/
theorem length_eq (h : Sweeps sc [] es code) (hsettled : ∀ v ∈ sc.vars, v.Settled) :
    es.length = sc.freeSet.entries.length + (sc.vars.filter (·.ty = .string)).length := by
  have hall : sc.dues.filter (fun x => !([] : List ReclaimId).contains x.1) = sc.dues :=
    List.filter_eq_self.2 fun _ _ => rfl
  have hdues := congrArg List.length (Scope.map_fst_dues hsettled)
  rw [List.length_map, List.length_append, Scope.length_ownedIds hsettled] at hdues
  rw [h.perm.length_eq, hall, hdues]
  exact congrArg (· + _) (List.length_map _)

/-- A sweep depends on what is to be released alone. -/
theorem congr {sc' : Scope} (h : Sweeps sc keep es code) (hdues : sc'.dues = sc.dues) :
    Sweeps sc' keep es code :=
  ⟨h.releases, h.ascending, hdues ▸ h.perm⟩

end Sweeps

theorem Lower.releaseAll_cons_eq_ok {keep : List ReclaimId} {id : ReclaimId} {e : Staged}
    {es : List (ReclaimId × Staged)} {s t : State} {code : Code}
    (h : releaseAll keep ((id, e) :: es) s = .ok code t) :
    ∃ first u more, (if keep.contains id then remark ("keep " ++ id.text) else release ebp id e) s =
      .ok first u ∧ releaseAll keep es u = .ok more t ∧ code = first ++ more := by
  unfold releaseAll at h
  by_cases hkeep : keep.contains id = true
  · rw [if_pos hkeep] at h ⊢
    obtain ⟨first, u, hfirst, h₁⟩ := bind_eq_ok.1 h
    obtain ⟨more, v, hmore, h₂⟩ := bind_eq_ok.1 h₁
    obtain ⟨rfl, rfl⟩ := pure_eq_ok.1 h₂
    exact ⟨first, u, more, hfirst, hmore, rfl⟩
  · rw [if_neg hkeep] at h ⊢
    obtain ⟨first, u, hfirst, h₁⟩ := bind_eq_ok.1 h
    obtain ⟨more, v, hmore, h₂⟩ := bind_eq_ok.1 h₁
    obtain ⟨rfl, rfl⟩ := pure_eq_ok.1 h₂
    exact ⟨first, u, more, hfirst, hmore, rfl⟩

/-- Scopes that hold no id twice, and whose variables have ids as their types ask for. -/
def ScopeTree.InOrder (t : ScopeTree) (is : List ScopeId) : Prop :=
  ∀ i ∈ is, (∀ v ∈ (t.scope i).vars, v.Settled) ∧ ∀ id, (t.scope i).held id ≤ 1

/-- A slot of what is released ends 2^31 bytes or more from the frame pointer. -/
def ScopeTree.Vast (t : ScopeTree) (is : List ScopeId) : Prop :=
  ∃ i ∈ is, ∃ e ∈ (t.scope i).dues, halfCount ≤ e.2.address.bound ∨ halfCount ≤ e.2.size.bound

theorem release_ends (id : ReclaimId) (e : Staged) (s : State) :
    (release ebp id e).Ends s (halfCount ≤ e.address.bound ∨ halfCount ≤ e.size.bound) fun code t =>
      (∃ note skip a z, Code.IsNote note ∧ Mem.slot ebp e.address = .ok a ∧
        Mem.slot ebp e.size = .ok z ∧ code = note ++ (releaseCode a z skip ++ [.label skip])) ∧
      ∃ session, t = { s with session } := by
  refine .after (mintLabel_eq_ok.2 ⟨rfl, rfl⟩) (.bind (.remark _) ?_)
  rintro note u ⟨hnote, rfl⟩
  refine .bind ((Ends.checkedSlot _ _).mono .inr fun _ _ h => h) ?_
  rintro z u ⟨hz, rfl⟩
  refine .bind ((Ends.checkedSlot _ _).mono .inl fun _ _ h => h) ?_
  rintro a u ⟨ha, rfl⟩
  exact .of_eq_ok rfl ⟨⟨note, _, a, z, hnote, ha, hz, rfl⟩, _, rfl⟩

/-- Releasing the values of a list changes nothing but the session. -/
theorem releaseAll_ends (keep : List ReclaimId) : ∀ (es : List (ReclaimId × Staged)) (s : State),
    (releaseAll keep es).Ends s
      (∃ e ∈ es, halfCount ≤ e.2.address.bound ∨ halfCount ≤ e.2.size.bound) fun code t =>
        Releases (es.filter fun e => !keep.contains e.1) code ∧ ∃ session, t = { s with session }
  | [], s => .of_eq_ok rfl ⟨.nil, _, rfl⟩
  | (id, e) :: es, s => by
    have hrest : ∀ first u, (∃ session, u = { s with session }) →
        (∀ code, Releases (es.filter fun e => !keep.contains e.1) code →
          Releases (((id, e) :: es).filter fun e => !keep.contains e.1) (first ++ code)) →
        (releaseAll keep es >>= fun more => pure (first ++ more)).Ends u
          (∃ x ∈ (id, e) :: es, halfCount ≤ x.2.address.bound ∨ halfCount ≤ x.2.size.bound)
          fun code t => Releases (((id, e) :: es).filter fun e => !keep.contains e.1) code ∧
            ∃ session, t = { s with session } := by
      rintro first u ⟨session, rfl⟩ hfirst
      refine .bind ((releaseAll_ends keep es _).mono ?_ fun _ _ h => h) fun more t ht => ?_
      · rintro ⟨x, hx, hvast⟩
        exact ⟨x, List.mem_cons_of_mem _ hx, hvast⟩
      · obtain ⟨hmore, session', rfl⟩ := ht
        exact .of_eq_ok rfl ⟨hfirst more hmore, session', rfl⟩
    unfold releaseAll
    by_cases hkeep : keep.contains id = true
    · rw [if_pos hkeep]
      refine .bind (.remark _) ?_
      rintro note u ⟨hnote, rfl⟩
      refine hrest _ _ ⟨_, rfl⟩ fun code hcode => ?_
      rw [List.filter_cons_of_neg (by simpa using hkeep)]
      exact hnote.releases hcode
    · rw [if_neg hkeep]
      refine .bind ((release_ends id e s).mono (fun h => ⟨_, List.mem_cons_self, h⟩) fun _ _ h => h)
        fun first u hu => ?_
      obtain ⟨⟨note, skip, a, z, hnote, ha, hz, rfl⟩, hsession⟩ := hu
      refine hrest _ _ hsession fun code hcode => ?_
      rw [List.filter_cons_of_pos (by simpa using hkeep), List.append_assoc, List.append_assoc]
      exact hnote.releases (.cons skip ha hz hcode)

/-! ### Leaving frames -/

/-- Sweeping a scope writes the lines that release what it has to release. -/
theorem sweep_ends {s : State} {i : ScopeId} (hs : s.tree.InOrder [i]) (keep : List ReclaimId) :
    (sweep i keep).Ends s (s.tree.Vast [i]) fun _ t => ∃ es code session,
      Sweeps (s.tree.scope i) keep es code ∧ t = ({ s with session } : State).wrote code := by
  obtain ⟨hsettled, hheld⟩ := hs i List.mem_cons_self
  have hperm := Scope.pendingFrees_perm hsettled hheld
  refine .after (x := get) rfl (.bind ((releaseAll_ends keep _ s).mono ?_ fun _ _ h => h)
    fun code t ht => ?_)
  · rintro ⟨e, he, hvast⟩
    exact ⟨i, List.mem_cons_self, e, hperm.subset he, hvast⟩
  · obtain ⟨hcode, session, rfl⟩ := ht
    refine .of_eq_ok rfl ⟨_, code, session, ⟨hcode, ?_, hperm.filter _⟩, rfl⟩
    exact (s.tree.scope i).pendingFrees.ascending.filter _

/-- Sweeping and leaving the frame of a scope. -/
theorem exitFrame_ends {s : State} {i : ScopeId} (hs : s.tree.InOrder [i]) (keep : List ReclaimId) :
    (exitFrame i keep).Ends s (s.tree.Vast [i]) fun _ t => ∃ es code session,
      Sweeps (s.tree.scope i) keep es code ∧
        t = ({ s with session } : State).wrote (code ++ [bare .leave]) := by
  refine .bind (sweep_ends hs keep) ?_
  rintro - t ⟨es, code, session, hcode, rfl⟩
  exact .of_eq_ok rfl ⟨es, code, session, hcode, State.wrote_wrote _ _ _⟩

/-- Sweeping and leaving the frames of some scopes, one after the other. -/
theorem exitFrames_ends (keep : List ReclaimId) :
    ∀ (is : List ScopeId) (s : State), s.tree.InOrder is →
    (is.forM fun i => exitFrame i keep).Ends s (s.tree.Vast is) fun _ t => ∃ es code session,
      Unwinds s.tree keep is es code ∧ t = ({ s with session } : State).wrote code
  | [], s, _ => .of_eq_ok rfl ⟨_, _, s.session, .nil, s.wrote_nil.symm⟩
  | i :: is, s, hs => by
    have hfirst : s.tree.InOrder [i] :=
      fun j hj => hs j (List.mem_singleton.1 hj ▸ List.mem_cons_self)
    refine .bind ((exitFrame_ends hfirst keep).mono ?_ fun _ _ h => h) ?_
    · rintro ⟨j, hj, hvast⟩
      exact ⟨j, List.mem_singleton.1 hj ▸ List.mem_cons_self, hvast⟩
    · rintro - t ⟨es, code, session, hcode, rfl⟩
      refine (exitFrames_ends keep is (({ s with session } : State).wrote (code ++ [bare .leave]))
        fun j hj => hs j (List.mem_cons_of_mem _ hj)).mono ?_ ?_
      · rintro ⟨j, hj, hvast⟩
        exact ⟨j, List.mem_cons_of_mem _ hj, hvast⟩
      · rintro - u ⟨fs, more, session', hmore, rfl⟩
        exact ⟨_, _, session', .cons hcode hmore,
          State.wrote_wrote { s with session := session' } _ _⟩

end KuAsm
