import KuAsm.Proofs.Delivery
import KuAsm.Proofs.Layers

/-!
# Statements leave nothing over

A statement writes all code that it makes, but for what its surroundings hold: the labels of
constructs that are still open, and the sizes of their frames.  What the code of its expressions
loads is entered in the books.

## Main definitions

* `Lower.Spends x q may ps us`: whoever holds the parcels `ps` and runs `x` has written code that
  loads the strings `us`.
* `Lower.Draws x q may ps result place d`: in a function that returns `result`, running `x` writes
  code that loads the strings of the draft `d`.

## Main statements

* `Node.executeAll_draws`: compiling statements leaves nothing over.
-/

namespace KuAsm

open Asm Reg Lower

/-- A feature that comments do not show, and that everything which shows it is counted for. -/
structure Feature.IsCounted (q : Feature) (T : String → Prop) : Prop extends Remarks q T where
  counted : q ≠ .system

variable {q : Feature} {T : String → Prop} {may : List Label} {held ps : List Parcel} {B : Books}
  {s t : State} {us vs : List String} {name : String} {l : Location} {a : Unit} {α β : Type}
  {x y : Lower α} {f : α → Lower β}
  {body : Lower Bool} {condition : Lower Lowered} {value : ScalarType → Lower Lowered}

/-! ### Releasing heap values -/

namespace Lower.Delivers

open Parcel.Gathers

theorem forM {g : β → Lower PUnit} (hg : ∀ b, (g b).Delivers q may [] fun _ => []) :
    ∀ bs : List β, (bs.forM g).Delivers q may [] fun _ => []
  | [] => still PUnit.unit
  | b :: bs => bind (hg b) fun _ => forM hg bs

theorem release (hr : q.IsCounted T) (base : Reg) (id : ReclaimId) (e : Staged) :
    (Lower.release base id e).Delivers q may [] fun code => [⟨code, []⟩] := by
  refine mintLabel fun skip => after (.remark (hr.freed id)) fun note hnote => after (.checked _)
      fun size _ =>
    after (.checked _) fun address _ => recordFree hr.counted fun _ =>
      perm (.swap _ _ _) rfl (pure ?_)
  have htest : Parcel.Gathers q (skip :: may) []
      ⟨[mov ecx size, test ecx ecx, jcc .z skip, mov ebx address], []⟩ :=
    toward List.mem_cons_self rfl rfl rfl rfl
  exact (dull hnote).behind ((htest.behind (one _)).behind (one (.label skip)))

theorem releaseAll (hr : q.IsCounted T) (keep : List ReclaimId) :
    ∀ es, (Lower.releaseAll keep es).Delivers q may [] fun code => [⟨code, []⟩]
  | [] => pure (dull .nil)
  | (id, e) :: rest => by
    have hrest (code : Code) :
        (Lower.releaseAll keep rest >>= fun more => Pure.pure (code ++ more)).Delivers q may
        [⟨code, []⟩] fun code => [⟨code, []⟩] :=
      adds (releaseAll hr keep rest) fun more => pure ((one _).behind (one _))
    unfold Lower.releaseAll
    exact ite (after (.remark (hr.kept id)) fun note hnote => convert [] (dull hnote) (hrest note))
      (bind (release hr _ id e) hrest)

theorem sweep (hr : q.IsCounted T) (id : ScopeId) (keep : List ReclaimId) :
    (Lower.sweep id keep).Delivers q may [] fun _ => [] :=
  read fun _ => bind (releaseAll hr keep _) fun _ => emit (one _)

theorem exitFrame (hr : q.IsCounted T) (id : ScopeId) (keep : List ReclaimId) :
    (Lower.exitFrame id keep).Delivers q may [] fun _ => [] :=
  bind (sweep hr id keep) fun _ => emit (dull (.plain rfl))

theorem unwind (hr : q.IsCounted T) (frames : Nat) (keep : List ReclaimId) :
    (Lower.unwind frames keep).Delivers q may [] fun _ => [] :=
  read fun _ => forM (fun _ => exitFrame hr _ keep) _

/-! ### Exits -/

/-- A statement may jump to the loop around it. -/
theorem enclosingLoop {code : β → List Parcel} {statement : String}
    {g : Resolved × LoopExit → Lower β}
    (hg : ∀ x, (g x).Delivers q (x.2.next :: x.2.exit :: may) ps code) :
    (Lower.enclosingLoop statement l >>= g).Delivers q may ps code := by
  intro s b t B held hs h
  obtain ⟨⟨r, m⟩, u, hloop, hrest⟩ := bind_eq_ok.1 h
  obtain ⟨hlookup, rfl⟩ := enclosingLoop_eq_ok.1 hloop
  obtain ⟨hpath, hm, -⟩ := ScopeTree.lookupLoop_eq_some hlookup
  have hexit := hs.allow fun _ _ _ hmade => (hmade.loop_labels (hmade.lt_of_path hpath) hm).2
  have hnext := hexit.allow fun _ _ _ hmade => (hmade.loop_labels (hmade.lt_of_path hpath) hm).1
  exact (hg _ hnext hrest).forget fun _ hl => List.mem_cons_of_mem _ (List.mem_cons_of_mem _ hl)

theorem leaveLoop (hr : q.IsCounted T) (l : Location) :
    (Lower.leaveLoop l).Delivers q may [] fun _ => [] :=
  enclosingLoop fun _ => bind (unwind hr _ _) fun _ =>
    emit (toward (List.mem_cons_of_mem _ List.mem_cons_self) rfl rfl rfl rfl)

theorem nextRound (hr : q.IsCounted T) (l : Location) :
    (Lower.nextRound l).Delivers q may [] fun _ => [] :=
  enclosingLoop fun _ => bind (unwind hr _ _) fun _ =>
    emit (toward List.mem_cons_self rfl rfl rfl rfl)

/-- A copy of a string that is returned adds a call. -/
theorem ownedResult (hr : q.IsCounted T) (v : Lowered) (copying : Copying) :
    (Lower.ownedResult v copying).Delivers q may [⟨v.code, us⟩] fun code => [⟨code, us⟩] := by
  refine ite (pure (one _)) (libraryFunction? (pure (one _)) fun f _ => mintLabel fun skip =>
    after (.reserve _) fun _ _ => after (.checked _) fun m _ => after (.remark hr.copied)
        fun note hnote =>
      after .depthToRoot fun _ _ => after (.checked _) fun call hcall =>
        recordCall hcall (List.mem_cons_of_mem _ List.mem_cons_self) fun _ =>
          perm (.swap _ _ _) rfl (pure ?_))
  have hcheck : Parcel.Gathers q (skip :: f.entry :: may) []
      ⟨if copying = .ifBorrowed then [test edx edx, jcc .nz skip] else [], []⟩ := by
    split
    · exact toward List.mem_cons_self rfl rfl rfl rfl
    · exact dull .nil
  exact (((((one _).behind hcheck).behind (dull (.plain rfl))).behind (dull hnote)).behind
    (one _)).behind (one (.label skip))

end Lower.Delivers

/-! ### Writing code that is held -/

/-- Whoever holds the parcels `ps` and runs the action has written code that loads the strings
`us`. -/
def Lower.Spends (x : Lower α) (q : Feature) (may : List Label) (ps : List Parcel)
    (us : List String) : Prop :=
  ∀ ⦃s : State⦄ ⦃a : α⦄ ⦃t : State⦄ ⦃B : Books⦄ ⦃held : List Parcel⦄,
    s.Account q B may (ps ++ held) →
    (Parcel.join held).texts = [] → x s = .ok a t →
    t.Account q (B.after (.load B.place us)) may held

namespace Lower.Spends

open Parcel.Gathers

theorem bind {code : α → List Parcel} (hx : x.Delivers q may ps code)
    (hf : ∀ a, (f a).Spends q may (code a) us) : (x >>= f).Spends q may ps us := by
  intro s b t B held hs hmute h
  obtain ⟨a, u, hxa, hfa⟩ := bind_eq_ok.1 h
  exact hf a (hx hs hxa) hmute hfa

/-- What is delivered is spent afterwards. -/
theorem adds {code : α → List Parcel} (hx : x.Delivers q may [] code)
    (hf : ∀ a, (f a).Spends q may (code a ++ ps) us) : (x >>= f).Spends q may ps us :=
  bind (hx.frame : x.Delivers q may ([] ++ ps) _) hf

theorem read {g : State → Lower β} (hg : ∀ s, (g s).Spends q may ps us) :
    ((get : Lower State) >>= g).Spends q may ps us :=
  fun s _ _ _ _ hs hmute h => hg s hs hmute (get_bind_eq_ok.1 h)

theorem emit {c : Code} (h : Parcel.Gathers q may ps ⟨c, us⟩) :
    (Lower.emit c).Spends q may ps us := by
  intro s a t B held hs hmute hrun
  obtain rfl := emit_eq_ok.1 hrun
  exact (hs.gather _ h).wrote (by rw [hmute, List.append_nil, List.nil_append])

theorem reject (c : Cause) (l : Location) : (Lower.reject c l : Lower α).Spends q may ps us :=
  fun _ _ _ _ _ _ _ h => (reject_eq_ok.1 h).elim

theorem after {P : α → Prop} (hx : x.Idles P) (hf : ∀ a, P a → (f a).Spends q may ps us) :
    (x >>= f).Spends q may ps us := by
  intro s b t B held hs hmute h
  obtain ⟨a, u, hxa, hfa⟩ := bind_eq_ok.1 h
  obtain ⟨hu, ha⟩ := hx hs.formed hxa
  exact hf a ha (hs.still hu) hmute hfa

theorem ite {c : Prop} [Decidable c] (hx : x.Spends q may ps us) (hy : y.Spends q may ps us) :
    (if c then x else y).Spends q may ps us := by
  split
  · exact hx
  · exact hy

theorem hush (hx : x.Spends q may ps us) (hf : ∀ a, (f a).Delivers q may [] fun _ => []) :
    (x >>= f).Spends q may ps us := by
  intro s b t B held hs hmute h
  obtain ⟨a, u, hxa, hfa⟩ := bind_eq_ok.1 h
  exact hf a (hx hs hmute hxa) hfa

theorem declare (hr : q.IsCounted T) (hname : T name) (ty : ScalarType) (l : Location)
    {value : Lower Lowered} (hvalue : value.Delivers q may [] fun v => [⟨v.code, us⟩]) :
    (Lower.declare name ty l value).Spends q may [] us := by
  refine adds hvalue fun v => after (.declareVariable _ _ _) fun x _ =>
    after (.remark (hr.declared hname ty)) fun note hnote => after (.checked _) fun m _ => ?_
  have hstored : Parcel.Gathers q may [⟨v.code, us⟩] ⟨note ++ v.code ++ [store m eax], us⟩ :=
    ((dull hnote).append (one _)).behind (dull (.store m eax))
  cases x.sizeCell with
  | none => exact emit hstored
  | some cell =>
    refine after (.takeOwnership _ _ _) fun r htaken => after (P := fun _ => True) ?_ fun id _ =>
      after (.checked _) fun c _ => after (.own _ _) fun _ _ =>
        emit ((hstored.behind (dull htaken)).behind (dull (.store c edx)))
    cases r.2 with
    | none => exact .mintReclaim
    | some id => exact .pure trivial

theorem replaceString (hr : q.IsCounted T) (x : Variable) (cell : Slot) (depth : Nat) (v : Lowered)
    (l : Location) : (Lower.replaceString x cell depth v l).Spends q may [⟨v.code, us⟩] us := by
  have hold (base : Reg) :
      (Lower.releaseOld base x cell).Delivers q may [] fun code => [⟨code, []⟩] := by
    unfold Lower.releaseOld
    cases x.reclaim with
    | none => exact .pure (dull .nil)
    | some id => exact .release hr _ _ _
  have htakes : (Lower.takeOwnership v.ownership x.name l).Idles fun r => r.1.IsDull q :=
    .takeOwnership _ _ _
  refine after htakes fun r htaken => adds (hold _) fun old => after (.checked _) fun m _ =>
    after (.checked _) fun c _ => emit ?_
  have hpush : Code.IsDull q [push eax, push edx] := .plain rfl
  have hpop : Code.IsDull q [pop edx, pop eax] := .plain rfl
  have hstores := hpop.append ((Code.IsDull.store m eax).append (.store c edx))
  exact (((((one _).behind (dull htaken)).behind (dull hpush)).behind (dull (.chase depth))).behind
    (one _)).behind (dull hstores)

/-- An assignment writes what its value loads.  A variable that is assigned to itself is not
written, but its code is dull. -/
theorem assign (hr : q.IsCounted T) (hname : T name) (l : Location)
    (hvalue : ∀ ty, (value ty).Delivers q may [] fun v => [⟨v.code, us⟩])
    (hlent : ∀ ty s v t id, s.Formed → value ty s = .ok v t → v.ownership = .borrowed id →
      v.code.IsDull q ∧ us = []) : (Lower.assign name l value).Spends q may [] us := by
  refine after (.resolveVariable _ _) fun ⟨r, x⟩ _ => ?_
  intro s a t B held hs hmute h
  obtain ⟨v, u, hv, hrest⟩ := bind_eq_ok.1 h
  refine (?_ : Spends _ q may [⟨v.code, us⟩] us) (hvalue _ hs hv) hmute hrest
  cases x.sizeCell with
  | none =>
    exact after (.checked _) fun m _ =>
      emit (((one _).behind (dull (.chase _))).behind (dull (.store m eax)))
  | some cell =>
    dsimp only
    split
    · next hself =>
      obtain ⟨id, -, hid⟩ := Option.map_eq_some_iff.1 hself
      obtain ⟨hcode, rfl⟩ := hlent _ s v u id hs.formed hv hid.symm
      exact after (.remark (hr.unchanged hname)) fun note hnote => emit (instead hcode hnote)
    · exact replaceString hr x cell _ v l

theorem storeAt {address value : Lower Lowered}
    (ha : address.Delivers q may [] fun v => [⟨v.code, us⟩])
    (hvalue : value.Delivers q may [] fun v => [⟨v.code, vs⟩]) (l : Location) :
    (Lower.storeAt address value l).Spends q may [] (us ++ vs) := by
  refine adds ha fun a => ite (reject _ _) (adds hvalue fun v => emit ?_)
  have hpush : Parcel.Gathers q may [] ⟨[push eax], []⟩ := dull (.plain rfl)
  have hpop : Code.IsDull q [pop ecx] := .plain rfl
  exact (((one _).behind hpush).append (one _)).behind (dull (hpop.append (.store _ _)))

theorem branchUnless {target : Label} (htarget : target ∈ may) (l : Location)
    (hc : condition.Delivers q may [] fun v => [⟨v.code, us⟩]) :
    (Lower.branchUnless target l condition).Spends q may [] us :=
  adds hc fun _ => ite (reject _ _) (emit ((one _).behind (toward htarget rfl rfl rfl rfl)))

end Lower.Spends

/-! ### Frames -/

namespace State.Account

/-- Where work goes on does not matter. -/
theorem moved (h : s.Account q B may held) {current : ScopeId} {target place : Section}
    (hlt : current < s.tree.size)
    (htarget : target = place) (hwrites : ∀ first ∈ B.first, place ≠ .data) :
    State.Account { s with current, target } q { B with place } may held where
  formed := ⟨h.formed.ordered, hlt, h.formed.root_eq⟩
  target := htarget
  writes := hwrites
  included := h.included
  opens := h.opens
  ahead := h.ahead
  labels first hfirst :=
    let ⟨made, hmade, hallowed⟩ := h.labels first hfirst
    ⟨made, hmade.moved hlt target, hallowed⟩
  supplied := h.supplied

/-- A change of the current scope that leaves it in its place and names labels that are allowed. -/
theorem withScope (h : s.Account q B may held) (sc : Scope) (hp : sc.parent = s.here.parent)
    (hsc : ∀ made, s.here.labels ⊆ made → may ⊆ made → sc.labels ⊆ made) :
    (s.withScope sc).Account q B may held where
  formed := h.formed.withScope hp
  target := h.target
  writes := h.writes
  included := h.included
  opens := h.opens
  ahead := h.ahead
  labels first hfirst :=
    let ⟨made, hmade, hmay, hrefers⟩ := h.labels first hfirst
    ⟨made, hmade.withScope hp (hsc made hmade.here_labels hmay), hmay, hrefers⟩
  supplied := h.supplied

/-- A new scope owes the prologue of its frame and the size of its frame. -/
theorem entered (h : s.Account q B may held) {l : Label}
    (hl : l = .fresh s.session.nextLabel "frame") :
    (s.entered l).Account q B (l :: may)
    (.frame l :: ⟨Convention.blockPrologue l, []⟩ :: held) := by
  subst hl
  have hprologue := Code.Shows.blockPrologue (q := q) (.fresh s.session.nextLabel "frame")
  have hsize := Code.Shows.constant (q := q) (.fresh s.session.nextLabel "frame") 0
  refine
    { target := h.target, writes := h.writes, included := h.included
      formed := (State.Inner.entered h.formed _).formed
      opens :=
      List.forall_mem_cons.2 ⟨hsize.opens, List.forall_mem_cons.2 ⟨hprologue.opens, h.opens⟩⟩
      ahead := ?_
      labels := fun first hfirst => ?_
      supplied := fun first hfirst => ?_ }
  · have hahead := h.ahead
    have hcount := hprologue.count_eq
    have hcount' := hsize.count_eq
    unfold State.ahead State.entered at *
    rw [Parcel.join, Parcel.join, Parcel.frame, Feature.count_append hsize.opens,
      Feature.count_append hprologue.opens, Feature.counted_recordScope, Feature.counted_mintLabel]
    dsimp only
    omega
  · obtain ⟨made, hmade, hmay, hheld⟩ := h.labels first hfirst
    have hl :
        Label.fresh s.session.nextLabel "frame" ∈ made ++ [.fresh s.session.nextLabel "frame"] :=
      List.mem_append_right _ (List.mem_singleton_self _)
    refine ⟨_, hmade.entered.perm ?_,
      List.cons_subset.2 ⟨hl, List.subset_append_of_subset_left _ hmay⟩, ?_⟩
    · rw [Parcel.join, Parcel.join, Code.defines_append, Code.defines_append]
      exact (List.append_nil (Code.defines (Parcel.join held).code)).symm ▸
        (List.perm_append_singleton _ _).symm
    · rw [Parcel.join, Parcel.join, Code.refers_append, Code.refers_append]
      refine List.append_subset.2
        ⟨List.append_subset.2 ⟨List.subset_append_of_subset_left _ hheld, ?_⟩, List.nil_subset _⟩
      exact List.cons_subset.2 ⟨hl, List.cons_subset.2 ⟨hl, List.nil_subset _⟩⟩
  · obtain ⟨hsupplied, hknown⟩ := h.supplied first hfirst
    rw [Parcel.join, Parcel.join, Parcel.frame, List.append_nil, List.append_nil]
    exact ⟨hsupplied, List.forall_mem_cons.2 ⟨.nil, List.forall_mem_cons.2 ⟨.nil, hknown⟩⟩⟩

/-- An open block owes the size of its frame. -/
theorem openBlock (h : s.Account q B may held) {id : ScopeId}
    (hrun : Lower.openBlock s = .ok id t) :
    t.Account q B may (.frame t.here.frameSize :: held) := by
  obtain ⟨rfl, rfl⟩ := openBlock_eq_ok.1 hrun
  rw [State.here_entered]
  have hready := (h.entered rfl).front [_] rfl
  exact hready.wroteMute.forget (List.subset_cons_self _ _)

theorem defineFrameSize {id : ScopeId}
    (h : s.Account q B may (.frame (s.tree.scope id).frameSize :: held))
    (hrun : Lower.defineFrameSize id s = .ok a t) : t.Account q B may held := by
  obtain ⟨bytes, -, rfl⟩ := defineFrameSize_eq_ok hrun
  exact (h.gather [_] (.sized _ bytes)).wroteMute

/-- Closing a block settles the size of its frame. -/
theorem closeBlock (hr : q.IsCounted T) {reachable : Bool}
    (h : s.Account q B may (.frame s.here.frameSize :: held))
    (hrun : Lower.closeBlock reachable s = .ok a t) : t.Account q B may held := by
  obtain ⟨u, v, hleave, hdef, rfl⟩ := closeBlock_eq_ok hrun
  have hdelivers : (if reachable then exitFrame s.current [] else pure ()).Delivers q may []
      fun _ => [] := .ite (.exitFrame hr _ _) (.still ())
  have hgrows : (if reachable then exitFrame s.current [] else pure ()).IsGrowing :=
    IsGrowing.law.ite (IsGrowing.law.exitFrame _ _) (.pure _)
  have hu : u.Account q B may (.frame s.here.frameSize :: held) := hdelivers h hleave
  have hsu := hgrows _ _ _ h.formed hleave
  have hframe : s.here.frameSize = (u.tree.scope s.current).frameSize := by
    rw [← hsu.current]
    exact hsu.here.frameSize.symm
  rw [hframe] at hu
  have hv := hu.defineFrameSize hdef
  have huv := IsGrowing.law.defineFrameSize _ _ _ _ hu.formed hdef
  refine hv.moved (hv.formed.parent_lt ?_) hv.target hv.writes
  rw [← hsu.current, ← huv.current]
  exact hv.formed.current_lt

/-! ### Loops -/

/-- An open loop owes the size of its frame and the labels of its exits. -/
theorem openLoop {f : LoopFrame} (h : s.Account q B may held) (hrun : Lower.openLoop s = .ok f t) :
    t.Account q B (f.exits.top :: f.done :: may)
      (.frame t.here.frameSize :: .label f.done :: .label f.exits.exit :: .label f.exits.next ::
        held) := by
  obtain ⟨top, next, exit, done, u₁, u₂, u₃, u₄, id, v, htop, hnext, hexit, hdone, hopen, rfl,
    rfl⟩ := openLoop_eq_ok hrun
  have hmade := (((h.mint htop).mint hnext).mint hexit).mint hdone
  have hv := ((hmade.front [_, _, _] rfl).wroteMute).openBlock hopen
  rw [State.here_withScope hv.formed]
  refine (hv.withScope { v.here with loop := some ⟨top, next, exit⟩ } rfl fun made hold hmay =>
    ?_).forget ?_
  · simp only [Scope.labels, List.cons_subset, List.append_subset] at hold hmay ⊢
    exact ⟨hold.1, hold.2.1, by simp [hmay]⟩
  · grind

/-- Closing a loop settles what it owes, but for the label of the next round, which is defined
before. -/
theorem closeLoop (hr : q.IsCounted T) {f : LoopFrame}
    (h : s.Account q B may
      (.frame s.here.frameSize :: .label f.done :: .label f.exits.exit :: held))
    (htop : f.exits.top ∈ may) (hrun : Lower.closeLoop f s = .ok a t) :
    t.Account q B may held := by
  obtain ⟨u, v, hexit, hclose, rfl⟩ := closeLoop_eq_ok hrun
  have hu :
      u.Account q B may (.frame s.here.frameSize :: .label f.done :: .label f.exits.exit :: held) :=
    Delivers.exitFrame hr _ _ h hexit
  rw [← (IsGrowing.law.exitFrame _ _ _ _ _ h.formed hexit).here.frameSize] at hu
  have hdone := ((hu.front [_] rfl).gather [_] (.past htop _)).wroteMute
  exact (hdone.closeBlock hr hclose).wroteMute

/-! ### Functions -/

/-- Declaring a function owes its entry, its end, and the place behind it. -/
theorem announce {params : List Param} {ret : ScalarType} {f : Signature} {skip : Label}
    (h : s.Account q B may held) (hrun : Lower.announce name params ret l s = .ok (f, skip) t) :
    t.Account q B (skip :: f.returnLabel :: f.entry :: may)
      (.label skip :: .label f.returnLabel :: .label f.entry :: held) := by
  obtain ⟨entry, u₁, hentry, h₁⟩ := bind_eq_ok.1 hrun
  obtain ⟨returnLabel, u₂, hreturn, h₂⟩ := bind_eq_ok.1 h₁
  obtain ⟨sc, u₃, hsc, h₃⟩ := bind_eq_ok.1 h₂
  obtain ⟨rfl, rfl⟩ := scope_eq_ok.1 hsc
  obtain ⟨sc, u₄, hdecl, h₄⟩ := bind_eq_ok.1 h₃
  obtain ⟨hdecl', rfl⟩ := accepted_eq_ok.1 hdecl
  obtain ⟨-, rfl⟩ := Scope.declareFunction_eq_ok.1 hdecl'
  obtain ⟨_, u₅, hset, h₅⟩ := bind_eq_ok.1 h₄
  obtain rfl := setScope_eq_ok.1 hset
  obtain ⟨skip', u₆, hskip, h₆⟩ := bind_eq_ok.1 h₅
  obtain ⟨hpair, rfl⟩ := pure_eq_ok.1 h₆
  obtain ⟨rfl, rfl⟩ := Prod.mk.inj hpair
  have hmade := (h.mint hentry).mint hreturn
  refine (hmade.withScope
    { u₄.here with functions := u₄.here.functions ++ [⟨name, ret, params, entry, returnLabel⟩] } rfl
    fun made hold hmay => ?_).mint hskip
  simp only [Scope.labels, List.flatMap_append, List.cons_subset, List.append_subset] at hold hmay ⊢
  exact ⟨hold.1, ⟨⟨hold.2.1.1, by simp [hmay]⟩, hold.2.1.2⟩, hold.2.2⟩

/-- The body of a function is written to the section of functions. -/
theorem openBody {f : Signature} {exit : FunctionExit} (h : s.Account q B may held)
    (hreturn : f.returnLabel ∈ may) (hrun : Lower.openBody f s = .ok exit t) :
    t.Account q { B with place := .functions } (t.here.frameSize :: may)
      (.frame t.here.frameSize :: ⟨Convention.blockPrologue t.here.frameSize, []⟩ :: held) := by
  obtain ⟨rfl, rfl⟩ := openBody_eq_ok hrun
  have hin := (h.entered rfl).moved (h.entered rfl).formed.current_lt
    (rfl : Section.functions = _) nofun
  rw [State.here_withScope hin.formed]
  refine hin.withScope _ (congrArg Scope.parent (State.here_entered s _)).symm fun made _ hmay => ?_
  obtain ⟨hl, hmay⟩ := List.cons_subset.1 hmay
  simp [Scope.labels, Scope.fresh, hl, hmay hreturn]

/-- An open function owes its end, the place behind it, and the size of its frame. -/
theorem openFunction (hr : q.IsCounted T) (hname : T name) {params : List Param} {ret : ScalarType}
    {g : FunctionFrame} (h : s.Account q B may held)
    (hrun : Lower.openFunction name params ret l s = .ok g t) :
    t.Account q { B with place := .functions } may
      (.frame t.here.frameSize :: .label g.skip :: .label g.exit.returnLabel :: held) ∧
      g.target = B.place := by
  obtain ⟨f, skip, u, exit, v, note, copies, w, hannounce, hopen, hnote, hcopies, rfl, rfl⟩ :=
    openFunction_eq_ok hrun
  have hu := h.announce hannounce
  have hv := hu.openBody (List.mem_cons_of_mem _ List.mem_cons_self) hopen
  obtain ⟨hstill, hdull⟩ := Idles.bindParams (q := q) l 0 params hv.formed hcopies
  have hw := hv.still hstill
  rw [← (IsGrowing.bindParams l 0 params _ _ _ hv.formed hcopies).here.frameSize] at hw
  rw [(openBody_eq_ok hopen).1]
  refine ⟨?_, hu.target⟩
  -- the entry and the prologue are written, and the rest is held
  have hready := (hw.front [_, _, _, _] rfl).front [_, _] rfl
  have hskip : skip ∈ w.here.frameSize :: skip :: f.returnLabel :: f.entry :: may :=
    List.mem_cons_of_mem _ List.mem_cons_self
  have hnote := (Idles.remark (hr.defined hname) hv.formed hnote).2
  have hcode :=
    (((Parcel.Gathers.dull hnote).behind (.past hskip f.entry)).behind
      (.prologue w.here.frameSize)).behind (.dull hdull)
  exact (hready.gather [_, _] hcode).wroteMute.forget (by grind)

/-- Closing a function settles what it owes. -/
theorem closeFunction {g : FunctionFrame}
    (h : s.Account q { B with place := .functions } may
      (.frame s.here.frameSize :: .label g.skip :: .label g.exit.returnLabel :: held))
    (hscope : g.scope = s.current) (houter : g.outer < s.tree.size) (htarget : g.target = B.place)
    (hwrites : ∀ first ∈ B.first, B.place ≠ .data) (hrun : Lower.closeFunction name g s = .ok a t) :
    t.Account q B may held := by
  obtain ⟨code, result, bytes, hfetch, -, rfl, rfl⟩ := closeFunction_eq_ok hrun
  rw [hscope]
  have hresult := (Idles.fetchResult (q := q) g.exit h.formed hfetch).2
  have hcounted := h.counted (s.session.recordFunction name) rfl rfl
    (Feature.counted_recordFunction _ name) .functionEpilogue rfl (List.nil_subset _) rfl
  have hready := (hcounted.front [_] rfl).front [_, _] rfl
  have hend : Parcel.Gathers q may [.label g.skip, .frame s.here.frameSize,
      ⟨Convention.functionEpilogue, []⟩]
      ⟨Convention.functionEpilogue ++ [.constant s.here.frameSize bytes, .label g.skip], []⟩ :=
    .behind (.behind (.one _) (.sized _ bytes)) (.one (.label g.skip))
  have hcode :=
    ((Parcel.Gathers.one (.label g.exit.returnLabel)).behind (.dull hresult)).behind hend
  exact ((hready.gather [_, _, _, _] hcode).wroteMute).moved houter htarget hwrites

end State.Account

/-! ### The function around a statement -/

namespace State

theorem result?_around (s : State) :
    s.context.result? = ((s.tree.around s.current).findSome? (·.function)).map (·.ret) := by
  rw [result?_context, ← ScopeTree.map_lookupFunctionExit, Option.map_map]
  rfl

/-- Growth stays in the same function. -/
theorem Grows.result? (h : s.Grows t) (hs : s.Formed) : t.context.result? = s.context.result? := by
  rw [result?_around, result?_around, h.around hs, hs.around_eq_cons, List.tail_cons,
    List.findSome?_cons, List.findSome?_cons, h.here.function]

/-- A new scope belongs to the same function, unless it is the scope of a function itself. -/
theorem Inner.result? (h : s.Inner t) (hs : s.Formed) :
    t.context.result? = (t.here.function.map (·.ret)).or s.context.result? := by
  rw [result?_around, result?_around, h.around hs, List.findSome?_cons]
  cases t.here.function <;> rfl

end State

namespace Lower

theorem openBlock_result? {id : ScopeId} (hs : s.Formed) (h : openBlock s = .ok id t) :
    t.context.result? = s.context.result? := by
  have hin := (openBlock_inner hs h).1
  obtain ⟨-, rfl⟩ := openBlock_eq_ok.1 h
  rw [hin.result? hs, State.here_entered]
  rfl

theorem openLoop_result? {g : LoopFrame} (hs : s.Formed) (h : openLoop s = .ok g t) :
    t.context.result? = s.context.result? := by
  have hin := (openLoop_inner hs h).1
  obtain ⟨top, next, exit, done, u₁, u₂, u₃, u₄, id, v, htop, hnext, hexit, hdone, hopen, -, rfl⟩ :=
    openLoop_eq_ok h
  have hu₁ := IsQuiet.mintLabel _ _ _ _ hs htop
  have hu₂ := hu₁.trans (IsQuiet.mintLabel _ _ _ _ (hu₁.formed hs) hnext)
  have hu₃ := hu₂.trans (IsQuiet.mintLabel _ _ _ _ (hu₂.formed hs) hexit)
  have hu₄ := hu₃.trans (IsQuiet.mintLabel _ _ _ _ (hu₃.formed hs) hdone)
  have hv := (openBlock_inner ((hu₄.formed hs).wrote _) hopen).1.formed
  obtain ⟨-, rfl⟩ := openBlock_eq_ok.1 hopen
  rw [hin.result? hs, State.here_withScope hv, State.here_entered]
  rfl

theorem openFunction_result? {params : List Param} {ret : ScalarType} {g : FunctionFrame}
    (hs : s.Formed) (h : openFunction name params ret l s = .ok g t) :
    t.context.result? = some ret := by
  obtain ⟨f, skip, u, exit, v, note, copies, w, hannounce, hopen, -, hcopies, -, rfl⟩ :=
    openFunction_eq_ok h
  have hu := IsGrowing.announce _ _ _ _ _ _ _ hs hannounce
  have hv := openBody_inner hu.formed hopen
  have hw := IsGrowing.bindParams l 0 params _ _ _ hv.formed hcopies
  rw [(State.Grows.wrote hw.formed _).result? hw.formed, hw.result? hv.formed, hv.result? hu.formed]
  obtain ⟨rfl, -⟩ := announce_eq_ok hannounce
  obtain ⟨rfl, rfl⟩ := openBody_eq_ok hopen
  rw [State.here_withScope ((State.Inner.entered hu.formed _).formed.targeted .functions)]
  rfl

end Lower

/-! ### Statements -/

variable {result : Option ScalarType} {place : Section} {d e : Draft}

/-- In a function that returns `result`, and where code goes to `place`, whoever holds the parcels
`ps` and runs the action has written code that loads the strings of the draft. -/
def Lower.Draws (x : Lower α) (q : Feature) (may : List Label) (ps : List Parcel)
    (result : Option ScalarType) (place : Section) (d : Draft) : Prop :=
  ∀ ⦃s : State⦄ ⦃a : α⦄ ⦃t : State⦄ ⦃B : Books⦄ ⦃held : List Parcel⦄,
    s.Account q B may (ps ++ held) →
    s.context.result? = result → B.place = place → (Parcel.join held).texts = [] → x s = .ok a t →
      t.Account q (B.after d) may held

theorem Lower.Spends.draws (hx : x.Spends q may ps us) :
    x.Draws q may ps result place (.load place us) := by
  intro s a t B held hs _ hplace hmute h
  subst hplace
  exact hx hs hmute h

theorem Lower.Delivers.draws (hx : x.Delivers q may ps fun _ => []) :
    x.Draws q may ps result place .nothing := by
  intro s a t B held hs _ _ _ h
  rw [Books.after_nothing]
  exact hx hs h

namespace Lower.Draws

open Parcel.Gathers

theorem reject (c : Cause) (l : Location) :
    (Lower.reject c l : Lower α).Draws q may ps result place d :=
  fun _ _ _ _ _ _ _ _ _ h => (reject_eq_ok.1 h).elim

/-- One thing after another.  What is held for the second may not load a string. -/
theorem bind (hps : (Parcel.join ps).texts = []) (hg : x.IsGrowing)
    (hx : x.Draws q may [] result place d)
    (hf : ∀ a, (f a).Draws q may ps result place e) :
    (x >>= f).Draws q may ps result place (d.andThen e) := by
  intro s b t B held hs hresult hplace hmute h
  obtain ⟨a, u, hxa, hfa⟩ := bind_eq_ok.1 h
  have hgrows := hg s a u hs.formed hxa
  have hmute' : (Parcel.join (ps ++ held)).texts = [] := by
    rw [Parcel.texts_join_append, hmute, hps, List.append_nil]
  rw [← B.after_andThen]
  exact hf a (hx hs hresult hplace hmute' hxa) ((hgrows.result? hs.formed).trans hresult) hplace
    hmute hfa

/-- What loads nothing may follow. -/
theorem hush (hx : x.Draws q may ps result place d)
    (hf : ∀ a, (f a).Delivers q may [] fun _ => []) : (x >>= f).Draws q may ps result place d := by
  intro s b t B held hs hresult hplace hmute h
  obtain ⟨a, u, hxa, hfa⟩ := bind_eq_ok.1 h
  exact hf a (hx hs hresult hplace hmute hxa) hfa

/-- What loads nothing may come first. -/
theorem after {code : α → List Parcel} (hg : x.IsGrowing) (hx : x.Delivers q may ps code)
    (hf : ∀ a, (f a).Draws q may (code a) result place d) :
    (x >>= f).Draws q may ps result place d := by
  intro s b t B held hs hresult hplace hmute h
  obtain ⟨a, u, hxa, hfa⟩ := bind_eq_ok.1 h
  exact hf a (hx hs hxa) (((hg s a u hs.formed hxa).result? hs.formed).trans hresult) hplace
    hmute hfa

theorem mintLabel {hint : String} {g : Label → Lower β}
    (hf : ∀ l, (g l).Draws q (l :: may) (.label l :: ps) result place d) :
    (Lower.mintLabel hint >>= g).Draws q may ps result place d := by
  intro s b t B held hs hresult hplace hmute h
  obtain ⟨l, u, hl, hrest⟩ := bind_eq_ok.1 h
  have hgrows := (IsQuiet.mintLabel hint).growing s l u hs.formed hl
  have hu := hf l (hs.mint hl) ((hgrows.result? hs.formed).trans hresult) hplace hmute hrest
  exact hu.forget (List.subset_cons_self _ _)

theorem block (hr : q.IsCounted T) (hg : body.IsGrowing)
    (hbody : body.Draws q may [] result place d) :
    (Lower.block body).Draws q may [] result place d := by
  intro s a t B held hs hresult hplace hmute h
  obtain ⟨id, u, hopen, h₁⟩ := bind_eq_ok.1 h
  obtain ⟨jumped, v, hrun, hclose⟩ := bind_eq_ok.1 h₁
  have hu := hs.openBlock hopen
  have hmute' : (Parcel.join (.frame u.here.frameSize :: held)).texts = [] :=
    (List.append_nil _).trans hmute
  have hv := hbody hu ((openBlock_result? hs.formed hopen).trans hresult) hplace hmute' hrun
  rw [← (hg _ _ _ hu.formed hrun).here.frameSize] at hv
  exact hv.closeBlock hr hclose

theorem guarded (hr : q.IsCounted T) {target : Label} (htarget : target ∈ may) (l : Location)
    (hg : condition.IsGrowing) (hc : condition.Delivers q may [] fun v => [⟨v.code, us⟩])
    (hgbody : body.IsGrowing) (hbody : body.Draws q may [] result place d) :
    (Lower.guarded target l condition body).Draws q may [] result place
    ((Draft.load place us).andThen d) :=
  bind rfl (IsGrowing.law.branchUnless target l hg) (Spends.branchUnless htarget l hc).draws
      fun _ =>
    hbody.block hr hgbody

theorem loop (hr : q.IsCounted T) (may : List Label) (l : Location) (hg : condition.IsGrowing)
    (hc : ∀ may, condition.Delivers q may [] fun v => [⟨v.code, us⟩]) {post : Lower Bool}
    (hgbody : body.IsGrowing)
    (hbody : ∀ may, body.Draws q may [] result place d) (hgpost : post.IsGrowing)
    (hpost : ∀ may, post.Draws q may [] result place e) :
    (Lower.loop l condition body post).Draws q may [] result place
    ((Draft.load place us).andThen (d.andThen e)) := by
  intro s a t B held hs hresult hplace hmute h
  obtain ⟨f, u, v, _, w, _, x, hopen, hbranch, hrun, hstep, hclose⟩ := loop_eq_ok h
  have hu := hs.openLoop hopen
  have hgv := IsGrowing.law.branchUnless f.done l hg _ _ _ hu.formed hbranch
  have hgw := hgv.trans (hgbody _ _ _ hgv.formed hrun)
  have hgn := hgw.trans (.wrote hgw.formed [.label f.exits.next])
  have hgx := hgn.trans (hgpost _ _ _ hgn.formed hstep)
  have hr₀ := (openLoop_result? hs.formed hopen).trans hresult
  have hmute' (ls : List Label) :
      (Parcel.join (.frame u.here.frameSize :: (ls.map Parcel.label ++ held))).texts = [] := by
    induction ls with
    | nil => exact (List.append_nil _).trans hmute
    | cons l ls ih => exact (List.append_nil _).trans ih
  have hv := Spends.branchUnless (List.mem_cons_of_mem _ List.mem_cons_self) l (hc _) hu
    (hmute' [_, _, _]) hbranch
  have hw := hbody _ hv ((hgv.result? hu.formed).trans hr₀) hplace (hmute' [_, _, _]) hrun
  have hnext := (hw.front [_, _, _] rfl).wroteMute
  have hx := hpost _ hnext ((hgn.result? hu.formed).trans hr₀) hplace (hmute' [_, _]) hstep
  rw [← hgx.here.frameSize] at hx
  have ht := hx.closeLoop hr List.mem_cons_self hclose
  rw [← hplace, ← B.after_andThen, ← Books.after_andThen]
  exact ht.forget fun _ hl => List.mem_cons_of_mem _ (List.mem_cons_of_mem _ hl)

/-- A return loads the strings of its value, which is of the type that the function around it
returns. -/
theorem leaveFunction (hr : q.IsCounted T) (l : Location) {texts : ScalarType → List String}
    (hvalue : ∀ ty may, (value ty).Delivers q may [] fun v => [⟨v.code, texts ty⟩]) :
    (Lower.leaveFunction l value).Draws q may [] result place
      (match result with
      | some ty => .load place (texts ty)
      | none => .nothing) := by
  intro s a t B held hs hresult hplace hmute h
  subst hplace
  rw [State.result?_context] at hresult
  have hrun := get_bind_eq_ok.1 h
  cases hexit : s.tree.lookupFunctionExit s.current with
  | none =>
    rw [hexit] at hrun
    exact (reject_eq_ok.1 hrun).elim
  | some x =>
    rw [hexit] at hrun hresult
    obtain rfl := hresult
    obtain ⟨hpath, hm, -⟩ := ScopeTree.lookupFunctionExit_eq_some hexit
    have hlabel := hs.allow fun _ _ _ hmade => hmade.exit_label (hmade.lt_of_path hpath) hm
    refine State.Account.forget ((?_ : Spends _ q _ [] (texts x.2.ret)) hlabel hmute hrun)
      (List.subset_cons_self _ _)
    exact .adds (hvalue _ _) fun v => .read fun u => .bind (.ownedResult hr v _) fun code =>
      .after (.resultCode _ _) fun final hfinal =>
          .hush (.emit ((one _).behind (dull hfinal))) fun _ =>
        .bind (.unwind hr _ _) fun _ => .bind (.sweep hr _ _) fun _ =>
          .emit (toward List.mem_cons_self rfl rfl rfl rfl)

/-! ### Functions -/

/-- A function loads the strings of its body in the section of functions. -/
theorem defineFunction (hr : q.IsCounted T) (hname : T name) (params : List Param)
    (ret : ScalarType) (l : Location)
    {body : FunctionExit → Lower Unit} (hg : ∀ exit, (body exit).IsGrowing)
    (hbody : ∀ exit, (body exit).Draws q may [] (some ret) .functions d) :
    (Lower.defineFunction name params ret l body).Draws q may [] result place d := by
  intro s a t B held hs _ _ hmute h
  obtain ⟨g, v, hopen, h₁⟩ := bind_eq_ok.1 h
  obtain ⟨_, w, hrun, hclose⟩ := bind_eq_ok.1 h₁
  obtain ⟨u, hu, hin, hscope, houter, -⟩ := openFunction_inner hs.formed hopen
  obtain ⟨hv, htarget⟩ := State.Account.openFunction hr hname hs hopen
  have hmute' : (Parcel.join
      (.frame v.here.frameSize :: .label g.skip :: .label g.exit.returnLabel :: held)).texts = [] :=
    congrArg (· ++ [] ++ [] ++ []) hmute
  have hw := hbody _ hv (openFunction_result? hs.formed hopen) rfl hmute' hrun
  have hgrows := hg _ _ _ _ hv.formed hrun
  rw [← hgrows.here.frameSize] at hw
  have hlt : g.outer < w.tree.size := by
    rw [houter]
    exact Nat.lt_of_lt_of_le (Nat.lt_trans hu.formed.current_lt hin.size_lt) hgrows.size
  exact State.Account.closeFunction (B := B.after d) hw (hscope.trans hgrows.current.symm) hlt
    htarget hs.writes hclose

/-- The statements of a function, and the return behind them unless they jump away. -/
theorem functionBody (hr : q.IsCounted T) (l : Location) {statements : Lower Bool} {jumped : Bool}
    {ret : ScalarType} (hg : statements.IsGrowing)
    (hs : statements.Draws q may [] (some ret) .functions d)
    (hjumped : ∀ s b t, statements s = .ok b t → b = jumped) (exit : FunctionExit) :
    (Lower.functionBody l statements exit).Draws q may [] (some ret) .functions
      (d.andThen (if jumped then .nothing else .load .functions ret.zero.texts)) := by
  intro s a t B held hheld hresult hplace hmute h
  obtain ⟨b, u, hrun, hrest⟩ := bind_eq_ok.1 h
  obtain rfl := hjumped s b u hrun
  have hgrows := hg s b u hheld.formed hrun
  have hu := hs hheld hresult hplace hmute hrun
  have hresult := (hgrows.result? hheld.formed).trans hresult
  rw [← B.after_andThen]
  cases b with
  | true => exact (Delivers.still ()).draws hu hresult hplace hmute hrest
  | false =>
    have hreturn :
        (Lower.leaveFunction l fun ty => Lower.literal ty.zero).Draws q may [] (some ret) .functions
        (.load .functions ret.zero.texts) :=
        leaveFunction hr l fun ty _ => .literal hr.toRemarks ty.zero
    exact hreturn hu hresult hplace hmute hrest

end Lower.Draws

/-! ### The library -/

/-- The strings that a function of the library asks for. -/
def Primitive.texts : Primitive → List String
  | out => ["\n"]
  | _ => []

namespace Lower.Delivers

open Primitive Parcel.Gathers

variable {y : Body α} {g : α → Body β} {code : α → List Parcel} {code' : β → List Parcel}

/-- What a body delivers in two steps. -/
theorem lifted (h : (Body.lift y >>= fun a => Body.lift (g a)).Delivers q may ps code') :
    (Body.lift (y >>= g)).Delivers q may ps code' := by
  intro s b t B held hs hrun
  obtain ⟨a, u, hya, hga⟩ := Body.lift_bind_eq_ok hrun
  exact h hs (bind_eq_ok.2 ⟨a, u, hya, hga⟩)

theorem argument {args : List Mem} {index : Nat} {g : Mem → Body β}
    (hg : ∀ m, (Body.lift (g m)).Delivers q may ps code') :
    (Body.lift (argument args index >>= g)).Delivers q may ps code' := by
  refine lifted ?_
  rw [lift_argument]
  exact after (.checked _) fun m _ => hg m

theorem measure (src : Mem) : (Body.lift (measure src)).Delivers q may [] fun c => [⟨c, []⟩] := by
  refine lifted (mintLabel fun top =>
    lifted (mintLabel fun done => pure (lines rfl rfl (.refl _) ?_ rfl rfl)))
  exact List.cons_subset.2 ⟨List.mem_cons_self,
    List.cons_subset.2 ⟨List.mem_cons_of_mem _ List.mem_cons_self, List.nil_subset _⟩⟩

/-- The functions of the library call no function and release nothing. -/
theorem primitive (hq : q ≠ .system) (p : Primitive) (args : List Mem) :
    (Body.lift (p.body args)).Delivers q may [] fun code => [⟨code, p.texts⟩] := by
  have hquiet {may : List Label} {c : Code} (hc : Code.Shows q c 0) (hdefines : Code.defines c = [])
      (hrefers : Code.refers c = []) : Parcel.Gathers q may [] ⟨c, []⟩ :=
    silent hc hdefines (hrefers ▸ List.nil_subset _) (Code.loads_eq_nil hrefers)
  have hmap {may : List Label} : Parcel.Gathers q may [] ⟨map, []⟩ :=
    hquiet (by cases q <;> first | exact ⟨nofun, rfl⟩ | exact absurd rfl hq) rfl rfl
  have hplain {may : List Label} {c : Code} (hc : c.all Line.isPlain = true) :
      Parcel.Gathers q may [] ⟨c, []⟩ := dull (.plain hc)
  cases p with
  | len => exact argument fun s => measure s
  | append =>
    refine argument fun a => argument fun b => lifted (adds (measure a) fun first =>
      lifted (adds (measure b) fun second => pure ?_))
    exact
      ((((((((((one _).behind (hplain rfl)).behind (one _)).behind (hplain rfl)).behind hmap).behind
        (hplain rfl)).behind (hplain rfl)).behind (hplain rfl)).behind (hplain rfl)).behind
        (hplain rfl)).behind (hplain rfl)
  | slice =>
    refine argument fun s => argument fun start => argument fun stop =>
      lifted (mintLabel fun counted => pure ?_)
    have hstart : Parcel.Gathers q (counted :: may) [.label counted]
        ⟨[mov ecx stop, sub ecx start, test ecx ecx,
          jcc .ge counted, xor ecx ecx, .label counted, push ecx, inc ecx, push ecx], []⟩ :=
      lines rfl rfl (.refl _) (List.cons_subset.2 ⟨List.mem_cons_self, List.nil_subset _⟩) rfl rfl
    exact ((((hstart.behind hmap).behind (hplain rfl)).behind (hplain rfl)).behind
      (hplain rfl)).behind (hplain rfl)
  | syscall =>
    exact argument fun _ => argument fun _ => argument fun _ => argument fun _ => pure
      (hquiet (by cases q <;> first | exact ⟨nofun, rfl⟩ | exact absurd rfl hq) rfl rfl)
  | key =>
    exact pure (hquiet (by cases q <;> first | exact ⟨nofun, rfl⟩ | exact absurd rfl hq) rfl rfl)
  | out =>
    refine argument fun s => lifted (place fun newline => lifted (adds (measure s) fun length =>
      perm (.swap _ _ _) rfl (pure ?_)))
    have hwrite : Parcel.Gathers q may [⟨[mov eax newline], ["\n"]⟩]
        ⟨[push eax, mov edx eax, mov ecx s, mov ebx 1,
          mov eax (.imm Convention.sysWrite), kernel, mov edx 1, mov ecx newline, mov ebx 1,
          mov eax (.imm Convention.sysWrite), kernel, pop eax, inc eax], ["\n"]⟩ :=
      ⟨.refl _, List.subset_append_right _ _, rfl, rfl, fun _ => by
        cases q <;> first | exact ⟨nofun, rfl⟩ | exact absurd rfl hq⟩
    exact (one _).append hwrite
  | dup =>
    refine argument fun s => lifted (adds (measure s) fun length => pure ?_)
    exact (((((one _).behind (hplain rfl)).behind hmap).behind (hplain rfl)).behind
      (hplain rfl)).behind (hplain rfl)

end Lower.Delivers

theorem Lower.Spends.primitiveBody (hq : q ≠ .system) (p : Primitive) (exit : FunctionExit) :
    (Lower.primitiveBody p exit).Spends q may [] p.texts := by
  rw [primitiveBody_eq]
  exact .after (.paramOperands _) fun args _ => .adds (.primitive hq p args) fun code =>
    .after (.resultCode 0 exit) fun _ hresult =>
      .emit ((Parcel.Gathers.one _).behind (.dull hresult))

theorem Lower.Draws.forM {g : β → Lower PUnit} {d : β → Draft} (hg : ∀ b, (g b).IsGrowing)
    (hd : ∀ b, (g b).Draws q may [] result place (d b)) :
    ∀ bs : List β, (bs.forM g).Draws q may [] result place
    (bs.foldr (fun b rest => (d b).andThen rest) .nothing)
  | [] => (Delivers.still PUnit.unit).draws
  | b :: bs => .bind rfl (hg b) (hd b) fun _ => forM hg hd bs

/-- The library asks for the line break. -/
theorem Lower.Draws.registerLibrary (hr : q.IsCounted T) :
    Lower.registerLibrary.Draws q may [] result place (.load .functions ["\n"]) := by
  have hgrows (p : Primitive) := IsGrowing.law.primitiveBody p
  have hfunctions (p : Primitive) :
      (Lower.defineFunction p.name p.params p.ret .internal (Lower.primitiveBody p)).Draws
      q may [] result place (.load .functions p.texts) :=
    .defineFunction hr (hr.library p) _ _ _ (hgrows p) fun exit =>
      (Spends.primitiveBody hr.counted p exit).draws
  exact (forM (fun p => .defineFunction _ _ _ _ (hgrows p)) hfunctions Primitive.all).hush fun _ =>
    .quiet (.tell _)

/-! ### Going through a program -/

theorem Draft.andThen_assoc (d e f : Draft) :
    (d.andThen e).andThen f = d.andThen (e.andThen f) := by
  funext included
  simp only [Draft.andThen, List.append_assoc]

theorem Draft.andThen_nothing (d : Draft) : d.andThen .nothing = d := by
  funext included
  simp only [Draft.andThen, Draft.nothing, List.append_nil]

/-- A statement tells whether it jumps away. -/
theorem Node.execute_jumped (n : Node) (s : State) (b : Bool) (t : State)
    (h : n.execute s = .ok b t) : b = n.jumps := by
  have hend : ∀ {α : Type} {x : Lower α} {u : State} {r : Bool},
      (x >>= fun _ => pure r) u = .ok b t → b = r := by
    intro α x u r h
    obtain ⟨_, v, -, hr⟩ := bind_eq_ok.1 h
    exact (pure_eq_ok.1 hr).1
  obtain ⟨form, l⟩ := n
  cases form <;> unfold Node.execute at h
  case conditional condition body otherwise =>
    obtain ⟨exit, u₁, -, h₁⟩ := bind_eq_ok.1 h
    obtain ⟨next, u₂, -, h₂⟩ := bind_eq_ok.1 h₁
    obtain ⟨_, u₃, -, h₃⟩ := bind_eq_ok.1 h₂
    exact hend h₃
  case included path program =>
    obtain ⟨new, u, -, h₁⟩ := bind_eq_ok.1 h
    split at h₁
    · obtain ⟨note, u₁, -, h₂⟩ := bind_eq_ok.1 h₁
      obtain ⟨_, u₂, -, h₃⟩ := bind_eq_ok.1 h₂
      exact hend h₃
    · exact hend h₁
  case call name args =>
    obtain ⟨v, u, -, h₁⟩ := bind_eq_ok.1 h
    exact hend h₁
  case step name op fixity =>
    obtain ⟨v, u, -, h₁⟩ := bind_eq_ok.1 h
    exact hend h₁
  all_goals first | exact hend h | exact (reject_eq_ok.1 h).elim

theorem Node.executeAll_jumped (ns : List Node) (s : State) (b : Bool) (t : State)
    (h : Node.executeAll false ns s = .ok b t) : b = Node.jumpsAll ns := by
  have hlast :
      ∀ (ns : List Node) (jumped : Bool) (s : State), Node.executeAll jumped ns s = .ok b t →
      b = (ns.getLast?.map Node.jumps).getD jumped := by
    intro ns
    induction ns with
    | nil =>
      intro jumped s h
      unfold Node.executeAll at h
      exact (pure_eq_ok.1 h).1
    | cons n ns ih =>
      intro jumped s h
      unfold Node.executeAll at h
      obtain ⟨c, u, hn, hrest⟩ := bind_eq_ok.1 h
      obtain rfl := Node.execute_jumped n s c u hn
      rw [ih _ u hrest, List.getLast?_cons]
      cases ns.getLast? <;> rfl
  rw [hlast ns false s h]
  unfold Node.jumpsAll
  cases ns.getLast? <;> rfl

/-- The code of a value that a variable lends is dull, and it asks for nothing. -/
theorem Node.evaluate_lent {value : Node} {v : Lowered} {id : ReclaimId} (hs : s.Formed)
    (h : value.evaluate s = .ok v t) (hv : v.ownership = .borrowed id) :
    v.code.IsDull q ∧ value.texts = [] := by
  obtain ⟨name, l, rfl⟩ := Node.eq_var_of_borrowed hs h hv
  unfold Node.evaluate at h
  exact ⟨(Idles.readVariable name l hs h).2, by unfold Node.texts; rfl⟩

/-- What has to be defined behind the block of a conditional. -/
def Otherwise.parcels (exit next : Label) : Otherwise → List Parcel
  | .absent => [.label exit]
  | _ => [.label next, .label exit]

theorem Otherwise.texts_parcels (exit next : Label) (o : Otherwise) :
    (Parcel.join (o.parcels exit next)).texts = [] := by
  cases o <;> rfl

theorem Otherwise.label_draws {exit : Label} (hexit : exit ∈ may) (o : Otherwise)
    {f : Label → Lower β}
    (hf : ∀ next, (f next).Draws q (next :: may) (o.parcels exit next) result place d) :
    (o.label exit >>= f).Draws q may [.label exit] result place d := by
  cases o with
  | absent =>
    intro s b t B held hs hresult hplace hmute h
    have hallowed := hs.forget (List.cons_subset.2 ⟨hexit, fun _ => id⟩)
    exact (hf exit hallowed hresult hplace hmute h).forget (List.subset_cons_self _ _)
  | chained n => exact .mintLabel hf
  | block body => exact .mintLabel hf

/-- Between two branches control goes to the end, and another way leads to the next branch. -/
theorem Otherwise.jump_delivers {exit next : Label} (hexit : exit ∈ may) :
    (emit [jmp exit, .label next]).Delivers q may [.label next, .label exit] fun _ =>
    [.label exit] := by
  intro s a t B held hs h
  obtain rfl := emit_eq_ok.1 h
  exact (hs.gather [_] (.past hexit next)).wroteMute

theorem Lower.Draws.branches (hr : q.IsCounted T) {exit : Label} (hexit : exit ∈ may)
    {condition : Node} {otherwise : Otherwise} (hnames : ∀ name ∈ condition.names, T name)
    (hgbody : body.IsGrowing)
    (hbody : ∀ may, body.Draws q may [] result place d) {f : Label → Unit → Lower β}
    (hf : ∀ next, (f next ()).Draws q (next :: may) (otherwise.parcels exit next) result place e) :
    (otherwise.label exit >>= fun next =>
      Lower.guarded next condition.location condition.evaluate body >>= f next).Draws q may
          [.label exit] result place
          ((Draft.load place condition.texts).andThen (d.andThen e)) := by
  have hgcondition := condition.evaluate_quiet.growing
  refine Otherwise.label_draws hexit otherwise fun next => ?_
  rw [← Draft.andThen_assoc]
  exact .bind (otherwise.texts_parcels exit next) (.guarded _ _ hgcondition hgbody)
    (.guarded hr List.mem_cons_self _
      hgcondition (Node.evaluate_delivers hr.toRemarks hnames _) hgbody (hbody _)) fun _ => hf next

/-- A file is compiled unless it was included before. -/
theorem Lower.Draws.markIncluded {path : String} (hx : x.Draws q may [] result place d)
    (hy : y.Delivers q may [] fun _ => []) : (Lower.withSession (·.markIncluded path) >>= fun new =>
      if new then x else y).Draws q may [] result place (.file path d) := by
  intro s a t B held hs hresult hplace hmute h
  obtain ⟨new, u, hmark, hrest⟩ := bind_eq_ok.1 h
  have hgrows := IsGrowing.markIncluded path s new u hs.formed hmark
  obtain ⟨hnew, hu⟩ := withSession_eq_ok.1 hmark
  unfold Session.markIncluded at hnew hu
  rw [hs.included] at hnew hu
  by_cases hold : B.files.contains path = true
  · rw [if_pos hold] at hnew hu
    obtain rfl := hnew
    obtain rfl := hu
    have hfile : B.after (.file path d) = B := by
      unfold Books.after Draft.file
      rw [if_pos hold]
      exact B.after_nothing
    rw [hfile]
    exact hy hs hrest
  · rw [if_neg hold] at hnew hu
    obtain rfl := hnew
    obtain rfl := hu
    have hfile : B.after (.file path d) = { B with files := path :: B.files }.after d := by
      unfold Books.after Draft.file
      rw [if_neg hold]
    rw [hfile]
    refine hx ?_ ((hgrows.result? hs.formed).trans hresult) hplace hmute hrest
    exact
      { target := hs.target, writes := hs.writes, opens := hs.opens, supplied := hs.supplied
        formed := hgrows.formed
        included := rfl
        ahead := by cases q <;> exact hs.ahead
        labels := fun first hfirst =>
          let ⟨made, hmade, hallowed⟩ := hs.labels first hfirst
          ⟨made, hmade.withSession rfl, hallowed⟩ }

theorem Node.execute_drawsCases (hr : q.IsCounted T) :
    StatementCases
      (fun n => (∀ name ∈ n.names, T name) → ∀ may result place,
        n.execute.Draws q may [] result place (n.draft result place))
      (fun ns => (∀ name ∈ Node.namesAll ns, T name) → ∀ may result place jumped,
        (Node.executeAll jumped ns).Draws q may [] result place (Node.draftAll result place ns))
      (fun o => (∀ name ∈ o.names, T name) → ∀ may result place exit next, exit ∈ may →
        (o.execute exit next).Draws q may (o.parcels exit next) result place
        (o.draft result place)) where
  function {name params ret body l} hbody hnames may result place := by
    obtain ⟨hname, hnames⟩ := List.forall_mem_cons.1 hnames
    unfold Node.execute Node.draft
    exact .hush (.defineFunction hr hname _ _ _
      (IsGrowing.law.functionBody _ (Node.executeAll_grows _ _))
      (.functionBody hr l (Node.executeAll_grows _ _) (hbody hnames _ _ _ false)
        (Node.executeAll_jumped body))) fun _ => .still _
  declare {name ty value l} hnames may result place := by
    obtain ⟨hname, hnames⟩ := List.forall_mem_cons.1 hnames
    unfold Node.execute Node.draft
    exact (Spends.hush (.declare hr hname _ _ (Node.evaluateOr_delivers hr.toRemarks hnames ty may))
        fun _ =>
      .still _).draws
  assign {name value l} hnames may result place := by
    obtain ⟨hname, hnames⟩ := List.forall_mem_cons.1 hnames
    unfold Node.execute Node.draft
    refine (Spends.hush (.assign hr hname _
      (fun _ => .expect (Node.evaluate_delivers hr.toRemarks hnames may))
      fun ty s v t id hs h hv => ?_) fun _ => .still _).draws
    exact Node.evaluate_lent hs (expect_eq_ok.1 h).1 hv
  store {address value l} hnames may result place := by
    obtain ⟨ha, hv⟩ := List.forall_mem_append.1 hnames
    unfold Node.execute Node.draft
    exact (Spends.hush (.storeAt (Node.evaluate_delivers hr.toRemarks ha may)
      (Node.evaluate_delivers hr.toRemarks hv may) _) fun _ => .still _).draws
  conditional {condition body otherwise l} hbody hrest hnames may result place := by
    obtain ⟨hc, hnames⟩ := List.forall_mem_append.1 hnames
    obtain ⟨hb, ho⟩ := List.forall_mem_append.1 hnames
    unfold Node.execute Node.draft
    exact .mintLabel fun exit => .branches hr List.mem_cons_self hc (Node.executeAll_grows _ _)
      (fun may => hbody hb may _ _ false) fun next =>
        .hush (hrest ho _ _ _ exit next (List.mem_cons_of_mem _
          List.mem_cons_self)) fun _ => .still _
  whileLoop {condition body l} hbody hnames may result place := by
    obtain ⟨hc, hb⟩ := List.forall_mem_append.1 hnames
    unfold Node.execute Node.draft
    have hloop := Draws.loop hr may condition.location condition.evaluate_quiet.growing
      (Node.evaluate_delivers hr.toRemarks hc) (Node.executeAll_grows _ _)
      (fun may => hbody hb may result place false) (.pure _) fun may => (Delivers.still false).draws
    rw [Draft.andThen_nothing] at hloop
    exact hloop.hush fun _ => .still _
  forLoop {start condition step body l} hstart hstep hbody hnames may result place := by
    obtain ⟨hs, hnames⟩ := List.forall_mem_append.1 hnames
    obtain ⟨hc, hnames⟩ := List.forall_mem_append.1 hnames
    obtain ⟨hp, hb⟩ := List.forall_mem_append.1 hnames
    unfold Node.execute Node.draft
    have hgloop := IsGrowing.loop condition.location condition.evaluate_quiet.growing
      (Node.executeAll_grows false body) step.execute_grows
    have hloop := Draws.loop hr may condition.location condition.evaluate_quiet.growing
      (Node.evaluate_delivers hr.toRemarks hc) (Node.executeAll_grows _ _)
      (fun may => hbody hb may result place false)
      step.execute_grows fun may => hstep hp may result place
    exact .hush (.block hr (.bind start.execute_grows fun _ => .bind hgloop fun _ => .pure _)
      (.bind rfl start.execute_grows (hstart hs _ _ _) fun _ => hloop.hush fun _ => .still _))
      fun _ => .still _
  included {path program l} hprogram hnames may result place := by
    obtain ⟨hpath, hnames⟩ := List.forall_mem_cons.1 hnames
    unfold Node.execute Node.draft
    exact .markIncluded (.after (IsQuiet.remark _).growing (.idle (.remark (hr.included hpath)))
        fun _ =>
      .after (.emit _) (.emit (.one _)) fun _ => .hush (hprogram hnames _ _ _ false) fun _ =>
        .still _)
      (.bind (.quiet (.tell _)) fun _ => .still _)
  breakLoop {l} _ may result place := by
    unfold Node.execute Node.draft
    exact (Delivers.bind (.leaveLoop hr _) fun _ => .still _).draws
  continueLoop {l} _ may result place := by
    unfold Node.execute Node.draft
    exact (Delivers.bind (.nextRound hr _) fun _ => .still _).draws
  ret {value l} hnames may result place := by
    unfold Node.execute Node.draft
    exact .hush (.leaveFunction hr l fun ty => Node.evaluateOr_delivers hr.toRemarks hnames ty)
      fun _ => .still _
  call {name args l} hnames may result place := by
    have hcall := Node.evaluate_delivers (n := .mk (.call name args) l) hr.toRemarks hnames may
    unfold Node.texts at hcall
    unfold Node.execute Node.draft
    exact (Spends.adds hcall fun _ => .hush (.emit (.one _)) fun _ => .still _).draws
  step {name op fixity l} _ may result place := by
    unfold Node.execute Node.draft
    exact (Delivers.bind (.idle (.stepVariable _ _ _ _)) fun _ => .bind (.emit (.one _)) fun _ =>
      .still _).draws
  misplaced h _ may result place := by
    rw [Node.execute_misplaced h]
    exact .reject _ _
  nil _ may result place jumped := by
    unfold Node.executeAll Node.draftAll
    exact (Delivers.still _).draws
  cons {n ns} hn hns hnames may result place jumped := by
    obtain ⟨h₁, h₂⟩ := List.forall_mem_append.1 hnames
    unfold Node.executeAll Node.draftAll
    exact .bind rfl n.execute_grows (hn h₁ _ _ _) fun jumped => hns h₂ _ _ _ jumped
  absent _ may result place exit next _ := by
    unfold Otherwise.execute Otherwise.draft
    exact (Delivers.emit (.one _)).draws
  block {body} hbody hnames may result place exit next hexit := by
    unfold Otherwise.execute Otherwise.draft
    refine .after (.emit _) (Otherwise.jump_delivers hexit) fun _ => ?_
    have hblock : (Lower.block (Node.executeAll false body)).Draws q may [] result place
        (Node.draftAll result place body) :=
      .block hr (Node.executeAll_grows _ _) (hbody hnames _ _ _ false)
    have hend : (emit [.label exit]).Draws q may [.label exit] result place .nothing :=
      (Delivers.emit (.one _)).draws
    have hboth := Draws.bind rfl (IsGrowing.block (Node.executeAll_grows _ _)) hblock fun _ => hend
    rwa [Draft.andThen_nothing] at hboth
  chained {condition body otherwise l} hbody hrest hnames may result place exit next hexit := by
    obtain ⟨hc, hnames⟩ := List.forall_mem_append.1 hnames
    obtain ⟨hb, ho⟩ := List.forall_mem_append.1 hnames
    unfold Otherwise.execute Otherwise.draft Node.draft
    exact .after (.emit _) (Otherwise.jump_delivers hexit) fun _ =>
      .branches hr hexit hc (Node.executeAll_grows _ _)
      (fun may => hbody hb may _ _ false) fun next =>
      hrest ho _ _ _ exit next (List.mem_cons_of_mem _ hexit)
  misplacedElse h _ may result place exit next hexit := by
    rw [Otherwise.execute_misplaced h]
    intro s a t B held _ _ _ _ hrun
    obtain ⟨_, _, -, hreject⟩ := bind_eq_ok.1 hrun
    exact (reject_eq_ok.1 hreject).elim

/-- Compiling statements leaves nothing over. -/
theorem Node.executeAll_draws (hr : q.IsCounted T) (jumped : Bool) {ns : List Node}
    (hnames : ∀ name ∈ Node.namesAll ns, T name) (may : List Label) (result : Option ScalarType)
    (place : Section) :
    (Node.executeAll jumped ns).Draws q may [] result place (Node.draftAll result place ns) :=
  (Node.execute_drawsCases hr).list ns hnames may result place jumped

end KuAsm
