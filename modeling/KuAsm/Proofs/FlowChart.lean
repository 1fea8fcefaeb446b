import KuAsm.Proofs.StatementChart
import KuAsm.Proofs.Sweep

/-!
# Charts of blocks, branches and exits

A block leads into the frame of a new scope and out of it again.  Exits leave frames one by one, and
the jump at their end leads to a label at the spot reached by then: behind a loop, at the end of its
round, or at the end of the function.  The labels of branches and loops stand in the code of the
statement itself.

## Main statements

* `Lower.IsPlain.block`, `Lower.IsPlain.loop`: blocks and loops end where they begin.
* `leaveLoop_isStatement`, `nextRound_isStatement`, `leaveFunction_emits`: exits lead to the labels
  around them.
-/

namespace KuAsm

open Asm Reg Lower

variable {code : Code} {ls : List (Label × Spot)} {keep : List ReclaimId} {body : Lower Bool}
  {o : Otherwise} {m' : Spot} {es fs : State → List Event} {a : Unit}

/-- Some more labels are pending. -/
def pending (J : Label → Spot → Prop) (ls : List (Label × Spot)) (l : Label) (p : Spot) : Prop :=
  J l p ∨ (l, p) ∈ ls

section

variable {Γ : Ground} {J : Label → Spot → Prop} {F : ScopeId → List Slot} {s t : State}
  {i k : ScopeId}

/-- Labels that stand in the code are not pending any more. -/
theorem Emits.settle {m : Spot} {es : List Event} {ls' : List (Label × Spot)}
    (h : Emits Γ (pending J ls) s t m m' es ls') (hls : ∀ lp ∈ ls, lp ∈ ls') :
    Emits Γ J s t m m' es ls' :=
  h.close fun _ _ hl => hl.imp id (hls _)

/-- The line that is written next. -/
theorem Emits.emit {m : Spot} (hs : s.target ≠ .data)
    (h : ∀ base, Piece Γ J s.target base m code m' [] ls) : Emits Γ J s (s.wrote code) m m' [] ls :=
  .wrote hs (h _) fun _ hev => nomatch hev

/-! ### Sweeps -/

/-- Nothing but the session and the section at hand has changed. -/
def State.Wrote (s t : State) (code : Code) : Prop :=
  ∃ session, s.session.nextLabel ≤ session.nextLabel ∧ t = ({ s with session } : State).wrote code

theorem State.Wrote.refl (s : State) : s.Wrote s [] :=
  ⟨s.session, Nat.le_refl _, (State.wrote_nil s).symm⟩

theorem State.Wrote.settles (h : s.Wrote t code) (hs : Laid F s) : Settles F s F t := by
  obtain ⟨session, hlabels, rfl⟩ := h
  exact .congr hs rfl rfl rfl rfl hlabels

theorem State.Wrote.emits {m : Spot} (h : s.Wrote t code) (hs : s.target ≠ .data)
    (hpiece : ∀ base, Piece Γ J s.target base m code m' [] []) : Emits Γ J s t m m' [] [] := by
  obtain ⟨session, hlabels, rfl⟩ := h
  have hsilent : s.Silent { s with session } := ⟨rfl, rfl, rfl, fun _ hi _ hf => ⟨hi, hf⟩⟩
  exact (Emits.silent hsilent hs m).trans (Emits.emit (s := { s with session }) hs hpiece)

theorem State.Wrote.trans {u : State} {a b : Code} (h : s.Wrote u a) (k : u.Wrote t b) :
    s.Wrote t (a ++ b) := by
  obtain ⟨session, hlabels, rfl⟩ := h
  obtain ⟨session', hlabels', rfl⟩ := k
  exact ⟨session', Nat.le_trans hlabels hlabels',
    State.wrote_wrote { s with session := session' } a b⟩

/-- What is released are slots of the frame at hand. -/
theorem releaseAll_piece {es : List (ReclaimId × Staged)} (h : releaseAll keep es s = .ok code t) :
    (∃ session, s.session.nextLabel ≤ session.nextLabel ∧
      t = { s with session }) ∧ ∀ (Γ : Ground) i J x base, (Γ.tree.enclosing (some i))[0]? =
        some i → (∀ e ∈ es, ∀ y ∈ e.2.slots, y ∈ Γ.slots i) →
        Piece Γ J x base (.within i) code (.within i) [] [] := by
  induction es generalizing s code with
  | nil =>
    unfold releaseAll at h
    obtain ⟨rfl, rfl⟩ := pure_eq_ok.1 h
    exact ⟨⟨t.session, Nat.le_refl _, rfl⟩, fun Γ i J x base _ _ => .nil _⟩
  | cons e es ih =>
    obtain ⟨id, e⟩ := e
    obtain ⟨first, u, more, hfirst, hrest, rfl⟩ := releaseAll_cons_eq_ok h
    obtain ⟨⟨session', hlabels', rfl⟩, hmore⟩ := ih hrest
    have hfirst' : (∃ session, s.session.nextLabel ≤ session.nextLabel ∧ u = { s with session }) ∧
        ∀ (Γ : Ground) i J x base, (Γ.tree.enclosing (some i))[0]? = some i →
          (∀ y ∈ e.slots, y ∈ Γ.slots i) →
          Piece Γ J x base (.within i) first (.within i) [] [] := by
      split at hfirst
      · obtain ⟨hnote, rfl⟩ := isNote_of_remark hfirst
        exact ⟨⟨u.session, Nat.le_refl _, rfl⟩, fun _ _ _ _ _ _ _ => .note hnote⟩
      · obtain ⟨skip, note, a, z, w, hmint, hnote, ha, hz, rfl, rfl⟩ := release_eq_ok hfirst
        obtain ⟨-, rfl⟩ := mintLabel_eq_ok.1 hmint
        refine ⟨⟨_, Nat.le_succ _, rfl⟩, fun Γ i J x base hi hslots => (Piece.note hnote).append ?_⟩
        exact Piece.release (d := 0) hi hslots ha hz
    obtain ⟨⟨session, hlabels, rfl⟩, hpiece⟩ := hfirst'
    refine ⟨⟨session', Nat.le_trans hlabels hlabels', rfl⟩, fun Γ i J x base hi hslots => ?_⟩
    exact (hpiece Γ i J x base hi (hslots _ List.mem_cons_self)).append
      (hmore Γ i J x _ hi fun e he => hslots e (List.mem_cons_of_mem _ he))

theorem sweep_piece (hi : i < s.tree.size) (h : sweep i keep s = .ok a t) : ∃ code, s.Wrote t code ∧
      ∀ Γ, Γ.Holds F s → ∀ J x base, Piece Γ J x base (.within i) code (.within i) [] [] := by
  obtain ⟨code, u, hcode, hemit⟩ := bind_eq_ok.1 (get_bind_eq_ok.1 h)
  obtain rfl := emit_eq_ok.1 hemit
  obtain ⟨⟨session, hlabels, rfl⟩, hpiece⟩ := releaseAll_piece hcode
  refine ⟨code, ⟨session, hlabels, rfl⟩, fun Γ hΓ J x base => hpiece Γ i J x base ?_
    fun e he y hy => ?_⟩
  · rw [hΓ.ordered.enclosing_eq (hΓ.lt hi)]
    rfl
  · exact hΓ.slot hi (Scope.slots_of_pendingFrees he hy)

theorem exitFrame_piece (hi : i < s.tree.size) (h : exitFrame i keep s = .ok a t) :
      ∃ code, s.Wrote t code ∧ ∀ Γ, Γ.Holds F s → (Γ.tree.scope i).function = none →
        ∀ J x base, Piece Γ J x base (.within i) code ⟨(Γ.tree.scope i).parent, none⟩ [] [] := by
  obtain ⟨_, u, hsweep, hemit⟩ := bind_eq_ok.1 h
  obtain rfl := emit_eq_ok.1 hemit
  obtain ⟨code, hwrote, hpiece⟩ := sweep_piece (F := F) hi hsweep
  refine ⟨code ++ Convention.blockEpilogue, hwrote.trans ⟨u.session, Nat.le_refl _, rfl⟩,
    fun Γ hΓ hblock J x base => ?_⟩
  exact (hpiece Γ hΓ J x base).append (.leave (hΓ.lt hi) hblock)

/-- Frames are left from the innermost outwards. -/
theorem exitFrames_piece {n : Nat} (hs : Laid F s) (hi : i < s.tree.size)
    (h : (((s.tree.path i).take n).forM fun k => exitFrame k keep) s = .ok a t) :
      ∃ code, s.Wrote t code ∧
      ∀ Γ, Γ.Holds F s → (∀ e k : Nat, e < n → (s.tree.path i)[e]? = some k →
        (Γ.tree.scope k).function = none) →
        ∀ J x base, Piece Γ J x base (.within i) code ⟨(s.tree.path i)[n]?, none⟩ [] [] := by
  have hpath : s.tree.path i = i :: s.tree.enclosing (s.tree.scope i).parent :=
    hs.formed.ordered.enclosing_eq hi
  induction n generalizing s i with
  | zero =>
    obtain ⟨-, rfl⟩ := pure_eq_ok.1 h
    refine ⟨[], .refl t, fun Γ _ _ J x base => ?_⟩
    rw [hpath]
    exact .nil _
  | succ n ih =>
    rw [hpath, List.take_succ_cons] at h
    obtain ⟨_, u, hexit, hrest⟩ := bind_eq_ok.1 h
    obtain ⟨code, hwrote, hpiece⟩ := exitFrame_piece (F := F) hi hexit
    -- the path may end before so many frames are left
    cases hp : (s.tree.scope i).parent with
    | none =>
      rw [hp] at hrest hpath
      have hnil : (([] : List ScopeId).take n) = [] := List.take_nil
      rw [show (s.tree.enclosing none) = [] from rfl, hnil] at hrest
      obtain ⟨-, rfl⟩ := pure_eq_ok.1 hrest
      refine ⟨code, hwrote, fun Γ hΓ hblocks J x base => ?_⟩
      have hfirst := hpiece Γ hΓ (hblocks 0 i (Nat.succ_pos n) (by rw [hpath]; rfl)) J x base
      rw [(hΓ.tree.scope i hi).parent, hp] at hfirst
      rw [hpath]
      exact hfirst
    | some p =>
      have hplt := hs.formed.ordered.parent_lt i p hi hp
      have hsu := hwrote.settles hs
      have htree : u.tree = s.tree := by
        obtain ⟨session, -, rfl⟩ := hwrote
        rfl
      rw [hp, show s.tree.enclosing (some p) = s.tree.path p from rfl, ← htree] at hrest
      have hpu : p < u.tree.size := htree ▸ Nat.lt_trans hplt hi
      obtain ⟨more, hwrote', hpiece'⟩ :=
        ih hsu.laid hpu hrest (hsu.laid.formed.ordered.enclosing_eq hpu)
      refine ⟨code ++ more, hwrote.trans hwrote', fun Γ hΓ hblocks J x base => ?_⟩
      have hpath' : s.tree.path i = i :: s.tree.path p := by
        rw [hpath, hp]
        rfl
      rw [hpath'] at hblocks ⊢
      have hfirst := hpiece Γ hΓ (hblocks 0 i (Nat.succ_pos n) rfl) J x base
      rw [(hΓ.tree.scope i hi).parent, hp] at hfirst
      have hΓu : Γ.Holds F u := ⟨hΓ.ordered, htree ▸ hΓ.tree, htree ▸ hΓ.slots, hsu.laid⟩
      have hrest' :=
        hpiece' Γ hΓu (fun e k he hk => hblocks (e + 1) k (Nat.succ_lt_succ he) (htree ▸ hk)) J x
        (base + code.length)
      rw [htree] at hrest'
      exact hfirst.append hrest'

/-! ### Exits -/

/-- A jump behind lines that were written. -/
theorem State.Wrote.jump {code : Code} {m m' : Spot} {l : Label} {u : State} (h : s.Wrote u code)
    (m₁ : Spot) (hs : s.target ≠ .data) (hpiece : ∀ base, Piece Γ J s.target base m code m₁ [] [])
    (hl : J l m₁) (hhome : Γ.tree.home m'.scope = Γ.tree.home m₁.scope) :
    Emits Γ J s (u.wrote [jmp l]) m m' [] [] := by
  have hall : s.Wrote (u.wrote [jmp l]) (code ++ [jmp l]) := h.trans ⟨u.session, Nat.le_refl _, rfl⟩
  exact hall.emits hs fun base => (hpiece base).append (.jump hl hhome)

/-- The exits of the loop around a statement. -/
theorem Ground.Holds.loop (h : Γ.Holds F s) {r : Resolved} {m : LoopExit}
    (hfound : s.tree.lookupLoop s.current = some (r, m)) :
    (s.tree.path s.current)[r.depth]? = some r.scope ∧ (Γ.tree.scope r.scope).loop = some m ∧
      (∀ e k : Nat, e < r.depth + 1 → (s.tree.path s.current)[e]? = some k →
        (Γ.tree.scope k).function = none) ∧
      r.scope ∈ Γ.tree.path s.current ∧
      Γ.tree.home (some r.scope) = Γ.tree.home (some s.current) := by
  obtain ⟨hpath, hloop, hbefore⟩ := ScopeTree.lookupLoop_eq_some hfound
  have hlt : ∀ {e k : Nat}, (s.tree.path s.current)[e]? = some k → k < s.tree.size :=
    fun hk => h.lt_of_path hk
  have hblocks : ∀ e k : Nat, e < r.depth + 1 → (s.tree.path s.current)[e]? = some k →
      (Γ.tree.scope k).function = none := by
    intro e k he hk
    rw [(h.tree.scope k (hlt hk)).function]
    rcases Nat.lt_or_eq_of_le (Nat.le_of_lt_succ he) with he | rfl
    · exact (hbefore e k he hk).2
    · rw [hpath] at hk
      cases hk
      exact h.laid.loops _ (hlt hpath) (by rw [hloop]; rfl)
  have hpath' : Γ.tree.path s.current = s.tree.path s.current := h.path h.laid.current_lt
  refine ⟨hpath, ?_, hblocks, hpath' ▸ List.mem_of_getElem? hpath, ?_⟩
  · rw [(h.tree.scope r.scope (hlt hpath)).loop]
    exact hloop
  · exact h.ordered.home_of_path h.current_lt (hpath' ▸ hpath) fun e k he hk =>
      hblocks e k (Nat.lt_succ_of_lt he) (hpath' ▸ hk)

theorem leaveLoop_isStatement (n : Node) (l : Location)
    (hn : ∀ s i, (Event.statement n s).stash i = []) :
    (do leaveLoop l; return true : Lower Bool).IsStatement fun s => [.statement n s] := by
  intro F s jumped t hs _ h
  obtain ⟨_, w, hleave, h₀⟩ := bind_eq_ok.1 h
  obtain ⟨rfl, rfl⟩ := pure_eq_ok.1 h₀
  obtain ⟨⟨r, m⟩, s', hfound, h₁⟩ := bind_eq_ok.1 hleave
  obtain ⟨hlook, rfl⟩ := enclosingLoop_eq_ok.1 hfound
  obtain ⟨_, u, hunwind, hemit⟩ := bind_eq_ok.1 h₁
  obtain rfl := emit_eq_ok.1 hemit
  obtain ⟨code, hwrote, hpiece⟩ := exitFrames_piece hs hs.current_lt (get_bind_eq_ok.1 hunwind)
  have hsu := (hwrote.settles hs).trans (.wrote (hwrote.settles hs).laid [jmp m.exit])
  rw [stashed_cons (hn _), stashed_nil]
  refine ⟨hsu, fun Γ hΓ J hJ m' hm' _ => ?_⟩
  have hΓs := hΓ.back hs hsu
  obtain ⟨hpath, hloop, hblocks, hmem, hhome⟩ := hΓs.loop hlook
  have hr := hΓs.lt_of_path hpath
  have hend : (s'.tree.path s'.current)[r.depth + 1]? = (Γ.tree.scope r.scope).parent := by
    rw [(hΓs.tree.scope r.scope hr).parent]
    exact hs.formed.ordered.getElem?_path_succ hs.current_lt hpath
  have hblock := hblocks r.depth r.scope (Nat.lt_succ_self _) hpath
  refine Emits.statement (hwrote.jump ⟨(Γ.tree.scope r.scope).parent, none⟩ hs.target ?_ ?_ ?_) n
  · exact fun base => hend ▸ hpiece Γ hΓs hblocks J _ base
  · exact hJ _ _ ⟨r.scope, hmem, hhome, .inl ⟨m, hloop, .inl ⟨rfl, rfl⟩⟩⟩
  · rw [hm', ← hhome, hΓs.ordered.home_of_block (hΓs.lt hr) hblock]

theorem nextRound_isStatement (n : Node) (l : Location)
    (hn : ∀ s i, (Event.statement n s).stash i = []) :
    (do nextRound l; return true : Lower Bool).IsStatement fun s => [.statement n s] := by
  intro F s jumped t hs _ h
  obtain ⟨_, w, hleave, h₀⟩ := bind_eq_ok.1 h
  obtain ⟨rfl, rfl⟩ := pure_eq_ok.1 h₀
  obtain ⟨⟨r, m⟩, s', hfound, h₁⟩ := bind_eq_ok.1 hleave
  obtain ⟨hlook, rfl⟩ := enclosingLoop_eq_ok.1 hfound
  obtain ⟨_, u, hunwind, hemit⟩ := bind_eq_ok.1 h₁
  obtain rfl := emit_eq_ok.1 hemit
  obtain ⟨code, hwrote, hpiece⟩ := exitFrames_piece hs hs.current_lt (get_bind_eq_ok.1 hunwind)
  have hsu := (hwrote.settles hs).trans (.wrote (hwrote.settles hs).laid [jmp m.next])
  rw [stashed_cons (hn _), stashed_nil]
  refine ⟨hsu, fun Γ hΓ J hJ m' hm' _ => ?_⟩
  have hΓs := hΓ.back hs hsu
  obtain ⟨hpath, hloop, hblocks, hmem, hhome⟩ := hΓs.loop hlook
  refine Emits.statement (hwrote.jump (.within r.scope) hs.target ?_ ?_ (hm'.trans hhome.symm)) n
  · intro base
    have hend := hpiece Γ hΓs (fun e k he => hblocks e k (Nat.lt_succ_of_lt he)) J s'.target base
    rwa [hpath] at hend
  · exact hJ _ _ ⟨r.scope, hmem, hhome, .inl ⟨m, hloop, .inr ⟨rfl, rfl⟩⟩⟩

/-! ### Returns -/

/-- The function around a statement. -/
theorem Ground.Holds.function (h : Γ.Holds F s) {r : Resolved} {m : FunctionExit}
    (hfound : s.tree.lookupFunctionExit s.current = some (r, m)) :
    (Γ.tree.path s.current)[r.depth]? = some r.scope ∧ (Γ.tree.scope r.scope).function = some m ∧
      (∀ e k : Nat, e < r.depth → (Γ.tree.path s.current)[e]? = some k →
        (Γ.tree.scope k).function = none) ∧
      m.result ∈ Γ.slots r.scope ∧ m.resultSize ∈ Γ.slots r.scope := by
  obtain ⟨hpath, hfunction, hbefore⟩ := ScopeTree.lookupFunctionExit_eq_some hfound
  rw [h.path h.laid.current_lt]
  have hr := h.lt_of_path hpath
  refine ⟨hpath, ?_, fun e k he hk => ?_, ?_, ?_⟩
  · rw [(h.tree.scope r.scope hr).function]
    exact hfunction
  · rw [(h.tree.scope k (h.lt_of_path hk)).function]
    exact hbefore e k he hk
  · exact h.slot hr (Scope.mem_slots.2 (.inl ⟨m, hfunction, .inl rfl⟩))
  · exact h.slot hr (Scope.mem_slots.2 (.inl ⟨m, hfunction, .inr rfl⟩))

/-- A string is copied before it is returned, if that is called for. -/
theorem ownedResult_isValue {v : Lowered} {copying : Copying} (hs : Laid F s)
    (h : ownedResult v copying s = .ok code t) :
    Settles F s (growSlots F s.current (copying.stash s)) t ∧ ∀ Γ,
      Γ.Holds (growSlots F s.current (copying.stash s)) t →
      ∀ es, ValuePiece Γ s v.code es → ValuePiece Γ s code es := by
  unfold Lower.ownedResult at h
  unfold Lower.Copying.stash
  split at h
  next hnever =>
    obtain ⟨rfl, rfl⟩ := pure_eq_ok.1 h
    rw [if_pos (.inl hnever), growSlots_nil]
    exact ⟨.refl hs, fun _ _ _ hv => hv⟩
  next hnever =>
    obtain ⟨found, u, hfound, h₁⟩ := bind_eq_ok.1 h
    obtain ⟨rfl, rfl⟩ := libraryFunction?_eq_ok.1 hfound
    cases hf : (u.tree.scope u.root).getFunction? "dup" with
    | none =>
      rw [hf] at h₁
      obtain ⟨rfl, rfl⟩ := pure_eq_ok.1 h₁
      rw [if_pos (.inr rfl), growSlots_nil]
      exact ⟨.refl hs, fun _ _ _ hv => hv⟩
    | some f =>
      rw [hf] at h₁
      obtain ⟨skip, u₁, hskip, h₂⟩ := bind_eq_ok.1 h₁
      obtain ⟨-, rfl⟩ := mintLabel_eq_ok.1 hskip
      obtain ⟨slot, u₂, hreserve, h₃⟩ := bind_eq_ok.1 h₂
      obtain ⟨m, u₃, hm, h₄⟩ := bind_eq_ok.1 h₃
      obtain ⟨hm', rfl⟩ := frameSlot_eq_ok.1 hm
      obtain ⟨note, u₄, hnote, h₅⟩ := bind_eq_ok.1 h₄
      obtain ⟨hnote', rfl⟩ := isNote_of_remark hnote
      obtain ⟨d, u₅, hd, h₆⟩ := bind_eq_ok.1 h₅
      obtain ⟨rfl, rfl⟩ := depthToRoot_eq_ok.1 hd
      obtain ⟨call, u₆, hcall, h₇⟩ := bind_eq_ok.1 h₆
      obtain ⟨hcall', rfl⟩ := checked_eq_ok.1 hcall
      obtain ⟨_, u₇, hrecord, h₈⟩ := bind_eq_ok.1 h₇
      obtain ⟨-, rfl⟩ := withSession_eq_ok.1 hrecord
      obtain ⟨rfl, rfl⟩ := pure_eq_ok.1 h₈
      have hs₁ : Settles F u F { u with session := (u.session.mintLabel "owned").2 } :=
        .withSession hs (Nat.le_succ _)
      obtain ⟨hs₂, hsize⟩ := reserve_settles hs₁.laid hreserve
      obtain ⟨hroom, hslot, -⟩ := reserve_eq_ok.1 hreserve
      have hstash : (reserve Convention.argBytes).after u (fun x _ => [x]) = [slot] :=
        after_ok ((reserve_eq_ok (s := u)).2 ⟨hroom, hslot, rfl⟩) _
      rw [if_neg (by simp [hnever]), hstash]
      have hq := IsQuiet.reserve _ _ _ _ hs₁.laid.formed hreserve
      have hs₃ := @Settles.withSession _ _ hs₂.laid (u₆.session.recordCall f.name) (Nat.le_refl _)
      have hall := (hs₁.trans hs₂).trans hs₃
      refine ⟨hall, fun Γ hΓ es hv J ahead => ?_⟩
      have hΓu := hΓ.back hs hall
      have hslot' : slot ∈ Γ.slots u.current := hΓ.grown (List.mem_singleton_self _)
      -- the check jumps over the call
      have hcheck :
          ∀ base, Piece Γ (pending J [(skip, .within u.current)]) u.target base (.within u.current)
          (if copying = .ifBorrowed then [test edx edx, jcc .nz skip] else [])
          (.within u.current) [] [] := by
        intro base
        split
        · have htest :
              Piece Γ (pending J [(skip, .within u.current)]) u.target base (.within u.current)
              [test edx edx] (.within u.current) [] [] := .steady rfl rfl
          exact htest.append (.branch (.inr (List.mem_singleton_self _)))
        · exact .nil _
      have hroot := (hΓ.back hs₂.laid hs₃).root_enclosing
      rw [hq.current, hq.root] at hroot
      have hcalled : ∀ base, Piece Γ (pending J [(skip, .within u.current)]) u.target base
          (.within u.current) call (.within u.current) [] [] := by
        intro base
        rw [hq.current] at hcall'
        refine .call hΓu.here_enclosing (fun x hx => ?_) hroot (hΓu.library hf) hcall'
        rw [List.mem_singleton.1 hx]
        exact ⟨hslot', hsize⟩
      have hput : ∀ base, Piece Γ (pending J [(skip, .within u.current)]) u.target base
          (.within u.current) [mov m eax]
          (.within u.current) [] [] := fun base => .own hΓu.here_enclosing fun y hy => by
        rw [List.mem_singleton.1 hy]
        exact ⟨rfl, rfl, .of_slot (fun b hb => List.mem_singleton.1 hb) rfl hm' hslot'⟩
      have hpiece :=
        (((((hv (pending J [(skip, .within u.current)]) ahead).append (hcheck _)).append
          (hput _)).append (.note hnote')).append (hcalled _)).append (.label skip _)
      refine Piece.restrict (J := J) (hpiece.close fun l p hl => hl.imp id fun hmem => ?_)
        (fun ev hev _ => ?_) nofun
      · simpa using hmem
      · simpa using hev

/-- Where a return puts the result. -/
theorem resultCode_isValue {d : Nat} {m : FunctionExit} (h : resultCode d m s = .ok code t) :
    t = s ∧ ∀ (Γ : Ground) k, (Γ.tree.enclosing (some s.current))[d]? = some k →
      m.result ∈ Γ.slots k → m.resultSize ∈ Γ.slots k → ValuePiece Γ s code fun _ => [] := by
  obtain ⟨result, u, hresult, h₁⟩ := bind_eq_ok.1 h
  obtain ⟨hresult', rfl⟩ := checked_eq_ok.1 hresult
  have htouch : ∀ {r : Reg} {slot : Slot} {a : Mem} {slots : List Slot},
      Mem.slot (Convention.chase d).2 slot = .ok a → slot ∈ slots →
      (mov a r).Touches (Convention.chase d).2 slots :=
    fun ha hs => ⟨rfl, rfl, .of_slot (fun b hb => List.mem_singleton.1 hb) rfl ha hs⟩
  split at h₁
  · obtain ⟨size, u₁, hsize, h₂⟩ := bind_eq_ok.1 h₁
    obtain ⟨hsize', rfl⟩ := checked_eq_ok.1 hsize
    obtain ⟨rfl, rfl⟩ := pure_eq_ok.1 h₂
    refine ⟨rfl, fun Γ k hk hslot hcell => .reach hk nofun fun y hy => ?_⟩
    rcases List.mem_cons.1 hy with rfl | hy
    · exact htouch hresult' hslot
    · rw [List.mem_singleton.1 hy]
      exact htouch hsize' hcell
  · obtain ⟨rfl, rfl⟩ := pure_eq_ok.1 h₁
    refine ⟨rfl, fun Γ k hk hslot _ => .reach hk nofun fun y hy => ?_⟩
    rw [List.mem_singleton.1 hy]
    exact htouch hresult' hslot

/-- A return stashes a slot if it is to copy the result. -/
theorem returnStash_eq {value : ScalarType → Lower Lowered} {r : Resolved} {m : FunctionExit}
    {v : Lowered} {u : State}
    (hfound : s.tree.lookupFunctionExit s.current = some (r, m)) (hv : value m.ret s = .ok v u) :
    returnStash value s = (if m.ret.isHeap then returnPlan u.tree (u.tree.chain u.current r.depth)
      v.ownership else (.never, [])).1.stash u := by
  unfold returnStash
  rw [hfound]
  dsimp only
  rw [after_ok hv]
  split
  · rfl
  · exact (if_pos (.inl rfl)).symm

/-- A return puts the result where the end of the function finds it, leaves all frames but that of
the function, and jumps to its end. -/
theorem leaveFunction_emits {l : Location} {value : ScalarType → Lower Lowered}
    {es : State → Nat → List Event}
    (hvalue : ∀ ty, (value ty).IsValue es) (hquiet : ∀ ty, (value ty).IsQuiet)
    (hes : MeetsQuietly fun s => es s 0)
    (hs : Laid F s) (heq : s.Equipped) (h : leaveFunction l value s = .ok a t) :
    Settles F s (growSlots (stashed F (es s 0)) s.current (returnStash value s)) t ∧
      ∀ Γ, Γ.Holds (growSlots (stashed F (es s 0)) s.current (returnStash value s)) t →
        ∀ J, (∀ l p, Γ.Aims s.current l p → J l p) → ∀ m',
          Γ.tree.home m'.scope = Γ.tree.home (some s.current) →
          Emits Γ J s t (.within s.current) m' (es s 0) [] := by
  have h := get_bind_eq_ok.1 h
  cases hfound : s.tree.lookupFunctionExit s.current with
  | none =>
    rw [hfound] at h
    exact (reject_eq_ok.1 h).elim
  | some x =>
    obtain ⟨r, m⟩ := x
    rw [hfound] at h
    obtain ⟨v, u, hv, h₁⟩ := bind_eq_ok.1 h
    obtain ⟨code, w, hcode, h₂⟩ := bind_eq_ok.1 (get_bind_eq_ok.1 h₁)
    obtain ⟨result, w', hresult, h₃⟩ := bind_eq_ok.1 h₂
    obtain ⟨_, w₁, hemit, h₄⟩ := bind_eq_ok.1 h₃
    obtain ⟨_, w₂, hunwind, h₅⟩ := bind_eq_ok.1 h₄
    obtain ⟨_, w₃, hsweep, hjump⟩ := bind_eq_ok.1 h₅
    obtain rfl := emit_eq_ok.1 hemit
    obtain rfl := emit_eq_ok.1 hjump
    have hq := hquiet m.ret s v u hs.formed hv
    obtain ⟨hs₁, hpiece⟩ := hvalue m.ret F s v u 0 hs heq hv
    have hq₂ := hq.trans (IsQuiet.law.ownedResult _ _ _ _ _ hs₁.laid.formed hcode)
    obtain ⟨hs₂, howned⟩ := ownedResult_isValue hs₁.laid hcode
    rw [← returnStash_eq hfound hv, hq.current] at hs₂ howned
    obtain ⟨rfl, hput⟩ := resultCode_isValue hresult
    have hs₃ := Settles.wrote hs₂.laid (code ++ result)
    have hcurrent : (w'.wrote (code ++ result)).current = s.current := hq₂.current
    obtain ⟨frames, hframes, hleft⟩ :=
      exitFrames_piece hs₃.laid hs₃.laid.current_lt (get_bind_eq_ok.1 hunwind)
    have hs₄ := hframes.settles hs₃.laid
    have hr : r.scope < s.tree.size :=
      hs.formed.ordered.lt_size_of_mem_path hs.current_lt
        (List.mem_of_getElem? (ScopeTree.lookupFunctionExit_eq_some hfound).1)
    have hbefore := (hs₁.trans hs₂).trans (hs₃.trans hs₄)
    have hr₂ : r.scope < w₂.tree.size := Nat.lt_of_lt_of_le hr hbefore.tree.size
    obtain ⟨swept, hswept, hfreed⟩ :=
      sweep_piece (F := growSlots (stashed F (es s 0)) s.current (returnStash value s)) hr₂ hsweep
    have hs₅ := hswept.settles hs₄.laid
    have hs₆ := Settles.wrote hs₅.laid [jmp m.returnLabel]
    refine ⟨hbefore.trans (hs₅.trans hs₆), fun Γ hΓ J hJ m' hm' => ?_⟩
    have hΓ₂ := hΓ.back hs₄.laid (hs₅.trans hs₆)
    have hΓ₁ := hΓ₂.back hs₃.laid hs₄
    have hΓw := hΓ₁.back hs₂.laid hs₃
    have hΓu := hΓw.back hs₁.laid hs₂
    obtain ⟨hpath, hfunction, hblocks, hslot, hcell⟩ := (hΓu.back hs hs₁).function hfound
    have hhome : Γ.tree.home (some r.scope) = Γ.tree.home (some s.current) :=
      hΓ.ordered.home_of_path ((hΓu.back hs hs₁).current_lt) hpath hblocks
    -- the result is put away
    have hvalue : ValuePiece Γ s (code ++ result) (es s) := by
      have hw : ∀ {code es}, ValuePiece Γ u code es ↔ ValuePiece Γ s code es :=
        ValuePiece.congr hq hs.target
      refine (hw.1 (howned Γ hΓw _ (hw.2 (hpiece Γ hΓu)))).snoc
        ((ValuePiece.congr hq₂ hs.target).1 ?_)
      exact hput Γ r.scope (hq₂.current ▸ hpath) hslot hcell
    have hfirst : Emits Γ J s (w'.wrote (code ++ result)) (.within s.current) (.within s.current)
        (es s 0) [] := .value (.quiet hq₂) hs.target hvalue fun ev hev => hes.isAt hs.formed hev
    -- the frames are left
    have hpath' : (w'.wrote (code ++ result)).tree.path (w'.wrote (code ++ result)).current =
        Γ.tree.path s.current := by
      rw [← hΓ₁.path hs₃.laid.current_lt, hcurrent]
    have hrest : Emits Γ J (w'.wrote (code ++ result)) (w₃.wrote [jmp m.returnLabel])
        (.within s.current) m' [] [] := by
      refine (hframes.trans hswept).jump (.within r.scope) hs₃.laid.target (fun base => ?_) ?_
        (hm'.trans hhome.symm)
      · rw [hpath', hcurrent] at hleft
        have hpiece := hleft Γ hΓ₁ hblocks J (w'.wrote (code ++ result)).target base
        rw [hpath] at hpiece
        exact hpiece.append (hfreed Γ hΓ₂ J _ _)
      · exact hJ _ _ ⟨r.scope, List.mem_of_getElem? hpath, hhome, .inr ⟨m, hfunction, rfl, rfl⟩⟩
    have hall := hfirst.trans hrest
    rwa [List.append_nil] at hall

/-! ### Blocks -/

/-- A new scope declares no functions. -/
theorem State.mem_functions_entered {l : Label} (hi : i < (s.entered l).tree.size) {f : Signature}
    (hf : f ∈ ((s.entered l).tree.scope i).functions) :
    i < s.tree.size ∧ f ∈ (s.tree.scope i).functions := by
  rw [State.size_entered] at hi
  rcases Nat.lt_or_eq_of_le (Nat.le_of_lt_succ hi) with hlt | rfl
  · rw [show (s.entered l).tree.scope i = s.tree.scope i from
      ScopeTree.scope_push_of_lt _ _ hlt] at hf
    exact ⟨hlt, hf⟩
  · rw [State.scope_entered_size] at hf
    cases hf

/-- The prologue of a block leads into its scope. -/
theorem Emits.entered {l : Label} (hs : s.target ≠ .data) (hlt : s.tree.size < Γ.tree.size)
    (hparent : (Γ.tree.scope s.tree.size).parent = some s.current)
    (hfunction : (Γ.tree.scope s.tree.size).function = none)
    (hsymbol : (Γ.tree.scope s.tree.size).frameSize = l) :
    Emits Γ J s ((s.wrote (Convention.blockPrologue l)).entered l) (.within s.current)
    (.within s.tree.size) [] [] := by
  have hwrote : Emits Γ J s (s.wrote (Convention.blockPrologue l)) (.within s.current)
      (.within s.tree.size) [] [] := by
    refine .emit hs fun base => ?_
    have hpiece : Piece Γ J s.target base ⟨(Γ.tree.scope s.tree.size).parent, none⟩ _ _ [] [] :=
      .enter hlt hfunction
    rwa [hparent, hsymbol] at hpiece
  have hsilent : (s.wrote (Convention.blockPrologue l)).Silent
      ((s.wrote (Convention.blockPrologue l)).entered l) := by
    refine ⟨rfl, rfl, rfl, fun i hi f hf => ?_⟩
    exact State.mem_functions_entered hi hf
  exact hwrote.trans (.silent hsilent hs _)

/-- Leaving a block leads back to the scope around it. -/
theorem closeBlock_emits {reachable : Bool} {p : ScopeId} (hs : Laid F s)
    (hparent : s.here.parent = some p)
    (hfunction : s.here.function = none) (h : closeBlock reachable s = .ok a t) :
    Settles F s F t ∧ t.current = p ∧ ∀ Γ, Γ.Holds F t → ∀ J,
      Emits Γ J s t (if reachable then .within s.current else .within p) (.within p) [] [] := by
  obtain ⟨u, v, hleave, hdef, rfl⟩ := closeBlock_eq_ok h
  obtain ⟨bytes, -, rfl⟩ := defineFrameSize_eq_ok hdef
  have hexit : ∃ code, s.Wrote u code ∧ ∀ Γ, Γ.Holds F s → ∀ J x base,
      Piece Γ J x base (if reachable then .within s.current else .within p) code
      (.within p) [] [] := by
    cases reachable with
    | true =>
      obtain ⟨code, hwrote, hpiece⟩ := exitFrame_piece (F := F) hs.current_lt hleave
      refine ⟨code, hwrote, fun Γ hΓ J x base => ?_⟩
      have hstays := hΓ.tree.scope _ hs.current_lt
      have hall := hpiece Γ hΓ (hstays.function.trans hfunction) J x base
      rwa [hstays.parent.trans hparent] at hall
    | false =>
      obtain ⟨-, rfl⟩ := pure_eq_ok.1 hleave
      exact ⟨[], ⟨u.session, Nat.le_refl _, (State.wrote_nil u).symm⟩, fun _ _ _ _ _ => .nil _⟩
  obtain ⟨code, hwrote, hpiece⟩ := hexit
  have htree : u.tree = s.tree := by
    obtain ⟨session, -, rfl⟩ := hwrote
    rfl
  have hcurrent : ((u.tree.scope s.current).parent.getD u.root) = p := by
    rw [htree, show (s.tree.scope s.current).parent = some p from hparent]
    rfl
  have hlt : p < s.tree.size :=
    Nat.lt_trans (hs.formed.ordered.parent_lt _ p hs.current_lt hparent) hs.current_lt
  have hs₁ :=
    (hwrote.settles hs).trans
    (.wrote (hwrote.settles hs).laid [.constant (u.tree.scope s.current).frameSize bytes])
  have hall : s.Wrote (u.wrote [.constant (u.tree.scope s.current).frameSize bytes]) _ :=
    hwrote.trans ⟨u.session, Nat.le_refl _, rfl⟩
  have htarget : u.target = s.target := by
    obtain ⟨session, -, rfl⟩ := hwrote
    rfl
  have hlaid : Laid F { u.wrote [.constant (u.tree.scope s.current).frameSize bytes] with
      current := (u.tree.scope s.current).parent.getD u.root } := by
    refine hs₁.laid.congr rfl ?_ rfl hs₁.laid.target (Nat.le_refl _) fun hout => ?_
    · rw [hcurrent, show (u.wrote _).tree = s.tree from htree]
      exact hlt
    · rw [hcurrent, show (u.wrote _).tree = s.tree from htree]
      have hhome := hs.formed.ordered.home_of_block hs.current_lt hfunction
      rw [show (s.tree.scope s.current).parent = some p from hparent] at hhome
      rw [← hhome]
      exact hs.outside (htarget ▸ hout)
  refine ⟨⟨hs₁.slots, hs₁.tree, hlaid⟩, hcurrent, fun Γ hΓ J => ?_⟩
  have hΓs := hΓ.back hs ⟨hs₁.slots, hs₁.tree, hlaid⟩
  have hemits : Emits Γ J s _ _ (.within p) [] [] := hall.emits hs.target fun base =>
    (hpiece Γ hΓs J s.target base).append (.steady rfl rfl)
  exact ⟨hemits.proper, hemits.sections, hemits.target, hemits.written, hemits.inner, hemits.outer,
    hemits.entries⟩

/-- A block belongs to the same text as the scope around it, and jumps out of it lead where jumps
out of that scope lead. -/
theorem Ground.Holds.block (h : Γ.Holds F s) (hparent : s.here.parent = some i)
    (hfunction : s.here.function = none) :
    Γ.tree.home (some i) = Γ.tree.home (some s.current) ∧ ∀ l q, Γ.Aims s.current l q →
      Γ.Aims i l q ∨ ∃ m, s.here.loop = some m ∧
      (l = m.exit ∧ q = .within i ∨ l = m.next ∧ q = .within s.current) := by
  have hstays := h.tree.scope _ h.laid.current_lt
  have hparent' := hstays.parent.trans hparent
  have hhome := h.ordered.home_of_block h.current_lt (hstays.function.trans hfunction)
  rw [hparent'] at hhome
  refine ⟨hhome.symm, fun l q ⟨j, hj, hsame, hlabel⟩ => ?_⟩
  rw [h.ordered.path_eq_cons h.current_lt hparent'] at hj
  rcases List.mem_cons.1 hj with rfl | hj
  · rcases hlabel with ⟨m, hloop, hm⟩ | ⟨m, hsome, -⟩
    · rw [hparent'] at hm
      exact .inr ⟨m, hstays.loop.symm.trans hloop, hm⟩
    · rw [hstays.function.trans hfunction] at hsome
      cases hsome
  · exact .inl ⟨j, hj, hsame.trans hhome, hlabel⟩

end

/-- A block is opened. -/
theorem openBlock_emits {F : ScopeId → List Slot} {s t : State} {id : ScopeId} (hs : Laid F s)
    (h : openBlock s = .ok id t) :
      Settles F s F t ∧ t.here.parent = some s.current ∧ t.here.function = none ∧
      t.here.loop = none ∧ ∀ (Γ : Ground) J, t.current < Γ.tree.size →
        (Γ.tree.scope t.current).parent = t.here.parent → (Γ.tree.scope t.current).function = none →
        (Γ.tree.scope t.current).frameSize = t.here.frameSize →
        Emits Γ J s t (.within s.current) (.within t.current) [] [] := by
  obtain ⟨-, rfl⟩ := openBlock_eq_ok.1 h
  generalize hl : Label.fresh s.session.nextLabel "frame" = l
  have hs₁ : Settles F s F ((s.wrote (Convention.blockPrologue l)).entered l) := by
    subst hl
    exact (Settles.wrote hs _).trans (.entered (Settles.wrote hs _).laid)
  have hnew :
      ((s.wrote (Convention.blockPrologue l)).entered l).here = Scope.fresh (some s.current) l :=
    ScopeTree.scope_push_size ..
  rw [hnew]
  exact ⟨hs₁, rfl, rfl, rfl, fun Γ J hlt hparent hfunction hsymbol =>
    .entered hs.target hlt hparent hfunction hsymbol⟩

/-- A body in a frame of its own. -/
theorem Lower.IsPlain.block (hbody : body.IsStatement es) (hgrows : body.IsGrowing) :
    (block body).IsPlain fun s => openBlock.after s fun _ t => es t := by
  intro F s a t hs heq h
  obtain ⟨id, u, hopen, h₁⟩ := bind_eq_ok.1 h
  obtain ⟨jumped, v, hrun, hclose⟩ := bind_eq_ok.1 h₁
  obtain ⟨hs₁, hparent, hblock, hloop, henter⟩ := openBlock_emits hs hopen
  obtain ⟨hs₂, hemits⟩ := hbody F u jumped v hs₁.laid (hs₁.equipped hs heq) hrun
  have hg := hgrows _ _ _ hs₁.laid.formed hrun
  obtain ⟨hs₃, -, hleave⟩ :=
    closeBlock_emits hs₂.laid (hg.here.parent.trans hparent) (hg.here.function.trans hblock) hclose
  dsimp only
  rw [after_ok hopen]
  refine ⟨(hs₁.trans hs₂).trans hs₃, fun Γ hΓ J hJ => ?_⟩
  have hΓ₂ := hΓ.back hs₂.laid hs₃
  have hΓ₁ := hΓ₂.back hs₁.laid hs₂
  have hstays := hΓ₁.tree.scope _ hs₁.laid.current_lt
  have hfirst := henter Γ J hΓ₁.current_lt hstays.parent (hstays.function.trans hblock)
    hstays.frameSize
  obtain ⟨hhome, haims⟩ := hΓ₁.block hparent hblock
  have hJ₁ : ∀ l p, Γ.Aims u.current l p → J l p := fun l p hl => by
    rcases haims l p hl with hl | ⟨m, hm, -⟩
    · exact hJ l p hl
    · rw [hloop] at hm
      cases hm
  have hrest := hemits Γ hΓ₂ J hJ₁ (if !jumped then .within u.current else .within s.current)
  have hlast := hleave Γ hΓ J
  rw [hg.current] at hlast
  cases jumped with
  | false =>
    have hall := (hfirst.trans (hrest rfl fun _ => rfl)).trans hlast
    rwa [List.nil_append, List.append_nil] at hall
  | true =>
    have hall := (hfirst.trans (hrest hhome nofun)).trans hlast
    rwa [List.nil_append, List.append_nil] at hall

/-! ### Branches -/

section

variable {F : ScopeId → List Slot} {s t : State} {a : Unit} {c : Node} {l : Location}

/-- A new label writes nothing. -/
theorem mintLabel_silent {hint : String} {x : Label} (hs : Laid F s)
    (h : mintLabel hint s = .ok x t) : Settles F s F t ∧ s.Silent t ∧ t.current = s.current := by
  obtain ⟨-, rfl⟩ := mintLabel_eq_ok.1 h
  exact ⟨.withSession hs (Nat.le_succ _), ⟨rfl, rfl, rfl, fun _ hi _ hf => ⟨hi, hf⟩⟩, rfl⟩

/-- A jump that is made unless a condition holds. -/
theorem branchUnless_emits {target : Label} (hs : Laid F s) (heq : s.Equipped)
    (h : branchUnless target l c.evaluate s = .ok a t) :
    Settles F s (stashed F (c.fragments s 0)) t ∧ t.current = s.current ∧
      ∀ Γ, Γ.Holds (stashed F (c.fragments s 0)) t → ∀ J, J target (.within s.current) →
        Emits Γ J s t (.within s.current) (.within s.current) (c.fragments s 0) [] := by
  obtain ⟨v, u, hv, h₁⟩ := bind_eq_ok.1 h
  split at h₁
  · exact (reject_eq_ok.1 h₁).elim
  · obtain rfl := emit_eq_ok.1 h₁
    have hu := c.evaluate_quiet s v u hs.formed hv
    obtain ⟨hs₁, hpiece⟩ := c.evaluate_isValue F s v u 0 hs heq hv
    have hs₂ := Settles.wrote hs₁.laid (v.code ++ [test al al, jcc .z target])
    refine ⟨hs₁.trans hs₂, hu.current, fun Γ hΓ J hJ => ?_⟩
    have hfirst :
        Emits Γ J s (u.wrote v.code) (.within s.current) (.within s.current) (c.fragments s 0) [] :=
      .value (.quiet hu) hs.target (hpiece Γ (hΓ.back hs₁.laid hs₂)) fun ev hev =>
        (MeetsQuietly.fragments c 0).isAt hs.formed hev
    have hrest : Emits Γ J (u.wrote v.code) ((u.wrote v.code).wrote [test al al, jcc .z target])
        (.within s.current) (.within s.current) [] [] := by
      refine .emit hs₁.laid.target fun base => ?_
      have htest : Piece Γ J u.target base (.within s.current) [test al al]
        (.within s.current) [] [] := .steady rfl rfl
      exact htest.append (.branch hJ)
    have hall := hfirst.trans hrest
    rwa [State.wrote_wrote, List.append_nil] at hall

/-- A block that is run if a condition holds. -/
theorem guarded_emits {target : Label} (hbody : body.IsStatement es) (hgrows : body.IsGrowing)
    (hs : Laid F s) (heq : s.Equipped) (hrun : guarded target l c.evaluate body s = .ok a t)
    (hevents : events = c.fragments s 0 ++
      (branchUnless target l c.evaluate).after s fun _ u => openBlock.after u fun _ v => es v) :
    Settles F s (stashed F events) t ∧ t.current = s.current ∧ ∀ Γ, Γ.Holds (stashed F events) t →
      ∀ J, (∀ l p, Γ.Aims s.current l p → J l p) → J target (.within s.current) →
        Emits Γ J s t (.within s.current) (.within s.current) events [] := by
  obtain ⟨_, u, hbranch, hblock⟩ := bind_eq_ok.1 hrun
  obtain ⟨hs₁, hcurrent, hfirst⟩ := branchUnless_emits hs heq hbranch
  obtain ⟨hs₂, hrest⟩ := Lower.IsPlain.block hbody hgrows _ u a t hs₁.laid
    (hs₁.equipped hs heq) hblock
  have ht := Lower.IsGrowing.block hgrows u a t hs₁.laid.formed hblock
  rw [hevents, after_ok hbranch, stashed_append]
  refine ⟨hs₁.trans hs₂, ht.current.trans hcurrent, fun Γ hΓ J hJ htarget => ?_⟩
  have hlast := hrest Γ hΓ J (hcurrent ▸ hJ)
  rw [hcurrent] at hlast
  exact (hfirst Γ (hΓ.back hs₁.laid hs₂) J htarget).trans hlast

/-- What follows the block of a conditional: `next` stands where control comes if the condition does
not hold, and `exit` at the end of the whole. -/
def Otherwise.IsRest (o : Otherwise) : Prop :=
  ∀ exit next, (o = .absent → next = exit) → ∀ F s a t, Laid F s → s.Equipped →
    o.execute exit next s = .ok a t →
    Settles F s (stashed F (o.trace exit next s)) t ∧ ∀ Γ,
      Γ.Holds (stashed F (o.trace exit next s)) t →
      ∀ J, (∀ l p, Γ.Aims s.current l p → J l p) → J exit (.within s.current) →
        Emits Γ J s t (.within s.current) (.within s.current) (o.trace exit next s)
          [(exit, .within s.current), (next, .within s.current)]

theorem Otherwise.label_silent {exit next : Label} (hs : Laid F s)
    (h : o.label exit s = .ok next t) :
    (o = .absent → next = exit) ∧ Settles F s F t ∧ s.Silent t ∧ t.current = s.current := by
  cases o with
  | absent =>
    obtain ⟨rfl, rfl⟩ := pure_eq_ok.1 h
    exact ⟨fun _ => rfl, .refl hs, .quiet (.refl _), rfl⟩
  | block | chained => exact ⟨nofun, mintLabel_silent hs h⟩

/-- A condition, its block, and what follows if the condition does not hold. -/
theorem Otherwise.IsRest.arm (ho : o.IsRest) (hbody : body.IsStatement es) (hgrows : body.IsGrowing)
    {exit : Label} (hs : Laid F s) (heq : s.Equipped)
    (h : (do
      let next ← o.label exit
      guarded next l c.evaluate body
      o.execute exit next : Lower Unit) s = .ok a t)
    (hevents : events = (o.label exit).after s fun next u => c.fragments u 0 ++
      (branchUnless next l c.evaluate).after u fun _ v => openBlock.after v fun _ w => es w ++
        body.after w fun jumped x => (closeBlock (!jumped)).after x fun _ y =>
          o.trace exit next y) :
    Settles F s (stashed F events) t ∧ ∀ Γ, Γ.Holds (stashed F events) t →
      ∀ J, (∀ l p, Γ.Aims s.current l p → J l p) → J exit (.within s.current) →
        Emits Γ J s t (.within s.current) (.within s.current) events
          [(exit, .within s.current)] := by
  obtain ⟨next, u, hnext, h₁⟩ := bind_eq_ok.1 h
  obtain ⟨_, v, hguarded, hrest⟩ := bind_eq_ok.1 h₁
  obtain ⟨hlabel, hs₁, hsilent, hcurrent⟩ := Otherwise.label_silent hs hnext
  have heq₁ := hs₁.equipped hs heq
  obtain ⟨hs₂, hcurrent', hfirst⟩ := guarded_emits hbody hgrows hs₁.laid heq₁ hguarded rfl
  obtain ⟨hs₃, hlast⟩ := ho exit next hlabel _ v a t hs₂.laid (hs₂.equipped hs₁.laid heq₁) hrest
  -- the trace goes through the parts one by one
  obtain ⟨_, x, hbranch, hblock⟩ := bind_eq_ok.1 hguarded
  obtain ⟨_, y, hopen, h₂⟩ := bind_eq_ok.1 hblock
  obtain ⟨jumped, z, hrun, hclose⟩ := bind_eq_ok.1 h₂
  rw [after_ok hnext, after_ok hbranch, after_ok hopen, after_ok hrun,
    after_ok hclose, ← List.append_assoc] at hevents
  rw [after_ok hbranch, after_ok hopen] at hs₂ hs₃ hfirst hlast
  rw [hevents, stashed_append]
  refine ⟨(hs₁.trans hs₂).trans hs₃, fun Γ hΓ J hJ hexit => ?_⟩
  rw [hcurrent', hcurrent] at hlast
  rw [hcurrent] at hfirst
  have hΓ₂ := hΓ.back hs₂.laid hs₃
  have hbefore := hfirst Γ hΓ₂ (pending J [(next, .within s.current)])
    (fun l p hl => .inl (hJ l p hl)) (.inr (List.mem_singleton_self _))
  have hafter := hlast Γ hΓ (pending J [(next, .within s.current)]) (fun l p hl => .inl (hJ l p hl))
    (.inl hexit)
  have hall := (((Emits.silent hsilent hs.target _).trans hbefore).trans hafter).settle (by simp)
  exact hall.restrict (fun ev hev _ => hev) (by simp)

end

/-- A conditional. -/
theorem Lower.IsPlain.conditional {c : Node} (hbody : body.IsStatement es) (hgrows : body.IsGrowing)
    (ho : o.IsRest) : (do
      let exit ← mintLabel "if_exit"
      let next ← o.label exit
      guarded next c.location c.evaluate body
      o.execute exit next : Lower Unit).IsPlain fun s =>
        (mintLabel "if_exit").after s fun exit t => (o.label exit).after t fun next u =>
          c.fragments u 0 ++ (branchUnless next c.location c.evaluate).after u fun _ v =>
            openBlock.after v fun _ w => es w ++ body.after w fun jumped x =>
              (closeBlock (!jumped)).after x fun _ y => o.trace exit next y := by
  intro F s a t hs heq h
  obtain ⟨exit, u, hexit, h₁⟩ := bind_eq_ok.1 h
  obtain ⟨hs₁, hsilent, hcurrent⟩ := mintLabel_silent hs hexit
  obtain ⟨hs₂, hemits⟩ := ho.arm hbody hgrows hs₁.laid (hs₁.equipped hs heq) h₁ rfl
  dsimp only
  rw [after_ok hexit]
  refine ⟨hs₁.trans hs₂, fun Γ hΓ J hJ => ?_⟩
  rw [hcurrent] at hemits
  have harm := hemits Γ hΓ (pending J [(exit, .within s.current)]) (fun l p hl => .inl (hJ l p hl))
    (.inr (List.mem_singleton_self _))
  have hall := ((Emits.silent hsilent hs.target _).trans harm).settle (fun _ h => h)
  exact hall.restrict (fun _ hev _ => hev) nofun

/-! ### Loops -/

section

variable {F : ScopeId → List Slot} {s t : State} {a : Unit} {f : LoopFrame}

/-- A round of a loop is opened. -/
theorem openLoop_emits (hs : Laid F s) (h : openLoop s = .ok f t) :
    Settles F s F t ∧ f.scope = t.current ∧
    t.here.parent = some s.current ∧ t.here.function = none ∧ t.here.loop = some f.exits ∧
    ∀ Γ, Γ.Holds F t → ∀ J, Emits Γ J s t (.within s.current) (.within t.current) []
    [(f.exits.top, .within s.current)] := by
  obtain ⟨hin, hscope, htarget⟩ := openLoop_inner hs.formed h
  obtain ⟨top, next, exit, done, u₁, u₂, u₃, u₄, id, v, htop, hnext, hexit, hdone, hopen, rfl,
    rfl⟩ := openLoop_eq_ok h
  obtain ⟨hs₁, hsilent₁, hcurrent₁⟩ := mintLabel_silent hs htop
  obtain ⟨hs₂, hsilent₂, hcurrent₂⟩ := mintLabel_silent hs₁.laid hnext
  obtain ⟨hs₃, hsilent₃, hcurrent₃⟩ := mintLabel_silent hs₂.laid hexit
  obtain ⟨hs₄, hsilent₄, hcurrent₄⟩ := mintLabel_silent hs₃.laid hdone
  have hs₅ := (((hs₁.trans hs₂).trans hs₃).trans hs₄).trans (.wrote hs₄.laid [.label top])
  have hcurrent : u₄.current = s.current := by rw [hcurrent₄, hcurrent₃, hcurrent₂, hcurrent₁]
  obtain ⟨hv, -, hblock, -, henter⟩ := openBlock_emits hs₅.laid hopen
  have hhere : (v.withScope { v.here with loop := some ⟨top, next, exit⟩ }).here =
      { v.here with loop := some ⟨top, next, exit⟩ } := State.here_withScope hv.laid.formed _
  have hfunction :
      (v.withScope { v.here with loop := some ⟨top, next, exit⟩ }).here.function = none := by
    rw [hhere]
    exact hblock
  have hlaid : Laid (growSlots F v.current [])
      (v.withScope { v.here with loop := some ⟨top, next, exit⟩ }) := by
    refine hv.laid.revise rfl rfl (fun hout => ?_) (fun _ => hblock) ?_ ?_
    · have hhome := hin.formed.ordered.home_of_block hin.formed.current_lt hfunction
      rw [show ScopeTree.scope _ _ = State.here _ from rfl, hin.parent,
        hin.onward.extends.home hs.formed.ordered hin.formed.ordered hs.current_lt] at hhome
      exact hhome.trans (hs.outside (htarget ▸ hout))
    · rw [List.append_nil]
      exact hv.laid.tiles _ hv.laid.current_lt
    · rw [List.append_nil]
      exact hv.laid.pending _ hv.laid.current_lt
  have hslots := @Settles.slots_withScope _ _ { v.here with loop := some ⟨top, next, exit⟩ } []
    hv.laid fun _ hx => hx
  rw [growSlots_nil] at hlaid hslots
  have hkept := fun i x hx => hslots i x ((hs₅.trans hv).slots i x hx)
  refine ⟨⟨hkept, hin.onward.extends, hlaid⟩, hscope, hin.parent, hfunction, by rw [hhere],
    fun Γ hΓ J => ?_⟩
  have hlabel : Emits Γ J u₄ (u₄.wrote [.label top]) (.within s.current) (.within s.current) []
      [(top, .within s.current)] := .emit hs₄.laid.target fun base => .label top _
  have hstays := hΓ.tree.scope _ hlaid.current_lt
  rw [show ScopeTree.scope (v.withScope _).tree (v.withScope _).current = State.here _ from rfl,
    hhere] at hstays
  have hopened := henter Γ J hΓ.current_lt hstays.parent (hstays.function.trans hblock)
    hstays.frameSize
  rw [show (u₄.wrote [.label top]).current = s.current from hcurrent] at hopened
  have hsilent := ((hsilent₁.trans hsilent₂).trans hsilent₃).trans hsilent₄
  have hmarked : v.Silent (v.withScope { v.here with loop := some ⟨top, next, exit⟩ }) :=
    .withScope hv.laid.formed rfl
  exact (((Emits.silent hsilent hs.target _).trans hlabel).trans hopened).trans
    (.silent hmarked hv.laid.target _)

/-- The end of a round leads back to the top, and the end of the last one out of the loop. -/
theorem closeLoop_emits {p : ScopeId} (hs : Laid F s) (hscope : f.scope = s.current)
    (hparent : s.here.parent = some p)
    (hfunction : s.here.function = none) (h : closeLoop f s = .ok a t) : Settles F s F t ∧
      ∀ Γ, Γ.Holds F t → ∀ J, J f.exits.top (.within p) →
        Emits Γ J s t (.within s.current) (.within p) []
        [(f.done, .within s.current), (f.exits.exit, .within p)] := by
  obtain ⟨_, u, hexit, h₁⟩ := bind_eq_ok.1 h
  obtain ⟨_, v, hjump, h₂⟩ := bind_eq_ok.1 h₁
  obtain ⟨_, w, hdone, h₃⟩ := bind_eq_ok.1 h₂
  obtain ⟨_, x, hclose, hlabel⟩ := bind_eq_ok.1 h₃
  obtain rfl := emit_eq_ok.1 hjump
  obtain rfl := emit_eq_ok.1 hdone
  obtain rfl := emit_eq_ok.1 hlabel
  rw [hscope] at hexit
  obtain ⟨code, hwrote, hpiece⟩ := exitFrame_piece (F := F) hs.current_lt hexit
  have hs₁ := ((hwrote.settles hs).trans (.wrote (hwrote.settles hs).laid [jmp f.exits.top])).trans
    (.wrote (Settles.wrote (hwrote.settles hs).laid [jmp f.exits.top]).laid [.label f.done])
  have hu : u.here = s.here ∧ u.current = s.current := by
    obtain ⟨session, -, rfl⟩ := hwrote
    exact ⟨rfl, rfl⟩
  obtain ⟨hs₂, -, hleave⟩ :=
    closeBlock_emits hs₁.laid (p := p) (hu.1 ▸ hparent) (hu.1 ▸ hfunction) hclose
  have hs₃ := Settles.wrote hs₂.laid [.label f.exits.exit]
  refine ⟨(hs₁.trans hs₂).trans hs₃, fun Γ hΓ J htop => ?_⟩
  have hΓ₂ := hΓ.back hs₂.laid hs₃
  have hΓs := hΓ₂.back hs (hs₁.trans hs₂)
  have hstays := hΓs.tree.scope _ hs.current_lt
  have hround :
      Emits Γ J s (u.wrote [jmp f.exits.top]) (.within s.current) (.within s.current) [] [] := by
    refine hwrote.jump (.within p) hs.target (fun base => ?_) htop
      (hΓs.block hparent hfunction).1.symm
    have hall := hpiece Γ hΓs (hstays.function.trans hfunction) J s.target base
    rwa [hstays.parent.trans hparent] at hall
  have hdone :
      Emits Γ J (u.wrote [jmp f.exits.top]) _ (.within s.current) (.within s.current) [] _ :=
    .emit (hwrote.settles hs).laid.target fun _ => .label f.done _
  have hlast := hleave Γ hΓ₂ J
  rw [if_pos rfl, show ((u.wrote [jmp f.exits.top]).wrote [.label f.done]).current = s.current from
    hu.2] at hlast
  have hout : Emits Γ J x _ (.within p) (.within p) [] _ :=
    .emit hs₂.laid.target fun _ => .label f.exits.exit _
  exact ((hround.trans hdone).trans hlast).trans hout

end

/-- A statement may be told of with fewer events. -/
theorem Lower.IsStatement.restrict {x : Lower Bool} (hx : x.IsStatement es)
    (h : ∀ s, ∀ ev ∈ fs s, ev.spot? ≠ none → ev ∈ es s)
    (hstash : ∀ F s, stashed F (fs s) = stashed F (es s)) : x.IsStatement fs := by
  intro F s jumped t hs heq hrun
  obtain ⟨hs', hemits⟩ := hx F s jumped t hs heq hrun
  rw [hstash]
  exact ⟨hs', fun Γ hΓ J hJ m' hm hm' => (hemits Γ hΓ J hJ m' hm hm').restrict (h s) fun _ h => h⟩

/-- Nothing at all. -/
theorem Lower.IsStatement.pure : (return false : Lower Bool).IsStatement fun _ => [] := by
  intro F s jumped t hs _ h
  obtain ⟨rfl, rfl⟩ := pure_eq_ok.1 h
  rw [stashed_nil]
  refine ⟨.refl hs, fun Γ _ J _ m' _ hm' => ?_⟩
  rw [hm' rfl]
  exact .silent (.quiet (.refl _)) hs.target _

/-- A loop. -/
theorem Lower.IsPlain.loop {c : Node} {l : Location} {post : Lower Bool}
    (hbody : body.IsStatement es)
    (hgrows : body.IsGrowing) (hpost : post.IsStatement fs) (hgrows' : post.IsGrowing) :
    (loop l c.evaluate body post).IsPlain fun s => openLoop.after s fun f t => c.fragments t 0 ++
      (branchUnless f.done l c.evaluate).after t fun _ u => es u ++ body.after u fun _ v =>
        (emit [.label f.exits.next]).after v fun _ w => fs w := by
  intro F s a t hs heq h
  obtain ⟨f, u, hopen, h₁⟩ := bind_eq_ok.1 h
  obtain ⟨_, v, hbranch, h₂⟩ := bind_eq_ok.1 h₁
  obtain ⟨jumped, w, hrun, h₃⟩ := bind_eq_ok.1 h₂
  obtain ⟨_, x, hnext, h₄⟩ := bind_eq_ok.1 h₃
  obtain ⟨jumped', y, hstep, hclose⟩ := bind_eq_ok.1 h₄
  obtain ⟨hs₁, hscope, hparent, hblock, hloop, hopened⟩ := openLoop_emits hs hopen
  have heq₁ := hs₁.equipped hs heq
  obtain ⟨hs₂, hcurrent, hbranched⟩ := branchUnless_emits hs₁.laid heq₁ hbranch
  have heq₂ := hs₂.equipped hs₁.laid heq₁
  obtain ⟨hs₃, hran⟩ := hbody _ v jumped w hs₂.laid heq₂ hrun
  have hx := emit_eq_ok.1 hnext
  have hs₄ := Settles.wrote hs₃.laid [.label f.exits.next]
  rw [← hx] at hs₄
  have heq₄ := hs₄.equipped hs₃.laid (hs₃.equipped hs₂.laid heq₂)
  obtain ⟨hs₅, hstepped⟩ := hpost _ x jumped' y hs₄.laid heq₄ hstep
  -- the scope is that of the round all the way
  have hg₂ := IsGrowing.law.branchUnless f.done l c.evaluate_quiet.growing _ _ _
    hs₁.laid.formed hbranch
  have hg₃ := hg₂.trans (hgrows _ _ _ hs₂.laid.formed hrun)
  have hg₄ := hg₃.trans (IsGrowing.emit _ _ _ _ hs₃.laid.formed hnext)
  have hg₅ := hg₄.trans (hgrows' _ _ _ hs₄.laid.formed hstep)
  obtain ⟨hs₆, hclosed⟩ :=
    closeLoop_emits hs₅.laid (hscope.trans hg₅.current.symm) (hg₅.here.parent.trans hparent)
    (hg₅.here.function.trans hblock) hclose
  dsimp only
  rw [after_ok hopen, after_ok hbranch, after_ok hrun, after_ok hnext, ← List.append_assoc,
    stashed_append, stashed_append]
  refine ⟨((hs₁.trans hs₂).trans (hs₃.trans hs₄)).trans (hs₅.trans hs₆), fun Γ hΓ J hJ => ?_⟩
  have hΓ₅ := hΓ.back hs₅.laid hs₆
  have hΓ₃ := hΓ₅.back hs₃.laid (hs₄.trans hs₅)
  have hΓ₂ := hΓ₃.back hs₂.laid hs₃
  have hΓ₁ := hΓ₂.back hs₁.laid hs₂
  generalize hK : pending J [(f.exits.top, .within s.current), (f.exits.next, .within u.current),
    (f.done, .within u.current), (f.exits.exit, .within s.current)] = K
  have hlabel :
      ∀ {l p}, (l, p) ∈ [(f.exits.top, Spot.within s.current), (f.exits.next, .within u.current),
        (f.done, .within u.current), (f.exits.exit, .within s.current)] → K l p := fun h =>
      hK ▸ .inr h
  have haims : ∀ l p, Γ.Aims u.current l p → K l p := fun l p hl => by
    rcases (hΓ₁.block hparent hblock).2 l p hl with hl | ⟨m, hm, hl⟩
    · exact hK ▸ .inl (hJ l p hl)
    · rw [hloop] at hm
      cases hm
      rcases hl with ⟨rfl, rfl⟩ | ⟨rfl, rfl⟩ <;> exact hlabel (by simp)
  have hfirst := (hopened Γ hΓ₁ K).trans (hbranched Γ hΓ₂ K (hlabel (by simp)))
  rw [hg₂.current] at hran
  rw [hg₄.current] at hstepped
  rw [hg₅.current] at hclosed
  have hround := hfirst.trans (hran Γ hΓ₃ K haims (.within u.current) rfl fun _ => rfl)
  have hnexted : Emits Γ K w x (.within u.current) (.within u.current) []
      [(f.exits.next, .within u.current)] := by
    rw [hx]
    exact .emit hs₃.laid.target fun _ => .label f.exits.next _
  have hrest := (hstepped Γ hΓ₅ K haims (.within u.current) rfl fun _ => rfl).trans
    (hclosed Γ hΓ K (hlabel (by simp)))
  have hall := (hround.trans hnexted).trans hrest
  rw [← hK] at hall
  refine (hall.settle (by simp)).restrict (fun ev hev _ => ?_) nofun
  simpa only [List.append_assoc, List.nil_append, List.append_nil] using hev

end KuAsm
