import KuAsm.Proofs.Departure

/-!
# What compiling a statement may change

Compiling a statement adds to the scope it stands in, to the tree of scopes below that scope, to the
listing and to the counters.  Whatever else was there before is there afterwards, and the same scope
and section are being worked in.  That names, sections and counters only grow is said in
`KuAsm.Proofs.Growth`.  This module adds what becomes of the values that a scope has to release: a
statement may take a value out of the free set, but only one that it has put there itself.

## Main statements

* `Lower.Spares n x`: the action `x` leaves alone the entries of the free set whose ids are less
  than `n`.
* `Node.execute_spares`: compiling a statement leaves alone the entries that were there before.
* `statement_effect`: the whole effect of compiling a statement.
-/

namespace KuAsm

open Lower

variable {body : Lower Bool} {condition : Lower Lowered} {n : Nat} {s t : State} {a : Unit}

/-! ### Entries of a free set -/

namespace FreeSet

/-- The entries whose ids are less than `n`. -/
def before (fs : FreeSet) (n : Nat) : List (ReclaimId × Staged) :=
  fs.entries.filter (·.1.number < n)

theorem before_eq_entries {fs : FreeSet} (h : ∀ x ∈ fs.entries, x.1.number < n) :
    fs.before n = fs.entries :=
  List.filter_eq_self.2 fun x hx => decide_eq_true (h x hx)

/-- Entries stand in the order of their ids, so those with small ids stand in front. -/
theorem before_isPrefix (fs : FreeSet) (n : Nat) : fs.before n <+: fs.entries := by
  obtain ⟨xs, hascending⟩ := fs
  show xs.filter (·.1.number < n) <+: xs
  induction xs with
  | nil => exact List.prefix_refl _
  | cons x xs ih =>
    obtain ⟨hx, hxs⟩ := List.pairwise_cons.1 hascending
    by_cases hlt : x.1.number < n
    · rw [List.filter_cons_of_pos (by simpa using hlt)]
      exact List.cons_prefix_cons.2 ⟨rfl, ih hxs⟩
    · have hnone : (x :: xs).filter (·.1.number < n) = [] := by
        refine List.filter_eq_nil_iff.2 fun y hy => ?_
        rcases List.mem_cons.1 hy with rfl | hy
        · simpa using hlt
        · have := hx y hy
          simp only [decide_eq_true_eq]
          omega
      rw [hnone]
      exact List.nil_prefix

theorem before_insert (fs : FreeSet) {id : ReclaimId} (e : Staged) (h : n ≤ id.number) :
    (fs.insert id e).before n = fs.before n := by
  have hnew : ∀ xs : List (ReclaimId × Staged),
      ((id, e) :: xs).filter (·.1.number < n) = xs.filter (·.1.number < n) := fun xs =>
    List.filter_cons_of_neg (by simpa using h)
  show (insertEntry id e fs.entries).filter _ = fs.entries.filter _
  induction fs.entries with
  | nil => exact hnew []
  | cons x xs ih =>
    unfold insertEntry
    split
    · exact hnew _
    · split
      · next heq =>
        rw [hnew, List.filter_cons_of_neg (by rw [← heq]; simpa using h)]
      · rw [List.filter_cons, List.filter_cons, ih]

theorem before_erase (fs : FreeSet) {id : ReclaimId} (h : n ≤ id.number) :
    (fs.erase id).before n = fs.before n := by
  show (fs.entries.filter (·.1 != id)).filter _ = _
  rw [List.filter_filter]
  refine List.filter_congr fun x _ => ?_
  by_cases hlt : x.1.number < n
  · have hne : x.1 ≠ id := fun heq => by
      rw [heq] at hlt
      omega
    simp [hlt, hne]
  · simp [hlt]

end FreeSet

/-- The action adds to the state, and it leaves alone the entries of the free set whose ids are less
than `n`, provided that these ids are not to be made any more. -/
def Lower.Spares (n : Nat) {α : Type} (x : Lower α) : Prop :=
  ∀ s a t, s.Formed → n ≤ s.session.nextReclaim → x s = .ok a t →
    s.Grows t ∧ t.here.freeSet.before n = s.here.freeSet.before n

namespace Lower

variable {n : Nat} {α β : Type}

theorem Spares.of_freeSet {x : Lower α} (hx : x.IsGrowing)
    (h : ∀ s a t, s.Formed → x s = .ok a t → t.here.freeSet = s.here.freeSet) : x.Spares n :=
  fun s a t hs _ hrun => ⟨hx s a t hs hrun, by rw [h s a t hs hrun]⟩

theorem Spares.bind {x : Lower α} {f : α → Lower β} (hx : x.Spares n) (hf : ∀ a, (f a).Spares n) :
    (x >>= f).Spares n := by
  intro s b t hs hn h
  obtain ⟨a, u, hxa, hfa⟩ := bind_eq_ok.1 h
  obtain ⟨hsu, hbefore⟩ := hx s a u hs hn hxa
  obtain ⟨hut, hafter⟩ := hf a u b t hsu.formed (Nat.le_trans hn hsu.reclaims) hfa
  exact ⟨hsu.trans hut, hafter.trans hbefore⟩

theorem Spares.session {f : Session → α × Session} (hx : (withSession f).IsGrowing) :
    (withSession f).Spares n :=
  .of_freeSet hx fun s a t _ h => by
    obtain ⟨-, rfl⟩ := withSession_eq_ok.1 h
    rfl

theorem Spares.emit (code : Code) : (emit code).Spares n :=
  .of_freeSet (.emit code) fun s a t _ h => by
    obtain rfl := emit_eq_ok.1 h
    rfl

/-- A new heap value enters the free set behind the entries that are there. -/
theorem Spares.registerFresh : registerFresh.Spares n := by
  rintro s ⟨code, id⟩ t hs hn h
  have hquiet := IsQuiet.registerFresh s _ t hs h
  obtain ⟨rfl, -, htree⟩ := registerFresh_stages hs h
  refine ⟨hquiet.grows hs, ?_⟩
  unfold State.here
  rw [hquiet.current, htree, ScopeTree.scope_set_self _ hs.current_lt]
  exact FreeSet.before_insert _ _ hn

/-- Sparing old entries is a law that admits rejecting and writing. -/
theorem Spares.law : StatementLaw (@Spares n) where
  pure a := .of_freeSet (.pure a) fun s b t _ h => by
    obtain ⟨-, rfl⟩ := pure_eq_ok.1 h
    rfl
  bind := .bind
  read hf s b t hs hn h := hf s s b t hs hn (get_bind_eq_ok.1 h)
  fault f s a t hs hn h := (throw_eq_ok.1 h).elim
  reject c l s a t hs hn h := (reject_eq_ok.1 h).elim
  mintLabel hint := .session (IsGrowing.law.mintLabel hint)
  tell n := .session (IsGrowing.law.tell n)
  recordCall name := .session (IsGrowing.law.recordCall name)
  recordFree := .session IsGrowing.law.recordFree
  reserve size := .of_freeSet (IsGrowing.law.reserve size) fun s a t hs h => by
    obtain ⟨-, -, rfl⟩ := reserve_eq_ok.1 h
    rw [State.here_withScope hs]
  place text := .of_freeSet (IsGrowing.law.place text) fun s a t _ h => by
    obtain ⟨-, rfl⟩ := place_eq_ok.1 h
    rfl
  registerFresh := .registerFresh
  weaken hrun _ _ hy s a t hs hn h := hy s a t hs hn (hrun s a t h)
  emit := .emit

/-! ### Declarations and assignments -/

/-- Taking over a value takes it out of the free set. -/
theorem Spares.takeOwnership {o : Ownership} (ho : ∀ id, o = .fresh id → n ≤ id.number)
    (name : String) (l : Location) : (takeOwnership o name l).Spares n := by
  rintro s ⟨code, id?⟩ t hs hn h
  refine ⟨(IsQuiet.takeOwnership o name l s _ t hs h).grows hs, ?_⟩
  cases o with
  | fresh id =>
    obtain ⟨-, -, rfl⟩ := takeOwnership_fresh_eq_ok h
    show (s.withScope _).here.freeSet.before n = _
    rw [State.here_withScope hs]
    exact FreeSet.before_erase _ (ho id rfl)
  | borrowed id =>
    obtain ⟨-, -, journal, rfl⟩ := takeOwnership_other_eq_ok (fun _ h => by cases h) h
    rfl
  | plain =>
    obtain ⟨-, -, journal, rfl⟩ := takeOwnership_other_eq_ok (fun _ h => by cases h) h
    rfl

theorem Spares.getDM (id? : Option ReclaimId) : (id?.getDM mintReclaim).Spares n := by
  cases id? with
  | none => exact .session IsQuiet.mintReclaim.growing
  | some id => exact law.pure _

/-- Declaring a variable leaves the free set as it is. -/
theorem freeSet_declared (hs : s.Formed) {name : String} {ty : ScalarType} {l : Location}
    {v : Variable} {sc : Scope}
    (h : s.here.declareVariable name ty l = .ok (v, sc)) :
    (s.withScope sc).here.freeSet = s.here.freeSet := by
  obtain ⟨-, -, used, -, rfl⟩ := Scope.declareVariable_eq_ok h
  rw [State.here_withScope hs]

theorem Spares.declare (name : String) (ty : ScalarType) (l : Location) {value : Lower Lowered}
    (hvalue : value.Spares n) (hmint : IsMinting value) : (declare name ty l value).Spares n := by
  intro s a t hs hn h
  cases hty : ty.isHeap with
  | false =>
    obtain ⟨v, u, sc, note, m, hv, hsc, -, hm, rfl⟩ := declare_plain_eq_ok hty h
    obtain ⟨hu, hbefore⟩ := hvalue s v u hs hn hv
    have hd := State.Grows.declared hu.formed hty hsc hm
    refine ⟨(hu.trans hd).trans (.wrote hd.formed _), ?_⟩
    show (u.withScope sc).here.freeSet.before n = _
    rw [freeSet_declared hu.formed hsc]
    exact hbefore
  | true =>
    obtain ⟨v, u, sc, note, m, c, taken, id?, w, id, x, hv, hsc, -, hm, -, hw, hx, rfl⟩ :=
      declare_heap_eq_ok hty h
    obtain ⟨hu, hbefore⟩ := hvalue s v u hs hn hv
    have hd := hu.formed.declared hsc
    have hnd := Nat.le_trans hn hu.reclaims
    have hown : ∀ id, v.ownership = .fresh id → n ≤ id.number := fun id hid =>
      Nat.le_trans hn (hmint s v u id hs hv hid).1
    obtain ⟨hgw, hbw⟩ := Spares.takeOwnership hown name l _ _ _ hd hnd hw
    obtain ⟨hgx, hbx⟩ := Spares.getDM id? _ _ _ hgw.formed (Nat.le_trans hnd hgw.reclaims) hx
    have hquiet := (IsQuiet.takeOwnership _ _ _ _ _ _ hd hw)
    have hquiet := hquiet.trans (IsQuiet.getDM id? _ _ _ (hquiet.formed hd) hx)
    have hb := State.Grows.bound hu.formed hty hsc hm hquiet id
    refine ⟨(hu.trans hb).trans (.wrote hb.formed _), ?_⟩
    show (x.withScope (x.here.bind name id)).here.freeSet.before n = _
    rw [State.here_withScope hgx.formed]
    show x.here.freeSet.before n = _
    rw [hbx, hbw, freeSet_declared hu.formed hsc]
    exact hbefore

theorem Spares.assign (name : String) (l : Location) {value : ScalarType → Lower Lowered}
    (hvalue : ∀ ty, (value ty).Spares n) (hmint : ∀ ty, IsMinting (value ty)) :
    (assign name l value).Spares n := by
  intro s a t hs hn h
  obtain ⟨r, x, v, u, -, hv, hrest⟩ := assign_eq_ok h
  obtain ⟨hu, hbefore⟩ := hvalue x.ty s v u hs hn hv
  suffices hut : u.Grows t ∧ t.here.freeSet.before n = u.here.freeSet.before n from
    ⟨hu.trans hut.1, hut.2.trans hbefore⟩
  rcases hrest with ⟨-, m, -, rfl⟩ | ⟨cell, -, -, note, -, rfl⟩ | ⟨cell, -, -, hreplace⟩
  · exact ⟨.wrote hu.formed _, rfl⟩
  · exact ⟨.wrote hu.formed _, rfl⟩
  · have hown : ∀ id, v.ownership = .fresh id → n ≤ id.number := fun id hid =>
      Nat.le_trans hn (hmint x.ty s v u id hs hv hid).1
    exact law.replaceString x cell r.depth (.takeOwnership hown _ _) u a t hu.formed
      (Nat.le_trans hn hu.reclaims) hreplace

/-! ### Blocks, loops and functions -/

/-- Going back from a scope changes no scope around it. -/
theorem closeBlock_others {u : State} {reachable : Bool} (ht : s.Inner t)
    (h : closeBlock reachable t = .ok a u)
    {i : Nat} (hi : i < s.tree.size) : u.tree.scope i = s.tree.scope i := by
  obtain ⟨v, w, hleave, hdef, rfl⟩ := closeBlock_eq_ok h
  have hv := IsGrowing.law.ite (IsGrowing.law.exitFrame _ _) (.pure _) t _ v ht.formed hleave
  have hw := hv.trans (IsGrowing.law.defineFrameSize _ _ _ _ hv.formed hdef)
  exact (ht.grow hw).others i hi

/-- A block leaves the scope around it as it is. -/
theorem block_here (hbody : body.IsGrowing) (hs : s.Formed) (h : block body s = .ok a t) :
    t.here = s.here := by
  have hgrows := IsGrowing.block hbody s a t hs h
  obtain ⟨id, u, hopen, h₁⟩ := bind_eq_ok.1 h
  obtain ⟨jumped, v, hrun, hclose⟩ := bind_eq_ok.1 h₁
  obtain ⟨hin, -, -⟩ := openBlock_inner hs hopen
  have hv := hbody u jumped v hin.formed hrun
  unfold State.here
  rw [hgrows.current, closeBlock_others (hin.grow hv) hclose hs.current_lt]

/-- A loop leaves the scope around it as it is. -/
theorem loop_here (l : Location) (hc : condition.IsGrowing) {post : Lower Bool}
    (hbody : body.IsGrowing)
    (hpost : post.IsGrowing) (hs : s.Formed) (h : loop l condition body post s = .ok a t) :
    t.here = s.here := by
  have hgrows := IsGrowing.loop l hc hbody hpost s a t hs h
  obtain ⟨f, u, v, _, w, _, x, hopen, hbranch, hrun, hstep, hend⟩ := loop_eq_ok h
  obtain ⟨hin, -, -⟩ := openLoop_inner hs hopen
  have hg₁ := IsGrowing.law.branchUnless _ _ hc _ _ _ hin.formed hbranch
  have hg₂ := hg₁.trans (hbody _ _ _ hg₁.formed hrun)
  have hg₃ := hg₂.trans (.wrote hg₂.formed [.label f.exits.next])
  have hg₄ := hg₃.trans (hpost _ _ _ hg₃.formed hstep)
  -- the end of the last round
  obtain ⟨y, z, hexit, hclose, rfl⟩ := closeLoop_eq_ok hend
  have hg₅ := hg₄.trans (IsGrowing.law.exitFrame _ _ _ _ _ hg₄.formed hexit)
  unfold State.here
  rw [hgrows.current]
  exact closeBlock_others (hin.grow (hg₅.trans (.wrote hg₅.formed _))) hclose hs.current_lt

/-- A function is added to the scope that declares it, and nothing else is. -/
theorem defineFunction_here (name : String) (params : List Param) (ret : ScalarType) (l : Location)
    {body : FunctionExit → Lower Unit} (hbody : ∀ exit, (body exit).IsGrowing) (hs : s.Formed)
    (h : defineFunction name params ret l body s = .ok a t) :
    ∃ f, t.here = { s.here with functions := s.here.functions ++ [f] } := by
  have hgrows := IsGrowing.defineFunction name params ret l hbody s a t hs h
  obtain ⟨g, v, hopen, h₁⟩ := bind_eq_ok.1 h
  obtain ⟨_, w, hrun, hclose⟩ := bind_eq_ok.1 h₁
  obtain ⟨f, skip, u, exit, o, note, copies, x, hannounce, hbodyo, -, hcopies, rfl, rfl⟩ :=
    openFunction_eq_ok hopen
  have hu := IsGrowing.announce _ _ _ _ _ _ _ hs hannounce
  have hin := openBody_inner hu.formed hbodyo
  have hx := IsGrowing.bindParams l 0 params _ _ _ hin.formed hcopies
  have hw := (hx.trans (.wrote hx.formed _)).trans (hbody _ _ _ _ (hx.formed.wrote _) hrun)
  obtain ⟨code, -, -, -, -, -, rfl⟩ := closeFunction_eq_ok hclose
  have hlt : s.current < u.tree.size := Nat.lt_of_lt_of_le hs.current_lt hu.size
  unfold State.here
  rw [hgrows.current]
  refine ⟨f, ((hin.grow (hw.trans (.wrote hw.formed code))).others s.current hlt).trans ?_⟩
  obtain ⟨-, -, -, rfl⟩ := announce_eq_ok hannounce
  exact ScopeTree.scope_set_self _ hs.current_lt

/-- A law about the current scope.  It does not matter what happens in scopes inside, nor which
functions the scope has. -/
structure LocalLaw (Φ : ∀ {α : Type}, Lower α → Prop) : Prop extends StatementLaw Φ where
  apart : ∀ {α : Type} {x : Lower α}, x.IsGrowing →
    (∀ s a t, s.Formed → x s = .ok a t → ∃ functions, t.here = { s.here with functions }) → Φ x
  assign : ∀ (name : String) (value : Node) (l l' : Location),
    Φ (assign name l fun ty => expect ty l' value.evaluate)

namespace LocalLaw

variable {Φ : ∀ {α : Type}, Lower α → Prop} (h : LocalLaw Φ)
include h

theorem block (hbody : body.IsGrowing) : Φ (block body) :=
  h.apart (.block hbody) fun s _ _ hs hrun => ⟨s.here.functions, block_here hbody hs hrun⟩

theorem loop (l : Location) (hc : condition.IsGrowing) {post : Lower Bool} (hbody : body.IsGrowing)
    (hpost : post.IsGrowing) : Φ (loop l condition body post) :=
  h.apart (.loop l hc hbody hpost) fun s _ _ hs hrun =>
    ⟨s.here.functions, loop_here l hc hbody hpost hs hrun⟩

theorem guarded (target : Label) (l : Location) (condition : Node) (hbody : body.IsGrowing) :
    Φ (guarded target l condition.evaluate body) :=
  h.bind (h.branchUnless target l (h.evaluate condition)) fun _ => h.block hbody

theorem defineFunction (name : String) (params : List Param) (ret : ScalarType) (l : Location)
    {body : FunctionExit → Lower Unit} (hbody : ∀ exit, (body exit).IsGrowing) :
    Φ (defineFunction name params ret l body) := by
  refine h.apart (.defineFunction name params ret l hbody) fun s a t hs hrun => ?_
  obtain ⟨f, hf⟩ := defineFunction_here name params ret l hbody hs hrun
  exact ⟨_, hf⟩

theorem markIncluded (path : String) : Φ (withSession (·.markIncluded path)) :=
  h.apart (.markIncluded path) fun s _ _ _ hrun =>
    ⟨s.here.functions, by rw [(withSession_eq_ok.1 hrun).2]; rfl⟩

end LocalLaw

end Lower

/-- The statement adds no variable to the scope that it stands in. -/
def Form.isLocal : Form → Bool
  | .declare .. | .included .. => false
  | _ => true

/-- A law about the current scope holds of every statement, except that declarations and included
files are left to be looked at. -/
theorem Lower.LocalLaw.cases {Φ : ∀ {α : Type}, Lower α → Prop} (h : LocalLaw Φ) {P : Node → Prop}
    {Q : List Node → Prop} (plain : ∀ {form l}, form.isLocal = true → Φ (Node.mk form l).execute →
      P (.mk form l)) (declare : ∀ {name ty value l}, P (.mk (.declare name ty value) l))
    (included : ∀ {path program l}, Q program → P (.mk (.included path program) l))
    (nil : Q []) (cons : ∀ {n ns}, P n → Q ns → Q (n :: ns)) :
    StatementCases P Q fun o => ∀ exit next, Φ (o.execute exit next) where
  function _ := plain rfl (by
    unfold Node.execute
    exact h.bind (h.defineFunction _ _ _ _
        (IsGrowing.law.functionBody _ (Node.executeAll_grows _ _))) fun _ =>
      h.pure _)
  declare := declare
  assign := plain rfl (by
    unfold Node.execute
    exact h.bind (h.assign _ _ _ _) fun _ => h.pure _)
  store := plain rfl (by
    unfold Node.execute
    exact h.bind (h.storeAt (h.evaluate _) (h.evaluate _) _) fun _ => h.pure _)
  conditional _ hrest := plain rfl (by
    unfold Node.execute
    exact h.bind (h.mintLabel _) fun exit => h.bind (h.otherwiseLabel exit _) fun next =>
      h.bind (h.guarded _ _ _ (Node.executeAll_grows _ _)) fun _ => h.bind (hrest exit next)
        fun _ => h.pure _)
  whileLoop _ := plain rfl (by
    unfold Node.execute
    exact h.bind (h.loop _ (IsGrowing.law.evaluate _) (Node.executeAll_grows _ _) (.pure _))
      fun _ => h.pure _)
  forLoop _ _ _ := plain rfl (by
    unfold Node.execute
    exact h.bind (h.block (.bind (Node.execute_grows _) fun _ =>
      .bind (.loop _ (IsGrowing.law.evaluate _) (Node.executeAll_grows _ _) (Node.execute_grows _))
          fun _ =>
        .pure _)) fun _ => h.pure _)
  included := included
  breakLoop := plain rfl (h.bind (h.leaveLoop _) fun _ => h.pure _)
  continueLoop := plain rfl (h.bind (h.nextRound _) fun _ => h.pure _)
  ret := plain rfl (h.bind (h.leaveFunction _ (h.evaluateOr _)) fun _ => h.pure _)
  call := plain rfl (by
    unfold Node.execute
    exact h.bind (h.evaluate _) fun _ => h.bind (h.emit _) fun _ => h.pure _)
  step := plain rfl (h.bind (h.stepVariable _ _ _ _) fun _ => h.bind (h.emit _) fun _ => h.pure _)
  misplaced {form l} hform := plain (by cases form <;> first | rfl | cases hform) (by
    rw [Node.execute_misplaced hform]
    exact h.reject _ _)
  nil := nil
  cons := cons
  absent exit next := h.emit _
  block _ exit next := by
    unfold Otherwise.execute
    exact h.bind (h.emit _) fun _ => h.bind (h.block (Node.executeAll_grows _ _)) fun _ => h.emit _
  chained _ hrest exit next := by
    unfold Otherwise.execute
    exact h.bind (h.emit _) fun _ => h.bind (h.otherwiseLabel exit _) fun next =>
      h.bind (h.guarded _ _ _ (Node.executeAll_grows _ _)) fun _ => hrest exit next
  misplacedElse hform exit next := by
    rw [Otherwise.execute_misplaced hform]
    exact h.bind (h.emit _) fun _ => h.reject _ _

open Lower in
theorem Lower.Spares.localLaw : LocalLaw (@Spares n) where
  toStatementLaw := law
  apart hx h := .of_freeSet hx fun s a t hs hrun => by
    obtain ⟨functions, hhere⟩ := h s a t hs hrun
    rw [hhere]
  assign name value l l' := .assign name l (fun _ => law.expect (law.evaluate _)) fun _ =>
    .expect (.evaluate _)

open Lower Spares in
theorem Node.execute_sparesCases (n : Nat) :
    StatementCases (fun m => m.execute.Spares n) (fun ms => ∀ jumped,
      (Node.executeAll jumped ms).Spares n)
      (fun o => ∀ exit next, (o.execute exit next).Spares n) := by
  refine localLaw.cases (fun _ h => h) ?_ (fun hprogram => ?_) (fun jumped => ?_)
    fun hn hns jumped => ?_
  · intro name ty value l
    unfold Node.execute
    exact .bind (.declare _ _ _ (law.evaluateOr _ _) (.evaluateOr _ _)) fun _ => law.pure _
  · unfold Node.execute
    refine .bind (localLaw.markIncluded _) fun new => law.ite ?_ ?_
    · exact .bind (law.remark _) fun _ => .bind (.emit _) fun _ => .bind (hprogram false) fun _ =>
        law.pure _
    · exact .bind (law.tell _) fun _ => law.pure _
  · unfold Node.executeAll
    exact law.pure _
  · unfold Node.executeAll
    exact .bind hn fun jumped => hns jumped

/-- Compiling a statement leaves alone the entries of the free set that were there before. -/
theorem Node.execute_spares (m : Node) (n : Nat) : m.execute.Spares n :=
  (Node.execute_sparesCases n).node m

/-! ### The effect of a statement -/

/-- The scope `b` is the scope `a` with more names, more bytes reserved and more values to
release. -/
structure Scope.Extends (a b : Scope) : Prop extends a.Grows b where
  freeSet : a.freeSet.entries <+: b.freeSet.entries

/-- What compiling a statement does to a state. -/
structure State.Extends (s t : State) : Prop where
  current : t.current = s.current
  root : t.root = s.root
  target : t.target = s.target
  /-- The scopes around the current one, beside it and below it stay as they are. -/
  others : ∀ i : Nat, i < s.tree.size → i ≠ s.current → t.tree.scope i = s.tree.scope i
  here : s.here.Extends t.here
  size : s.tree.size ≤ t.tree.size
  /-- New scopes lie inside the current one. -/
  inside : ∀ i : Nat, s.tree.size ≤ i → i < t.tree.size → s.current ∈ t.tree.path i
  sections : ∀ x, s.listing.lines x <+: t.listing.lines x
  literals : s.listing.literals <+: t.listing.literals
  labels : s.session.nextLabel ≤ t.session.nextLabel
  reclaims : s.session.nextReclaim ≤ t.session.nextReclaim

/-- The values to release in a scope have ids that were made before. -/
theorem Kept.entry_lt {base : Nat} {spent : List ReclaimId} (h : Kept base spent s)
    {x : ReclaimId × Staged}
    (hx : x ∈ s.here.freeSet.entries) : x.1.number < s.session.nextReclaim := by
  have hheld := State.held_le_of_mem h.formed.here_mem x.1
  have hcount : 0 < s.here.stagedIds.count x.1 := List.count_pos_iff.2 (List.mem_map_of_mem hx)
  have hbooks := h.conserved x.1
  unfold Scope.held at hheld
  unfold State.made at hbooks
  split at hbooks
  · next hmade => exact hmade.2
  · omega

/-- **The effect of a statement.**  Whatever statement is compiled in a state that a compilation
reaches between two statements: if it is accepted, the current scope, the root and the section are
the same afterwards; all other scopes are as they were; the current scope has all its variables,
functions, exits and values to release, and no less of its frame is reserved; new scopes come behind
the old ones and lie inside the current scope; sections and literals have at most got longer; and no
counter has gone back. -/
theorem statement_effect {p : Program} {session : Session} {comments : Bool} {ev : Event}
    {s : State} (hev : ev ∈ p.trace session comments) (hs : ev.between? = some s) {n : Node}
    {jumped : Bool} {t : State} (h : n.execute s = .ok jumped t) : s.Extends t := by
  obtain ⟨spent, hkept⟩ := Program.kept_of_mem_trace hev hs
  obtain ⟨hgrows, hbefore⟩ :=
    n.execute_spares s.session.nextReclaim s jumped t hkept.formed (Nat.le_refl _) h
  have hall : s.here.freeSet.before s.session.nextReclaim = s.here.freeSet.entries :=
    FreeSet.before_eq_entries fun x hx => hkept.entry_lt hx
  have hfree : s.here.freeSet.entries <+: t.here.freeSet.entries := by
    rewrite [← hall, ← hbefore]
    exact FreeSet.before_isPrefix _ _
  exact
    { current := hgrows.current, root := hgrows.root, target := hgrows.target
      others := hgrows.others, size := hgrows.size
      here := { hgrows.here with freeSet := hfree }
      inside := fun i hi hlt => (hgrows.inside i hi hlt).1
      sections := hgrows.sections, literals := hgrows.literals
      labels := hgrows.labels, reclaims := hgrows.reclaims }

/-- A value that nobody owns, and a string. -/
def measured : Program :=
  ⟨[.unplaced (.call "len"
    [.unplaced (.binary .add (.unplaced (.str "a")) (.unplaced (.str "b")))]),
    .unplaced (.declare "s" .string none)]⟩

/-- A function that joins strings in a block of its body. -/
def joining : Node :=
  .unplaced (.function "f" [] .integer
    [.unplaced (.whileLoop (.unplaced (.bool true))
      [.unplaced (.declare "t" .string (some (.unplaced (.binary .add (.unplaced (.str "b"))
        (.unplaced (.str "c"))))))])])

/-- Where a value is still to be released and a string is declared, the function opens two
scopes. -/
theorem statement_effect_measured : ∃ ev s jumped t, ev ∈ measured.trace .empty false ∧
    ev.between? = some s ∧ joining.execute s = .ok jumped t ∧ s.here.freeSet.entries ≠ [] ∧
    s.here.vars ≠ [] ∧ s.tree.size + 2 = t.tree.size ∧ s.Extends t := by
  have hfound : ((measured.trace .empty false).any fun ev => ev.between?.any fun s =>
      match joining.execute s with
      | .ok _ t => s.here.freeSet.entries ≠ [] ∧ s.here.vars ≠ [] ∧ s.tree.size + 2 = t.tree.size
      | .error _ _ => false) = true := by
    decide +kernel
  obtain ⟨ev, s, hev, hs, hany⟩ := Event.exists_of_any hfound
  cases h : joining.execute s with
  | error _ _ =>
    rw [h] at hany
    cases hany
  | ok jumped t =>
    rw [h] at hany
    obtain ⟨hfree, hvars, hsize⟩ := of_decide_eq_true hany
    exact ⟨ev, s, jumped, t, hev, hs, h, hfree, hvars, hsize, statement_effect hev hs h⟩

end KuAsm
