import KuAsm.Proofs.ExpressionChart

/-!
# Charts of statements

A statement adds lines to the section that is being written.  If that is the main program, functions
inside the statement are written to the section of functions at the same time.  What is added to
either section is a piece with a chart, and every function that is declared has its text in one of
them.

## Main definitions

* `Emits`: what is written between two states has charts.
* `Ground.Aims`: the labels that jumps out of a scope may lead to.
* `Lower.IsPlain`, `Lower.IsStatement`: actions that write pieces which end where they begin, or
  jump away.

## Main statements

* `Lower.IsPlain.declare`, `Lower.IsPlain.assign`, `Lower.IsPlain.storeAt`: the statements that do
  not branch.
-/

namespace KuAsm

open Asm Reg Lower

variable {code : Code} {Γ : Ground} {J : Label → Spot → Prop} {l : Location}
  {id? : Option ReclaimId} {sc : Scope}
  {F : ScopeId → List Slot} {s t : State} {es : State → Nat → List Event} {name : String}

/-! ### What is written between two states -/

/-- The event belongs to code of the given section. -/
def Event.IsAt (x : Section) (ev : Event) : Prop :=
  ∀ u ahead, ev.spot? = some (u, ahead) → u.target = x

/-- The text of a function that is declared in scope `i` stands in the listing. -/
def Listing.Locates (l : Listing) (Γ : Ground) (i : ScopeId) (f : Signature) : Prop :=
  ∃ x j k, x ≠ .data ∧ k < Γ.tree.size ∧ (Γ.tree.scope k).function.isSome = true ∧
    (Γ.tree.scope k).parent = some i ∧ (l.lines x)[j]? = some (.label f.entry) ∧
    Convention.functionPrologue (Γ.tree.scope k).frameSize <+: (l.lines x).drop (j + 1)

/-- Between two states a piece from one spot to another is written.  Functions of the main program
are written beside it. -/
structure Emits (Γ : Ground) (J : Label → Spot → Prop) (s t : State) (m m' : Spot)
    (events : List Event) (labels : List (Label × Spot)) : Prop where
  proper : s.target ≠ .data
  sections : ∀ ev ∈ events, ∀ u ahead, ev.spot? = some (u, ahead) → u.target ≠ .data
  target : t.target = s.target
  written : ∃ code, t.listing.lines s.target = s.listing.lines s.target ++ code ∧
    Piece Γ J s.target s.line m code m' events labels
  inner : s.target = .functions → t.listing.program = s.listing.program ∧ ∀ ev ∈ events,
    ev.IsAt .functions
  outer : s.target = .program → ∃ code, t.listing.functions = s.listing.functions ++ code ∧
    Piece Γ (fun _ _ => False) .functions s.listing.functions.length .outside code .outside
    events []
  entries : ∀ i : Nat, i < t.tree.size → ∀ f ∈ (t.tree.scope i).functions,
    i < s.tree.size ∧ f ∈ (s.tree.scope i).functions ∨ t.listing.Locates Γ i f

/-- Nothing is written and no function is declared. -/
structure State.Silent (s t : State) : Prop where
  target : t.target = s.target
  functions : t.listing.functions = s.listing.functions
  program : t.listing.program = s.listing.program
  entries : ∀ i : Nat, i < t.tree.size → ∀ f ∈ (t.tree.scope i).functions,
    i < s.tree.size ∧ f ∈ (s.tree.scope i).functions

namespace State.Silent

variable {s t u : State}

theorem quiet (h : s.Quiet t) : s.Silent t :=
  ⟨h.target, h.functions, h.program, fun i hi _ hf => ⟨h.size ▸ hi, (h.sameNames i).functions ▸ hf⟩⟩

theorem trans (h : s.Silent t) (k : t.Silent u) : s.Silent u :=
  ⟨k.target.trans h.target, k.functions.trans h.functions, k.program.trans h.program,
      fun i hi f hf =>
    have ⟨hi', hf'⟩ := k.entries i hi f hf
    h.entries i hi' f hf'⟩

theorem withScope (hs : s.Formed) (hsc : sc.functions = s.here.functions) :
    s.Silent (s.withScope sc) := by
  refine ⟨rfl, rfl, rfl, fun i hi f hf => ?_⟩
  rw [show (s.withScope sc).tree.size = s.tree.size from ScopeTree.size_set ..] at hi
  by_cases hne : i = s.current
  · subst hne
    rw [show (s.withScope sc).tree.scope s.current = sc from State.here_withScope hs sc, hsc] at hf
    exact ⟨hi, hf⟩
  · rw [State.scope_withScope_of_ne sc hne] at hf
    exact ⟨hi, hf⟩

theorem lines (h : s.Silent t) (hs : s.target ≠ .data) :
    t.listing.lines s.target = s.listing.lines s.target := by
  cases htarget : s.target with
  | data => exact absurd htarget hs
  | functions => exact h.functions
  | program => exact h.program

end State.Silent

theorem Listing.Locates.mono {l l' : Listing} {i : ScopeId} {f : Signature} (h : l.Locates Γ i f)
    (hl : ∀ x, x ≠ .data → l.lines x <+: l'.lines x) : l'.Locates Γ i f := by
  obtain ⟨x, j, k, hx, hk, hfunction, hparent, hj, hpre⟩ := h
  obtain ⟨more, hmore⟩ := hl x hx
  have hlt := (List.getElem?_eq_some_iff.1 hj).1
  refine ⟨x, j, k, hx, hk, hfunction, hparent, ?_, ?_⟩
  · rw [← hmore, List.getElem?_append_left hlt]
    exact hj
  · rw [← hmore, List.drop_append_of_le_length hlt]
    exact hpre.trans (List.prefix_append _ _)

/-- Events of another section need not stand in a piece. -/
theorem Piece.besides {x y : Section} {base : Nat} {m m' : Spot} {es : List Event}
    {ls : List (Label × Spot)}
    (h : Piece Γ J x base m code m' [] ls) (hes : ∀ ev ∈ es, ev.IsAt y) (hne : y ≠ x) :
    Piece Γ J x base m code m' es ls := by
  obtain ⟨ms, hms, -, hls⟩ := h
  exact ⟨ms, hms, fun ev hev u ahead hspot htarget =>
    absurd ((hes ev hev u ahead hspot).symm.trans htarget) hne, hls⟩

namespace Emits

variable {Γ : Ground} {J J' : Label → Spot → Prop} {s t u : State} {m m' m₀ m₁ m₂ : Spot}
  {es es' : List Event} {ls ls' : List (Label × Spot)} {code : Code}

theorem lines (h : Emits Γ J s t m m' es ls) {x : Section} (hx : x ≠ .data) :
    s.listing.lines x <+: t.listing.lines x := by
  obtain ⟨code, hcode, -⟩ := h.written
  by_cases htarget : x = s.target
  · rw [htarget]
    exact ⟨code, hcode.symm⟩
  · cases x with
    | data => exact absurd rfl hx
    | functions =>
      cases hs : s.target with
      | data => exact absurd hs h.proper
      | functions => exact absurd hs.symm htarget
      | program =>
        obtain ⟨more, hmore, -⟩ := h.outer hs
        exact ⟨more, hmore.symm⟩
    | program =>
      cases hs : s.target with
      | data => exact absurd hs h.proper
      | functions => exact ⟨[], (List.append_nil _).trans (h.inner hs).1.symm⟩
      | program => exact absurd hs.symm htarget

theorem trans (h : Emits Γ J s u m₀ m₁ es ls) (k : Emits Γ J u t m₁ m₂ es' ls') :
    Emits Γ J s t m₀ m₂ (es ++ es') (ls ++ ls') := by
  obtain ⟨a, ha, hpiece⟩ := h.written
  obtain ⟨b, hb, hpiece'⟩ := k.written
  have hline : u.line = s.line + a.length := by
    unfold State.line
    rw [h.target, ha, List.length_append]
  rw [h.target] at hb hpiece'
  refine ⟨h.proper, fun ev hev => (List.mem_append.1 hev).elim (h.sections ev) (k.sections ev),
    k.target.trans h.target,
    ⟨a ++ b, ?_, hpiece.append (hline ▸ hpiece')⟩, fun hs => ?_, fun hs => ?_, ?_⟩
  · rw [hb, ha, List.append_assoc]
  · obtain ⟨hprogram, hes⟩ := h.inner hs
    obtain ⟨hprogram', hes'⟩ := k.inner (h.target.trans hs)
    refine ⟨hprogram'.trans hprogram, fun ev hev => ?_⟩
    exact (List.mem_append.1 hev).elim (hes ev) (hes' ev)
  · obtain ⟨c, hc, hfirst⟩ := h.outer hs
    obtain ⟨d, hd, hrest⟩ := k.outer (h.target.trans hs)
    rw [hc, List.length_append] at hrest
    exact ⟨c ++ d, by rw [hd, hc, List.append_assoc], hfirst.append hrest⟩
  · intro i hi f hf
    rcases k.entries i hi f hf with ⟨hi', hf'⟩ | hlocated
    · rcases h.entries i hi' f hf' with hold | hlocated
      · exact .inl hold
      · exact .inr (hlocated.mono fun x hx => k.lines hx)
    · exact .inr hlocated

/-- Nothing is written. -/
theorem silent (h : s.Silent t) (hs : s.target ≠ .data) (m : Spot) : Emits Γ J s t m m [] [] := by
  refine ⟨hs, fun _ hev => (nomatch hev), h.target, ⟨[], ?_, .nil m⟩, fun _ =>
    ⟨h.program, fun _ hev => (nomatch hev)⟩,
    fun _ => ⟨[], ?_, .nil _⟩, fun i hi f hf => .inl (h.entries i hi f hf)⟩
  · rw [h.lines hs, List.append_nil]
  · rw [h.functions, List.append_nil]

/-- Lines are added to the section that is being written. -/
theorem wrote (hs : s.target ≠ .data) (h : Piece Γ J s.target s.line m code m' es ls)
    (hes : ∀ ev ∈ es, ev.IsAt s.target) : Emits Γ J s (s.wrote code) m m' es ls := by
  refine ⟨hs, fun ev hev u ahead hspot => hes ev hev u ahead hspot ▸ hs, rfl, ⟨code, ?_, h⟩,
    fun htarget => ⟨?_, htarget ▸ hes⟩, fun htarget => ⟨[], ?_, ?_⟩, fun i hi f hf => .inl ⟨hi, hf⟩⟩
  · unfold State.wrote
    cases s.target <;> rfl
  · unfold State.wrote
    rw [htarget]
    rfl
  · unfold State.wrote
    rw [htarget, List.append_nil]
    rfl
  · exact (Piece.nil .outside).besides (y := .program) (htarget ▸ hes) nofun

/-- Labels that stand in the code need not be pending any more. -/
theorem close (h : Emits Γ J s t m m' es ls) (hJ : ∀ l p, J l p → J' l p ∨ (l, p) ∈ ls) :
    Emits Γ J' s t m m' es ls :=
  have ⟨code, hcode, hpiece⟩ := h.written
  { h with written := ⟨code, hcode, hpiece.close hJ⟩ }

/-- Fewer events and labels may be told of. -/
theorem restrict (h : Emits Γ J s t m m' es ls) (hes : ∀ ev ∈ es', ev.spot? ≠ none → ev ∈ es)
    (hls : ∀ lp ∈ ls', lp ∈ ls) : Emits Γ J s t m m' es' ls' := by
  obtain ⟨code, hcode, hpiece⟩ := h.written
  refine { h with
    sections := fun ev hev u ahead hspot =>
      h.sections ev (hes ev hev (by rw [hspot]; nofun)) u ahead hspot
    written := ⟨code, hcode, hpiece.restrict hes hls⟩
    inner := fun hs => ?_, outer := fun hs => ?_ }
  · refine ⟨(h.inner hs).1, fun ev hev u ahead hspot => ?_⟩
    exact (h.inner hs).2 ev (hes ev hev (by rw [hspot]; nofun)) u ahead hspot
  · obtain ⟨more, hmore, hrest⟩ := h.outer hs
    exact ⟨more, hmore, hrest.restrict hes fun _ h => h⟩

/-- The statement itself stands at the beginning. -/
theorem statement (h : Emits Γ J s t (.within s.current) m' es ls) (n : Node) :
    Emits Γ J s t (.within s.current) m' (.statement n s :: es) ls := by
  obtain ⟨code, hcode, hpiece⟩ := h.written
  have hat : (Event.statement n s).IsAt s.target := fun u ahead hspot => by
    cases hspot
    rfl
  have hsections : ∀ ev ∈ Event.statement n s :: es, ∀ u ahead, ev.spot? = some (u, ahead) →
      u.target ≠ .data := by
    intro ev hev u ahead hspot
    rcases List.mem_cons.1 hev with rfl | hev
    · exact hat u ahead hspot ▸ h.proper
    · exact h.sections ev hev u ahead hspot
  refine { h with
    sections := hsections, written := ⟨code, hcode, hpiece.here rfl rfl trivial⟩
    inner := fun hs => ?_, outer := fun hs => ?_ }
  · refine ⟨(h.inner hs).1, fun ev hev => ?_⟩
    rcases List.mem_cons.1 hev with rfl | hev
    · exact hs ▸ hat
    · exact (h.inner hs).2 ev hev
  · obtain ⟨more, hmore, ms, hms, hes, hls⟩ := h.outer hs
    refine ⟨more, hmore, ms, hms, fun ev hev u ahead hspot htarget => ?_, hls⟩
    rcases List.mem_cons.1 hev with rfl | hev
    · have hprogram := (hat u ahead hspot).trans hs
      rw [htarget] at hprogram
      cases hprogram
    · exact hes ev hev u ahead hspot htarget

end Emits

/-- The expressions of a value belong to the section that is being written. -/
theorem MeetsQuietly.isAt {trace : State → List Event} (h : MeetsQuietly trace) (hs : s.Formed)
    {ev : Event} (hev : ev ∈ trace s) : ev.IsAt s.target := by
  intro u ahead hspot
  have hstate : ev.state? = some u := by
    cases ev with
    | statement | expression =>
      cases hspot
      rfl
    | finish | spent => cases hspot
  exact (h.quiet hs hev hstate).target

/-! ### Actions -/

/-- The labels that jumps out of a scope may lead to: the exits of loops around it, and the end of
the function. -/
def Ground.Aims (Γ : Ground) (i : ScopeId) (l : Label) (p : Spot) : Prop :=
  ∃ k ∈ Γ.tree.path i, Γ.tree.home (some k) = Γ.tree.home (some i) ∧
    ((∃ m, (Γ.tree.scope k).loop = some m ∧
        (l = m.exit ∧ p = ⟨(Γ.tree.scope k).parent, none⟩ ∨ l = m.next ∧ p = .within k)) ∨
      ∃ m, (Γ.tree.scope k).function = some m ∧ l = m.returnLabel ∧ p = .within k)

/-- The action writes a piece that ends where it begins, and stashes what its events do. -/
def Lower.IsPlain {α : Type} (x : Lower α) (events : State → List Event) : Prop :=
  ∀ F s a t, Laid F s → s.Equipped → x s = .ok a t → Settles F s (stashed F (events s)) t ∧
    ∀ Γ, Γ.Holds (stashed F (events s)) t → ∀ J, (∀ l p, Γ.Aims s.current l p → J l p) →
      Emits Γ J s t (.within s.current) (.within s.current) (events s) []

/-- The action writes a piece that ends where it begins, unless it jumps away: then anything of the
same function may follow. -/
def Lower.IsStatement (x : Lower Bool) (events : State → List Event) : Prop :=
  ∀ F s jumped t, Laid F s → s.Equipped → x s = .ok jumped t →
    Settles F s (stashed F (events s)) t ∧
    ∀ Γ, Γ.Holds (stashed F (events s)) t → ∀ J, (∀ l p, Γ.Aims s.current l p → J l p) →
      ∀ m', Γ.tree.home m'.scope = Γ.tree.home (some s.current) →
        (jumped = false → m' = .within s.current) →
        Emits Γ J s t (.within s.current) m' (events s) []

/-- A statement that does not jump away and stashes nothing but for its parts. -/
theorem Lower.IsPlain.isStatement {x : Lower Unit} {es : State → List Event} (hx : x.IsPlain es)
    (n : Node) (hn : ∀ s i, (Event.statement n s).stash i = []) :
    (do x; return false : Lower Bool).IsStatement fun s => .statement n s :: es s := by
  intro F s jumped t hs heq h
  obtain ⟨a, u, hrun, h₁⟩ := bind_eq_ok.1 h
  obtain ⟨rfl, rfl⟩ := pure_eq_ok.1 h₁
  obtain ⟨hs', hemits⟩ := hx F s a t hs heq hrun
  rw [stashed_cons (hn s)]
  refine ⟨hs', fun Γ hΓ J hJ m' _ hm' => ?_⟩
  rw [hm' rfl]
  exact (hemits Γ hΓ J hJ).statement n

/-- The code of a value, written behind changes that write nothing. -/
theorem Emits.value {u : State} {es : Nat → List Event} (hu : s.Silent u) (hs : s.target ≠ .data)
    (h : ValuePiece Γ s code es) (hes : ∀ ev ∈ es 0, ev.IsAt s.target) :
    Emits Γ J s (u.wrote code) (.within s.current) (.within s.current) (es 0) [] := by
  have hline : u.line = s.line := by
    unfold State.line
    rw [hu.target, hu.lines hs]
  have hpiece :
      Piece Γ J u.target u.line (.within s.current) code (.within s.current) (es 0) [] := by
    rw [hu.target, hline]
    exact h J 0
  exact (Emits.silent hu hs _).trans (.wrote (hu.target ▸ hs) hpiece (hu.target ▸ hes))

/-! ### Declarations -/

theorem ScalarType.size_eq (ty : ScalarType) : ty.size = 1 ∨ ty.size = 4 := by
  cases ty <;> decide

/-- A declaration reserves the slots of the variable. -/
theorem declareVariable_settles {ty : ScalarType} (hs : Laid F s)
    (h : s.here.declareVariable name ty l = .ok (s.here.newVariable name ty, sc)) :
    s.Silent (s.withScope sc) ∧ Settles F s F (s.withScope sc) ∧
      ∀ Γ : Ground, Γ.Holds F (s.withScope sc) →
        ∀ x ∈ (s.here.newVariable name ty).slots, x ∈ Γ.slots s.current := by
  obtain ⟨-, -, rfl⟩ := Scope.declareVariable_eq_declared h
  have hfixed :
      (s.here.declared name ty).fixed = s.here.fixed ++ (s.here.newVariable name ty).slots := by
    unfold Scope.fixed Scope.declared
    rw [List.flatMap_append, List.flatMap_singleton, List.append_assoc]
    rfl
  have htiles :
      Tiles ((s.here.declared name ty).fixed ++ F s.current) (s.here.declared name ty).used := by
    have hslot := (hs.tiles _ hs.current_lt).insert ty.size ty.size_eq
    rw [hfixed]
    unfold Variable.slots Scope.newVariable Scope.declared
    cases ty.isHeap with
    | false => exact hslot
    | true =>
      have hcell := hslot.insert 4 (.inr rfl)
      rw [List.append_assoc (s.tree.scope s.current).fixed] at hcell
      exact hcell
  have hall : Settles F s (growSlots F s.current []) (s.withScope (s.here.declared name ty)) := by
    refine .revise hs ⟨rfl, rfl, rfl, rfl, List.prefix_refl _⟩ (fun x hx => ?_) ?_
      fun e he x hx => ?_
    · rw [hfixed]
      exact List.mem_append_left _ hx
    · rwa [List.append_nil]
    · exact List.mem_append_left _ (hs.pending _ hs.current_lt e he x hx)
  rw [growSlots_nil] at hall
  refine ⟨.withScope hs.formed rfl, hall, fun Γ hΓ x hx => hΓ.slots _ _ (List.mem_append_left _ ?_)⟩
  rw [State.withScope, ScopeTree.scope_set_self _ hs.current_lt, hfixed]
  exact List.mem_append_right _ hx

/-- A variable that takes a value over writes at most one line, and takes it out of the free set. -/
theorem takeOwnership_settles {o : Ownership} (hs : Laid F s)
    (h : takeOwnership o name l s = .ok (code, id?) t) :
    Settles F s F t ∧ code.all Line.isSteady = true := by
  cases o with
  | plain | borrowed id =>
    obtain ⟨rfl, -, journal, rfl⟩ := takeOwnership_other_eq_ok (fun _ h => by cases h) h
    exact ⟨.withSession hs (Nat.le_refl _), rfl⟩
  | fresh id =>
    obtain ⟨rfl, -, rfl⟩ := takeOwnership_fresh_eq_ok h
    have hset : Settles F s F (s.withScope { s.here with freeSet := s.here.freeSet.erase id }) := by
      refine .replace hs ⟨rfl, rfl, rfl, rfl, List.prefix_refl _⟩ rfl rfl fun e he => ?_
      exact hs.pending _ hs.current_lt e (List.mem_filter.1 he).1
    exact ⟨hset.trans (.withSession hset.laid (Nat.le_refl _)), rfl⟩

/-- A variable that becomes the owner of an id keeps its slots. -/
theorem bind_settles (hs : Laid F s) (name : String) (id : ReclaimId) :
    Settles F s F (s.withScope (s.here.bind name id)) :=
  .replace hs ⟨rfl, rfl, rfl, rfl, List.prefix_refl _⟩ rfl (s.here.fixed_bind name id)
    (hs.pending _ hs.current_lt)

theorem getDM_settles {id : ReclaimId} (hs : Laid F s) (h : id?.getDM mintReclaim s = .ok id t) :
    Settles F s F t := by
  cases id? with
  | some id' =>
    obtain ⟨-, rfl⟩ := pure_eq_ok.1 h
    exact .refl hs
  | none =>
    obtain ⟨-, rfl⟩ := mintReclaim_eq_ok.1 h
    exact .withSession hs (Nat.le_refl _)

/-- The string that a variable gives up is released where it lies, `d` frames outwards. -/
theorem releaseOld_settles {d : Nat} {x : Variable} {cell : Slot} {old : Code} (hs : Laid F s)
    (h : releaseOld (Convention.chase d).2 x cell s = .ok old t) :
    Settles F s F t ∧ s.Quiet t ∧ ∀ {Γ : Ground} {o : Option ScopeId} {i : ScopeId},
      (Γ.tree.enclosing o)[d]? = some i → x.slot ∈ Γ.slots i → cell ∈ Γ.slots i →
      ∀ J target base, Piece Γ J target base ⟨o, chased d⟩ old ⟨o, chased d⟩ [] [] := by
  unfold Lower.releaseOld at h
  cases hreclaim : x.reclaim with
  | none =>
    rw [hreclaim] at h
    obtain ⟨rfl, rfl⟩ := pure_eq_ok.1 h
    exact ⟨.refl hs, .refl _, fun _ _ _ _ _ _ => .nil _⟩
  | some id =>
    rw [hreclaim] at h
    have hquiet := IsQuiet.law.release (Convention.chase d).2 _ _ _ _ _ hs.formed h
    obtain ⟨skip, note, a, z, w, hmint, hnote, ha, hz, rfl, rfl⟩ := release_eq_ok h
    obtain ⟨-, rfl⟩ := mintLabel_eq_ok.1 hmint
    refine ⟨.withSession hs (Nat.le_succ _), hquiet, fun {Γ o i} hd hslot hcell J target base => ?_⟩
    have hpair : ∀ y ∈ Staged.slots ⟨x.slot, cell⟩, y ∈ Γ.slots i := fun y hy => by
      rcases List.mem_cons.1 hy with rfl | hy
      · exact hslot
      · rwa [List.mem_singleton.1 hy]
    exact (Piece.note hnote).append (.release hd hpair ha hz)

/-- The release behind an assignment happens at no spot of the code. -/
theorem Variable.mem_of_spot_of_spends {x : Variable} {v : Lowered} {es : List Event} {ev : Event}
    (hev : ev ∈ es ++ x.spends v) (hspot : ev.spot? ≠ none) : ev ∈ es := by
  refine (List.mem_append.1 hev).resolve_right fun hev => ?_
  unfold Variable.spends at hev
  split at hev
  · rw [List.mem_singleton.1 hev] at hspot
    exact hspot rfl
  · cases hev

theorem Variable.stashed_spends (x : Variable) (v : Lowered) (F : ScopeId → List Slot) :
    stashed F (x.spends v) = F := by
  unfold Variable.spends
  split
  · exact (stashed_cons (fun _ => rfl) F []).trans (stashed_nil F)
  · exact stashed_nil F

/-- The slot of a variable that was just declared gets its value. -/
theorem ValuePiece.store (h : Γ.Holds F s) {slot : Slot} {m : Mem} {r : Reg}
    (hslot : slot ∈ Γ.slots s.current)
    (hm : Mem.slot ebp slot = .ok m) : ValuePiece Γ s [Asm.store m r] fun _ => [] := by
  refine fun _ _ => .own h.here_enclosing fun y hy => ?_
  rw [List.mem_singleton.1 hy]
  exact .store hm hslot

namespace Lower.IsPlain

/-- A declaration of a value whose expressions stand behind the comment. -/
theorem declare (name : String) (ty : ScalarType) (l : Location) {value : Lower Lowered}
    (hvalue : value.IsValue es)
    (hquiet : value.IsQuiet) (hes : ∀ ahead, MeetsQuietly fun s => es s ahead) :
    (declare name ty l value).IsPlain fun s =>
      (remark (":" ++ name ++ "/" ++ ty.name)).after s fun note _ => es s note.length := by
  intro F s a t hs heq h
  have hremark : ∀ {u : State} {sc : Scope} {note : Code}, s.Quiet u →
      remark (":" ++ name ++ "/" ++ ty.name) (u.withScope sc) = .ok note (u.withScope sc) →
        Code.IsNote note ∧ (remark (":" ++ name ++ "/" ++ ty.name)).after s
        (fun note _ => es s note.length) = es s note.length := by
    intro u sc note hq hnote
    refine ⟨(isNote_of_remark hnote).1, ?_⟩
    obtain ⟨rfl, -⟩ := remark_eq_ok.1 hnote
    rw [after_ok (remark_eq_ok.2 ⟨rfl, rfl⟩)]
    rw [show (u.withScope sc).comments = s.comments from hq.comments]
  -- the comment stands in front of the value
  have hcode : ∀ {Γ : Ground} {note code rest : Code}, Code.IsNote note →
      ValuePiece Γ s code (es s) → ValuePiece Γ s rest (fun _ => []) →
      ValuePiece Γ s (note ++ code ++ rest) fun ahead => es s (ahead + note.length) := by
    intro Γ note code rest hnote hcode hrest
    have hall := ((ValuePiece.note hnote).append hcode).snoc hrest
    exact hall
  cases hty : ty.isHeap with
  | false =>
    obtain ⟨v, u, sc, note, m, hv, hsc, hnote, hm, rfl⟩ := declare_plain_eq_ok hty h
    have hq := hquiet s v u hs.formed hv
    obtain ⟨hnote', hevents⟩ := hremark hq hnote
    dsimp only
    rw [hevents]
    obtain ⟨hs₁, hpiece⟩ := hvalue F s v u note.length hs heq hv
    obtain ⟨hsilent, hs₂, hslots⟩ := declareVariable_settles hs₁.laid hsc
    have hs₃ := Settles.wrote hs₂.laid (note ++ v.code ++ [Asm.store m eax])
    have hall := (hs₁.trans hs₂).trans hs₃
    refine ⟨hall, fun Γ hΓ J _ => ?_⟩
    have hΓ₂ := hΓ.back hs₂.laid hs₃
    have hstore : ValuePiece Γ s [Asm.store m eax] fun _ => [] :=
      .store (hΓ.back hs hall) (hq.current ▸ hslots Γ hΓ₂ _ List.mem_cons_self) hm
    have hpiece' := hcode hnote' (hpiece Γ (hΓ₂.back hs₁.laid hs₂)) hstore
    have hemits := Emits.value (J := J) ((State.Silent.quiet hq).trans hsilent) hs.target hpiece'
      fun ev hev => (hes _).isAt hs.formed hev
    rwa [Nat.zero_add] at hemits
  | true =>
    obtain ⟨v, u, sc, note, m, c, taken, id?, w, id, x, hv, hsc, hnote, hm, hc, htaken, hid, rfl⟩ :=
      declare_heap_eq_ok hty h
    have hq := hquiet s v u hs.formed hv
    obtain ⟨hnote', hevents⟩ := hremark hq hnote
    dsimp only
    rw [hevents]
    obtain ⟨hs₁, hpiece⟩ := hvalue F s v u note.length hs heq hv
    obtain ⟨hsilent, hs₂, hslots⟩ := declareVariable_settles hs₁.laid hsc
    obtain ⟨hs₃, hsteady⟩ := takeOwnership_settles hs₂.laid htaken
    have hq₃ := IsQuiet.takeOwnership _ _ _ _ _ _ hs₂.laid.formed htaken
    have hs₄ := getDM_settles hs₃.laid hid
    have hq₄ := hq₃.trans (IsQuiet.getDM id? _ _ _ hs₃.laid.formed hid)
    have hs₅ := bind_settles hs₄.laid name id
    have hs₆ :=
      Settles.wrote hs₅.laid (note ++ v.code ++ [Asm.store m eax] ++ taken ++ [Asm.store c edx])
    have hlast := ((hs₃.trans hs₄).trans hs₅).trans hs₆
    have hall := (hs₁.trans hs₂).trans hlast
    refine ⟨hall, fun Γ hΓ J _ => ?_⟩
    have hΓs := hΓ.back hs hall
    have hΓ₂ := hΓ.back hs₂.laid hlast
    have hstore : ValuePiece Γ s [Asm.store m eax] fun _ => [] :=
      .store hΓs (hq.current ▸ hslots Γ hΓ₂ _ List.mem_cons_self) hm
    have hcell : ⟨u.here.used + ty.size, 4⟩ ∈ (u.here.newVariable name ty).slots := by
      unfold Variable.slots Scope.newVariable
      rw [if_pos hty]
      exact List.mem_cons_of_mem _ (List.mem_singleton_self _)
    have hsize : ValuePiece Γ s [Asm.store c edx] fun _ => [] :=
      .store hΓs (hq.current ▸ hslots Γ hΓ₂ _ hcell) hc
    have hpiece' := hcode hnote' (hpiece Γ (hΓ₂.back hs₁.laid hs₂))
      ((hstore.snoc (.steady hsteady)).snoc hsize)
    have hbound : x.Silent (x.withScope (x.here.bind name id)) := .withScope hs₄.laid.formed rfl
    have hsilent' := (((State.Silent.quiet hq).trans hsilent).trans (.quiet hq₄)).trans hbound
    have hemits := Emits.value (J := J) hsilent' hs.target hpiece' fun ev hev =>
      (hes _).isAt hs.formed hev
    rwa [Nat.zero_add, ← List.append_assoc, ← List.append_assoc] at hemits

/-- An assignment.  The value stands first, unless a string variable is assigned to itself. -/
theorem assign (name : String) (l : Location) {value : ScalarType → Lower Lowered}
    (hvalue : ∀ ty, (value ty).IsValue es) (hquiet : ∀ ty, (value ty).IsQuiet)
    (hes : MeetsQuietly fun s => es s 0)
    (hlent : ∀ ty s v t id, s.Formed → value ty s = .ok v t → v.ownership = .borrowed id →
      ∀ F, stashed F (es s 0) = F) :
    (assign name l value).IsPlain fun s =>
      (resolveVariable name l).after s fun x t => (value x.2.ty).after t fun v _ =>
        if x.2.assignedItself v then [] else es t 0 ++ x.2.spends v := by
  intro F s a t hs heq h
  obtain ⟨r, x, v, u, hfound, hv, hrest⟩ := assign_eq_ok h
  have hevents : ((resolveVariable name l).after s fun x t => (value x.2.ty).after t fun v _ =>
      if x.2.assignedItself v then [] else es t 0 ++ x.2.spends v) =
        if x.assignedItself v then [] else es s 0 ++ x.spends v := by
    rw [after_ok hfound, after_ok hv]
  obtain ⟨hvar, -⟩ := resolveVariable_eq_ok.1 hfound
  have hq := hquiet x.ty s v u hs.formed hv
  obtain ⟨hs₁, hpiece⟩ := hvalue x.ty F s v u 0 hs heq hv
  have hspends : ∀ ev ∈ es s 0 ++ x.spends v, ev.spot? ≠ none → ev ∈ es s 0 :=
    fun _ => Variable.mem_of_spot_of_spends
  have hstash : stashed F (es s 0 ++ x.spends v) = stashed F (es s 0) := by
    rw [stashed_append]
    exact x.stashed_spends v _
  dsimp only
  rw [hevents]
  rcases hrest with ⟨hnone, m, hm, rfl⟩ | ⟨cell, hcell, hself, note, hnote, rfl⟩ | ⟨cell, hcell,
    hself, hreplace⟩
  · have hs₂ := Settles.wrote hs₁.laid (v.code ++ (Convention.chase r.depth).1 ++ [Asm.store m eax])
    rw [if_neg (by rw [Variable.assignedItself, hnone]; nofun), hstash]
    refine ⟨hs₁.trans hs₂, fun Γ hΓ J _ => ?_⟩
    have hΓ₁ := hΓ.back hs₁.laid hs₂
    obtain ⟨hd, hslot, -⟩ := (hΓ₁.back hs hs₁).variable hvar
    have hstore : ValuePiece Γ s ((Convention.chase r.depth).1 ++ [Asm.store m eax]) fun _ => [] :=
      .reach hd nofun fun y hy => by
        rw [List.mem_singleton.1 hy]
        exact .store hm hslot
    rw [List.append_assoc]
    exact (Emits.value (.quiet hq) hs.target ((hpiece Γ hΓ₁).snoc hstore)
      fun ev hev => hes.isAt hs.formed hev).restrict hspends fun _ h => h
  · obtain ⟨id, -, hid⟩ := Option.map_eq_some_iff.1 hself
    rw [hlent x.ty s v u id hs.formed hv hid.symm] at hs₁
    rw [if_pos (by rw [Variable.assignedItself, hcell, hself]; exact decide_eq_true rfl),
      stashed_nil]
    refine ⟨hs₁.trans (.wrote hs₁.laid note), fun Γ hΓ J _ => ?_⟩
    have hcode : ValuePiece Γ s note fun _ => [] := .note (isNote_of_remark hnote).1
    exact Emits.value (.quiet hq) hs.target hcode nofun
  · obtain ⟨⟨taken, id?⟩, u₁, htaken, h₁⟩ := bind_eq_ok.1 hreplace
    -- the new string waits on the stack while the old one is released
    obtain ⟨old, u₂, hold, h₂⟩ := bind_eq_ok.1 h₁
    obtain ⟨m, u₃, hm, h₃⟩ := bind_eq_ok.1 h₂
    obtain ⟨hm', rfl⟩ := checked_eq_ok.1 hm
    obtain ⟨c, u₄, hc, h₄⟩ := bind_eq_ok.1 h₃
    obtain ⟨hc', rfl⟩ := checked_eq_ok.1 hc
    obtain rfl := emit_eq_ok.1 h₄
    obtain ⟨hs₂, hsteady⟩ := takeOwnership_settles hs₁.laid htaken
    have hq₂ := hq.trans (IsQuiet.takeOwnership _ _ _ _ _ _ hs₁.laid.formed htaken)
    obtain ⟨hs₃, hq₃, hfrees⟩ := releaseOld_settles hs₂.laid hold
    have hs₄ :=
      Settles.wrote hs₃.laid (v.code ++ taken ++ [push eax, push edx] ++
        (Convention.chase r.depth).1 ++ old ++ [pop edx, pop eax, Asm.store m eax, Asm.store c edx])
    have hlast := (hs₂.trans hs₃).trans hs₄
    rw [if_neg (by rw [Variable.assignedItself, hcell]; simp [hself]), hstash]
    refine ⟨hs₁.trans hlast, fun Γ hΓ J _ => ?_⟩
    have hΓ₁ := hΓ.back hs₁.laid hlast
    obtain ⟨hd, hslot, hcells⟩ := (hΓ₁.back hs hs₁).variable hvar
    have hstores : ∀ y ∈ [pop edx, pop eax, Asm.store m eax, Asm.store c edx],
        y.Touches (Convention.chase r.depth).2 (Γ.slots r.scope) := by
      simp only [List.mem_cons, List.not_mem_nil, or_false]
      rintro y (rfl | rfl | rfl | rfl)
      · exact .off rfl rfl rfl
      · exact .off rfl rfl rfl
      · exact .store hm' hslot
      · exact .store hc' (hcells cell hcell)
    have hrest : ValuePiece Γ s ((Convention.chase r.depth).1 ++ old ++
        [pop edx, pop eax, Asm.store m eax, Asm.store c edx]) fun _ => [] := fun J ahead =>
      ((Piece.chase (some s.current) r.depth).append
        (hfrees hd hslot (hcells cell hcell) J _ _)).append (.forget nofun hd hstores)
    have hpushes : ValuePiece Γ s [push eax, push edx] fun _ => [] := .steady rfl
    have hcode := (((hpiece Γ hΓ₁).snoc (.steady hsteady)).snoc hpushes).snoc hrest
    have hemits := (Emits.value (J := J) (.quiet (hq₂.trans hq₃)) hs.target hcode
      fun ev hev => hes.isAt hs.formed hev).restrict hspends fun _ h => h
    rwa [← List.append_assoc, ← List.append_assoc] at hemits

/-- A value is stored at an address.  The address stands first. -/
theorem storeAt {address value : Lower Lowered} {fs : State → Nat → List Event} (l : Location)
    (haddress : address.IsValue es) (hvalue : value.IsValue fs) (hq : address.IsQuiet)
    (hq' : value.IsQuiet) (hes : MeetsQuietly fun s => es s 0)
    (hfs : ∀ ahead, MeetsQuietly fun s => fs s ahead) : (storeAt address value l).IsPlain fun s =>
      es s 0 ++ address.after s fun a t => fs t (a.code.length + 1) := by
  intro F s b t hs heq h
  obtain ⟨a, u, ha, h₁⟩ := bind_eq_ok.1 h
  split at h₁
  · exact (reject_eq_ok.1 h₁).elim
  · obtain ⟨v, w, hv, h₂⟩ := bind_eq_ok.1 h₁
    obtain rfl := emit_eq_ok.1 h₂
    have hu := hq s a u hs.formed ha
    dsimp only
    rw [after_ok ha, stashed_append]
    obtain ⟨hs₁, hpiece⟩ := haddress F s a u 0 hs heq ha
    have heq₁ := hs₁.equipped hs heq
    have hw := hq' u v w hs₁.laid.formed hv
    obtain ⟨hs₂, hpiece'⟩ := hvalue _ u v w (a.code.length + 1) hs₁.laid heq₁ hv
    have hs₃ := Settles.wrote hs₂.laid (a.code ++ [push eax] ++ v.code ++
      [pop ecx, Asm.store (Mem.sized ecx 0 (.ofType v.ty)) eax])
    refine ⟨(hs₁.trans hs₂).trans hs₃, fun Γ hΓ J _ => ?_⟩
    have hΓ₂ := hΓ.back hs₂.laid hs₃
    have hpush : ValuePiece Γ s [push eax] fun _ => [] := .steady rfl
    have hstore :
        ValuePiece Γ s [pop ecx, Asm.store (Mem.sized ecx 0 (.ofType v.ty)) eax] fun _ => [] := by
      refine .steady ?_
      cases v.ty <;> rfl
    have hcode := (((hpiece Γ (hΓ₂.back hs₁.laid hs₂)).snoc hpush).append
      ((ValuePiece.congr hu hs.target).1 (hpiece' Γ hΓ₂))).snoc hstore
    have hemits := Emits.value (J := J) (.quiet (hu.trans hw)) hs.target hcode fun ev hev => by
      rcases List.mem_append.1 hev with hev | hev
      · exact hes.isAt hs.formed hev
      · rw [← hu.target]
        exact (hfs _).isAt hs₁.laid.formed hev
    simpa only [List.length_append, List.length_singleton, Nat.zero_add] using hemits

/-- The code of a value, written as it is. -/
theorem emitValue {x : Lower Lowered} (hx : x.IsValue es) (hq : x.IsQuiet)
    (hes : MeetsQuietly fun s => es s 0) :
    (do emit (← x).code : Lower Unit).IsPlain fun s => es s 0 := by
  intro F s b t hs heq h
  obtain ⟨v, u, hv, h₁⟩ := bind_eq_ok.1 h
  obtain rfl := emit_eq_ok.1 h₁
  obtain ⟨hs₁, hpiece⟩ := hx F s v u 0 hs heq hv
  have hs₂ := Settles.wrote hs₁.laid v.code
  refine ⟨hs₁.trans hs₂, fun Γ hΓ J _ => ?_⟩
  exact Emits.value (.quiet (hq s v u hs.formed hv)) hs.target (hpiece Γ (hΓ.back hs₁.laid hs₂))
    fun ev hev => hes.isAt hs.formed hev

end Lower.IsPlain

end KuAsm
