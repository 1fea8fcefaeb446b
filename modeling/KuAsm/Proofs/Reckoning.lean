import KuAsm.Proofs.Closure

/-!
# The account of a compilation

A compilation starts with one open scope, that of the main program, and ends with nothing left over.
So a unit defines exactly the labels that it makes and refers to no others, also if several programs
are compiled one after another in one session; everything that was counted stands in the listing,
and nothing else; and every string that the program asks for is in the data section.  As lines of
plain text are never counted, a listing has none: such lines are added when the unit is put
together.

## Main statements

* `lowerUnit_account`: a compilation leaves nothing over.
* `lowerUnit_inventory`: a compilation defines exactly the labels that it makes.
* `lowerUnit_square`: at the end of a compilation everything that was counted is written.
* `lowerUnit_supplied`: at the end of a compilation every string that was asked for is there.
* `lowerUnit_lines`: a compilation writes no line of plain text, and comments as accepted.
-/

namespace KuAsm

open Asm Reg Lower

variable {comments : Bool} {program : Program} {session : Session} {s t : State}
  {ok : String → Bool} {a : Unit}
  {q : Feature} {code : Code} {T : String → Prop} {B : Books} {may : List Label}
  {held : List Parcel}

/-- A compilation starts with the label of the outermost frame, which is owed. -/
theorem State.inventory_start (session : Session) (comments : Bool) :
    (State.start session comments).Inventory session.nextLabel
      [.fresh session.nextLabel "frame"] [.fresh session.nextLabel "frame"] where
  formed := State.formed_start session comments
  next := rfl
  numbered i l hl := by
    cases i with
    | zero =>
      cases hl
      exact ⟨"frame", rfl⟩
    | succ i => cases hl
  defined := .refl _
  referred := List.nil_subset _
  named sc hsc := by
    obtain rfl := List.mem_singleton.1 hsc
    simp [Scope.labels, Scope.fresh]
  placed x hx := nomatch hx

/-- A compilation starts with an open scope, whose prologue and whose frame size are owed. -/
theorem State.account_start (session : Session) (comments : Bool) (q : Feature) {l : Label}
    (hl : l = .fresh session.nextLabel "frame") :
    (State.start session comments).Account q
      ⟨q.counted session, some session.nextLabel, .program, session.included, []⟩ [l]
      [.frame l, ⟨Convention.blockPrologue l, []⟩] := by
  subst hl
  have hprologue := Code.Shows.blockPrologue (q := q) (.fresh session.nextLabel "frame")
  have hsize := Code.Shows.constant (q := q) (.fresh session.nextLabel "frame") 0
  refine ⟨State.formed_start session comments, rfl, fun _ _ h => (by cases h), rfl, ?_, ?_,
    fun first hfirst => ?_, fun _ _ => ?_⟩
  · exact List.forall_mem_cons.2
      ⟨hsize.opens, List.forall_mem_cons.2 ⟨hprologue.opens, List.forall_mem_nil _⟩⟩
  · have hcount := hprologue.count_eq
    have hcount' := hsize.count_eq
    show q.counted (session.mintLabel "frame").2.recordScope - (Listing.empty.count q : Int) = _
    rw [Parcel.join, Parcel.join, Parcel.frame, Feature.count_append hsize.opens,
      Feature.count_append hprologue.opens, Feature.counted_recordScope, Feature.counted_mintLabel]
    show _ - (0 : Int) = q.counted session + ((0 + _ + _ : Nat) : Int)
    omega
  · obtain rfl := Option.some.inj hfirst
    have hl : Label.fresh session.nextLabel "frame" ∈ [Label.fresh session.nextLabel "frame"] :=
      List.mem_cons_self
    refine ⟨_, State.inventory_start session comments, fun _ => id, ?_⟩
    exact List.cons_subset.2 ⟨hl, List.cons_subset.2 ⟨hl, List.nil_subset _⟩⟩
  · exact ⟨⟨rfl, rfl, fun x => by cases x <;> exact .nil⟩,
      List.forall_mem_cons.2 ⟨.nil, List.forall_mem_cons.2 ⟨.nil, List.forall_mem_nil _⟩⟩⟩

theorem State.Account.openProgram (hr : q.IsCounted T) {l : Label}
    (h : s.Account q B may (.frame l :: ⟨Convention.blockPrologue l, []⟩ :: held))
    (hl : (s.tree.scope s.root).frameSize = l) (hrun : KuAsm.openProgram s = .ok a t) :
    t.Account q B may (.frame l :: held) := by
  obtain ⟨note, u, hnote, h₁⟩ := bind_eq_ok.1 (get_bind_eq_ok.1 hrun)
  have hdull := (Idles.remark hr.program h.formed hnote).2
  obtain rfl := (remark_eq_ok.1 hnote).2
  obtain rfl := emit_eq_ok.1 (get_bind_eq_ok.1 h₁)
  rw [hl]
  exact ((h.front [_] rfl).gather [_] ((Parcel.Gathers.dull hdull).behind (.one _))).wroteMute

theorem State.Account.closeProgram (hr : q.IsCounted T) {jumped : Bool} {l : Label}
    (h : s.Account q B may (.frame l :: held)) (hl : s.here.frameSize = l)
    (hroot : s.current = s.root)
    (hrun : KuAsm.closeProgram jumped s = .ok a t) : t.Account q B may held := by
  subst hl
  have hleaves : (if jumped then pure () else exitFrame s.root []).Delivers q may [] fun _ => [] :=
    .ite (.still _) (.exitFrame hr _ _)
  have hgrows : (if jumped then pure () else exitFrame s.root []).IsGrowing :=
    IsGrowing.law.ite (.pure _) (IsGrowing.law.exitFrame _ _)
  have hend : ((if jumped then pure () else exitFrame s.root []) >>= fun _ =>
      emit [mov eax (.imm Convention.sysExit), xor ebx ebx, kernel] >>= fun _ =>
        Lower.defineFrameSize s.root >>= fun _ => get >>= fun u =>
            tell (.programLowered u.tree.size)) s = .ok a t := by
    have h₁ := get_bind_eq_ok.1 hrun
    cases jumped <;> exact h₁
  obtain ⟨_, u, hleave, h₁⟩ := bind_eq_ok.1 hend
  obtain ⟨_, v, hemit, h₂⟩ := bind_eq_ok.1 h₁
  obtain ⟨_, w, hsize, h₃⟩ := bind_eq_ok.1 h₂
  have hexit : Code.Shows q [mov eax (.imm Convention.sysExit), xor ebx ebx, kernel] 0 := by
    cases q <;> first | exact ⟨nofun, rfl⟩ | exact absurd rfl hr.counted
  have hu : u.Account q B may (.frame s.here.frameSize :: held) := hleaves h hleave
  have hframe : s.here.frameSize = (u.tree.scope s.root).frameSize := by
    have hg := hgrows _ _ _ h.formed hleave
    rw [← hroot, ← hg.current]
    exact hg.here.frameSize.symm
  have hv : v.Account q B may (.frame s.here.frameSize :: held) :=
    Delivers.emit (.silent hexit rfl (List.nil_subset _) rfl) hu hemit
  obtain rfl := emit_eq_ok.1 hemit
  rw [hframe] at hv
  exact (hv.defineFrameSize hsize).still
    ((Idles.tell _) (hv.defineFrameSize hsize).formed (get_bind_eq_ok.1 h₃)).1

/-- A compilation leaves nothing over. -/
theorem lowerUnit_account (hr : q.IsCounted T)
    (hnames : ∀ name ∈ Node.namesAll program.body, T name)
    (h : lowerUnit program (State.start session comments) = .ok a t) :
    ∃ files, t.Account q
      ⟨q.counted session, some session.nextLabel, .program, files, program.demands session.included⟩
      [.fresh session.nextLabel "frame"] [] := by
  obtain ⟨_, s₁, hlibrary, h₁⟩ := bind_eq_ok.1 h
  obtain ⟨_, s₂, hopen, h₂⟩ := bind_eq_ok.1 h₁
  obtain ⟨jumped, s₃, hbody, hclose⟩ := bind_eq_ok.1 h₂
  have hs := State.account_start session comments q rfl
  have hresult : (State.start session comments).context.result? = none := rfl
  have hg₁ := IsGrowing.registerLibrary _ _ _ hs.formed hlibrary
  have hg₂ := hg₁.trans (IsGrowing.law.openProgram _ _ _ hg₁.formed hopen)
  have hg₃ := hg₂.trans (Node.executeAll_grows _ _ _ _ _ hg₂.formed hbody)
  have hs₁ := Draws.registerLibrary hr hs hresult rfl rfl hlibrary
  have hframe : (s₁.tree.scope s₁.root).frameSize = .fresh session.nextLabel "frame" := by
    rw [show s₁.root = s₁.current from hg₁.root.trans hg₁.current.symm]
    exact hg₁.here.frameSize
  have hs₂ := hs₁.openProgram hr hframe hopen
  have hs₃ := Node.executeAll_draws hr false hnames _ none .program hs₂
    ((hg₂.result? hs.formed).trans hresult) rfl rfl hbody
  exact ⟨_, hs₃.closeProgram hr hg₃.here.frameSize (hg₃.current.trans hg₃.root.symm) hclose⟩

/-- The account of a compilation for its own sake, where nothing has to be counted. -/
theorem lowerUnit_books (h : lowerUnit program (State.start session comments) = .ok a t) :
    ∃ files, t.Account .label
      ⟨Feature.counted .label session, some session.nextLabel, .program, files,
        program.demands session.included⟩ [.fresh session.nextLabel "frame"] [] :=
  lowerUnit_account { Remarks.any (q := .label) fun _ => trivial with counted := nofun }
    (fun _ _ => trivial) h

/-- A compilation defines exactly the labels that it makes, the first of which is that of the frame
of the main program, and refers to no others. -/
theorem lowerUnit_inventory (h : lowerUnit program (State.start session comments) = .ok a t) :
    ∃ made, t.Inventory session.nextLabel made [] ∧ .fresh session.nextLabel "frame" ∈ made := by
  obtain ⟨files, ht⟩ := lowerUnit_books h
  obtain ⟨made, hmade, hmay, -⟩ := ht.labels _ rfl
  exact ⟨made, hmade, hmay List.mem_cons_self⟩

/-- A compilation that succeeds ends with everything supplied that the program asks for. -/
theorem lowerUnit_supplied (h : lowerUnit program (State.start session comments) = .ok a t) :
    t.listing.Supplied (program.demands session.included) [] := by
  obtain ⟨files, ht⟩ := lowerUnit_books h
  exact (ht.supplied _ rfl).1

/-- At the end of a compilation everything that was counted is written. -/
theorem lowerUnit_square (hr : q.IsCounted T) (hnames : ∀ name ∈ Node.namesAll program.body, T name)
    (h : lowerUnit program (State.start session comments) = .ok a t) :
    q.counted t.session = q.counted session + t.listing.count q := by
  obtain ⟨files, ht⟩ := lowerUnit_account hr hnames h
  have hahead : q.counted t.session - t.listing.count q = q.counted session + 0 := ht.ahead
  omega

/-- Code shows no line that is not accepted if it has none. -/
theorem Code.isCode_of_count (h : (Feature.foreign ok).count code = 0) : Code.IsCode ok code := by
  rw [Feature.count_eq_countP (p := fun line => !line.isCode ok) fun _ _ => rfl,
    List.countP_eq_zero] at h
  exact List.all_eq_true.2 fun line hline => by simpa using h line hline

/-- A compilation writes no line of plain text, and comments as accepted. -/
theorem lowerUnit_lines (hr : Remarks (.foreign ok) T)
    (hnames : ∀ name ∈ Node.namesAll program.body, T name)
    (h : lowerUnit program (State.start session comments) = .ok a t) : t.listing.IsCode ok := by
  have hsquare : (0 : Int) = 0 + t.listing.count (.foreign ok) :=
    lowerUnit_square { hr with counted := nofun } hnames h
  have hzero : t.listing.count (.foreign ok) = 0 := by omega
  unfold Listing.count at hzero
  exact ⟨Code.isCode_of_count (by omega), Code.isCode_of_count (by omega),
    Code.isCode_of_count (by omega)⟩

theorem lowerUnit_isCode (h : lowerUnit program (State.start session comments) = .ok a t) :
    t.listing.IsCode fun _ => true :=
  lowerUnit_lines (.any fun _ => rfl) (fun _ _ => trivial) h

end KuAsm
