import KuAsm.Proofs.FlowChart

/-!
# Charts of functions

The text of a function stands behind a jump over it, wherever the function is declared: in the text
of the function around it, or in front of the main program.  Its chart is the chart of its body, put
between the lines that open and close the frame.  Arguments are read from above the frame, and the
result from slots of it.

## Main definitions

* `Lower.IsBody`: an action that writes the body of a function.

## Main statements

* `Piece.text`: the text of a function around its body.
* `defineFunction_emits`: a function that is declared stands in the listing.
-/

namespace KuAsm

open Asm Reg Lower

variable {code : Code}

/-! ### Texts -/

namespace Piece

variable {Γ : Ground} {J : Label → Spot → Prop} {x : Section} {base : Nat} {m : Spot} {code : Code}
  {k : ScopeId} {es : List Event} {ls : List (Label × Spot)}

/-- A function opens its frame behind a jump over its text, and closes it in front of the label of
that jump. -/
theorem text (entry skip : Label) (n : Nat) (hk : k < Γ.tree.size)
    (hfunction : (Γ.tree.scope k).function.isSome = true)
    (hhome : Γ.tree.home m.scope = Γ.tree.home (Γ.tree.scope k).parent)
    (h : Piece Γ J x (base + 10) (.within k) code (.within k) es ls) :
    Piece Γ J x base m ([jmp skip, .label entry] ++
      Convention.functionPrologue (Γ.tree.scope k).frameSize ++ (code ++
        (Convention.functionEpilogue ++ [.constant (Γ.tree.scope k).frameSize n, .label skip])))
      m es [] := by
  obtain ⟨ns, hns, hes, -⟩ := h
  generalize hhead : [jmp skip, .label entry] ++
    Convention.functionPrologue (Γ.tree.scope k).frameSize = head
  generalize htail : Convention.functionEpilogue ++
    [.constant (Γ.tree.scope k).frameSize n, .label skip] = tail
  have hlen : head.length = 10 := hhead ▸ rfl
  have hlen' : tail.length = 5 := htail ▸ rfl
  have hlow : ∀ (i : Nat), i < 10 → (head ++ (code ++ tail))[i]? = head[i]? := fun i hi =>
    List.getElem?_append_left (hlen ▸ hi)
  have hmiddle : ∀ i : Nat, (head ++ (code ++ tail))[10 + i]? = (code ++ tail)[i]? := fun i => by
    rw [List.getElem?_append_right (by omega), hlen, Nat.add_sub_cancel_left]
  have hcode : ∀ (i : Nat) (y : Line), code[i]? = some y → (head ++ (code ++ tail))[10 + i]? =
      some y := fun i y hy => by
    rw [hmiddle, List.getElem?_append_left (List.getElem?_eq_some_iff.1 hy).1]
    exact hy
  have hhigh : ∀ i : Nat, (head ++ (code ++ tail))[10 + code.length + i]? = tail[i]? := fun i => by
    rw [Nat.add_assoc, hmiddle, List.getElem?_append_right (by omega), Nat.add_sub_cancel_left]
  -- the spots in front of the body, in it, and behind it
  generalize hms : joinSpots 10 (fun i => if i = 0 then m else .within k)
    (joinSpots code.length ns fun i => if i < 3 then .within k else m) = ms
  have hinner : ∀ i, i ≤ code.length → ms (10 + i) = ns i := fun i hi => by
    rw [← hms, joinSpots_add, joinSpots_le _ hi]
    rw [hns.last]
    rfl
  have hfirst : ms 0 = m := hms ▸ rfl
  have hbefore : ∀ i, 0 < i → i ≤ 10 → ms i = .within k := fun i hpos hle => by
    rw [← hms, joinSpots_le _ hle, if_neg (by omega)]
    rw [if_neg (by omega), joinSpots_le _ (Nat.zero_le _), hns.first]
    rw [hns.last]
    rfl
  have hbehind : ∀ i, ms (10 + code.length + i) = if i < 3 then .within k else m := fun i => by
    rw [← hms, Nat.add_assoc, joinSpots_add, joinSpots_add]
  have hsteady : ∀ {i : Nat} {y : Line}, y.isSteady = true → ms i = .within k →
      ms (i + 1) = .within k →
      y.Charted Γ J (head ++ (code ++ tail)) ms i ∧ y.Grasps Γ (ms i) :=
      fun {i y} hy hhere hnext => by
    obtain ⟨hkind, hcall, hmems⟩ := Line.isSteady_iff.1 hy
    refine ⟨?_, Line.grasps_of_off hmems⟩
    unfold Line.Charted
    rw [hkind, hhere, hnext]
    exact ⟨rfl, nofun, fun entry heq => absurd heq (hcall entry)⟩
  have hchart : Charts Γ J (head ++ (code ++ tail)) ms m m := by
    refine ⟨hfirst, ?_, fun i y hy => ?_⟩
    · rw [List.length_append, List.length_append, hlen, hlen', ← Nat.add_assoc, hbehind]
      rfl
    rcases Nat.lt_or_ge i 10 with hi | hi
    · rw [hlow i hi, ← hhead] at hy
      match i with
      | 0 =>
        cases hy
        refine ⟨⟨.inr ⟨10 + code.length + 4, ?_, ?_⟩,
          .inr ⟨k, hk, hbefore 1 (by omega) (by omega), hfunction, ?_⟩⟩, Line.grasps_of_nil rfl⟩
        · rw [hhigh, ← htail]
          rfl
        · rw [hbehind, hfirst]
          rfl
        · rw [hfirst, hhome]
      | 1 =>
        cases hy
        exact ⟨(hbefore 2 (by omega) (by omega)).trans (hbefore 1 (by omega) (by omega)).symm,
          Line.grasps_of_nil rfl⟩
      | 4 =>
        cases hy
        refine ⟨⟨by omega, k, .inr ⟨hk, ⟨push (Mem.dword esp 8), ?_, nofun, rfl⟩, ?_, hfunction,
          hbefore 4 (by omega) (by omega), hbefore 5 (by omega) (by omega), Nat.le_refl 4, ?_⟩⟩,
          Line.grasps_of_nil rfl⟩
        · rw [hlow 3 (by omega), ← hhead]
          rfl
        · rw [hlow 5 (by omega), ← hhead]
          rfl
        · rw [hfirst, hhome]
      | 2 | 3 | 5 | 6 | 7 | 8 | 9 =>
        cases hy
        exact hsteady rfl (hbefore _ (by omega) (by omega)) (hbefore _ (by omega) (by omega))
      | _ + 10 => omega
    obtain ⟨j, rfl⟩ : ∃ j, i = 10 + j := ⟨i - 10, by omega⟩
    rcases Nat.lt_or_ge j code.length with hj | hj
    · rw [hmiddle, List.getElem?_append_left hj] at hy
      obtain ⟨hcharted, hgrasps⟩ := hns.lines j y hy
      rw [hinner j (Nat.le_of_lt hj)]
      exact ⟨hcharted.shift hcode hinner hy, hgrasps⟩
    obtain ⟨i, rfl⟩ : ∃ i, j = code.length + i := ⟨j - code.length, by omega⟩
    rw [← Nat.add_assoc] at hy ⊢
    rw [hhigh, ← htail] at hy
    match i with
    | 0 =>
      cases hy
      refine ⟨⟨?_, fun d hd => ?_, nofun⟩, fun a _ _ => .inr (.inr (.inl rfl))⟩
      · rw [hbehind 0, hbehind 1]
        rfl
      · rw [hbehind 1] at hd
        cases hd
    | 1 =>
      cases hy
      exact hsteady rfl (hbehind 1) (hbehind 2)
    | 2 =>
      cases hy
      refine ⟨⟨k, hk, ?_, hfunction, ⟨n, ?_⟩, ?_, 0, skip, ?_, ?_, hbefore 1 (by omega) (by omega),
        ?_⟩, Line.grasps_of_nil rfl⟩
      · rw [hbehind 2]
        rfl
      · rw [Nat.add_assoc _ 2, hhigh, ← htail]
        rfl
      · rw [Nat.add_assoc _ 2, hbehind, if_neg (by omega), hhome]
      · rw [hlow 0 (by omega), ← hhead]
        rfl
      · rw [Nat.add_assoc _ 2, hhigh, ← htail]
        rfl
      · rw [hfirst, hhome]
    | 3 =>
      cases hy
      refine ⟨⟨?_, fun d hd => ?_, nofun⟩, Line.grasps_of_nil rfl⟩
      · rw [Nat.add_assoc _ 3, hbehind, hbehind]
        rfl
      · rw [Nat.add_assoc _ 3, hbehind] at hd
        rw [hbehind]
        exact hd
    | 4 =>
      cases hy
      refine ⟨?_, Line.grasps_of_nil rfl⟩
      show ms (10 + code.length + 4 + 1) = ms (10 + code.length + 4)
      rw [Nat.add_assoc _ 4, hbehind, hbehind]
      rfl
    | _ + 5 => cases hy
  refine ⟨ms, hchart, fun ev hev u ahead hspot htarget => ?_, fun _ _ hp => nomatch hp⟩
  obtain ⟨j, hle, hline, hat, hbegins⟩ := hes ev hev u ahead hspot htarget
  refine ⟨10 + j, by rw [List.length_append, List.length_append]; omega, by omega,
    (hinner j hle).trans hat, ?_⟩
  have hdrop : (head ++ (code ++ tail)).drop (10 + j) = code.drop j ++ tail := by
    rw [← hlen, List.drop_append, List.drop_eq_nil_of_le (by omega), List.nil_append,
      Nat.add_sub_cancel_left, List.drop_append_of_le_length hle]
  rw [hdrop]
  exact hbegins.append tail

end Piece

/-! ### The frame of a function -/

section

variable {F : ScopeId → List Slot} {s t : State} {l : Location}

/-- Declaring a function reserves nothing. -/
theorem announce_settles {name : String} {params : List Param} {ret : ScalarType} {f : Signature}
    {skip : Label} (hs : Laid F s) (h : announce name params ret l s = .ok (f, skip) t) :
      Settles F s F t ∧ t.current = s.current ∧
      t.target = s.target ∧ t.listing = s.listing ∧ t.tree.size = s.tree.size ∧
      ∀ i g, g ∈ (t.tree.scope i).functions → g ∈ (s.tree.scope i).functions ∨ i = s.current ∧
      g = f := by
  obtain ⟨-, -, -, rfl⟩ := announce_eq_ok h
  have hset : Settles F s F (s.withScope { s.here with functions := s.here.functions ++ [f] }) :=
    .replace hs ⟨rfl, rfl, rfl, rfl, List.prefix_append _ _⟩ rfl rfl (hs.pending _ hs.current_lt)
  refine ⟨hset.trans (.withSession hset.laid (Nat.le_add_right _ 3)), rfl, rfl, rfl,
    ScopeTree.size_set .., fun i g hg => ?_⟩
  by_cases hi : i = s.current
  · subst hi
    have hhere : (s.withScope { s.here with functions := s.here.functions ++ [f] }).here =
        { s.here with functions := s.here.functions ++ [f] } := State.here_withScope hs.formed _
    have hg :
      g ∈ (s.withScope { s.here with functions := s.here.functions ++ [f] }).here.functions := hg
    rw [hhere] at hg
    exact (List.mem_append.1 hg).imp id fun hg => ⟨rfl, List.mem_singleton.1 hg⟩
  · have hg : g ∈ ((s.withScope { s.here with functions := s.here.functions ++ [f] }).tree.scope
      i).functions := hg
    rw [State.scope_withScope_of_ne _ hi] at hg
    exact .inl hg

/-- The frame of a function begins with the slots of its result. -/
theorem openBody_settles {f : Signature} {m : FunctionExit} (hs : Laid F s)
    (h : openBody f s = .ok m t) :
    Settles F s F t ∧ t.here.function = some m ∧ t.here.parent = some s.current ∧
      t.target = .functions ∧ t.listing = s.listing ∧ t.tree.size = s.tree.size + 1 ∧
      t.current = s.tree.size ∧
      ∀ i < t.tree.size, ∀ g ∈ (t.tree.scope i).functions, i < s.tree.size ∧
      g ∈ (s.tree.scope i).functions := by
  have hin := openBody_inner hs.formed h
  obtain ⟨hm, ht⟩ := openBody_eq_ok h
  generalize hfresh : Scope.fresh (some s.current) (.fresh s.session.nextLabel "frame") =
    fresh at ht
  generalize he : ({ s.entered (.fresh s.session.nextLabel "frame") with target := .functions } :
    State) = e at ht
  have hnew : e.here = fresh := by
    rw [← he, ← hfresh]
    exact ScopeTree.scope_push_size ..
  have hsize : e.tree.size = s.tree.size + 1 := by
    rw [← he]
    exact ScopeTree.size_push ..
  have hcurrent : e.current = s.tree.size := by
    rw [← he]
    rfl
  have hlaid : Laid F e := by
    rw [← he]
    exact hs.entered.congr rfl hs.entered.current_lt rfl nofun (Nat.le_refl _) nofun
  have htarget : e.target = .functions := he ▸ rfl
  have hsc : t.here = { fresh with used := 8, function := some m } := by
    rw [ht]
    exact State.here_withScope hlaid.formed _
  -- the frame was empty, so its slots are the two of the result
  have hlaid' : Laid (growSlots F e.current []) t := by
    rw [ht]
    have hnone : F e.current = [] := hs.unused _ (Nat.le_of_eq hcurrent.symm)
    refine hlaid.revise (congrArg Scope.parent hnew).symm (congrArg Scope.frameSize hnew).symm
      (fun hout => ?_) (fun hloop => ?_) ?_ fun e' he' => ?_
    · rw [htarget] at hout
      cases hout
    · rw [← hfresh] at hloop
      cases hloop
    · rw [hnone, ← hfresh, hm]
      exact .snoc 4 (.snoc 4 .nil (.inr rfl)) (.inr rfl)
    · rw [← hfresh] at he'
      cases he'
  rw [growSlots_nil] at hlaid'
  refine ⟨⟨fun i x hx => ?_, hin.onward.extends, hlaid'⟩, by rw [hsc], hin.parent,
    ht ▸ htarget, by rw [ht, ← he]; rfl, ?_, hin.current, fun i hi g hg => ?_⟩
  · unfold frameSlots at hx ⊢
    rwa [hin.others i (hs.lt_of_mem hx)]
  · rw [ht]
    exact (ScopeTree.size_set ..).trans hsize
  · rcases Nat.lt_or_ge i s.tree.size with hlt | hge
    · rw [hin.others i hlt] at hg
      exact ⟨hlt, hg⟩
    · rw [ht, show (e.withScope _).tree.size = e.tree.size from ScopeTree.size_set .., hsize] at hi
      obtain rfl : i = s.tree.size := by omega
      rw [← hin.current, show t.tree.scope t.current = t.here from rfl, hsc, ← hfresh] at hg
      cases hg

/-- An argument is copied into the slot of its parameter. -/
theorem bindParam_settles {index : Nat} {p : Param} (hs : Laid F s)
    (h : bindParam l index p s = .ok code t) :
    s.Silent t ∧ t.current = s.current ∧ Settles F s F t ∧
      ∀ Γ, Γ.Holds F t → ∀ J x base,
      Piece Γ J x base (.within s.current) code (.within s.current) [] [] := by
  obtain ⟨sc, disp, m, hsc, hdisp, hm, rfl, hadopt⟩ := bindParam_eq_ok h
  obtain ⟨hsilent, hs₁, hslots⟩ := declareVariable_settles hs hsc
  have hadopted : Settles F (s.withScope sc) F t ∧ (s.withScope sc).Silent t ∧
      t.current = s.current := by
    cases hty : p.ty.isHeap with
    | false =>
      obtain rfl := (adopt_plain_eq_ok hty).1 hadopt
      exact ⟨.refl hs₁.laid, .quiet (.refl _), rfl⟩
    | true =>
      obtain ⟨u, id, hmint, rfl⟩ := (adopt_heap_eq_ok hty).1 hadopt
      have hu : Settles F (s.withScope sc) F u ∧ (s.withScope sc).Silent u ∧
          u.current = s.current := by
        obtain ⟨-, rfl⟩ := mintReclaim_eq_ok.1 hmint
        exact ⟨.withSession hs₁.laid (Nat.le_refl _), ⟨rfl, rfl, rfl, fun _ hi _ hf => ⟨hi, hf⟩⟩,
          rfl⟩
      obtain ⟨hs₂, hsilent₂, hcurrent⟩ := hu
      have hbound : u.Silent (u.withScope (u.here.bind p.name id)) := .withScope hs₂.laid.formed rfl
      exact ⟨hs₂.trans (bind_settles hs₂.laid p.name id), hsilent₂.trans hbound, hcurrent⟩
  obtain ⟨hs₂, hsilent', hcurrent⟩ := hadopted
  refine ⟨hsilent.trans hsilent', hcurrent, hs₁.trans hs₂, fun Γ hΓ J x base => ?_⟩
  have hΓs := hΓ.back hs (hs₁.trans hs₂)
  have hread : Piece Γ J x base (.within s.current) [mov eax (Mem.dword ebp disp)]
      (.within s.current) [] [] :=
    .line rfl nofun rfl nofun fun a _ _ => .inr (.inr (.inr ⟨index, disp, hdisp, rfl⟩))
  refine hread.append (.own hΓs.here_enclosing fun y hy => ?_)
  rw [List.mem_singleton.1 hy]
  exact .store hm (hslots Γ (hΓ.back hs₁.laid hs₂) _ List.mem_cons_self)

theorem bindParams_settles {index : Nat} {ps : List Param} (hs : Laid F s)
    (h : bindParams l index ps s = .ok code t) :
    s.Silent t ∧ t.current = s.current ∧ Settles F s F t ∧
      ∀ Γ, Γ.Holds F t → ∀ J x base,
      Piece Γ J x base (.within s.current) code (.within s.current) [] [] := by
  induction ps generalizing F s index code with
  | nil =>
    unfold bindParams at h
    obtain ⟨rfl, rfl⟩ := pure_eq_ok.1 h
    exact ⟨.quiet (.refl _), rfl, .refl hs, fun _ _ _ _ _ => .nil _⟩
  | cons p ps ih =>
    unfold bindParams at h
    obtain ⟨first, u, hfirst, h₁⟩ := bind_eq_ok.1 h
    obtain ⟨more, v, hmore, h₂⟩ := bind_eq_ok.1 h₁
    obtain ⟨rfl, rfl⟩ := pure_eq_ok.1 h₂
    obtain ⟨hsilent, hcurrent, hs₁, hpiece⟩ := bindParam_settles hs hfirst
    obtain ⟨hsilent', hcurrent', hs₂, hpiece'⟩ := ih hs₁.laid hmore
    refine ⟨hsilent.trans hsilent', hcurrent'.trans hcurrent, hs₁.trans hs₂,
      fun Γ hΓ J x base => ?_⟩
    rw [hcurrent] at hpiece'
    exact (hpiece Γ (hΓ.back hs₁.laid hs₂) J x base).append (hpiece' Γ hΓ J x _)

end

/-! ### Functions in the listing -/

/-- The action writes the body of a function, and stashes slots of its own besides those of its
events.  If `lib` holds, the library can be called. -/
def Lower.IsBody (body : FunctionExit → Lower Unit) (lib : Prop) (events : State → List Event)
    (own : State → List Slot) : Prop :=
  ∀ F s m a t, Laid F s → (lib → s.Equipped) → s.target = .functions → s.here.function = some m →
    body m s = .ok a t → Settles F s (growSlots (stashed F (events s)) s.current (own s)) t ∧
      ∀ Γ, Γ.Holds (growSlots (stashed F (events s)) s.current (own s)) t → ∀ J,
        J m.returnLabel (.within s.current) →
        Emits Γ J s t (.within s.current) (.within s.current) (events s) []

section

variable {F : ScopeId → List Slot} {s t : State} {l : Location} {name : String}
  {params : List Param} {ret : ScalarType}

theorem State.functions_wrote (h : s.target = .functions) (code : Code) :
    (s.wrote code).listing.functions = s.listing.functions ++ code ∧
      (s.wrote code).listing.program = s.listing.program := by
  unfold State.wrote
  rw [h]
  exact ⟨rfl, rfl⟩

/-- The end of a function fetches the result from its slots. -/
theorem Piece.fetch {Γ : Ground} {J : Label → Spot → Prop} {x : Section} {base : Nat}
    {m : FunctionExit} (hΓ : Γ.Holds F s) (hm : s.here.function = some m)
    (h : fetchResult m t = .ok code t) :
    Piece Γ J x base (.within s.current) code (.within s.current) [] [] := by
  obtain ⟨-, a, ha, hcode⟩ := fetchResult_eq_ok h
  have hslots : m.result ∈ Γ.slots s.current ∧ m.resultSize ∈ Γ.slots s.current :=
    ⟨hΓ.slot hΓ.laid.current_lt (Scope.mem_slots.2 (.inl ⟨m, hm, .inl rfl⟩)),
      hΓ.slot hΓ.laid.current_lt (Scope.mem_slots.2 (.inl ⟨m, hm, .inr rfl⟩))⟩
  have htouch : ∀ {r : Reg} {slot : Slot} {a : Mem}, r ≠ esi → Mem.slot ebp slot = .ok a →
      slot ∈ Γ.slots s.current →
      (mov r a).Touches ebp (Γ.slots s.current) := fun {r} _ _ hr ha hs =>
    ⟨by cases r <;> rfl, by cases r <;> first | rfl | exact absurd rfl hr,
      .of_slot (fun b hb => List.mem_singleton.1 hb) rfl ha hs⟩
  refine .own hΓ.here_enclosing fun y hy => ?_
  rcases hcode with rfl | ⟨z, hz, rfl⟩
  · rw [List.mem_singleton.1 hy]
    exact htouch nofun ha hslots.1
  · rcases List.mem_cons.1 hy with rfl | hy
    · exact htouch nofun ha hslots.1
    · rw [List.mem_singleton.1 hy]
      exact htouch nofun hz hslots.2

/-- What is written when the function `f` is opened, with the code `copies` that fetches the
arguments. -/
structure Lower.FunctionFrame.Opens (g : FunctionFrame) (F : ScopeId → List Slot) (s t : State)
    (f : Signature) (note copies : Code) : Prop where
  settles : Settles F s F t
  scope : g.scope = t.current
  outer : g.outer = s.current
  section_eq : g.target = s.target
  target : t.target = .functions
  function : t.here.function = some g.exit
  parent : t.here.parent = some s.current
  remark : Code.IsNote note
  functions : t.listing.functions = s.listing.functions ++
    (note ++ ([jmp g.skip, .label f.entry] ++ Convention.functionPrologue t.here.frameSize ++
      copies))
  program : t.listing.program = s.listing.program
  copied : ∀ Γ, Γ.Holds F t → ∀ J x base,
    Piece Γ J x base (.within t.current) copies (.within t.current) [] []
  entries : ∀ i < t.tree.size, ∀ h ∈ (t.tree.scope i).functions,
    i < s.tree.size ∧ h ∈ (s.tree.scope i).functions ∨ i = s.current ∧ h = f

theorem openFunction_opens {g : FunctionFrame} (hs : Laid F s)
    (h : openFunction name params ret l s = .ok g t) :
    ∃ f note copies, g.Opens F s t f note copies := by
  obtain ⟨f, skip, u, exit, v, note, copies, w, hannounce, hbody, hremark, hcopies, rfl, rfl⟩ :=
    openFunction_eq_ok h
  obtain ⟨hs₁, hcurrent₁, htarget₁, hlisting₁, hsize₁, hfunctions₁⟩ := announce_settles hs hannounce
  obtain ⟨hs₂, hexit, hparent, htarget₂, hlisting₂, hsize₂, hcurrent₂, hfunctions₂⟩ :=
    openBody_settles hs₁.laid hbody
  obtain ⟨hsilent, hcurrent₃, hs₃, hcopied⟩ := bindParams_settles hs₂.laid hcopies
  have hs₄ := Settles.wrote hs₃.laid (note ++ [jmp skip, .label f.entry] ++
    Convention.functionPrologue w.here.frameSize ++ copies)
  have htarget : w.target = .functions := hsilent.target.trans htarget₂
  have hstays : v.here.Stays w.here := by
    unfold State.here
    rw [hcurrent₃]
    exact hs₃.tree.scope _ hs₂.laid.current_lt
  obtain ⟨hfunctions, hprogram⟩ :=
    State.functions_wrote htarget (note ++ [jmp skip, .label f.entry] ++
      Convention.functionPrologue w.here.frameSize ++ copies)
  refine ⟨f, note, copies, (hs₁.trans hs₂).trans (hs₃.trans hs₄), rfl, hcurrent₁, htarget₁, htarget,
    hstays.function.trans hexit, ?_, (isNote_of_remark hremark).1, ?_, ?_, fun Γ hΓ J x base => ?_,
    fun i hi h hh => ?_⟩
  · rw [← hcurrent₁]
    exact hstays.parent.trans hparent
  · rw [hfunctions, hsilent.functions, hlisting₂, hlisting₁]
    simp only [List.append_assoc]
    rfl
  · rw [hprogram, hsilent.program, hlisting₂, hlisting₁]
  · have hall := hcopied Γ (hΓ.back hs₃.laid hs₄) J x base
    rw [← hcurrent₃] at hall
    exact hall
  · obtain ⟨hi₁, hh₁⟩ := hsilent.entries i hi h hh
    obtain ⟨hi₂, hh₂⟩ := hfunctions₂ i hi₁ h hh₁
    exact (hfunctions₁ i h hh₂).imp (fun hh => ⟨hsize₁ ▸ hi₂, hh⟩) id

/-- A function that is declared stands in the listing. -/
theorem defineFunction_emits {body : FunctionExit → Lower Unit} {lib : Prop}
    {es : State → List Event}
    {own : State → List Slot} {a : Unit} (hbody : Lower.IsBody body lib es own)
    (hgrows : ∀ m, (body m).IsGrowing) (hs : Laid F s) (hlib : lib → s.Equipped)
    (h : defineFunction name params ret l body s = .ok a t) :
      ∃ g u, openFunction name params ret l s = .ok g u ∧
      Settles F s (growSlots (stashed F (es u)) u.current (own u)) t ∧
      ∀ Γ, Γ.Holds (growSlots (stashed F (es u)) u.current (own u)) t → ∀ J m,
        Γ.tree.home m.scope = Γ.tree.home (some s.current) → Emits Γ J s t m m (es u) [] := by
  obtain ⟨g, u, hopen, h₁⟩ := bind_eq_ok.1 h
  obtain ⟨_, v, hrun, hclose⟩ := bind_eq_ok.1 h₁
  obtain ⟨f, note, copies, ho⟩ := openFunction_opens hs hopen
  have hs₁ := ho.settles
  obtain ⟨hs₂, hemits⟩ := hbody F u g.exit _ v hs₁.laid (fun hl => hs₁.equipped hs (hlib hl))
    ho.target ho.function hrun
  obtain ⟨_, fetch, bytes, hfetch, -, rfl, ht⟩ := closeFunction_eq_ok hclose
  have hv := hgrows _ _ _ _ hs₁.laid.formed hrun
  have hsymbol : (v.tree.scope g.scope).frameSize = u.here.frameSize := by
    rw [ho.scope, ← hv.current]
    exact hv.here.frameSize
  rw [hsymbol] at ht
  generalize htail : Convention.functionEpilogue ++ [.constant u.here.frameSize bytes,
    .label g.skip] = tail at ht
  obtain ⟨hfunctions, hprogram⟩ := State.functions_wrote (hv.target.trans ho.target)
    ([.label g.exit.returnLabel] ++ fetch ++ tail)
  rw [← show t.listing = State.listing (v.wrote _) by rw [ht]] at hfunctions hprogram
  have htree : t.tree = v.tree := by rw [ht]; rfl
  have hcurrent : t.current = s.current := by rw [ht]; exact ho.outer
  have htarget : t.target = s.target := by rw [ht]; exact ho.section_eq
  have hs₃ : Settles (growSlots (stashed F (es u)) u.current (own u)) v
      (growSlots (stashed F (es u)) u.current (own u)) t := by
    have hboth := (hs₁.trans hs₂).tree
    refine ⟨fun _ _ hx => htree ▸ hx, htree ▸ .refl _,
      hs₂.laid.congr htree ?_ (by rw [ht]; rfl) (htarget ▸ hs.target)
      (by rw [ht]; exact Nat.le_refl _) fun hout => ?_⟩
    · rw [hcurrent]
      exact Nat.lt_of_lt_of_le hs.current_lt hboth.size
    · rw [hcurrent, hboth.home hs.formed.ordered hs₂.laid.formed.ordered hs.current_lt]
      exact hs.outside (htarget ▸ hout)
  refine ⟨g, u, hopen, (hs₁.trans hs₂).trans hs₃, fun Γ hΓ J m hhome => ?_⟩
  have hΓ₂ := hΓ.back hs₂.laid hs₃
  have hΓ₁ := hΓ₂.back hs₁.laid hs₂
  have hstays := hΓ₁.tree.scope _ hs₁.laid.current_lt
  have hfunction : (Γ.tree.scope u.current).function.isSome = true := by
    rw [hstays.function, show (u.tree.scope u.current).function = some g.exit from ho.function]
    rfl
  have hparent := hstays.parent.trans ho.parent
  have hemitted :=
    hemits Γ hΓ₂ (pending (fun _ _ => False) [(g.exit.returnLabel, .within u.current)])
    (.inr (List.mem_singleton_self _))
  obtain ⟨code, hcode, hpiece⟩ := hemitted.written
  obtain ⟨hprogram', hat⟩ := hemitted.inner ho.target
  rw [ho.target] at hcode hpiece
  -- the text of the function
  generalize htext : [jmp g.skip, .label f.entry] ++ Convention.functionPrologue u.here.frameSize ++
    (copies ++ code ++ [.label g.exit.returnLabel] ++ fetch ++ tail) = text
  have hlines : t.listing.functions = s.listing.functions ++ (note ++ text) := by
    rw [hfunctions, show v.listing.functions = u.listing.functions ++ code from hcode,
      ho.functions, ← htext]
    simp only [List.append_assoc]
  have hline : u.line = s.listing.functions.length + note.length + 10 + copies.length := by
    unfold State.line
    rw [ho.target, show u.listing.lines .functions = u.listing.functions from rfl, ho.functions]
    simp only [List.length_append]
    rw [show List.length (Convention.functionPrologue u.here.frameSize) = 8 from rfl]
    simp only [List.length_cons, List.length_nil]
    omega
  have hinner : Piece Γ (fun _ _ => False) .functions
      (s.listing.functions.length + note.length + 10) (.within u.current)
      (copies ++ code ++ [.label g.exit.returnLabel] ++ fetch) (.within u.current) (es u) [] := by
    have hall :=
      (((ho.copied Γ hΓ₁ _ _ _).append (hline ▸ hpiece)).append
        (.label g.exit.returnLabel _)).append (.fetch hΓ₁ ho.function hfetch)
    refine (hall.close fun _ _ hl => ?_).restrict (fun ev hev _ => ?_) nofun
    · simpa [pending] using hl
    · simpa using hev
  have hwhole : ∀ m, Γ.tree.home m.scope = Γ.tree.home (some s.current) → ∀ J,
      Piece Γ J .functions s.listing.functions.length m (note ++ text) m (es u) [] := by
    intro m hm J
    have hpiece := Piece.text f.entry g.skip bytes hΓ₁.current_lt hfunction
      (hm.trans (congrArg _ hparent.symm)) hinner
    rw [hstays.frameSize, show (u.tree.scope u.current).frameSize = u.here.frameSize from rfl,
      htail, htext] at hpiece
    exact ((Piece.note ho.remark).append hpiece).close nofun
  -- the function can be found in it
  have hlocated : t.listing.Locates Γ s.current f := by
    refine ⟨.functions, s.listing.functions.length + (note.length + 1), u.current, nofun,
      hΓ₁.current_lt, hfunction, hparent, ?_, ?_⟩
    · rw [show t.listing.lines .functions = t.listing.functions from rfl, hlines,
        List.getElem?_append_right (by omega),
        Nat.add_sub_cancel_left, List.getElem?_append_right (by omega),
        Nat.add_sub_cancel_left, ← htext]
      rfl
    · rw [show t.listing.lines .functions = t.listing.functions from rfl, hlines, Nat.add_assoc,
        List.drop_length_add_append, Nat.add_assoc, List.drop_length_add_append,
        hstays.frameSize, ← htext]
      exact ⟨_, rfl⟩
  have hentries : ∀ i : Nat, i < t.tree.size → ∀ f ∈ (t.tree.scope i).functions,
      i < s.tree.size ∧ f ∈ (s.tree.scope i).functions ∨ t.listing.Locates Γ i f := by
    intro i hi h hh
    rw [htree] at hi hh
    rcases hemitted.entries i hi h hh with ⟨hi', hh'⟩ | hloc
    · rcases ho.entries i hi' h hh' with hold | ⟨rfl, rfl⟩
      · exact .inl hold
      · exact .inr hlocated
    · refine .inr (hloc.mono fun x hx => ?_)
      cases x with
      | data => exact absurd rfl hx
      | functions => exact ⟨_, hfunctions.symm⟩
      | program => exact ⟨[], (List.append_nil _).trans hprogram.symm⟩
  have hsections : ∀ ev ∈ es u, ∀ x ahead, ev.spot? = some (x, ahead) → x.target ≠ .data :=
    fun ev hev x ahead hspot => hat ev hev x ahead hspot ▸ nofun
  have hsame : t.listing.program = s.listing.program := hprogram.trans (hprogram'.trans ho.program)
  cases hs₀ : s.target with
  | data => exact absurd hs₀ hs.target
  | functions =>
    refine ⟨hs.target, hsections, htarget, ⟨note ++ text, ?_, ?_⟩, fun _ => ⟨hsame, hat⟩, ?_,
      hentries⟩
    · rw [hs₀]
      exact hlines
    · have hat' : s.line = s.listing.functions.length := by
        unfold State.line
        rw [hs₀]
        rfl
      rw [hs₀, hat']
      exact hwhole m hhome J
    · rw [hs₀]
      nofun
  | program =>
    refine ⟨hs.target, hsections, htarget, ⟨[], ?_, ?_⟩, ?_, fun _ => ⟨note ++ text, hlines, ?_⟩,
      hentries⟩
    · rw [hs₀, List.append_nil]
      exact hsame
    · rw [hs₀]
      exact (Piece.nil _).besides hat nofun
    · rw [hs₀]
      nofun
    · have hΓs := hΓ₁.back hs hs₁
      refine hwhole .outside ?_ _
      rw [hΓs.tree.home hs.formed.ordered hΓ.ordered hs.current_lt]
      exact (hs.outside hs₀).symm

end

end KuAsm
