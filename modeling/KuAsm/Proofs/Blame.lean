import KuAsm.Proofs.Inclusion
import KuAsm.Proofs.Renaming

/-!
# Errors point at the program

A program that is rejected is rejected at the place of one of its nodes, and nothing that follows
can change that.  The compiler makes up values and returns where the program has none, and it sets
up the library; none of this is ever rejected.

Where an error points is read off a comparison of the program with itself: any place may stand for
the places of its nodes, and no other place is asked for.

## Main statements

* `compile_rejected_iff`: a program is rejected if its statements are.
* `Lower.leaveFunction_accepted`: a return of a value that is never rejected is not rejected in a
  function.
* `rejections_point_at_program`: the place of an error, and what does not cause one.
-/

namespace KuAsm

open Lower

/-! ### Where an error comes from -/

/-- An error is found at the place of a node of the program. -/
theorem compile_rejected_location {options : Options} {p : Program} {d : Diagnostic}
    (h : compile options p = .error (.rejected d)) : d.location ∈ p.nodes.map Node.location := by
  let Λ :
    Likeness := ⟨.empty, id, Function.injective_id, 0, fun l _ => l ∈ p.nodes.map Node.location⟩
  have hcovers (k : Nat) : Likeness.Covers { Λ with library := k } (Node.nodesAll p.body) :=
    fun n hn _ => List.mem_map_of_mem hn
  have hbody (k : Nat) :
      Mirrors { Λ with library := k } Eq Eq (Via id) (Node.executeAll false p.body)
      (Node.executeAll false (Program.mk (Node.respellAll id p.body)).body) :=
      Node.executeAll_respell (hcovers k) false
  obtain ⟨hends, -⟩ := compileIn_alike Λ .empty [] rfl hbody options.comments options.entry
  have hleft : (compileIn .empty ⟨options.comments, options.entry⟩ p).1 = .error (.rejected d) := h
  rw [hleft] at hends
  generalize (compileIn _ _ (⟨Node.respellAll id p.body⟩ : Program)).1 = y at hends
  cases hends with
  | @error _ e he =>
    cases e with
    | rejected d' => exact he.2
    | fault f => exact he.elim

/-- In a new session, a program is rejected if its statements are. -/
theorem compile_rejected_iff (options : Options) : ∃ s, ∀ (p : Program) (d : Diagnostic),
    compile options p = .error (.rejected d) ↔ ∃ t,
    Node.executeAll false p.body s = .error (.rejected d) t := by
  obtain ⟨s, hlibrary, -⟩ := registerLibrary_situation options.comments
  obtain ⟨t, hopen⟩ : ∃ t, openProgram s = .ok () t := ⟨_, rfl⟩
  refine ⟨t, fun p d => ?_⟩
  have hrun : (lowerUnit p).run (State.start .empty options.comments) =
      (Node.executeAll false p.body >>= closeProgram) t :=
    (bind_of_eq_ok hlibrary).trans (bind_of_eq_ok hopen)
  have hcompile : compile options p = .error (.rejected d) ↔
      ∃ u, (Node.executeAll false p.body >>= closeProgram) t = .error (.rejected d) u := by
    unfold compile compileIn
    rw [hrun]
    cases (Node.executeAll false p.body >>= closeProgram) t with
    | ok a u => simp
    | error e u => simp
  rw [hcompile]
  refine exists_congr fun u => bind_eq_error.trans (or_iff_left ?_)
  rintro ⟨jumped, v, -, hclose⟩
  exact IsLenient.law.closeProgram jumped v d u hclose

namespace Lower

variable {s t : State} {l : Location} {d : Diagnostic}

/-- A return is rejected only outside of functions, unless its value is. -/
theorem leaveFunction_accepted {value : ScalarType → Lower Lowered}
    (hvalue : ∀ ty, (value ty).IsLenient)
    (hs : s.tree.lookupFunctionExit s.current ≠ none) :
    leaveFunction l value s ≠ .error (.rejected d) t := by
  have hlaw := IsLenient.law
  unfold leaveFunction
  rw [bind_of_eq_ok (rfl : (get : Lower State) s = .ok s s)]
  cases hfound : s.tree.lookupFunctionExit s.current with
  | none => exact absurd hfound hs
  | some x =>
    exact hlaw.bind (hvalue _) (fun _ => hlaw.read fun _ =>
        hlaw.bind (hlaw.ownedResult _ _) fun _ =>
      hlaw.bind (hlaw.resultCode _ _) fun _ => hlaw.bind (hlaw.emit _) fun _ =>
          hlaw.bind (hlaw.unwind _ _) fun _ =>
        hlaw.bind (hlaw.sweep _ _) fun _ => hlaw.emit _) s d t

/-- The body of a function lies in the function. -/
theorem lookupFunctionExit_here (hs : s.Formed) (h : s.here.function ≠ none) :
    s.tree.lookupFunctionExit s.current ≠ none := by
  have hfind : s.tree.find s.current (fun sc => sc.function.isSome) = some ⟨s.current, 0⟩ := by
    refine ScopeTree.find_eq_some_iff.2 ⟨?_, Option.isSome_iff_ne_none.2 h, fun k j hk =>
      absurd hk (Nat.not_lt_zero k)⟩
    obtain ⟨n, hn⟩ := Nat.exists_eq_add_of_lt hs.current_lt
    rw [ScopeTree.path, hn]
    rfl
  obtain ⟨m, hm⟩ := Option.ne_none_iff_exists'.1 h
  unfold ScopeTree.lookupFunctionExit
  rw [hfind]
  exact Option.ne_none_iff_exists'.2 ⟨(⟨s.current, 0⟩, m), congrArg (Option.bind · _) hm⟩

/-- The statements of a function are compiled in its scope. -/
theorem openFunction_function {name : String} {params : List Param} {ret : ScalarType}
    {g : FunctionFrame} (hs : s.Formed)
    (h : openFunction name params ret l s = .ok g t) : t.here.function ≠ none := by
  obtain ⟨f, skip, u, exit, v, note, copies, w, hannounce, hopen, -, hcopies, -, rfl⟩ :=
    openFunction_eq_ok h
  have hu := IsGrowing.announce _ _ _ _ _ _ _ hs hannounce
  have hv := openBody_inner hu.formed hopen
  have hw := IsGrowing.bindParams l 0 params _ _ _ hv.formed hcopies
  obtain ⟨-, rfl⟩ := openBody_eq_ok hopen
  have hentered :=
    (State.Inner.entered hu.formed (.fresh u.session.nextLabel "frame")).formed.targeted .functions
  have hhere : w.here.function = some exit :=
    hw.here.function.trans (congrArg Scope.function (State.here_withScope hentered _))
  exact fun hnone => nomatch hhere.symm.trans hnone

/-- The return behind the statements of a function is not rejected. -/
theorem function_rejected {name : String} {params : List Param} {ret : ScalarType}
    {body : List Node} (hs : s.Formed)
    (h : (Node.mk (.function name params ret body) l).execute s = .error (.rejected d) t) :
    openFunction name params ret l s = .error (.rejected d) t ∨
      ∃ g u, openFunction name params ret l s = .ok g u ∧
      Node.executeAll false body u = .error (.rejected d) t := by
  unfold Node.execute at h
  rcases bind_eq_error.1 h with h | ⟨_, _, -, h⟩
  · rcases bind_eq_error.1 h with h | ⟨g, u, hopen, h⟩
    · exact .inl h
    · rcases bind_eq_error.1 h with h | ⟨_, v, -, h⟩
      · rcases bind_eq_error.1 h with h | ⟨jumped, v, hbody, h⟩
        · exact .inr ⟨g, u, hopen, h⟩
        · cases jumped with
          | true => cases h
          | false =>
            obtain ⟨_, -, hinner, -⟩ := openFunction_inner hs hopen
            have hv := Node.executeAll_grows false body _ _ _ hinner.formed hbody
            have hhere := hv.here.function.trans_ne (openFunction_function hs hopen)
            exact absurd h (leaveFunction_accepted (fun ty => IsLenient.law.literal ty.zero)
              (lookupFunctionExit_here hv.formed hhere))
      · exact absurd h (IsLenient.closeFunction name g v d t)
  · cases h

end Lower

/-- Errors point at the program.  If a program is rejected, the error is at the place of one of its
nodes, and the program is rejected with the same error whatever follows.  What the compiler makes up
is never rejected: the library is set up, the values that variables start with have the right types,
a return without a value is accepted in a function, and a function is rejected only for its head or
for its statements, and not for the return behind them. -/
theorem rejections_point_at_program (options : Options) (program : Program) :
    (∀ d, compile options program = .error (.rejected d) →
      d.location ∈ program.nodes.map Node.location ∧
      ∀ q, compile options ⟨program.body ++ q⟩ = .error (.rejected d)) ∧
    (∃ s, registerLibrary (State.start .empty options.comments) = .ok () s) ∧
    (∀ (ty : ScalarType) s, ∃ v t, literal ty.zero s = .ok v t ∧ v.ty = ty) ∧
    (∀ l s, s.tree.lookupFunctionExit s.current ≠ none →
      ∀ d t, leaveFunction l (Node.evaluateOr none) s ≠ .error (.rejected d) t) ∧
    ∀ name params ret body l s,
      .statement (.mk (.function name params ret body) l) s ∈
        program.trace .empty options.comments →
      ∀ d t, (Node.mk (.function name params ret body) l).execute s = .error (.rejected d) t →
        openFunction name params ret l s = .error (.rejected d) t ∨
        ∃ g u, openFunction name params ret l s = .ok g u ∧
          Node.executeAll false body u = .error (.rejected d) t := by
  refine ⟨fun d h => ⟨compile_rejected_location h, fun q => ?_⟩, ?_, fun ty s => ?_,
    fun l s hs d t => ?_, fun name params ret body l s hev d t => ?_⟩
  · obtain ⟨s, hrejected⟩ := compile_rejected_iff options
    obtain ⟨t, ht⟩ := (hrejected program d).1 h
    refine (hrejected _ d).2 ⟨t, ?_⟩
    rw [Node.executeAll_append]
    exact bind_eq_error.2 (.inl ht)
  · obtain ⟨s, hs, -⟩ := registerLibrary_situation options.comments
    exact ⟨s, hs⟩
  · cases ty <;> exact ⟨_, _, rfl, rfl⟩
  · exact leaveFunction_accepted (fun ty => IsLenient.law.literal ty.zero) hs
  · have hstart := State.formed_start .empty options.comments
    exact function_rejected ((Spans.law.lowerUnit program).comes _ hstart _ hev s rfl).formed

/-- A loop is left where there is none, behind a function that ends without a return. -/
def strayBreak : Program :=
  ⟨[.mk (.function "f" [⟨"s", .string⟩] .string []) ⟨1, 1⟩, .mk .breakLoop ⟨2, 3⟩]⟩

/-- The error stays the same whatever follows. -/
theorem rejections_point_at_program_strayBreak :
    ⟨2, 3⟩ ∈ strayBreak.nodes.map Node.location ∧
      ∀ q, compile {} ⟨strayBreak.body ++ q⟩ =
        .error (.rejected ⟨.unresolvedSymbol .enclosingLoop "break", ⟨2, 3⟩⟩) := by
  have hrejected : compile {} strayBreak =
      .error (.rejected ⟨.unresolvedSymbol .enclosingLoop "break", ⟨2, 3⟩⟩) := by decide +kernel
  exact (rejections_point_at_program {} strayBreak).1 _ hrejected

end KuAsm
