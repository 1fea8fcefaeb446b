import KuAsm.Proofs.Reckoning
import KuAsm.Proofs.Sequence

/-!
# The counts of a session are those of the unit

What the lines added around the sections of a listing show is nothing, so a unit shows what was
counted.

## Main statements

* `statistics_tell_the_output`: the counts of a session are those of the unit.
-/

namespace KuAsm

open Asm Reg Lower

variable {q : Feature} {code : Code}

/-! ### Units -/

namespace Feature

/-- Whether the session tells how often the feature is shown. -/
def isTold : Feature → Bool
  | foreign _ | system => false
  | _ => true

theorem isCounted_of_isTold (hq : q.isTold = true) : q.IsCounted fun _ => True where
  toRemarks := .any fun text => by
    cases q with
    | foreign ok => cases hq
    | _ => trivial
  counted := by
    rintro rfl
    cases hq

theorem count_append_verbatim (hq : q.isTold = true) (a b : Code) (text : String) :
    q.count (a ++ .verbatim text :: b) = q.count a + q.count b := by
  have hline : q.isShown (.verbatim text) b.head? = false := by
    cases q with
    | free => exact Bool.and_false _
    | foreign ok => cases hq
    | _ => rfl
  rw [count_append (by rintro ⟨⟩)]
  show _ + ((q.isShown (.verbatim text) b.head?).toNat + _) = _
  rw [hline]
  exact congrArg _ (Nat.zero_add _)

/-- A unit shows what its sections show. -/
theorem count_assemble (hq : q.isTold = true) (l : Listing) (entry : String) :
    q.count (l.assemble entry) = l.count q := by
  have hparts : l.assemble entry = [] ++ .verbatim "bits 32" ::
      ([] ++ .verbatim "" :: ([] ++ .verbatim "section .data" ::
        (l.data ++ .verbatim "" :: ([] ++ .verbatim "section .text" ::
          ([] ++ .verbatim ("global " ++ entry) :: ([] ++ .verbatim "" ::
            (l.functions ++ .verbatim "" :: ([] ++ .verbatim (entry ++ ":") ::
              (l.program ++ .verbatim "" :: []))))))))) := by
    unfold Listing.assemble
    simp only [List.append_assoc, List.cons_append, List.nil_append]
  rw [hparts]
  simp only [count_append_verbatim hq, count, Nat.zero_add, Nat.add_zero, Listing.count,
    Nat.add_assoc]

/-- Releases are counted as pairs of lines. -/
theorem count_free (code : Code) :
    free.count code = (code.zip code.tail).count (mov eax (.imm Convention.sysUnmap), kernel) := by
  induction code with
  | nil => rfl
  | cons line code ih =>
    cases code with
    | nil => rfl
    | cons next code =>
      show (free.isShown line (some next)).toNat + free.count (next :: code) =
        ((line, next) :: (next :: code).zip code).count _
      rw [List.count_cons, ih, Nat.add_comm]
      congr 1
      by_cases hpair : (line, next) = (mov eax (.imm Convention.sysUnmap), kernel)
      · obtain ⟨rfl, rfl⟩ := Prod.mk.inj hpair
        rfl
      · have hshown : free.isShown line (some next) = false :=
          Bool.and_eq_false_imp.2 fun hnext => decide_eq_false fun hline =>
            hpair (by rw [hline, Option.some.inj (of_decide_eq_true hnext)])
        rw [hshown, if_neg (by simpa using hpair)]
        rfl

end Feature

/-- The symbols of a unit that are not its entry are those of its labels. -/
theorem Listing.symbols_assemble {ok : String → Bool} {l : Listing} (hl : l.IsCode ok) :
    (Code.symbols (l.assemble "_start")).filter (· ≠ "_start") = l.defines.map Label.text := by
  have hlabel :
      ∀ ls : List Label, (ls.map Label.text).filter (· ≠ "_start") = ls.map Label.text := by
    intro ls
    refine List.filter_eq_self.2 fun text htext => ?_
    obtain ⟨k, -, rfl⟩ := List.mem_map.1 htext
    have hne : k.text ≠ "_start" := fun heq => absurd (heq ▸ k.isLabelText).head (by decide)
    exact decide_eq_true hne
  have hsymbols : Code.symbols (l.assemble "_start") = (Code.defines l.data).map Label.text ++
      (Code.defines l.functions).map Label.text ++ ["_start"] ++
        (Code.defines l.program).map Label.text := by
    unfold Listing.assemble
    simp only [Code.symbols_append, Code.symbols_eq hl.data, Code.symbols_eq hl.functions,
      Code.symbols_eq hl.program]
    have hfront : Code.symbols [.verbatim "bits 32", .verbatim "", .verbatim "section .data"] =
      [] := by decide
    have htext :
      Code.symbols [.verbatim "", .verbatim "section .text", .verbatim ("global " ++ "_start"),
        .verbatim ""] = [] := by decide
    have hentry : Code.symbols [.verbatim "", .verbatim ("_start" ++ ":")] = ["_start"] := by decide
    have hlast : Code.symbols [.verbatim ""] = [] := by decide
    rw [hfront, htext, hentry, hlast, List.nil_append, List.append_nil, List.append_nil]
  rw [hsymbols]
  simp only [List.filter_append, hlabel, Listing.defines, List.map_append]
  have hentry : ["_start"].filter (· ≠ "_start") = [] := by decide
  rw [hentry, List.append_nil]

/-- **The counts of a session are those of the unit.**  After a program is compiled in a new
session, as many functions are counted as the unit has returns; as many scopes as it clears frames,
and as it defines sizes of frames; as many labels as it defines symbols other than the entry; as
many calls as it has; and as many releases as it has places where memory is given back. -/
theorem statistics_tell_the_output {comments : Bool} {program : Program} {a : Assembly}
    (h : compile { comments, entry := "_start" } program = .ok a) :
    a.stats.functions = a.code.count (bare .ret) ∧
    a.stats.scopes = a.code.count (bare .fillWords) ∧
    a.stats.scopes = a.code.countP Line.isConstant ∧
    a.stats.labels = ((Code.symbols a.code).filter (· ≠ "_start")).length ∧
    a.stats.calls = a.code.countP Line.isCall ∧
    a.stats.frees = (a.code.zip a.code.tail).count (mov eax (.imm 91), kernel) := by
  obtain ⟨t, hrun, rfl, -⟩ := compileIn_eq_ok h
  have hcount : ∀ q : Feature, q.isTold = true →
      q.counted t.session = q.count (t.listing.assemble "_start") := by
    intro q hq
    have hsquare := lowerUnit_square (Feature.isCounted_of_isTold hq) (fun _ _ => trivial) hrun
    have hempty : q.counted .empty = 0 := by cases q <;> rfl
    rwa [hempty, Int.zero_add, ← Feature.count_assemble hq t.listing "_start"] at hsquare
  have hlines : ∀ (q : Feature) (p : Line → Bool) (n : Nat), q.isTold = true →
      (∀ line next, q.isShown line next = p line) → q.counted t.session = n →
      n = (t.listing.assemble "_start").countP p := by
    intro q p n hq hp hn
    rw [← Feature.count_eq_countP hp]
    exact Int.ofNat.inj (hn.symm.trans (hcount q hq))
  refine ⟨?_, ?_, ?_, ?_, ?_, ?_⟩
  · exact hlines .function (· == bare .ret) _ rfl (fun _ _ => rfl) rfl
  · exact hlines .frame (· == bare .fillWords) _ rfl (fun _ _ => rfl) rfl
  · exact hlines .size Line.isConstant _ rfl (fun _ _ => rfl) rfl
  · -- every label that was made is defined once, and none is counted that was not made
    obtain ⟨made, hmade, -⟩ := lowerUnit_inventory hrun
    have hlength : t.listing.defines.length = made.length := by
      rw [← hmade.defined.length_eq, List.append_nil]
    have hnext : t.session.nextLabel = 0 + made.length := hmade.next
    have hlabel : (t.session.stats.labels : Int) - t.session.nextLabel = 0 := by
      have hzero : Feature.label.count (t.listing.assemble "_start") = 0 := by
        rw [Feature.count_eq_countP (p := fun _ => false) fun _ _ => rfl, List.countP_false]
        rfl
      rw [← Int.natCast_zero, ← hzero]
      exact hcount .label rfl
    rw [Listing.symbols_assemble (lowerUnit_isCode hrun), List.length_map, hlength]
    dsimp only
    omega
  · exact hlines .call Line.isCall _ rfl (fun _ _ => rfl) rfl
  · show t.session.stats.frees = List.count (mov eax (.imm Convention.sysUnmap), kernel) _
    rw [← Feature.count_free]
    exact Int.ofNat.inj (hcount .free rfl)

/-- A function that returns a string without saying so, and a variable that takes it over from
another string. -/
def supplied : Program :=
  ⟨[.unplaced (.function "f" [] .string []),
    .unplaced (.declare "s" .string
      (some (.unplaced (.binary .add (.unplaced (.str "a")) (.unplaced (.str "b")))))),
    .unplaced (.assign "s" (.unplaced (.call "f" [])))]⟩

/-- Its unit calls three functions, one of them to copy what is returned, and releases the old and
the new value. -/
theorem statistics_tell_the_output_supplied :
    ∃ a, compile { comments := false, entry := "_start" } supplied = .ok a ∧
    a.stats.functions = 8 ∧ a.code.count (bare .ret) = 8 ∧ a.stats.calls = 3 ∧
    a.code.countP Line.isCall = 3 ∧
    a.stats.frees = (a.code.zip a.code.tail).count (mov eax (.imm 91), kernel) := by
  have hstats : ((compile { comments := false, entry := "_start" } supplied).toOption.any fun a =>
      a.stats.functions = 8 ∧ a.stats.calls = 3) = true := by
    decide +kernel
  obtain ⟨a, ha, hfacts⟩ := (Option.any_eq_true _ _).1 hstats
  obtain ⟨hfunctions, hcalls⟩ := of_decide_eq_true hfacts
  have hok : compile { comments := false, entry := "_start" } supplied = .ok a := by
    cases hcompile : compile { comments := false, entry := "_start" } supplied with
    | error e =>
      rw [hcompile] at ha
      cases ha
    | ok b =>
      rw [hcompile] at ha
      exact congrArg _ (Option.some.inj ha)
  obtain ⟨hret, -, -, -, hcall, hfree⟩ := statistics_tell_the_output hok
  exact ⟨a, hok, hfunctions, hret.symm.trans hfunctions, hcalls, hcall.symm.trans hcalls, hfree⟩

end KuAsm
