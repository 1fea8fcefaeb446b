import KuAsm.Proofs.Sequence

/-!
# The pool of literals

Every statement writes what its expressions load, so at the end of a compilation nothing is held
back, and the data section has exactly one line for each string that the program asks for.

## Main statements

* `literal_pool`: the data section is the pool of the strings that a program asks for.
-/

namespace KuAsm

open Asm Reg Lower

variable {t : State} {a : Unit}

/-- The labels of the pool are different symbols. -/
theorem nodup_literals {session : Session} {comments : Bool} {program : Program}
    (h : lowerUnit program (State.start session comments) = .ok a t)
    (hdata : t.listing.data = t.listing.literals.map fun x => .bytes x.2 x.1.toUTF8.toList) :
    (t.listing.literals.map (·.2.text)).Nodup := by
  obtain ⟨made, hmade, -⟩ := lowerUnit_inventory h
  have hdefined : t.listing.defines.Perm made := by
    have hdefined := hmade.defined
    rwa [List.append_nil] at hdefined
  have hnodup : (t.listing.defines.map Label.text).Nodup := by
    refine (hdefined.map _).nodup_iff.2 (Label.nodup_texts ?_)
    rw [hmade.map_number]
    exact List.nodup_range'
  have hlabels : Code.defines t.listing.data = t.listing.literals.map (·.2) := by
    rw [hdata, Code.defines, List.flatMap_map]
    exact List.flatMap_pure_eq_map ..
  unfold Listing.defines at hnodup
  rw [hlabels, List.append_assoc, List.map_append, List.map_map] at hnodup
  exact (List.nodup_append.1 hnodup).1

/-- The data section of a unit has one line for each string that the program asks for, in the order
in which it asks for them first.  A line reads as its label and the bytes of its string with a zero
behind them, and no two lines have the same label.  Where the program asks for a string, the unit
loads the label of the line of that string. -/
theorem literal_pool {session : Session} {options : Options} {program : Program} {a : Assembly}
    (h : (compileIn session options program).1 = .ok a) :
    ∃ (unit : Listing) (pool : List (String × Label)), a.code = unit.assemble options.entry ∧
      unit.data.map (fun line => readData? line.text) =
        pool.map (fun x => some (x.2.text, x.1.toUTF8.toList ++ [0])) ∧
      pool.map (·.1) = ((program.demands session.included).map (·.2)).eraseDups ∧
      (pool.map (·.2.text)).Nodup ∧
      List.Forall₂ (fun l text => (text, l) ∈ pool) (Code.loads unit.functions)
        ((program.demands session.included).within .functions) ∧
      List.Forall₂ (fun l text => (text, l) ∈ pool) (Code.loads unit.program)
        ((program.demands session.included).within .program) := by
  obtain ⟨t, hrun, rfl, -⟩ := compileIn_eq_ok h
  have ht := lowerUnit_supplied hrun
  refine ⟨t.listing, t.listing.literals, rfl, ?_, ?_, nodup_literals hrun ht.data,
    ht.uses .functions, ht.uses .program⟩
  · rw [ht.data, List.map_map]
    exact List.map_congr_left fun x _ => readData?_bytes x.2 x.1.toUTF8.toList
  · have htexts := ht.texts
    rwa [List.append_nil] at htexts

/-- A function that returns a string without saying which, a variable without a value, a literal
that is used twice, and a file that is included twice. -/
def pooled : Program :=
  ⟨[.unplaced (.function "f" [] .string [.unplaced (.ret none)]),
    .unplaced (.declare "s" .string none),
    .unplaced (.assign "s"
      (.unplaced (.binary .add (.unplaced (.str "é")) (.unplaced (.str "é"))))),
    .unplaced (.included "a.ku" [.unplaced (.assign "s" (.unplaced (.str "a")))]),
    .unplaced (.included "a.ku" [.unplaced (.assign "s" (.unplaced (.str "b")))])]⟩

/-- Its pool has the line break, the empty string and the two literals, and the main program loads
the empty string, one literal twice and the other one once. -/
theorem literal_pool_pooled : ∃ (a : Assembly) (unit : Listing) (pool : List (String × Label)),
    (compileIn .empty { comments := false, entry := "_start" } pooled).1 = .ok a ∧
      a.code = unit.assemble "_start" ∧ pool.map (·.1) = ["\n", "", "é", "a"] ∧
      unit.data.map (fun line => (readData? line.text).map (·.2)) =
        [some [10, 0], some [0], some [195, 169, 0], some [97, 0]] ∧
      List.Forall₂ (fun l text => (text, l) ∈ pool) (Code.loads unit.functions) ["\n", ""] ∧
      List.Forall₂ (fun l text => (text, l) ∈ pool) (Code.loads unit.program)
        ["", "é", "é", "a"] := by
  have hsome :
      (compileIn .empty { comments := false, entry := "_start" } pooled).1.toOption.isSome =
        true := by
    decide +kernel
  have hpool : ((pooled.demands []).map (·.2)).eraseDups = ["\n", "", "é", "a"] := by decide +kernel
  have hfunctions : (pooled.demands []).within .functions = ["\n", ""] := by decide +kernel
  have hprogram : (pooled.demands []).within .program = ["", "é", "é", "a"] := by decide +kernel
  have hbytes : ["\n", "", "é", "a"].map (fun text => some (text.toUTF8.toList ++ [0])) =
      [some [10, 0], some [0], some [195, 169, 0], some [97, 0]] := by decide +kernel
  cases hcompile : (compileIn .empty { comments := false, entry := "_start" } pooled).1 with
  | error e =>
    rw [hcompile] at hsome
    cases hsome
  | ok a =>
    obtain ⟨unit, pool, hcode, hdata, htexts, -, hf, hp⟩ := literal_pool hcompile
    refine ⟨a, unit, pool, rfl, hcode, htexts.trans hpool, ?_, hfunctions ▸ hf, hprogram ▸ hp⟩
    have hread := congrArg (List.map (Option.map Prod.snd)) hdata
    rw [List.map_map, List.map_map] at hread
    refine hread.trans (Eq.trans ?_ hbytes)
    rw [← htexts.trans hpool, List.map_map]
    rfl

end KuAsm
