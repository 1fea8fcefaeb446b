import Mathlib.Data.List.Nodup
import KuAsm.Proofs.Mirroring
import KuAsm.Proofs.Sequence

/-!
# Independence of compilations

A session may have been used for other programs before.  This module shows that compiling a program
behind any session mirrors compiling it in a new one, and derives that what was compiled before has
no influence on a program beyond the numbers of its labels.

The one thing that a session remembers and a program can observe is which files were included.  A
file that was included before is skipped, so the statements ask that none of the program's includes
was.

## Main definitions

* `Node.includes`, `Node.includesAll`: the paths that a statement or a statement list includes.
* `Session.Lacks σ paths`: the session has included none of the paths.

## Main statements

* `Node.executeAll_behind`: statements mirror themselves behind a session.
* `compileIn_behind`: a compilation behind a session, without comments, and one in a new session,
  with comments or without.
* `compilations_independent`: the same error, or the same unit with all labels renumbered by one
  constant, and the same counts in addition to those of the session.
-/

namespace KuAsm

open Asm Reg Lower

variable {f g : Label → Label} {Λ : Likeness} {program : Program}

/-! ### Going through a program -/

mutual

/-- The paths that a statement includes, wherever in it. -/
def Node.includes : Node → List String
  | .mk form _ => form.includes

/-- The paths that a form includes. -/
def Form.includes : Form → List String
  | .function _ _ _ body => Node.includesAll body
  | .conditional _ body otherwise => Node.includesAll body ++ otherwise.includes
  | .whileLoop _ body => Node.includesAll body
  | .forLoop start _ step body => start.includes ++ step.includes ++ Node.includesAll body
  | .included path program => path :: Node.includesAll program
  | _ => []

/-- The paths that a statement list includes. -/
def Node.includesAll : List Node → List String
  | [] => []
  | n :: ns => n.includes ++ Node.includesAll ns

/-- The paths included behind the block of a conditional. -/
def Otherwise.includes : Otherwise → List String
  | .absent => []
  | .chained n => n.includes
  | .block body => Node.includesAll body

end

/-- The session has included none of the paths. -/
def Session.Lacks (σ : Session) (paths : List String) : Prop := ∀ path ∈ paths, path ∉ σ.included

theorem Session.lacks_append {σ : Session} {a b : List String} :
    σ.Lacks (a ++ b) ↔ σ.Lacks a ∧ σ.Lacks b :=
  List.forall_mem_append

/-- The other compilation has included in addition what was included behind. -/
def Behind (σ : Session) (a b : List String) : Prop := b = a ++ σ.included

section

variable {σ : Session} {k : Nat}

theorem Otherwise.label_same {I : List String → List String → Prop} (o : Otherwise) (exit : Label) :
    Mirrors (.same σ k) I I (Via (Likeness.label (.same σ k))) (o.label exit)
      (o.label (Likeness.label (.same σ k) exit)) := by
  cases o with
  | absent => exact .pure rfl
  | chained n => exact .mintLabel _
  | block body => exact .mintLabel _

theorem Node.behind_statementCases :
    StatementCases (fun n => σ.Lacks n.includes →
      Mirrors (.same σ k) (Behind σ) (Behind σ) (Via id) n.execute n.execute)
      (fun ns => σ.Lacks (Node.includesAll ns) → ∀ jumped,
        Mirrors (.same σ k) (Behind σ) (Behind σ) (Via id)
        (Node.executeAll jumped ns) (Node.executeAll jumped ns))
      (fun o => σ.Lacks o.includes → ∀ exit next, Mirrors (.same σ k) (Behind σ) (Behind σ) (Via id)
        (o.execute exit next)
        (o.execute (Likeness.label (.same σ k) exit) (Likeness.label (.same σ k) next))) where
  function hbody hlacks := Node.mirrors_function_same (hbody hlacks false)
  declare _ := Node.mirrors_declare rfl (Node.evaluatesAlike_same_option _)
  assign _ := Node.mirrors_assign rfl (Node.evaluatesAlike_same _)
  store _ := Node.mirrors_store rfl (Node.evaluatesAlike_same _) (Node.evaluatesAlike_same _)
  conditional {_ _ otherwise _} hbody hrest hlacks := by
    obtain ⟨hb, ho⟩ := Session.lacks_append.1 hlacks
    exact Node.mirrors_conditional (Node.evaluatesAlike_same _) (hbody hb false)
      otherwise.label_same (hrest ho)
  whileLoop hbody hlacks := Node.mirrors_whileLoop (Node.evaluatesAlike_same _) (hbody hlacks false)
  forLoop hstart hstep hbody hlacks := by
    obtain ⟨hs, hb⟩ := Session.lacks_append.1 hlacks
    obtain ⟨hs, hp⟩ := Session.lacks_append.1 hs
    exact Node.mirrors_forLoop (hstart hs) (Node.evaluatesAlike_same _) (hbody hb false) (hstep hp)
  included hprogram hlacks := by
    obtain ⟨hpath, hp⟩ := List.forall_mem_cons.1 hlacks
    refine Node.mirrors_included (fun a b hab => ?_) (fun a b hab _ => hab)
      (fun a b hab _ => congrArg _ hab) (fun _ _ hab => hab) (hprogram hp false)
    rw [show b = a ++ σ.included from hab, List.mem_append, or_iff_left hpath]
  breakLoop _ := Node.mirrors_breakLoop rfl
  continueLoop _ := Node.mirrors_continueLoop rfl
  ret _ := Node.mirrors_ret rfl (Node.evaluatesAlike_same_option _)
  call _ := Node.mirrors_call (Node.evaluatesAlike_same _)
  step _ := Node.mirrors_step rfl
  misplaced hform _ := Node.mirrors_misplaced rfl hform hform rfl
  nil _ jumped := by
    unfold Node.executeAll
    exact .pure rfl
  cons hn hns hlacks jumped := by
    unfold Node.executeAll
    obtain ⟨h₁, h₂⟩ := Session.lacks_append.1 hlacks
    exact .next (hn h₁) fun _ => hns h₂ _
  absent _ exit next := .emit rfl
  block hbody hlacks exit next := Otherwise.mirrors_block exit next (hbody hlacks false)
  chained {_ _ otherwise _} hbody hrest hlacks exit next := by
    obtain ⟨hb, ho⟩ := Session.lacks_append.1 hlacks
    exact Otherwise.mirrors_chained exit next (Node.evaluatesAlike_same _) (hbody hb false)
      otherwise.label_same (hrest ho)
  misplacedElse hform _ exit next := Otherwise.mirrors_misplaced exit next rfl hform hform rfl

/-- Statements none of whose includes the session has seen mirror themselves behind it. -/
theorem Node.executeAll_behind {ns : List Node} (h : σ.Lacks (Node.includesAll ns))
    (jumped : Bool) :
    Mirrors (.same σ k) (Behind σ) (Behind σ) (Via id) (Node.executeAll jumped ns)
    (Node.executeAll jumped ns) :=
  Node.behind_statementCases.list ns h jumped

end

/-! ### Whole programs -/

/-- A compilation behind a session, and the one in a new session. -/
theorem compileIn_behind {σ : Session} (h : σ.Lacks (Node.includesAll program.body))
    (comments : Bool) (entry : String) : (compileIn σ { comments := false, entry } program).1 =
        (compileIn .empty { comments, entry } program).1.map (Likeness.assembly (.same σ 0)) ∧
      (compileIn σ { comments := false, entry } program).2.stats =
        σ.stats.plus (compileIn .empty { comments, entry } program).2.stats := by
  obtain ⟨hunit, hstats⟩ := compileIn_alike (.same σ 0) .empty σ.journal (I := Behind σ) rfl
    (fun k => Node.executeAll_behind (k := k) h false) comments entry
  have hσ : Likeness.session (.same σ 0) .empty σ.journal (Session.empty.included ++ σ.included) =
    σ := rfl
  rw [hσ] at hunit hstats
  exact ⟨hunit.eq_map, hstats⟩

theorem Stats.plus_empty (s : Stats) : Stats.plus {} s = s := by
  simp [Stats.plus]

/-- With nothing behind it, a session stands for itself. -/
theorem Likeness.session_empty (Λ : Likeness) (hΛ : Λ.behind = .empty) (σ : Session) :
    Λ.session σ σ.journal σ.included = σ := by
  unfold Likeness.session
  rw [hΛ]
  simp only [Session.empty, Nat.zero_add, Stats.plus_empty]

/-- A unit that is compiled without comments stands for itself, with nothing behind it. -/
theorem compileIn_assembly {session : Session} {entry : String} {a : Assembly}
    (h : (compileIn session { comments := false, entry } program).1 = .ok a)
    (hΛ : Λ.behind = .empty) : Λ.assembly a = a := by
  have hassembly : Λ.assembly = Likeness.assembly (.same .empty 0) := by
    unfold Likeness.assembly Likeness.code Likeness.line? Likeness.label
    rw [hΛ]
    rfl
  have hnothing : Session.empty.Lacks (Node.includesAll program.body) := fun _ _ => List.not_mem_nil
  obtain ⟨hunit, -⟩ := compileIn_alike (.same .empty 0) session session.journal (I := Behind .empty)
    (List.append_nil session.included).symm
    (fun k => Node.executeAll_behind (k := k) hnothing false) false entry
  rw [Likeness.session_empty _ rfl, h] at hunit
  rw [hassembly]
  exact (Except.ok.inj hunit.eq_map).symm

/-! ### Independence -/

/-- Relabelling reads no label that does not stand in the line. -/
theorem Operand.relabel_congr {x : Operand} (h : ∀ l ∈ x.labels, f l = g l) :
    x.relabel f = x.relabel g := by
  cases x with
  | label l => exact congrArg Operand.label (h l List.mem_cons_self)
  | words l => exact congrArg Operand.words (h l List.mem_cons_self)
  | _ => rfl

theorem Instr.relabel_congr {i : Instr} (h : ∀ l ∈ i.labels, f l = g l) :
    i.relabel f = i.relabel g := by
  cases i with
  | mov d s =>
    obtain ⟨hd, hs⟩ := List.forall_mem_append.1 h
    rw [relabel, Operand.relabel_congr hd, Operand.relabel_congr hs]
    rfl
  | arith op d s =>
    obtain ⟨hd, hs⟩ := List.forall_mem_append.1 h
    rw [relabel, Operand.relabel_congr hd, Operand.relabel_congr hs]
    rfl
  | movzx d s => exact congrArg (Instr.movzx d) (Operand.relabel_congr h)
  | push s => exact congrArg Instr.push (Operand.relabel_congr h)
  | unary op d => exact congrArg (Instr.unary op) (Operand.relabel_congr h)
  | jmp l => exact congrArg Instr.jmp (h l List.mem_cons_self)
  | jcc c l => exact congrArg (Instr.jcc c) (h l List.mem_cons_self)
  | call l => exact congrArg Instr.call (h l List.mem_cons_self)
  | _ => rfl

theorem Line.relabel_congr {line : Line} (hd : ∀ l ∈ line.defines, f l = g l)
    (hr : ∀ l ∈ line.refers, f l = g l) : line.relabel f = line.relabel g := by
  cases line with
  | instr i => exact congrArg Line.instr (Instr.relabel_congr hr)
  | label l => exact congrArg Line.label (hd l List.mem_cons_self)
  | constant l n => exact congrArg (Line.constant · n) (hd l List.mem_cons_self)
  | bytes l data => exact congrArg (Line.bytes · data) (hd l List.mem_cons_self)
  | comment t => rfl
  | verbatim t => rfl

theorem Line.isComment_relabel (f : Label → Label) (line : Line) :
    (line.relabel f).isComment = line.isComment := by
  cases line <;> rfl

/-- What stands for code has no comments. -/
theorem Likeness.isComment_of_mem_code {c : Code} {line : Line} (h : line ∈ Λ.code c) :
    line.isComment = false := by
  obtain ⟨source, -, hsource⟩ := List.mem_filterMap.1 h
  unfold Likeness.line? at hsource
  split at hsource
  · cases hsource
  · next hcomment =>
    cases hsource
    rw [Line.isComment_relabel]
    exact Bool.eq_false_iff.2 hcomment

/-- The first label of a session is that of the frame of the main program, so no line of a unit has
the default label. -/
theorem compile_labels {options : Options} {a : Assembly} (h : compile options program = .ok a) :
    default ∉ Code.defines a.code ∧ default ∉ Code.refers a.code := by
  obtain ⟨t, hrun, rfl, -⟩ := compileIn_eq_ok h
  obtain ⟨made, hmade, hframe⟩ := lowerUnit_inventory hrun
  have hdefault : default ∉ made := by
    intro hmem
    have heq : (default : Label) = .fresh 0 "frame" :=
      List.inj_on_of_nodup_map (hmade.map_number ▸ List.nodup_range') hmem hframe rfl
    exact absurd heq (by decide +kernel)
  have hdefines : Code.defines (t.listing.assemble options.entry) = t.listing.defines := by
    simp [Listing.assemble, Listing.defines, Line.defines]
  have hrefers : Code.refers (t.listing.assemble options.entry) = t.listing.refers := by
    simp [Listing.assemble, Listing.refers, Line.refers]
  rw [hdefines, hrefers]
  exact ⟨fun hmem => hdefault (hmade.defined.subset (List.mem_append_left _ hmem)),
    fun hmem => hdefault (hmade.referred hmem)⟩

/-- In the place of code without comments and without the default label, a constant is added to the
numbers of all labels. -/
theorem Likeness.code_eq_map {c : Code} (hcomment : ∀ line ∈ c, line.isComment = false)
    (hdefines : default ∉ Code.defines c) (hrefers : default ∉ Code.refers c) :
    Λ.code c = c.map (Line.relabel (Label.shift Λ.behind.nextLabel)) := by
  refine List.filterMap_eq_map_iff_forall_eq_some.2 fun line hline => ?_
  have hshift {ls : List Label} (hls : default ∉ ls) (l : Label) (hl : l ∈ ls) :
      Λ.label l = l.shift Λ.behind.nextLabel := if_neg fun heq => hls (heq ▸ hl)
  rw [Likeness.line?, if_neg (by rw [hcomment line hline]; decide)]
  refine congrArg some (Line.relabel_congr ?_ ?_)
  · exact fun l hl => hshift hdefines l (List.mem_flatMap.2 ⟨line, hline, hl⟩)
  · exact fun l hl => hshift hrefers l (List.mem_flatMap.2 ⟨line, hline, hl⟩)

/-- What a program compiles to does not depend on what its session was used for before, unless it
includes what was included then.  It is rejected with the same error as in a new session, or its
unit is the one of a new session with a constant added to the number of every label; and the session
has counted in addition what a new session would have. -/
theorem compilations_independent (σ : Session) (entry : String) (program : Program)
    (h : σ.Lacks (Node.includesAll program.body)) :
    (compileIn σ { comments := false, entry } program).1 =
        (compile { comments := false, entry } program).map (fun a =>
          ⟨a.code.map (Line.relabel (Label.shift σ.nextLabel)), σ.stats.plus a.stats⟩) ∧
      (compileIn σ { comments := false, entry } program).2.stats =
        σ.stats.plus (compileIn .empty { comments := false, entry } program).2.stats := by
  obtain ⟨hunit, hstats⟩ := compileIn_behind h false entry
  refine ⟨hunit.trans ?_, hstats⟩
  unfold compile
  cases hcompile : (compileIn .empty { comments := false, entry } program).1 with
  | error e => rfl
  | ok a =>
    obtain ⟨hdefines, hrefers⟩ := compile_labels hcompile
    have hcode := congrArg Assembly.code (compileIn_assembly hcompile (Λ := .same .empty 0) rfl)
    have hcomment (line : Line) (hline : line ∈ a.code) : line.isComment = false :=
      Likeness.isComment_of_mem_code (hcode ▸ hline)
    show Except.ok (Assembly.mk (Likeness.code _ a.code) _) = _
    rw [Likeness.code_eq_map hcomment hdefines hrefers]
    rfl

/-- A program that is rejected behind a file which it includes. -/
def stoppedBehindInclude : List (Options × Program) :=
  [({}, ⟨[.unplaced (.included "a.ku" [.unplaced (.declare "s" .string none)]),
    .unplaced .breakLoop]⟩)]

/-- A program that includes another file. -/
def includesAnother : Program :=
  ⟨[.unplaced (.included "b.ku" [.unplaced (.declare "s" .string (some (.unplaced (.str "x"))))])]⟩

/-- The rejected program has used up 42 labels. -/
theorem compilations_independent_stoppedBehindInclude :
    (Session.empty.after stoppedBehindInclude).included = ["a.ku"] ∧
    ∃ a, compile { comments := false } includesAnother = .ok a ∧
      (compileIn (Session.empty.after stoppedBehindInclude) { comments := false }
          includesAnother).1 =
        .ok ⟨a.code.map (Line.relabel (Label.shift 42)),
          (Session.empty.after stoppedBehindInclude).stats.plus a.stats⟩ := by
  have hincluded : (Session.empty.after stoppedBehindInclude).included = ["a.ku"] := by
    decide +kernel
  have hnext : (Session.empty.after stoppedBehindInclude).nextLabel = 42 := by decide +kernel
  have hok : (compile { comments := false } includesAnother).isOk = true := by decide +kernel
  have hlacks :
      (Session.empty.after stoppedBehindInclude).Lacks (Node.includesAll includesAnother.body) := by
    unfold Session.Lacks
    rw [hincluded]
    decide
  obtain ⟨hunit, -⟩ := compilations_independent _ "_start" includesAnother hlacks
  obtain ⟨a, ha⟩ := exists_of_isOk hok
  refine ⟨hincluded, a, ha, ?_⟩
  rw [hunit, ha, hnext]
  rfl

end KuAsm
