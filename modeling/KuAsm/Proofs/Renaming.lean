import Mathlib.Logic.Equiv.Basic
import KuAsm.Proofs.Renumbering

/-!
# Names and places do not matter

This module shows that compiling a program mirrors compiling it in another spelling, and derives
that a program with its variables renamed, written at other places, is compiled to the same unit.

## Main definitions

* `Program.IsRenaming`: one program is another one with its variables renamed, written at other
  places.

## Main statements

* `Node.evaluatesAlike_respell`, `Node.executeAll_respell`: expressions and statements in another
  spelling.
* `compileIn_respell`: a program in another spelling.
* `renaming_compiles_alike`: a renamed program has the same unit and the same statistics, or the
  same error.
-/

namespace KuAsm

open Lower

variable {ρ : String → String}

/-! ### Going through a program -/

/-- A node in another spelling is a node of the same kind. -/
theorem Node.respell_mk (ρ : String → String) (form : Form) (l : Location) :
    ∃ form', (Node.mk form l).respell ρ = .mk form' .internal ∧ form'.name = form.name ∧
      form'.isExpression = form.isExpression ∧ form'.isStatement = form.isStatement ∧
      form'.isConditional = form.isConditional := by
  cases form with
  | declare name ty value => cases value <;> exact ⟨_, rfl, rfl, rfl, rfl, rfl⟩
  | ret value => cases value <;> exact ⟨_, rfl, rfl, rfl, rfl, rfl⟩
  | _ => exact ⟨_, rfl, rfl, rfl, rfl, rfl⟩

section

variable {Λ : Likeness} {I : List String → List String → Prop}

/-- Any place may stand for the places of the nodes. -/
def Likeness.Covers (Λ : Likeness) (ns : List Node) : Prop := ∀ n ∈ ns, ∀ l', Λ.place n.location l'

theorem Likeness.covers_append {ms ns : List Node} :
    Λ.Covers (ms ++ ns) ↔ Λ.Covers ms ∧ Λ.Covers ns :=
  List.forall_mem_append

theorem Likeness.covers_mk {form : Form} {l : Location} :
    Λ.Covers (Node.mk form l).nodes ↔ (∀ l', Λ.place l l') ∧ Λ.Covers form.nodes :=
  List.forall_mem_cons

theorem Node.respell_expressionCases :
    ExpressionCases (fun n => Λ.Covers n.nodes → n.EvaluatesAlike Λ I (n.respell Λ.spell))
      (fun ns => Λ.Covers (Node.nodesAll ns) →
        List.Forall₂ (Node.EvaluatesAlike Λ I) ns (Node.respellAll Λ.spell ns)) where
  constant {form v l} hv hplace := by
    have hform : (Node.mk form l).respell Λ.spell = .mk form .internal := by
      cases form <;> first | rfl | cases hv
    rw [hform]
    exact .constant ((Likeness.covers_mk.1 hplace).1 _) hv
  var hplace := .var ((Likeness.covers_mk.1 hplace).1 _)
  binary hleft hright hplace := by
    obtain ⟨hl, hparts⟩ := Likeness.covers_mk.1 hplace
    obtain ⟨ha, hb⟩ := Likeness.covers_append.1 hparts
    exact .binary (hl _) (hleft ha) (hright hb)
  signed hvalue hplace := .signed ((Likeness.covers_mk.1 hplace).1 _)
    (hvalue (Likeness.covers_mk.1 hplace).2)
  step hplace := .step ((Likeness.covers_mk.1 hplace).1 _)
  call hargs hplace := .call ((Likeness.covers_mk.1 hplace).1 _)
    (hargs (Likeness.covers_mk.1 hplace).2)
  addressOf hplace := .addressOf ((Likeness.covers_mk.1 hplace).1 _)
  cast hvalue hplace := .cast ((Likeness.covers_mk.1 hplace).1 _)
    (hvalue (Likeness.covers_mk.1 hplace).2)
  misplaced {form l} hform hplace := by
    obtain ⟨form', heq, hname, hkind, -, -⟩ := Node.respell_mk Λ.spell form l
    rw [heq]
    exact .misplaced ((Likeness.covers_mk.1 hplace).1 _) hform (hkind.trans hform) hname
  nil _ := .nil
  cons hn hns hplace := .cons (hn (Likeness.covers_append.1 hplace).1)
    (hns (Likeness.covers_append.1 hplace).2)

/-- An expression in another spelling. -/
theorem Node.evaluatesAlike_respell {n : Node} (h : Λ.Covers n.nodes) :
    n.EvaluatesAlike Λ I (n.respell Λ.spell) :=
  Node.respell_expressionCases.node n h

theorem Node.evaluatesAlike_respell_option {value : Option Node}
    (h : Λ.Covers (Node.nodesOption value)) :
    Option.Rel (Node.EvaluatesAlike Λ I) value (value.map (Node.respell Λ.spell)) := by
  cases value with
  | none => exact .none
  | some v => exact .some (Node.evaluatesAlike_respell h)

theorem Otherwise.label_respell (o : Otherwise) (exit : Label) :
    Mirrors Λ I I (Via Λ.label) (o.label exit) ((o.respell Λ.spell).label (Λ.label exit)) := by
  cases o with
  | absent => exact .pure rfl
  | chained n => exact .mintLabel _
  | block body => exact .mintLabel _

theorem Node.respell_statementCases :
    StatementCases (fun n => Λ.Covers n.nodes →
      Mirrors Λ Eq Eq (Via id) n.execute (n.respell Λ.spell).execute)
      (fun ns => Λ.Covers (Node.nodesAll ns) → ∀ jumped,
        Mirrors Λ Eq Eq (Via id) (Node.executeAll jumped ns)
        (Node.executeAll jumped (Node.respellAll Λ.spell ns)))
      (fun o => Λ.Covers o.nodes → ∀ exit next, Mirrors Λ Eq Eq (Via id) (o.execute exit next)
        ((o.respell Λ.spell).execute (Λ.label exit) (Λ.label next))) where
  function hbody hplace :=
    Node.mirrors_function ((Likeness.covers_mk.1 hplace).1 _)
      (hbody (Likeness.covers_mk.1 hplace).2 false)
  declare {name ty value l} hplace := by
    obtain ⟨hl, hvalue⟩ := Likeness.covers_mk.1 hplace
    have hdeclare : Mirrors Λ Eq Eq (Via id) (Node.mk (.declare name ty value) l).execute
        (Node.unplaced (.declare (Λ.spell name) ty (value.map (Node.respell Λ.spell)))).execute :=
      Node.mirrors_declare (hl _) (Node.evaluatesAlike_respell_option hvalue)
    cases value with
    | none => exact hdeclare
    | some value => exact hdeclare
  assign hplace := Node.mirrors_assign ((Likeness.covers_mk.1 hplace).1 _)
    (Node.evaluatesAlike_respell (Likeness.covers_mk.1 hplace).2)
  store hplace := by
    obtain ⟨hl, hparts⟩ := Likeness.covers_mk.1 hplace
    obtain ⟨ha, hv⟩ := Likeness.covers_append.1 hparts
    exact Node.mirrors_store (hl _) (Node.evaluatesAlike_respell ha)
      (Node.evaluatesAlike_respell hv)
  conditional {condition body otherwise l} hbody hrest hplace := by
    obtain ⟨hc, hparts⟩ := Likeness.covers_append.1 (Likeness.covers_mk.1 hplace).2
    obtain ⟨hb, ho⟩ := Likeness.covers_append.1 hparts
    exact Node.mirrors_conditional (Node.evaluatesAlike_respell hc) (hbody hb false)
      otherwise.label_respell (hrest ho)
  whileLoop hbody hplace := by
    obtain ⟨hc, hb⟩ := Likeness.covers_append.1 (Likeness.covers_mk.1 hplace).2
    exact Node.mirrors_whileLoop (Node.evaluatesAlike_respell hc) (hbody hb false)
  forLoop hstart hstep hbody hplace := by
    obtain ⟨hs, hparts⟩ := Likeness.covers_append.1 (Likeness.covers_mk.1 hplace).2
    obtain ⟨hc, hparts⟩ := Likeness.covers_append.1 hparts
    obtain ⟨hp, hb⟩ := Likeness.covers_append.1 hparts
    exact Node.mirrors_forLoop (hstart hs) (Node.evaluatesAlike_respell hc) (hbody hb false)
      (hstep hp)
  included hprogram hplace :=
    Node.mirrors_included (fun _ _ hab => hab ▸ Iff.rfl) (fun _ _ hab _ => hab)
    (fun _ _ hab _ => congrArg _ hab) (fun _ _ hab => hab)
    (hprogram (Likeness.covers_mk.1 hplace).2 false)
  breakLoop hplace := Node.mirrors_breakLoop ((Likeness.covers_mk.1 hplace).1 _)
  continueLoop hplace := Node.mirrors_continueLoop ((Likeness.covers_mk.1 hplace).1 _)
  ret {value l} hplace := by
    obtain ⟨hl, hvalue⟩ := Likeness.covers_mk.1 hplace
    have hret :=
      Node.mirrors_ret (hl .internal) (Node.evaluatesAlike_respell_option (I := Eq) hvalue)
    cases value with
    | none => exact hret
    | some value => exact hret
  call hplace := Node.mirrors_call (Node.evaluatesAlike_respell hplace)
  step hplace := Node.mirrors_step ((Likeness.covers_mk.1 hplace).1 _)
  misplaced {form l} hform hplace := by
    obtain ⟨form', heq, hname, -, hkind, -⟩ := Node.respell_mk Λ.spell form l
    rw [heq]
    exact Node.mirrors_misplaced ((Likeness.covers_mk.1 hplace).1 _) hform (hkind.trans hform) hname
  nil _ jumped := by
    unfold Node.respellAll Node.executeAll
    exact .pure rfl
  cons hn hns hplace jumped := by
    obtain ⟨hhead, htail⟩ := Likeness.covers_append.1 hplace
    unfold Node.respellAll Node.executeAll
    exact .next (hn hhead) fun jumped => hns htail jumped
  absent _ exit next := .emit rfl
  block hbody hplace exit next := Otherwise.mirrors_block exit next (hbody hplace false)
  chained {condition body otherwise l} hbody hrest hplace exit next := by
    obtain ⟨hc, hparts⟩ := Likeness.covers_append.1 (Likeness.covers_mk.1 hplace).2
    obtain ⟨hb, ho⟩ := Likeness.covers_append.1 hparts
    exact Otherwise.mirrors_chained exit next (Node.evaluatesAlike_respell hc) (hbody hb false)
      otherwise.label_respell (hrest ho)
  misplacedElse {form l} hform hplace exit next := by
    obtain ⟨form', heq, hname, -, -, hkind⟩ := Node.respell_mk Λ.spell form l
    unfold Otherwise.respell
    rw [heq]
    exact Otherwise.mirrors_misplaced exit next ((Likeness.covers_mk.1 hplace).1 _) hform
      (hkind.trans hform) hname

/-- Statements in another spelling. -/
theorem Node.executeAll_respell {ns : List Node} (h : Λ.Covers (Node.nodesAll ns)) (jumped : Bool) :
    Mirrors Λ Eq Eq (Via id) (Node.executeAll jumped ns)
    (Node.executeAll jumped (Node.respellAll Λ.spell ns)) :=
  Node.respell_statementCases.list ns h jumped

end

/-! ### Whole compilations -/

theorem Failure.Alike.respells {Λ : Likeness} :
    ∀ {e e' : Failure}, e.Alike Λ e' → e.Respells Λ.spell e'
  | .rejected _, .rejected _, h => h.1
  | .fault _, .fault _, h => h

/-- A program in another spelling is compiled to the same unit, with the same statistics, or
rejected for the same cause in the other spelling. -/
theorem compileIn_respell (hρ : Function.Injective ρ) (session : Session) {options : Options}
    (hcomments : options.comments = false) (p : Program) :
    ResultsAlike (Failure.Respells ρ) Eq (compileIn session options p).1
      (compileIn session options (p.respell ρ)).1 := by
  obtain ⟨_, entry⟩ := options
  obtain rfl : _ = false := hcomments
  obtain ⟨Λ, hbehind, rfl, hplace⟩ : ∃ Λ : Likeness, Λ.behind = .empty ∧ Λ.spell = ρ ∧ ∀ l l',
    Λ.place l l' := ⟨⟨.empty, ρ, hρ, 0, fun _ _ => True⟩, rfl, rfl, fun _ _ => trivial⟩
  have hbody (k : Nat) :
      Mirrors { Λ with library := k } Eq Eq (Via id) (Node.executeAll false p.body)
      (Node.executeAll false (p.respell Λ.spell).body) :=
    Node.executeAll_respell (Λ := { Λ with library := k })
      (fun n _ l' => hplace n.location l') false
  obtain ⟨h, -⟩ := compileIn_alike Λ session session.journal rfl hbody false entry
  rw [Λ.session_empty hbehind] at h
  generalize hx : (compileIn session { comments := false, entry } p).1 = x at h ⊢
  generalize (compileIn session { comments := false, entry } (p.respell Λ.spell)).1 = y at h ⊢
  cases h with
  | ok hab => exact .ok ((compileIn_assembly hx hbehind).symm.trans hab.symm)
  | error he => exact .error he.respells

/-- One program is another one with its variables renamed, written at other places: without their
places, the one is the other in its new spelling. -/
def Program.IsRenaming (ρ : String → String) (p p' : Program) : Prop := p'.respell id = p.respell ρ

/-- A failure in the same spelling as another one is the same, but for its place. -/
theorem Failure.Respells.of_same {e e' e'' : Failure} (h : e.Respells ρ e'')
    (h' : e'.Respells id e'') : e.Respells ρ e' := by
  cases e'' with
  | fault f =>
    cases e with
    | rejected d => exact h.elim
    | fault _ =>
      cases e' with
      | rejected d' => exact h'.elim
      | fault _ => exact h'.symm.trans h
  | rejected d'' =>
    cases e with
    | fault f => exact h.elim
    | rejected d =>
      cases e' with
      | fault f => exact h'.elim
      | rejected d' =>
        have hcause : d''.cause = d'.cause.respell id := h'
        rw [Cause.respell_id] at hcause
        exact hcause.symm.trans h

/-- Only the binding structure of a program matters.  With its variables renamed by an injective
function and written at other places it is compiled, without comments and in any session, to the
same unit with the same statistics.  If it is not compiled, it is rejected for the same cause with
the variable renamed, or stops with the same fault. -/
theorem renaming_compiles_alike {ρ : String → String} (hρ : Function.Injective ρ) {p p' : Program}
    (h : p.IsRenaming ρ p') (session : Session) {options : Options}
    (hcomments : options.comments = false) :
    (∀ a, (compileIn session options p).1 = .ok a ↔ (compileIn session options p').1 = .ok a) ∧
      ∀ e, (compileIn session options p).1 = .error e →
        ∃ e', (compileIn session options p').1 = .error e' ∧ e.Respells ρ e' := by
  have hp := compileIn_respell hρ session hcomments p
  have hp' := compileIn_respell Function.injective_id session hcomments p'
  rw [show p'.respell id = p.respell ρ from h] at hp'
  generalize (compileIn session options p).1 = x, (compileIn session options p').1 = x',
    (compileIn session options (p.respell ρ)).1 = y at hp hp'
  cases hp with
  | ok hab =>
    cases hp' with
    | ok hab' =>
      obtain rfl := hab.trans hab'.symm
      exact ⟨fun _ => Iff.rfl, nofun⟩
  | @error e _ he =>
    cases hp' with
    | @error e' _ he' =>
      refine ⟨fun a => ⟨nofun, nofun⟩, fun d hd => ⟨e', rfl, ?_⟩⟩
      cases hd
      exact he.of_same he'

/-- The loop of `recounted` with another name for its number and for the letter in its body, in the
second line of a file. -/
def recountedElsewhere : Program :=
  ⟨[.mk (.forLoop (.mk (.declare "j" .integer (some (.unplaced (.number 0)))) ⟨2, 5⟩)
      (.mk (.binary .lt (.mk (.var "j") ⟨2, 17⟩) (.unplaced (.number 3))) ⟨2, 19⟩)
      (.mk (.step "j" .increment .leading) ⟨2, 24⟩)
      [.mk (.declare "j" .character (some (.unplaced (.char 65)))) ⟨2, 30⟩]) ⟨2, 1⟩]⟩

/-- The name makes no difference, although the body takes it from the number. -/
theorem renaming_compiles_alike_recounted :
    ∃ a, (compileIn .empty { comments := false } recounted).1 = .ok a ∧
      (compileIn .empty { comments := false } recountedElsewhere).1 = .ok a := by
  have hrenaming : recounted.IsRenaming (Equiv.swap "i" "j") recountedElsewhere := rfl
  have hcomments : ({ comments := false } : Options).comments = false := rfl
  obtain ⟨hunits, -⟩ := renaming_compiles_alike (Equiv.swap "i" "j").injective hrenaming .empty
    hcomments
  have hok : (compileIn .empty { comments := false } recounted).1.isOk = true := by decide +kernel
  obtain ⟨a, ha⟩ := exists_of_isOk hok
  exact ⟨a, ha, (hunits a).1 ha⟩

end KuAsm
