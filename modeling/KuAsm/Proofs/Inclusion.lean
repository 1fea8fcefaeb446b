import KuAsm.Proofs.Literals
import KuAsm.Proofs.Renumbering

/-!
# Included files in the place of their includes

A program may be written in one piece by putting the statements of each file where the file is
included.  This module shows that this makes no difference, as long as no file is included twice.

Compiling an include marks the file in the session, and compiles its statements without asking
whether the last one of them jumps away.  So a list that ends with an include is taken to go on
behind it, although its last statement may jump away once the file is put in place.  The statements
about whole programs ask that this does not happen.  Two compilations that differ in what they have
included mirror each other as long as neither has included what comes next.

## Main definitions

* `Node.inlined`, `Node.inlinedAll`, `Program.inlined`: statements with each file in the place of
  its include.
* `Node.lists`, `Program.lists`: the statement lists of a program.
* `Lacking paths`: two compilations that have included none of the paths.

## Main statements

* `Node.executeAll_inlined`: statements with the files in their places mirror the statements with
  the includes.
* `includes_transparent`: a program in one piece has the same unit and the same statistics, or the
  same error.
-/

namespace KuAsm

open Lower

variable {body ns : List Node} {a b paths : List String} {l : Location} {condition : Node}
  {path : String}

/-! ### Files in the place of their includes -/

mutual

/-- A statement in whose lists each file stands in the place of its include. -/
def Node.inlined : Node → Node
  | .mk (.function name params ret body) l =>
    .mk (.function name params ret (Node.inlinedAll body)) l
  | .mk (.conditional condition body otherwise) l =>
    .mk (.conditional condition (Node.inlinedAll body) otherwise.inlined) l
  | .mk (.whileLoop condition body) l => .mk (.whileLoop condition (Node.inlinedAll body)) l
  | .mk (.forLoop start condition step body) l =>
    .mk (.forLoop start.inlined condition step.inlined (Node.inlinedAll body)) l
  | .mk (.included path program) l => .mk (.included path (Node.inlinedAll program)) l
  | n => n

/-- A statement list with each file in the place of its include. -/
def Node.inlinedAll : List Node → List Node
  | [] => []
  | .mk (.included _ program) _ :: ns => Node.inlinedAll program ++ Node.inlinedAll ns
  | n :: ns => n.inlined :: Node.inlinedAll ns

/-- What follows the block of a conditional, with each file in the place of its include. -/
def Otherwise.inlined : Otherwise → Otherwise
  | .absent => .absent
  | .chained n => .chained n.inlined
  | .block body => .block (Node.inlinedAll body)

end

/-- A program with each file in the place of its include. -/
def Program.inlined (p : Program) : Program := ⟨Node.inlinedAll p.body⟩

mutual

/-- The statement lists in a statement.  The list of a file is not one of them, but those in it
are. -/
def Node.lists : Node → List (List Node)
  | .mk (.function _ _ _ body) _ | .mk (.whileLoop _ body) _ => body :: Node.listsAll body
  | .mk (.conditional _ body otherwise) _ => body :: Node.listsAll body ++ otherwise.lists
  | .mk (.forLoop start _ step body) _ => start.lists ++ step.lists ++ body :: Node.listsAll body
  | .mk (.included _ program) _ => Node.listsAll program
  | _ => []

/-- The statement lists in the statements of a list. -/
def Node.listsAll : List Node → List (List Node)
  | [] => []
  | n :: ns => n.lists ++ Node.listsAll ns

/-- The statement lists behind the block of a conditional. -/
def Otherwise.lists : Otherwise → List (List Node)
  | .absent => []
  | .chained n => n.lists
  | .block body => body :: Node.listsAll body

end

/-- The statement lists of a program. -/
def Program.lists (p : Program) : List (List Node) := p.body :: Node.listsAll p.body

/-- Putting the files in place does not change whether a list ends with a jump. -/
def Node.KeepsEnd (ns : List Node) : Prop := Node.jumpsAll (Node.inlinedAll ns) = Node.jumpsAll ns

instance : DecidablePred Node.KeepsEnd := fun _ => inferInstanceAs (Decidable (_ = _))

/-- A statement keeps its kind. -/
theorem Node.inlined_mk (form : Form) (l : Location) :
    ∃ form', (Node.mk form l).inlined = .mk form' l ∧ form'.name = form.name ∧
      form'.isStatement = form.isStatement ∧ form'.isConditional = form.isConditional := by
  cases form <;> exact ⟨_, rfl, rfl, rfl, rfl⟩

theorem Node.inlinedAll_cons {n : Node} (h : ∀ path program l, n ≠ .mk (.included path program) l)
    (ns : List Node) : Node.inlinedAll (n :: ns) = n.inlined :: Node.inlinedAll ns := by
  obtain ⟨form, l⟩ := n
  cases form with
  | included path program => exact absurd rfl (h path program l)
  | _ => rfl

/-! ### What the two compilations have included -/

/-- Neither compilation has included any of the paths. -/
def Lacking (paths a b : List String) : Prop := ∀ path ∈ paths, path ∉ a ∧ path ∉ b

theorem Lacking.head (h : Lacking (path :: paths) a b) : path ∉ a ∧ path ∉ b :=
  h path (.head _)

theorem Lacking.tail (h : Lacking (path :: paths) a b) : Lacking paths a b :=
  fun p hp => h p (.tail _ hp)

/-- A path that is not one of those to come may be included. -/
theorem Lacking.mark (hpath : path ∉ paths) (h : Lacking paths a b) :
    Lacking paths (path :: a) (path :: b) ∧ Lacking paths (path :: a) b := by
  have hne : ∀ p ∈ paths, p ≠ path := fun p hp heq => hpath (heq ▸ hp)
  exact ⟨fun p hp => ⟨List.not_mem_cons_of_ne_of_not_mem (hne p hp) (h p hp).1,
      List.not_mem_cons_of_ne_of_not_mem (hne p hp) (h p hp).2⟩,
    fun p hp => ⟨List.not_mem_cons_of_ne_of_not_mem (hne p hp) (h p hp).1, (h p hp).2⟩⟩

theorem Session.markIncluded_of_notMem {σ : Session} (h : path ∉ σ.included) :
    σ.markIncluded path = (true, { σ with included := path :: σ.included }) :=
  if_neg fun hmem => h (List.contains_iff_mem.1 hmem)

namespace Mirrors

variable {Λ : Likeness} {I J K : List String → List String → Prop} {α β γ : Type}
  {R S : α → β → Prop}

/-- A comment that the one compilation writes can be left out of the other one. -/
theorem skipRemark {text : String} {f : Unit → Lower α} {y : Lower β}
    (h : Mirrors Λ I J R (f ()) y) :
    Mirrors Λ I J R (Lower.remark text >>= fun note => Lower.emit note >>= f) y := by
  intro s t hst
  have hnote : Code.IsNote (if s.comments then [.comment text] else []) :=
    (isNote_of_remark (s := s) (t := s) rfl).1
  have hlisting := Λ.listing_append s.listing s.target (if s.comments then [.comment text] else [])
  rw [Λ.code_note hnote] at hlisting
  have hnil : (Λ.listing s.listing).append s.target [] = Λ.listing s.listing := by
    cases s.target <;> simp [Listing.append]
  exact h _ t { hst with listing := hst.listing.trans (hnil.symm.trans hlisting) }

/-- A file that is included in the one compilation only. -/
theorem mark {f : Bool → Lower α} {y : Lower β} (hI : ∀ a b, I a b → path ∉ a ∧ J (path :: a) b)
    (h : Mirrors Λ J K R (f true) y) :
    Mirrors Λ I K R (Lower.withSession (·.markIncluded path) >>= f) y := by
  intro s t hst
  have hsession (σ : Session) : s.session.Alike Λ I σ → path ∉ s.session.included ∧
      ({ s.session with included := path :: s.session.included } : Session).Alike Λ J σ :=
    fun ⟨hab, hs⟩ => ⟨(hI _ _ hab).1, .mk (hI _ _ hab).2 hs⟩
  obtain ⟨hpath, hJ⟩ := hsession _ hst.session
  have hmark : Lower.withSession (·.markIncluded path) s =
      .ok true { s with session := { s.session with included := path :: s.session.included } } := by
    show EStateM.Result.ok (s.session.markIncluded path).1
      { s with session := (s.session.markIncluded path).2 } = _
    rw [Session.markIncluded_of_notMem hpath]
  rw [bind_of_eq_ok hmark]
  exact h _ _ { hst with session := hJ }

/-- Actions that end well with one result only. -/
theorem sharpen {x y : Lower α} {S : α → α → Prop} {a : α} (hx : ∀ s b t, x s = .ok b t → b = a)
    (hy : ∀ s b t, y s = .ok b t → b = a) (h : Mirrors Λ I J S x y) :
    Mirrors Λ I J (Via id) x y := by
  intro s t hst
  have hends := h s t hst
  generalize hxs : x s = p, hyt : y t = q at hends
  cases hends with
  | error he hstats => exact .error he hstats
  | ok _ huv => exact .ok ((hy _ _ _ hyt).trans (hx _ _ _ hxs).symm) huv

end Mirrors

/-! ### Going through a program -/

theorem Node.executeAll_append (jumped : Bool) (ms ns : List Node) :
    Node.executeAll jumped (ms ++ ns) = Node.executeAll jumped ms >>= fun jumped =>
    Node.executeAll jumped ns := by
  induction ms generalizing jumped with
  | nil => rw [List.nil_append, Node.executeAll, pure_bind]
  | cons m ms ih => simp only [List.cons_append, Node.executeAll, bind_assoc, ih]

section

variable {k : Nat}

theorem Otherwise.label_inlined {I : List String → List String → Prop} (o : Otherwise)
    (exit : Label) :
      Mirrors (.same .empty k) I I (Via (Likeness.label (.same .empty k))) (o.label exit)
      (o.inlined.label (Likeness.label (.same .empty k) exit)) := by
  cases o with
  | absent => exact .pure rfl
  | chained n => exact .mintLabel _
  | block body => exact .mintLabel _

variable (k) in
/-- A statement with the files in its lists put in place mirrors the statement itself, if they are
different from one another and from those that come later. -/
def Node.Inlines (n : Node) : Prop :=
  ∀ later, (n.includes ++ later).Nodup → (∀ ns ∈ n.lists, Node.KeepsEnd ns) →
    Mirrors (.same .empty k) (Lacking (n.includes ++ later)) (Lacking later) (Via id) n.execute
    n.inlined.execute

variable (k) in
/-- The same of a statement list, but for whether it jumps away. -/
def Node.InlinesAll (ns : List Node) : Prop :=
  ∀ later, (Node.includesAll ns ++ later).Nodup → (∀ ms ∈ Node.listsAll ns, Node.KeepsEnd ms) →
    ∀ jumped jumped', Mirrors (.same .empty k) (Lacking (Node.includesAll ns ++ later))
      (Lacking later) (fun _ _ => True)
      (Node.executeAll jumped ns) (Node.executeAll jumped' (Node.inlinedAll ns))

variable (k) in
/-- The same of what follows the block of a conditional. -/
def Otherwise.Inlines (o : Otherwise) : Prop :=
  ∀ later, (o.includes ++ later).Nodup → (∀ ns ∈ o.lists, Node.KeepsEnd ns) → ∀ exit next,
    Mirrors (.same .empty k) (Lacking (o.includes ++ later)) (Lacking later) (Via id)
      (o.execute exit next) (o.inlined.execute (Likeness.label (.same .empty k) exit)
        (Likeness.label (.same .empty k) next))

/-- A list that keeps its end jumps away or not in both compilations. -/
theorem Node.InlinesAll.mirrors {later : List String} (h : Node.InlinesAll k ns)
    (hnodup : (Node.includesAll ns ++ later).Nodup)
    (hends : ∀ ms ∈ ns :: Node.listsAll ns, Node.KeepsEnd ms) :
    Mirrors (.same .empty k) (Lacking (Node.includesAll ns ++ later)) (Lacking later) (Via id)
      (Node.executeAll false ns) (Node.executeAll false (Node.inlinedAll ns)) := by
  obtain ⟨hend, hends⟩ := List.forall_mem_cons.1 hends
  refine .sharpen (Node.executeAll_jumped ns) (fun s b t hb => ?_)
    (h later hnodup hends false false)
  rw [← hend]
  exact Node.executeAll_jumped _ s b t hb

/-- The statements of a file in the place of its include. -/
theorem Node.InlinesAll.spread {program : List Node} {later : List String}
    (h : Node.InlinesAll k program) (hnodup : (path :: Node.includesAll program ++ later).Nodup)
    (hends : ∀ ms ∈ Node.listsAll program, Node.KeepsEnd ms) (jumped : Bool) :
    Mirrors (.same .empty k) (Lacking (path :: Node.includesAll program ++ later)) (Lacking later)
      (fun _ _ => True) (Node.mk (.included path program) l).execute
      (Node.executeAll jumped (Node.inlinedAll program)) := by
  obtain ⟨hpath, hnodup⟩ := List.nodup_cons.1 hnodup
  have hprogram := (h later hnodup hends false jumped).bind (S := fun _ _ => True)
    (f := fun _ => pure false) (g := pure) fun _ _ _ => .pure trivial
  rw [bind_pure] at hprogram
  unfold Node.execute
  exact .mark (fun a b hab => ⟨hab.head.1, (hab.tail.mark hpath).2⟩) (.skipRemark hprogram)

theorem Node.inlines_function {name : String} {params : List Param} {ret : ScalarType}
    (hbody : Node.InlinesAll k body) : (Node.mk (.function name params ret body) l).Inlines k := by
  intro later hnodup hends
  exact Node.mirrors_function_same (hbody.mirrors hnodup hends)

theorem Node.inlines_conditional {o : Otherwise} (hbody : Node.InlinesAll k body)
    (hrest : o.Inlines k) : (Node.mk (.conditional condition body o) l).Inlines k := by
  intro later hnodup hends
  obtain ⟨hends, hends'⟩ := List.forall_mem_append.1 hends
  rw [Node.includes, Form.includes, List.append_assoc] at hnodup ⊢
  exact Node.mirrors_conditional (Node.evaluatesAlike_same _) (hbody.mirrors hnodup hends)
    (Otherwise.label_inlined o) (hrest later hnodup.of_append_right hends')

/-- The step of a loop is compiled behind its body. -/
theorem Node.inlines_forLoop {start step : Node} (hstart : start.Inlines k) (hstep : step.Inlines k)
    (hbody : Node.InlinesAll k body) :
    (Node.mk (.forLoop start condition step body) l).Inlines k := by
  intro later hnodup hends
  obtain ⟨hends, hends'⟩ := List.forall_mem_append.1 hends
  obtain ⟨hends, hends''⟩ := List.forall_mem_append.1 hends
  have hperm : (start.includes ++ step.includes ++ Node.includesAll body ++ later).Perm
      (start.includes ++ (Node.includesAll body ++ (step.includes ++ later))) := by
    simp only [List.append_assoc]
    exact .append_left _ (List.perm_append_comm_assoc _ _ _)
  have hnodup' := hperm.nodup_iff.1 hnodup
  have hrest := hnodup'.of_append_right
  refine .weaken (fun a b hab path hpath => hab path (hperm.mem_iff.2 hpath)) ?_
  exact Node.mirrors_forLoop (hstart _ hnodup' hends) (Node.evaluatesAlike_same _)
    (hbody.mirrors hrest hends') (hstep later hrest.of_append_right hends'')

/-- An include that stands for itself, as the start of a loop may. -/
theorem Node.inlines_included {program : List Node} (h : Node.InlinesAll k program) :
    (Node.mk (.included path program) l).Inlines k := by
  intro later hnodup hends
  obtain ⟨hpath, hnodup⟩ := List.nodup_cons.1 hnodup
  exact Node.mirrors_included (fun a b hab => iff_of_false hab.head.2 hab.head.1)
    (fun a b hab hmem => absurd hmem hab.head.1)
    (fun a b hab _ => (hab.tail.mark hpath).1)
    (fun a b hab p hp => hab p (List.mem_append_right _ hp)) (h later hnodup hends false false)

theorem Node.InlinesAll.cons {n : Node} (hn : n.Inlines k)
    (hprogram : ∀ path program l, n = .mk (.included path program) l → Node.InlinesAll k program)
    (hns : Node.InlinesAll k ns) : Node.InlinesAll k (n :: ns) := by
  intro later hnodup hends jumped jumped'
  obtain ⟨hends, hends'⟩ := List.forall_mem_append.1 hends
  rw [Node.includesAll, List.append_assoc] at hnodup ⊢
  have hrest := hns later hnodup.of_append_right hends'
  by_cases hincluded : ∃ path program l, n = .mk (.included path program) l
  · obtain ⟨path, program, l, rfl⟩ := hincluded
    rw [Node.inlinedAll, Node.executeAll_append, Node.executeAll]
    exact .bind ((hprogram path program l rfl).spread hnodup hends jumped') fun _ _ _ => hrest _ _
  · rw [Node.inlinedAll_cons fun path program l heq => hincluded ⟨path, program, l, heq⟩,
      Node.executeAll, Node.executeAll]
    exact .next (hn _ hnodup hends) fun jumped => hrest _ _

theorem Otherwise.inlines_chained {o : Otherwise} (hbody : Node.InlinesAll k body)
    (hrest : o.Inlines k) :
    (Otherwise.chained (.mk (.conditional condition body o) l)).Inlines k := by
  intro later hnodup hends exit next
  obtain ⟨hends, hends'⟩ := List.forall_mem_append.1 hends
  rw [Otherwise.includes, Node.includes, Form.includes, List.append_assoc] at hnodup ⊢
  exact Otherwise.mirrors_chained exit next (Node.evaluatesAlike_same _)
    (hbody.mirrors hnodup hends)
    (Otherwise.label_inlined o) (hrest later hnodup.of_append_right hends')

theorem Node.inlined_statementCases :
    StatementCases
      (fun n => n.Inlines k ∧ ∀ path program l, n = .mk (.included path program) l →
        Node.InlinesAll k program) (Node.InlinesAll k) (Otherwise.Inlines k) where
  function hbody := ⟨Node.inlines_function hbody, nofun⟩
  declare := ⟨fun _ _ _ => Node.mirrors_declare rfl (Node.evaluatesAlike_same_option _), nofun⟩
  assign := ⟨fun _ _ _ => Node.mirrors_assign rfl (Node.evaluatesAlike_same _), nofun⟩
  store :=
    ⟨fun _ _ _ => Node.mirrors_store rfl (Node.evaluatesAlike_same _) (Node.evaluatesAlike_same _),
      nofun⟩
  conditional hbody hrest := ⟨Node.inlines_conditional hbody hrest, nofun⟩
  whileLoop hbody :=
    ⟨fun _ hnodup hends => Node.mirrors_whileLoop (Node.evaluatesAlike_same _)
      (hbody.mirrors hnodup hends), nofun⟩
  forLoop hstart hstep hbody := ⟨Node.inlines_forLoop hstart.1 hstep.1 hbody, nofun⟩
  included hprogram := by
    refine ⟨Node.inlines_included hprogram, ?_⟩
    rintro _ _ _ ⟨⟩
    exact hprogram
  breakLoop := ⟨fun _ _ _ => Node.mirrors_breakLoop rfl, nofun⟩
  continueLoop := ⟨fun _ _ _ => Node.mirrors_continueLoop rfl, nofun⟩
  ret := ⟨fun _ _ _ => Node.mirrors_ret rfl (Node.evaluatesAlike_same_option _), nofun⟩
  call := ⟨fun _ _ _ => Node.mirrors_call (Node.evaluatesAlike_same _), nofun⟩
  step := ⟨fun _ _ _ => Node.mirrors_step rfl, nofun⟩
  misplaced {form l} hform := by
    refine ⟨fun later _ _ => ?_, ?_⟩
    · obtain ⟨form', heq, hname, hkind, -⟩ := Node.inlined_mk form l
      rw [heq]
      exact Node.mirrors_misplaced rfl hform (hkind.trans hform) hname
    · rintro _ _ _ ⟨⟩
      cases hform
  nil later _ _ jumped jumped' := by
    unfold Node.inlinedAll Node.executeAll
    exact .pure trivial
  cons hn hns := hns.cons hn.1 hn.2
  absent later _ _ exit next := .emit rfl
  block hbody later hnodup hends exit next :=
    Otherwise.mirrors_block exit next (hbody.mirrors hnodup hends)
  chained hbody hrest := Otherwise.inlines_chained hbody hrest
  misplacedElse {form l} hform later _ _ exit next := by
    obtain ⟨form', heq, hname, -, hkind⟩ := Node.inlined_mk form l
    unfold Otherwise.inlined
    rw [heq]
    exact Otherwise.mirrors_misplaced exit next rfl hform (hkind.trans hform) hname

/-- Statements with the files in their places. -/
theorem Node.executeAll_inlined (hdistinct : (Node.includesAll ns).Nodup)
    (hends : ∀ ms ∈ ns :: Node.listsAll ns, Node.KeepsEnd ms) :
    Mirrors (.same .empty k) (Lacking (Node.includesAll ns)) (Lacking []) (Via id)
      (Node.executeAll false ns) (Node.executeAll false (Node.inlinedAll ns)) := by
  have hlist := (Node.inlined_statementCases (k := k)).list ns
  rw [← List.append_nil (Node.includesAll ns)] at hdistinct ⊢
  exact hlist.mirrors hdistinct hends

end

/-! ### Whole compilations -/

/-- Includes are transparent.  If no file is included twice, and putting each file in the place of
its include does not change whether a statement list ends with a jump, the program in one piece is
compiled, in a new session and without comments, to the same unit with the same statistics, or fails
with the same error at the same place. -/
theorem includes_transparent {p : Program} (hdistinct : (Node.includesAll p.body).Nodup)
    (hends : ∀ ns ∈ p.lists, Node.KeepsEnd ns) {options : Options}
    (hcomments : options.comments = false) : compile options p.inlined = compile options p := by
  obtain ⟨_, entry⟩ := options
  obtain rfl : _ = false := hcomments
  have hlacking : Lacking (Node.includesAll p.body) Session.empty.included Session.empty.included :=
    fun _ _ => ⟨List.not_mem_nil, List.not_mem_nil⟩
  obtain ⟨h, -⟩ := compileIn_alike (.same .empty 0) .empty Session.empty.journal hlacking
    (fun k => Node.executeAll_inlined (k := k) hdistinct hends) false entry
  rw [Likeness.session_empty _ rfl] at h
  refine h.eq_map.trans ?_
  unfold compile
  cases hp : (compileIn .empty { comments := false, entry } p).1 with
  | error e => rfl
  | ok a => exact congrArg Except.ok (compileIn_assembly hp rfl)

/-- A program in four files: a function whose body includes one file is in another, and a loop and
the branch of a conditional include the rest. -/
def scattered : Program :=
  ⟨[.mk (.included "doubled.ku"
      [.mk (.function "doubled" [⟨"n", .integer⟩] .integer
        [.mk (.included "twice.ku"
          [.mk (.declare "twice" .integer
            (some (.mk (.binary .add (.mk (.var "n") ⟨1, 11⟩) (.mk (.var "n") ⟨1, 15⟩)) ⟨1, 13⟩)))
            ⟨1, 1⟩]) ⟨2, 3⟩,
         .mk (.ret (some (.mk (.var "twice") ⟨3, 10⟩))) ⟨3, 3⟩]) ⟨1, 1⟩]) ⟨1, 1⟩,
    .mk (.whileLoop (.mk (.bool true) ⟨2, 7⟩)
      [.mk (.included "round.ku"
          [.mk (.declare "text" .string (some (.mk (.str "round") ⟨1, 10⟩))) ⟨1, 1⟩,
            .mk (.conditional (.mk (.bool false) ⟨2, 4⟩)
              [.mk (.included "again.ku" [.mk (.call "doubled" [.mk (.number 2) ⟨1, 9⟩]) ⟨1, 1⟩])
                ⟨3, 3⟩, .mk .continueLoop ⟨4, 3⟩] .absent) ⟨2, 1⟩]) ⟨3, 3⟩,
        .mk .breakLoop ⟨4, 3⟩]) ⟨2, 1⟩]⟩

/-- It is compiled, and so it is in one piece. -/
theorem includes_transparent_scattered :
    ∃ a, compile { comments := false } scattered = .ok a ∧
    compile { comments := false } scattered.inlined = .ok a := by
  have hdistinct : (Node.includesAll scattered.body).Nodup := by decide +kernel
  have hends : ∀ ns ∈ scattered.lists, Node.KeepsEnd ns := by decide +kernel
  have hcomments : ({ comments := false } : Options).comments = false := rfl
  have hinlined := includes_transparent hdistinct hends hcomments
  have hok : (compile { comments := false } scattered).isOk = true := by decide +kernel
  obtain ⟨a, ha⟩ := exists_of_isOk hok
  exact ⟨a, ha, hinlined.trans ha⟩

end KuAsm
