import KuAsm.Proofs.Reckoning
import KuAsm.Proofs.Trace

/-!
# Programs compiled one after another

A session may be used for several programs.  Its counter of labels never goes back, also when a
program is rejected half way, so a label is never made twice.

## Main statements

* `compileIn_advances`: a compilation, whether it succeeds or not, does not turn the counter back.
* `symbols_unique_and_closed`: in any sequence of compilations all labels are different symbols, and
  each unit defines every label made for it once and refers to no others.
-/

namespace KuAsm

variable {jobs : List (Options × Program)} {i : Nat} {session : Session} {ok : String → Bool}

/-- The counter of labels is not turned back, however the action ends. -/
structure Lower.IsAdvancing {α : Type} (x : Lower α) : Prop where
  ok : ∀ {s a t}, x s = .ok a t → s.session.nextLabel ≤ t.session.nextLabel
  error : ∀ {s e t}, x s = .error e t → s.session.nextLabel ≤ t.session.nextLabel

namespace Lower

variable {α β : Type}

theorem IsAdvancing.pure (a : α) : (pure a : Lower α).IsAdvancing where
  ok h := by
    obtain ⟨-, rfl⟩ := pure_eq_ok.1 h
    exact Nat.le_refl _
  error h := nomatch h

theorem IsAdvancing.throw (e : Failure) : (throw e : Lower α).IsAdvancing where
  ok h := (throw_eq_ok.1 h).elim
  error h := by
    cases h
    exact Nat.le_refl _

theorem IsAdvancing.bind {x : Lower α} {f : α → Lower β} (hx : x.IsAdvancing)
    (hf : ∀ a, (f a).IsAdvancing) : (x >>= f).IsAdvancing where
  ok h := by
    obtain ⟨a, u, hxa, hfa⟩ := bind_eq_ok.1 h
    exact Nat.le_trans (hx.ok hxa) ((hf a).ok hfa)
  error h := by
    rcases bind_eq_error.1 h with hxe | ⟨a, u, hxa, hfa⟩
    · exact hx.error hxe
    · exact Nat.le_trans (hx.ok hxa) ((hf a).error hfa)

theorem IsAdvancing.modifyGet {f : State → α × State}
    (hf : ∀ s, s.session.nextLabel ≤ (f s).2.session.nextLabel) :
    (modifyGet f : Lower α).IsAdvancing where
  ok h := by
    obtain ⟨-, rfl⟩ := modifyGet_eq_ok.1 h
    exact hf _
  error h := nomatch h

theorem IsAdvancing.read {f : State → Lower β} (hf : ∀ s, (f s).IsAdvancing) :
    ((get : Lower State) >>= f).IsAdvancing where
  ok h := (hf _).ok (get_bind_eq_ok.1 h)
  error {s _ _} h := (hf s).error h

theorem IsAdvancing.withSession {f : Session → α × Session}
    (hf : ∀ s, s.nextLabel ≤ (f s).2.nextLabel) : (withSession f).IsAdvancing :=
  .modifyGet fun s => hf s.session

theorem IsAdvancing.scope : scope.IsAdvancing := .read fun _ => .pure _

theorem IsAdvancing.setScope (sc : Scope) : (setScope sc).IsAdvancing :=
  .modifyGet fun _ => Nat.le_refl _

theorem IsAdvancing.checked (x : Except Fault α) : (checked x).IsAdvancing := by
  cases x with
  | ok a => exact .pure a
  | error f => exact .throw _

theorem IsAdvancing.accepted (x : Except Failure α) : (accepted x).IsAdvancing := by
  cases x with
  | ok a => exact .pure a
  | error f => exact .throw _

theorem IsAdvancing.reserve (size : Nat) : (reserve size).IsAdvancing :=
  .bind .scope fun _ => .bind (.checked _) fun _ => .bind (.setScope _) fun _ => .pure _

theorem IsAdvancing.mintReclaim : mintReclaim.IsAdvancing := .withSession fun _ => Nat.le_refl _

theorem IsAdvancing.remark (text : String) : (remark text).IsAdvancing := .read fun _ => .pure _

theorem IsAdvancing.registerFresh : registerFresh.IsAdvancing :=
  .bind .mintReclaim fun _ => .bind (.reserve _) fun _ => .bind (.reserve _) fun _ =>
    .bind .scope fun _ => .bind (.setScope _) fun _ => .bind (.checked _) fun _ =>
      .bind (.checked _) fun _ => .bind (.remark _) fun _ => .pure _

/-- Advancing is a law that admits rejecting and writing. -/
theorem IsAdvancing.law : StatementLaw @IsAdvancing where
  pure := .pure
  bind := .bind
  read := .read
  fault f := .throw _
  reject c l := .throw _
  mintLabel hint := .withSession fun _ => Nat.le_succ _
  tell n := .withSession fun _ => Nat.le_refl _
  recordCall name := .withSession fun _ => Nat.le_refl _
  recordFree := .withSession fun _ => Nat.le_refl _
  reserve := .reserve
  place text := by
    refine .modifyGet fun s => ?_
    show s.session.nextLabel ≤ (s.listing.place s.session text).2.2.nextLabel
    unfold Listing.place
    split
    · exact Nat.le_refl _
    · exact Nat.le_succ _
  registerFresh := .registerFresh
  weaken hok hrejected hfault hy :=
    { ok := fun h => hy.ok (hok _ _ _ h)
      error := fun {s e t} h => by
        cases e with
        | rejected d => exact (hrejected s d t h).elim
        | fault f =>
          rewrite [hfault s f t h]
          exact Nat.le_refl _ }
  emit code := .modifyGet fun _ => Nat.le_refl _

open IsAdvancing

theorem IsAdvancing.declareVariable (name : String) (ty : ScalarType) (l : Location) :
    (declareVariable name ty l).IsAdvancing :=
  .bind .scope fun _ => .bind (.accepted _) fun _ => .bind (.setScope _) fun _ => .pure _

theorem IsAdvancing.own (name : String) (id : ReclaimId) : (own name id).IsAdvancing :=
  .bind .scope fun _ => .setScope _

theorem IsAdvancing.takeOwnership (o : Ownership) (name : String) (l : Location) :
    (takeOwnership o name l).IsAdvancing := by
  cases o with
  | fresh id =>
    exact .bind .scope fun _ => .bind (.setScope _) fun _ => .bind (law.tell _) fun _ => .pure _
  | borrowed id => exact .bind (law.tell _) fun _ => .pure _
  | plain => exact .pure _

theorem IsAdvancing.declare (name : String) (ty : ScalarType) (l : Location) {value : Lower Lowered}
    (hvalue : value.IsAdvancing) : (declare name ty l value).IsAdvancing := by
  refine .bind hvalue fun v => .bind (.declareVariable _ _ _) fun x => .bind (.remark _) fun _ =>
    .bind (.checked _) fun _ => ?_
  cases x.sizeCell with
  | none => exact law.emit _
  | some cell =>
    refine .bind (.takeOwnership _ _ _) fun ⟨_, id?⟩ => .bind ?_ fun _ =>
        .bind (.checked _) fun _ =>
      .bind (.own _ _) fun _ => law.emit _
    cases id? with
    | none => exact .mintReclaim
    | some id => exact .pure _

/-! ### Blocks, loops and functions -/

theorem IsAdvancing.pushScope (l : Label) : (pushScope l).IsAdvancing where
  ok h := by
    obtain ⟨-, rfl⟩ := pushScope_eq_ok.1 h
    exact Nat.le_refl _
  error h := nomatch h

theorem IsAdvancing.move (f : State → State) (hf : ∀ s, (f s).session = s.session) :
    (modify f : Lower PUnit).IsAdvancing :=
  .modifyGet fun s => Nat.le_of_eq (congrArg Session.nextLabel (hf s)).symm

theorem IsAdvancing.openBlock : openBlock.IsAdvancing :=
  .bind (law.mintLabel _) fun _ => .bind (.pushScope _) fun _ => .bind (law.emit _) fun _ =>
    .bind (.move _ fun _ => rfl) fun _ => .pure _

theorem IsAdvancing.closeBlock (reachable : Bool) : (closeBlock reachable).IsAdvancing := by
  refine .read fun s => ?_
  have hend : (defineFrameSize s.current >>= fun _ => modify fun t : State =>
      { t with current := (t.tree.scope s.current).parent.getD t.root }).IsAdvancing :=
    .bind (law.defineFrameSize _) fun _ => .move _ fun _ => rfl
  cases reachable with
  | false => exact hend
  | true => exact .bind (law.exitFrame _ _) fun _ => hend

theorem IsAdvancing.openLoop : openLoop.IsAdvancing :=
  .bind (law.mintLabel _) fun _ => .bind (law.mintLabel _) fun _ => .bind (law.mintLabel _) fun _ =>
    .bind (law.mintLabel _) fun _ => .bind (law.emit _) fun _ => .bind .openBlock fun _ =>
      .bind .scope fun _ => .bind (.setScope _) fun _ => .pure _

theorem IsAdvancing.bindParams (l : Location) :
    ∀ (index : Nat) (params : List Param), (bindParams l index params).IsAdvancing
  | _, [] => .pure _
  | index, p :: rest => by
    have hadopt : (adopt p).IsAdvancing := by
      unfold Lower.adopt
      exact law.ite (.bind .mintReclaim fun _ => .own _ _) (.pure _)
    have hparam : (Lower.bindParam l index p).IsAdvancing :=
      .bind (.declareVariable _ _ _) fun _ => .bind (.checked _) fun _ =>
          .bind (.checked _) fun _ =>
        .bind hadopt fun _ => .pure _
    exact .bind hparam fun _ => .bind (bindParams l (index + 1) rest) fun _ => .pure _

theorem IsAdvancing.openFunction (name : String) (params : List Param) (ret : ScalarType)
    (l : Location) : (openFunction name params ret l).IsAdvancing := by
  have hannounce : (announce name params ret l).IsAdvancing :=
    .bind (law.mintLabel _) fun _ => .bind (law.mintLabel _) fun _ => .bind .scope fun _ =>
      .bind (.accepted _) fun _ => .bind (.setScope _) fun _ => .bind (law.mintLabel _)
        fun _ => .pure _
  have hbody : ∀ f, (openBody f).IsAdvancing := fun f =>
    .bind (law.mintLabel _) fun _ => .bind (.pushScope _) fun _ =>
        .bind (.move _ fun _ => rfl) fun _ =>
      .bind (.reserve _) fun _ => .bind (.reserve _) fun _ => .bind .scope fun _ =>
        .bind (.setScope _) fun _ => .pure _
  exact .bind hannounce fun _ => .read fun _ => .bind (hbody _) fun _ => .bind (.remark _) fun _ =>
    .bind (.bindParams _ _ _) fun _ => .read fun _ => .bind (law.emit _) fun _ => .pure _

theorem IsAdvancing.defineFunction (name : String) (params : List Param) (ret : ScalarType)
    (l : Location) {body : FunctionExit → Lower Unit} (hbody : ∀ exit, (body exit).IsAdvancing) :
    (defineFunction name params ret l body).IsAdvancing := by
  refine .bind (.openFunction _ _ _ _) fun f => .bind (hbody _) fun _ => ?_
  exact .bind (law.fetchResult _) fun _ => .bind (law.emit _) fun _ =>
    .bind (law.defineFrameSize _) fun _ => .bind (law.emit _) fun _ =>
      .bind (.move _ fun _ => rfl) fun _ => .withSession fun _ => Nat.le_refl _

/-- Compiling does not turn the counter of labels back. -/
theorem IsAdvancing.walk : TraceLaw @IsAdvancing fun x _ => x.IsAdvancing where
  toStatementLaw := law
  openBlock := .openBlock
  closeBlock := .closeBlock
  openLoop := .openLoop
  openFunction := .openFunction
  library p := .defineFunction _ _ _ _ (law.primitiveBody p)
  declare _ _ _ value := .declare _ _ _ (law.evaluateOr value _)
  markIncluded path := .withSession fun s => by
    unfold Session.markIncluded
    split <;> exact Nat.le_refl _
  expressions hx _ := hx
  sequence := .bind
  before := .bind
  cons _ hx := hx
  assign name l value := law.assign name l (fun _ _ => .takeOwnership _ _ _) fun _ =>
    law.expect (law.evaluate value)
  function _ _ _ l _ _ _ _ hs _ := .defineFunction _ _ _ _ (law.functionBody l hs)

end Lower

/-- A compilation does not turn the counter of labels back, whether it succeeds or not. -/
theorem compileIn_advances (session : Session) (options : Options) (program : Program) :
    session.nextLabel ≤ (compileIn session options program).2.nextLabel := by
  have h := Lower.IsAdvancing.walk.lowerUnit program
  have hstart : session.nextLabel ≤ (State.start session options.comments).session.nextLabel :=
    Nat.le_succ _
  unfold compileIn
  cases hrun : (lowerUnit program).run (State.start session options.comments) with
  | ok a t => exact Nat.le_trans hstart (h.ok hrun)
  | error e t => exact Nat.le_trans hstart (h.error hrun)

/-! ### Sequences of compilations -/

section

attribute [local irreducible] compileIn

/-- The session after several compilations, done one after another. -/
def Session.after (session : Session) (jobs : List (Options × Program)) : Session :=
  jobs.foldl (fun s job => (compileIn s job.1 job.2).2) session

theorem Session.after_advances (session : Session) (jobs : List (Options × Program)) :
    session.nextLabel ≤ (session.after jobs).nextLabel := by
  induction jobs generalizing session with
  | nil => exact Nat.le_refl _
  | cons job jobs ih =>
    exact Nat.le_trans (compileIn_advances session job.1 job.2)
      (ih (compileIn session job.1 job.2).2)

/-- The number `n` is given to a label in the `i`-th of the compilations. -/
def Session.Mints (session : Session) (jobs : List (Options × Program)) (i n : Nat) : Prop :=
  (session.after (jobs.take i)).nextLabel ≤ n ∧ n < (session.after (jobs.take (i + 1))).nextLabel

/-- Each compilation goes on where the one before it ended. -/
theorem Session.after_take_succ {job : Options × Program} (h : jobs[i]? = some job) :
    session.after (jobs.take (i + 1)) =
      (compileIn (session.after (jobs.take i)) job.1 job.2).2 := by
  unfold Session.after
  rw [List.take_add_one, h, List.foldl_append]
  rfl

/-- The counter of labels stands higher before a later compilation. -/
theorem Session.after_take_le (session : Session) (jobs : List (Options × Program)) {j : Nat}
    (h : i ≤ j) :
    (session.after (jobs.take i)).nextLabel ≤ (session.after (jobs.take j)).nextLabel := by
  have hsplit : jobs.take j = jobs.take i ++ (jobs.take j).drop i := by
    have hparts := (List.take_append_drop i (jobs.take j)).symm
    rwa [List.take_take, Nat.min_eq_left h] at hparts
  have hafter : session.after (jobs.take j) =
      (session.after (jobs.take i)).after ((jobs.take j).drop i) := by
    rw [hsplit]
    unfold Session.after
    rw [List.foldl_append, ← hsplit]
  rw [hafter]
  exact Session.after_advances _ _

/-- Two labels are never given the same number. -/
theorem Session.Mints.eq {j n : Nat} (hi : session.Mints jobs i n) (hj : session.Mints jobs j n) :
    i = j := by
  rcases Nat.lt_trichotomy i j with hlt | rfl | hlt
  · have := session.after_take_le jobs hlt
    exact absurd hi.2 (Nat.not_lt.2 (Nat.le_trans this hj.1))
  · rfl
  · have := session.after_take_le jobs hlt
    exact absurd hj.2 (Nat.not_lt.2 (Nat.le_trans this hi.1))

end

/-! ### The symbols of a unit -/

/-- Lines that are not plain text define the symbols of their labels. -/
theorem Code.symbols_eq {code : Code} (h : Code.IsCode ok code) :
    Code.symbols code = (Code.defines code).map Label.text := by
  induction code with
  | nil => rfl
  | cons line code ih =>
    obtain ⟨hline, hcode⟩ : line.isCode ok = true ∧ Code.IsCode ok code := Bool.and_eq_true_iff.1 h
    rw [Code.defines_cons, List.map_append, ← ih hcode]
    cases line with
    | verbatim text => cases hline
    | _ => rfl

theorem Code.symbols_append (a b : Code) :
    Code.symbols (a ++ b) = Code.symbols a ++ Code.symbols b :=
  List.filterMap_append

/-- A line that ends in a colon defines what stands before the colon. -/
theorem Line.symbol?_entry (text : String) : (Line.verbatim (text ++ ":")).symbol? = some text := by
  have hlist : (text ++ ":").toList = text.toList ++ [':'] := by
    rw [String.toList_append]
    rfl
  simp only [Line.symbol?, hlist, List.getLast?_concat, List.dropLast_concat, String.ofList_toList]
  rfl

/-- The line that makes the entry known to the linker defines no label. -/
theorem Line.symbol?_global {entry text : String}
    (h : (Line.verbatim ("global " ++ entry)).symbol? = some text) : ¬ IsLabelText text := by
  intro hlabel
  change (if ("global " ++ entry).toList.getLast? = some ':' then
    some (String.ofList ("global " ++ entry).toList.dropLast) else none) = some text at h
  split at h
  · cases h
    have hhead := hlabel.head
    rw [String.toList_ofList, String.toList_append] at hhead
    change List.head? (List.dropLast ('g' :: ('l' :: _))) = _ at hhead
    rw [List.dropLast_cons_cons, List.head?_cons] at hhead
    exact absurd hhead (by decide)
  · cases h

/-- The symbols of a unit are those of its labels and the entry, and perhaps one that is no
label. -/
theorem Listing.count_symbols_assemble {l : Listing} (hl : l.IsCode ok) {entry text : String}
    (hentry : ¬ IsLabelText entry) (htext : IsLabelText text) :
    (Code.symbols (l.assemble entry)).count text = (l.defines.map Label.text).count text := by
  have hglobal : (Code.symbols [Line.verbatim ("global " ++ entry)]).count text = 0 := by
    refine List.count_eq_zero.2 fun hmem => ?_
    obtain ⟨line, hline, hsymbol⟩ := List.mem_filterMap.1 hmem
    rw [List.mem_singleton.1 hline] at hsymbol
    exact Line.symbol?_global hsymbol htext
  have hstart : (Code.symbols [Line.verbatim (entry ++ ":")]).count text = 0 := by
    refine List.count_eq_zero.2 fun hmem => ?_
    obtain ⟨line, hline, hsymbol⟩ := List.mem_filterMap.1 hmem
    rw [List.mem_singleton.1 hline, Line.symbol?_entry] at hsymbol
    cases hsymbol
    exact hentry htext
  have hparts : l.assemble entry =
      [.verbatim "bits 32", .verbatim "", .verbatim "section .data"] ++ l.data ++
        [.verbatim "", .verbatim "section .text"] ++ [.verbatim ("global " ++ entry)] ++
          [.verbatim ""] ++ l.functions ++ [.verbatim ""] ++ [.verbatim (entry ++ ":")] ++
        l.program ++ [.verbatim ""] := by
    unfold Listing.assemble
    simp only [List.append_assoc, List.cons_append, List.nil_append]
  rw [hparts]
  simp only [Code.symbols_append, List.count_append, hglobal, hstart, Code.symbols_eq hl.data,
    Code.symbols_eq hl.functions, Code.symbols_eq hl.program, Listing.defines, List.map_append]
  simp [Code.symbols, Line.symbol?]

/-- Labels with different numbers are different symbols. -/
theorem Label.nodup_texts {made : List Label} (h : (made.map Label.number).Nodup) :
    (made.map Label.text).Nodup := by
  rw [List.Nodup, List.pairwise_map] at h ⊢
  exact h.imp fun hne heq => hne (Label.number_eq_of_text_eq heq)

theorem State.Inventory.map_number {s : State} {first : Nat} {made owed : List Label}
    (h : s.Inventory first made owed) : made.map Label.number = List.range' first made.length := by
  refine List.ext_getElem (by rw [List.length_map, List.length_range']) fun i hi hi' => ?_
  rw [List.length_map] at hi
  obtain ⟨hint, hl⟩ := h.numbered i made[i] (List.getElem?_eq_getElem hi)
  rw [List.getElem_map, List.getElem_range', hl, Nat.one_mul]
  rfl

/-- A compilation that succeeds has come to its end in a state that tells the unit and the
session. -/
theorem compileIn_eq_ok {options : Options} {program : Program} {a : Assembly}
    (h : (compileIn session options program).1 = .ok a) :
    ∃ t, lowerUnit program (State.start session options.comments) = .ok () t ∧
      a = ⟨t.listing.assemble options.entry, t.session.stats⟩ ∧
      (compileIn session options program).2 = t.session := by
  unfold compileIn at h ⊢
  cases hrun : (lowerUnit program).run (State.start session options.comments) with
  | ok x t =>
    rw [hrun] at h
    exact ⟨t, hrun, (Except.ok.inj h).symm, rfl⟩
  | error e t =>
    rw [hrun] at h
    cases h

/-- The labels of a unit are those that its compilation made.  Each is defined once, and the unit
refers to no others. -/
theorem compileIn_symbols {options : Options} {program : Program} {a : Assembly}
    (h : (compileIn session options program).1 = .ok a) (hentry : ¬ IsLabelText options.entry) :
      ∃ made : List Label, made.map Label.number = List.range' session.nextLabel
        ((compileIn session options program).2.nextLabel - session.nextLabel) ∧
      (∀ l ∈ made, (Code.symbols a.code).count l.text = 1) ∧
      ∀ l ∈ Code.refers a.code, l.text ∈ Code.symbols a.code := by
  obtain ⟨t, hrun, rfl, hsession⟩ := compileIn_eq_ok h
  obtain ⟨made, hmade, -⟩ := lowerUnit_inventory hrun
  have hperm : t.listing.defines.Perm made := by
    have hdefined := hmade.defined
    rwa [List.append_nil] at hdefined
  have hnodup : (made.map Label.text).Nodup := Label.nodup_texts (by
    rw [hmade.map_number]
    exact List.nodup_range')
  have hone : ∀ l ∈ made, (Code.symbols (t.listing.assemble options.entry)).count l.text = 1 := by
    intro l hl
    rw [Listing.count_symbols_assemble (lowerUnit_isCode hrun) hentry l.isLabelText,
      (hperm.map _).count_eq, hnodup.count, if_pos (List.mem_map_of_mem hl)]
  refine ⟨made, ?_, hone, fun l hl => ?_⟩
  · rw [hsession, hmade.next, Nat.add_sub_cancel_left]
    exact hmade.map_number
  · have hmem : l ∈ t.listing.refers := by
      simpa [Listing.assemble, Listing.refers, Line.refers] using hl
    exact List.count_pos_iff.1 (by rw [hone l (hmade.referred hmem)]; exact Nat.one_pos)

/-- In any sequence of compilations, of which some may fail, labels with different numbers are
different symbols, whatever their hints are, and no number is given out by two compilations.  A unit
defines every label that was made for it once, and refers to no symbol that it does not define. -/
theorem symbols_unique_and_closed (session : Session) (jobs : List (Options × Program)) :
    (∀ i j n m hint more, session.Mints jobs i n → session.Mints jobs j m →
      (Label.fresh n hint).text = (Label.fresh m more).text → i = j ∧ n = m) ∧
    (∀ n hint, IsLabelText (Label.fresh n hint).text) ∧
    ∀ i options program a, jobs[i]? = some (options, program) →
      (compileIn (session.after (jobs.take i)) options program).1 = .ok a →
      ¬ IsLabelText options.entry →
      ∃ made : List Label, (∀ n, session.Mints jobs i n ↔ n ∈ made.map Label.number) ∧
        (made.map Label.number).Nodup ∧ (∀ l ∈ made, (Code.symbols a.code).count l.text = 1) ∧
        ∀ l ∈ Code.refers a.code, l.text ∈ Code.symbols a.code := by
  refine ⟨fun i j n m hint more hi hj htext => ?_, fun n hint => Label.isLabelText _,
    fun i options program a hjob ha hentry => ?_⟩
  · obtain rfl : n = m := Label.number_eq_of_text_eq htext
    exact ⟨hi.eq hj, rfl⟩
  · obtain ⟨made, hnumbers, hone, hrefers⟩ := compileIn_symbols ha hentry
    refine ⟨made, fun n => ?_, ?_, hone, hrefers⟩
    · unfold Session.Mints
      rw [Session.after_take_succ hjob, hnumbers, List.mem_range'_1]
      have hle := compileIn_advances (session.after (jobs.take i)) options program
      dsimp only
      omega
    · rw [hnumbers]
      exact List.nodup_range'

/-- A program that is rejected, and one that is accepted in the session which the first one
leaves. -/
def strayThenSound : List (Options × Program) :=
  [({}, ⟨[.unplaced .breakLoop]⟩),
    ({ comments := false },
      ⟨[.unplaced (.whileLoop (.unplaced (.bool true)) [.unplaced .breakLoop])]⟩)]

/-- The labels of the second unit follow those that were made before the first program was
rejected. -/
theorem symbols_unique_and_closed_strayThenSound : ∃ a made,
    (compileIn (Session.empty.after (strayThenSound.take 1)) { comments := false }
      ⟨[.unplaced (.whileLoop (.unplaced (.bool true)) [.unplaced .breakLoop])]⟩).1 = .ok a ∧
    (Session.empty.after (strayThenSound.take 1)).nextLabel = 41 ∧
    (∀ n, Session.empty.Mints strayThenSound 1 n ↔ n ∈ List.map Label.number made) ∧
    (∀ l ∈ made, (Code.symbols a.code).count l.text = 1) ∧
    ∀ l ∈ Code.refers a.code, l.text ∈ Code.symbols a.code := by
  have hfirst : (Session.empty.after (strayThenSound.take 1)).nextLabel = 41 := by decide +kernel
  have hsecond : (compileIn (Session.empty.after (strayThenSound.take 1)) { comments := false }
      ⟨[.unplaced (.whileLoop (.unplaced (.bool true)) [.unplaced .breakLoop])]⟩).1.isOk =
        true := by
    decide +kernel
  have hentry : ¬ IsLabelText "_start" := fun h => absurd h.head (by decide)
  obtain ⟨a, ha⟩ := exists_of_isOk hsecond
  obtain ⟨made, hmints, -, hone, hrefers⟩ :=
    (symbols_unique_and_closed .empty strayThenSound).2.2 1 _ _ a rfl ha hentry
  exact ⟨a, made, ha, hfirst, hmints, hone, hrefers⟩

end KuAsm
