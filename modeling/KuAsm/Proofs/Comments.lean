import KuAsm.Proofs.Renumbering
import KuAsm.Text.Lines

/-!
# Comments

A comment is a line that begins with a semicolon, and the assembler skips it.  Its text is not
looked at, so a name with a line break in it ends the comment, and what is behind the break becomes
a line of code.  Apart from that comments make no difference: the unit without comments is the unit
with comments, less the lines that begin with a semicolon.

## Main definitions

* `Text.dropComments`: a text without the lines whose first character other than a blank is a
  semicolon.
* `Line.residue`: what is left of a comment then.

## Main statements

* `compile_uncommented`: without comments the same unit is made, less the lines that are comments.
* `dropComments_text_eq_iff`: the texts agree if and only if nothing is left of any comment.
* `comments_drop_out`: they agree for every program whose names and paths have no line break.
-/

namespace KuAsm

variable {line : Line} {a b m s : String} {ok : String → Bool}

namespace Text

/-! ### Lines that are comments -/

/-- Whether the first character of a line other than a blank is a semicolon. -/
def isComment (line : String) : Bool := (line.toList.find? fun c => !c.isWhitespace) == some ';'

/-- The text without the lines that are comments. -/
def dropComments (s : String) : String :=
  String.join (((lines s).filter fun l => !isComment l).map (· ++ "\n"))

/-- A line break ends a line, whatever is in front of it. -/
theorem linesFrom_append (line w rest : List Char) :
    linesFrom line (w ++ '\n' :: rest) = linesFrom line (w ++ ['\n']) ++ linesFrom [] rest := by
  induction w generalizing line with
  | nil => rfl
  | cons c w ih =>
    by_cases hc : c = '\n'
    · subst hc
      exact congrArg (_ :: ·) (ih [])
    · rw [List.cons_append, List.cons_append, linesFrom, linesFrom, ih]
      · exact hc
      · exact hc

/-- A line without a line break in it. -/
theorem linesFrom_of_notMem {w : List Char} (h : '\n' ∉ w) (line : List Char) :
    linesFrom line (w ++ ['\n']) = [chomp (line.reverse ++ w)] := by
  induction w generalizing line with
  | nil =>
    rw [List.append_nil]
    rfl
  | cons c w ih =>
    obtain ⟨hc, hw⟩ := List.ne_and_not_mem_of_not_mem_cons h
    rw [List.cons_append, linesFrom, ih hw, List.reverse_cons, List.append_assoc]
    · rfl
    · exact fun heq => hc heq.symm

theorem dropComments_append (s rest : String) :
    dropComments (s ++ "\n" ++ rest) = dropComments (s ++ "\n") ++ dropComments rest := by
  have hlines : lines (s ++ "\n" ++ rest) = lines (s ++ "\n") ++ lines rest := by
    unfold lines
    rw [← List.map_append]
    refine congrArg (List.map String.ofList) ?_
    rw [String.toList_append, String.toList_append]
    show linesFrom [] (s.toList ++ ['\n'] ++ rest.toList) = _
    rw [List.append_assoc]
    exact linesFrom_append [] _ _
  unfold dropComments
  rw [hlines, List.filter_append, List.map_append, String.join_append]

theorem dropComments_line (h : '\n' ∉ s.toList) :
    dropComments (s ++ "\n") =
      if isComment (String.ofList (chomp s.toList)) then ""
      else String.ofList (chomp s.toList) ++ "\n" := by
  have hlines : lines (s ++ "\n") = [String.ofList (chomp s.toList)] := by
    unfold lines
    rw [String.toList_append]
    show (linesFrom [] (s.toList ++ ['\n'])).map String.ofList = _
    rw [linesFrom_of_notMem h]
    rfl
  unfold dropComments
  rw [hlines, List.filter_cons]
  cases isComment (String.ofList (chomp s.toList)) with
  | true => rfl
  | false => exact String.join_cons.trans String.append_empty

/-! ### Lines of code -/

/-- Whether a character ends no line and begins no comment. -/
def isInline (c : Char) : Bool := c != '\n' && c != '\r' && c != ';'

/-- The text ends no line and has no semicolon. -/
def IsInline (s : String) : Prop := s.toList.all isInline = true

instance (s : String) : Decidable (IsInline s) := inferInstanceAs (Decidable (_ = true))

theorem IsInline.append (ha : IsInline a) (hb : IsInline b) : IsInline (a ++ b) := by
  unfold IsInline at ha hb ⊢
  rw [String.toList_append, List.all_append, ha, hb, Bool.and_self]

theorem IsInline.join {ls : List String} (h : ∀ l ∈ ls, IsInline l) :
    IsInline (String.join ls) := by
  induction ls with
  | nil => rfl
  | cons l ls ih =>
    obtain ⟨hl, hls⟩ := List.forall_mem_cons.1 h
    rw [String.join_cons]
    exact hl.append (ih hls)

theorem IsInline.notMem (h : IsInline s) : '\n' ∉ s.toList := fun hmem =>
  absurd (List.all_eq_true.1 h _ hmem) (by decide)

/-- A line of code is not taken for a comment. -/
theorem IsInline.dropComments (h : IsInline s) : dropComments (s ++ "\n") = s ++ "\n" := by
  have hchomp : chomp s.toList = s.toList := by
    unfold chomp
    split
    · next hlast => exact absurd (List.all_eq_true.1 h _ (List.mem_of_getLast? hlast)) (by decide)
    · rfl
  have hcomment : isComment s = false := by
    refine Bool.eq_false_iff.2 fun hfirst => ?_
    have hmem := List.mem_of_find?_eq_some (beq_iff_eq.1 hfirst)
    exact absurd (List.all_eq_true.1 h _ hmem) (by decide)
  rw [dropComments_line h.notMem, hchomp, String.ofList_toList, hcomment]
  rfl

theorem isInline_digitChar (n : Nat) : isInline n.digitChar = true := by
  rcases Nat.lt_or_ge n 16 with h | h
  · revert n
    decide
  · have hstar : n.digitChar = '*' := by
      simp only [Nat.digitChar]
      repeat rw [if_neg (by omega)]
    rw [hstar]
    decide

theorem all_isInline_toDigits {b : Nat} (hb : 1 < b) (n : Nat) :
    (Nat.toDigits b n).all isInline = true := by
  induction n using Nat.strongRecOn with
  | ind n ih =>
    rw [Nat.toDigits_eq_if hb]
    split
    · rw [List.all_cons, isInline_digitChar]
      rfl
    · next hn =>
      rw [List.all_append, ih _ (Nat.div_lt_self (by omega) hb), List.all_cons, isInline_digitChar]
      rfl

theorem IsInline.nat (n : Nat) : IsInline (toString n) := by
  show (Nat.repr n).toList.all isInline = true
  rw [Nat.repr_eq_ofList_toDigits, String.toList_ofList]
  exact all_isInline_toDigits (by decide) n

theorem IsInline.int (n : Int) : IsInline (toString n) := by
  cases n with
  | ofNat n => exact .nat n
  | negSucc n => exact .append (a := "-") rfl (.nat (n + 1))

theorem IsInline.hex (w : UInt32) : IsInline (hexText w) := by
  refine .append (a := "0x") rfl ?_
  unfold IsInline
  rw [String.toList_ofList, List.all_append, all_isInline_toDigits (by decide), Bool.and_true]
  exact List.all_eq_true.2 fun c hc => by
    rw [(List.mem_replicate.1 hc).2]
    decide

theorem isInline_of_isSymbolChar {c : Char} (h : isSymbolChar c = true) : isInline c = true := by
  unfold isInline
  simp only [Bool.and_eq_true, bne_iff_ne]
  refine ⟨⟨?_, ?_⟩, ?_⟩ <;> rintro rfl <;> exact absurd h (by decide)

theorem IsInline.label (l : Label) : IsInline l.text := by
  unfold IsInline
  rw [Label.toList_text, List.all_cons, List.all_append, all_isInline_toDigits (by decide)]
  unfold Label.suffix
  split
  · rfl
  · rw [List.all_cons, List.all_eq_true.2 fun c hc => isInline_of_isSymbolChar (l.symbolic c hc)]
    rfl

theorem IsInline.reg (r : Reg) : IsInline r.text := by
  cases r <;> rfl

theorem IsInline.mem (m : Mem) : IsInline m.text := by
  obtain ⟨base, index, disp, width⟩ := m
  refine .append (.append (.append (.append (.append ?_ rfl) (.reg base)) ?_) ?_) rfl
  · cases width with
    | none => rfl
    | some w => exact .append (by cases w <;> rfl) rfl
  · cases index with
    | none => rfl
    | some r => exact .append rfl (.reg r)
  · dsimp only
    split
    · rfl
    · split
      · exact .append rfl (.int disp)
      · exact .int disp

theorem IsInline.operand (x : Operand) : IsInline x.text := by
  cases x with
  | reg r => exact .reg r
  | imm n => exact .int n
  | bits w => exact .hex w
  | mem m => exact .mem m
  | label l => exact .label l
  | words l => exact .append (.label l) rfl

theorem IsInline.op0 (hm : IsInline m) : IsInline (op0 m) := .append rfl hm

theorem IsInline.op1 (hm : IsInline m) (ha : IsInline a) : IsInline (op1 m a) :=
  .append (.append (.append rfl hm) rfl) ha

theorem IsInline.op2 (hm : IsInline m) (ha : IsInline a) (hb : IsInline b) : IsInline (op2 m a b) :=
  .append (.append (.append (.append (.append rfl hm) rfl) ha) rfl) hb

theorem IsInline.instr (i : Instr) : IsInline i.text := by
  cases i with
  | mov d s => exact .op2 rfl (.operand d) (.operand s)
  | movzx d s => exact .op2 rfl (.reg d) (.operand s)
  | lea d s => exact .op2 rfl (.reg d) (.mem s)
  | push s => exact .op1 rfl (.operand s)
  | pop d => exact .op1 rfl (.reg d)
  | arith op d s => exact .op2 (by cases op <;> rfl) (.operand d) (.operand s)
  | unary op d => exact .op1 (by cases op <;> rfl) (.operand d)
  | bare op => exact .op0 (by cases op <;> rfl)
  | jmp l => exact .op1 rfl (.label l)
  | jcc c l => exact .op1 (.append rfl (by cases c <;> rfl)) (.label l)
  | setcc c d => exact .op1 (.append rfl (by cases c <;> rfl)) (.reg _)
  | call l => exact .op1 rfl (.label l)
  | kernel => rfl
  | floatMem op m => exact .op1 (by cases op <;> rfl) (.mem m)
  | floatPair op => exact .op2 (by cases op <;> rfl) rfl rfl
  | floatDrop => rfl
  | floatKeep => rfl
  | floatSwap => rfl
  | floatCompare => rfl
  | floatStatus => rfl

end Text

open Text

/-- What is left of a comment when the lines that are comments are dropped. -/
def Line.residue (text : String) : String := dropComments ((Line.comment text).text ++ "\n")

/-- A comment of one line is dropped. -/
theorem Line.residue_of_notMem {text : String} (h : '\n' ∉ text.toList) :
    Line.residue text = "" := by
  have htext :
      (Line.comment text).text.toList = ' ' :: ' ' :: ' ' :: ' ' :: ';' :: ' ' :: text.toList := by
    show ("    ; " ++ text).toList = _
    rw [String.toList_append]
    rfl
  have hchomp :
      ∃ rest, chomp (Line.comment text).text.toList = ' ' :: ' ' :: ' ' :: ' ' :: ';' :: rest := by
    rw [htext]
    unfold chomp
    split
    · exact ⟨_, rfl⟩
    · exact ⟨_, rfl⟩
  obtain ⟨rest, hrest⟩ := hchomp
  have hcomment :
      Text.isComment (String.ofList (chomp (Line.comment text).text.toList)) = true := by
    unfold Text.isComment
    rw [String.toList_ofList, hrest]
    rfl
  unfold Line.residue
  rw [dropComments_line, hcomment]
  · rfl
  · rw [htext]
    simpa using h

/-- The line is a comment, or none and not taken for one. -/
def Line.IsFaithful (line : Line) : Prop := line.isComment = false → IsInline line.text

theorem Line.isFaithful_of_isCode (h : line.isCode ok = true) : line.IsFaithful := by
  intro hcomment
  cases line with
  | instr i => exact .instr i
  | label l => exact .append (.label l) rfl
  | comment t => cases hcomment
  | constant l n => exact .append (.append (.label l) rfl) (.nat n)
  | bytes l data =>
    refine .append (.append (.append (.label l) rfl) (.join fun x hx => ?_)) rfl
    obtain ⟨byte, -, rfl⟩ := List.mem_map.1 hx
    exact .append (.nat _) rfl
  | verbatim t => cases h

namespace Code

/-- The listing without its comments. -/
def uncommented (c : Code) : Code := c.filter fun l => !l.isComment

theorem text_cons (line : Line) (c : Code) : text (line :: c) = line.text ++ "\n" ++ text c := by
  unfold text
  rw [List.map_cons, String.join_cons]

theorem uncommented_comment (t : String) (c : Code) :
    uncommented (.comment t :: c) = uncommented c := rfl

theorem uncommented_cons (h : line.isComment = false) (c : Code) :
    uncommented (line :: c) = line :: uncommented c :=
  List.filter_cons_of_pos (by rw [h]; rfl)

/-- A line of code stays, and a comment leaves its residue. -/
theorem dropComments_text_cons (h : line.IsFaithful) (c : Code) :
    (∃ t, line = .comment t ∧ dropComments (text (line :: c)) = Line.residue t ++
      dropComments (text c)) ∨
      line.isComment = false ∧ dropComments (text (line :: c)) = line.text ++ "\n" ++
        dropComments (text c) := by
  rw [text_cons, dropComments_append]
  cases hcomment : line.isComment with
  | true =>
    cases line with
    | comment t => exact .inl ⟨t, rfl, rfl⟩
    | _ => cases hcomment
  | false => exact .inr ⟨rfl, by rw [(h hcomment).dropComments]⟩

/-- Dropping comments from the text leaves at least the lines of code. -/
theorem length_text_uncommented_le {c : Code} (h : ∀ line ∈ c, line.IsFaithful) :
    (text (uncommented c)).length ≤ (dropComments (text c)).length := by
  induction c with
  | nil => exact Nat.le_refl _
  | cons line c ih =>
    obtain ⟨hline, hc⟩ := List.forall_mem_cons.1 h
    obtain ⟨t, rfl, hdrop⟩ | ⟨hcomment, hdrop⟩ := dropComments_text_cons hline c
    · rw [hdrop, uncommented_comment, String.length_append]
      exact Nat.le_add_left_of_le (ih hc)
    · have hle := ih hc
      rw [hdrop, uncommented_cons hcomment, text_cons]
      simp only [String.length_append]
      omega

/-- The text less the lines that are comments is the text of the listing without comments, if and
only if nothing is left of any comment. -/
theorem dropComments_text_eq_iff {c : Code} (h : ∀ line ∈ c, line.IsFaithful) :
    dropComments (text c) = text (uncommented c) ↔ ∀ t, .comment t ∈ c → Line.residue t = "" := by
  induction c with
  | nil => exact ⟨fun _ _ hmem => (List.not_mem_nil hmem).elim, fun _ => rfl⟩
  | cons line c ih =>
    obtain ⟨hline, hc⟩ := List.forall_mem_cons.1 h
    obtain ⟨t, rfl, hdrop⟩ | ⟨hcomment, hdrop⟩ := dropComments_text_cons hline c
    · rw [hdrop, uncommented_comment]
      refine ⟨fun heq => ?_, fun hall => ?_⟩
      · -- the lines of code account for the whole length, so the residue has none
        have hlength := congrArg String.length heq
        rw [String.length_append] at hlength
        have hle := length_text_uncommented_le hc
        have hresidue : Line.residue t = "" := String.length_eq_zero_iff.1 (by omega)
        rw [hresidue, String.empty_append] at heq
        intro u hu
        rcases List.mem_cons.1 hu with hu | hu
        · cases hu
          exact hresidue
        · exact (ih hc).1 heq u hu
      · rw [hall t List.mem_cons_self, String.empty_append]
        exact (ih hc).2 fun u hu => hall u (List.mem_cons_of_mem _ hu)
    · rw [hdrop, uncommented_cons hcomment, text_cons, String.append_right_inj, ih hc]
      refine forall_congr' fun u => imp_congr_left ⟨List.mem_cons_of_mem _, fun hu => ?_⟩
      rcases List.mem_cons.1 hu with rfl | hu
      · cases hcomment
      · exact hu

end Code

/-! ### Units with comments and without -/

theorem Likeness.label_empty (l : Label) : Likeness.label (.same .empty 0) l = l := by
  unfold Likeness.label
  split
  · rfl
  · show Label.mk (0 + l.number) l.hint _ = l
    simp only [Nat.zero_add]

theorem Operand.relabel_id (x : Operand) : x.relabel id = x := by
  cases x <;> rfl

theorem Instr.relabel_id (i : Instr) : i.relabel id = i := by
  cases i <;> simp [Instr.relabel, Operand.relabel_id]

theorem Line.relabel_id (line : Line) : line.relabel id = line := by
  cases line with
  | instr i => exact congrArg Line.instr i.relabel_id
  | _ => rfl

/-- With nothing behind it, only the comments are left out of code. -/
theorem Likeness.code_empty (c : Code) : Likeness.code (.same .empty 0) c = c.uncommented := by
  have hline (line : Line) :
      Likeness.line? (.same .empty 0) line = if (!line.isComment) = true then some line else
      none := by
    unfold Likeness.line?
    rw [show Likeness.label (.same .empty 0) = id from funext Likeness.label_empty, Line.relabel_id]
    cases line.isComment <;> rfl
  unfold Likeness.code
  rw [funext hline]
  exact congrFun (List.filterMap_eq_filter (p := fun l : Line => !l.isComment)) c

/-- Without comments the same unit is made, less the comments, or the program is rejected in the
same way. -/
theorem compile_uncommented (entry : String) (program : Program) :
    compile { comments := false, entry } program =
      (compile { entry } program).map fun a => ⟨a.code.uncommented, a.stats⟩ := by
  have hassembly : Likeness.assembly (.same .empty 0) = fun a => ⟨a.code.uncommented, a.stats⟩ := by
    funext a
    unfold Likeness.assembly
    rw [Likeness.code_empty]
    exact congrArg (Assembly.mk _) (Stats.plus_empty _)
  unfold compile
  rw [(compileIn_behind (fun _ _ => List.not_mem_nil) true entry).1, hassembly]

/-- A name without a line break. -/
def Text.isOneLine (s : String) : Bool := !s.toList.contains '\n'

theorem Text.isOneLine_append : isOneLine (a ++ b) = (isOneLine a && isOneLine b) := by
  unfold isOneLine
  rw [String.toList_append, List.contains_append, Bool.not_or]

theorem Text.IsInline.isOneLine (h : IsInline s) : isOneLine s = true := by
  have hmem := h.notMem
  unfold Text.isOneLine
  simpa using hmem

theorem Text.isInline_ofList {cs : List Char} (h : ∀ c ∈ cs, isInline c = true) :
    IsInline (String.ofList cs) := by
  unfold IsInline
  rw [String.toList_ofList]
  exact List.all_eq_true.2 h

/-- Digits, and zeros where there are none. -/
theorem Single.Decimal.isInline_split (d : Decimal) :
    (∀ c ∈ d.split.1, isInline c = true) ∧ ∀ c ∈ d.split.2, isInline c = true := by
  have hdigits : ∀ c ∈ d.digitList, isInline c = true :=
    List.all_eq_true.1 (all_isInline_toDigits (by decide) d.digits)
  have hzeros (n : Nat) : ∀ c ∈ List.replicate n '0', isInline c = true := by
    intro c hc
    rw [(List.mem_replicate.1 hc).2]
    decide
  unfold Decimal.split
  dsimp only
  split
  · exact ⟨hzeros 1, List.forall_mem_append.2 ⟨hzeros _, hdigits⟩⟩
  · exact ⟨List.forall_mem_append.2 ⟨fun c hc => hdigits c (List.mem_of_mem_take hc), hzeros _⟩,
      fun c hc => hdigits c (List.mem_of_mem_drop hc)⟩

theorem Single.isInline_remark (v : Single) : IsInline v.remark := by
  have hsign : IsInline v.signText := by
    unfold Single.signText
    split <;> rfl
  unfold Single.remark
  split
  · refine hsign.append ?_
    obtain ⟨hwhole, hfraction⟩ := (v.decimal .up).isInline_split
    unfold Decimal.positional
    split
    · next h =>
      rw [h] at hwhole
      exact isInline_ofList hwhole
    · next h =>
      rw [h] at hwhole hfraction
      exact .append (.append (isInline_ofList hwhole) rfl) (isInline_ofList hfraction)
  · split
    · exact hsign.append rfl
    · rfl

/-- The compiler's own comments have one line each. -/
theorem Remarks.oneLine : Remarks (.foreign isOneLine) fun name => isOneLine name = true where
  declared h ty := by
    simp only [Feature.Accepts, isOneLine_append, h]
    cases ty <;> rfl
  unchanged h := by
    simp only [Feature.Accepts, isOneLine_append, h]
    rfl
  called h := by
    simp only [Feature.Accepts, isOneLine_append, h]
    rfl
  defined h := by
    simp only [Feature.Accepts, isOneLine_append, h]
    rfl
  included h := by
    simp only [Feature.Accepts, isOneLine_append, h]
    rfl
  library p := by
    cases p <;> rfl
  owned id := IsInline.isOneLine (.append rfl (.append rfl (.nat _)))
  freed id := IsInline.isOneLine (.append rfl (.append rfl (.nat _)))
  kept id := IsInline.isOneLine (.append rfl (.append rfl (.nat _)))
  decimal v := IsInline.isOneLine (.append rfl v.isInline_remark)
  copied := rfl
  program := rfl

/-- The lines of a unit that starts at the usual symbol: comments as accepted, and lines of code. -/
theorem compile_lines {T : String → Prop} (hr : Remarks (.foreign ok) T) {comments : Bool}
    {program : Program} {a : Assembly} (hnames : ∀ name ∈ Node.namesAll program.body, T name)
    (h : compile { comments } program = .ok a) :
    (∀ line ∈ a.code, line.IsFaithful) ∧ ∀ t, .comment t ∈ a.code → ok t = true := by
  obtain ⟨s, hrun, rfl, -⟩ := compileIn_eq_ok h
  obtain ⟨hdata, hfunctions, hprogram⟩ := lowerUnit_lines hr hnames hrun
  have hsection {c : Code} (hc : Code.IsCode ok c) :
      ∀ line ∈ c, line.IsFaithful ∧ ∀ t, line = .comment t → ok t = true := by
    intro line hline
    have hcode := List.all_eq_true.1 hc line hline
    exact ⟨Line.isFaithful_of_isCode hcode, fun t ht => by rwa [ht] at hcode⟩
  have hverbatim (ts : List String) (hts : ∀ t ∈ ts, IsInline t) :
      ∀ line ∈ ts.map Line.verbatim, line.IsFaithful ∧ ∀ t, line = .comment t → ok t = true := by
    intro line hline
    obtain ⟨t, ht, rfl⟩ := List.mem_map.1 hline
    exact ⟨fun _ => hts t ht, nofun⟩
  have hall : ∀ line ∈ s.listing.assemble "_start", line.IsFaithful ∧ ∀ t, line = .comment t →
      ok t = true := by
    unfold Listing.assemble
    simp only [List.forall_mem_append]
    exact ⟨⟨⟨⟨⟨⟨hverbatim ["bits 32", "", "section .data"] (by decide), hsection hdata⟩,
      hverbatim ["", "section .text", "global _start", ""] (by decide)⟩, hsection hfunctions⟩,
      hverbatim ["", "_start:"] (by decide)⟩, hsection hprogram⟩, hverbatim [""] (by decide)⟩
  exact ⟨fun line hline => (hall line hline).1, fun t ht => (hall _ ht).2 t rfl⟩

/-- Comments change nothing but for line breaks in names.  With comments and without, a program is
rejected in the same way, or the same is counted, and the unit without comments is the unit with
comments less every line that begins with a semicolon, if and only if nothing is left of any comment
then.  That is so for every program whose names and paths have no line break. -/
theorem comments_drop_out (program : Program) :
    (∀ e, compile {} program = .error e ↔ compile { comments := false } program = .error e) ∧
    ∀ a, compile {} program = .ok a → ∃ b, compile { comments := false } program = .ok b ∧
      b.stats = a.stats ∧
      (dropComments a.text = b.text ↔ ∀ t, .comment t ∈ a.code → Line.residue t = "") ∧
      ((∀ name ∈ Node.namesAll program.body, isOneLine name = true) →
        dropComments a.text = b.text) := by
  rw [compile_uncommented "_start" program]
  cases hcompile : compile {} program with
  | error e => exact ⟨fun _ => Iff.rfl, nofun⟩
  | ok a =>
    refine ⟨fun e => ⟨nofun, nofun⟩, ?_⟩
    rintro _ ⟨⟩
    have hfaithful :=
      (compile_lines (.any (q := .foreign fun _ => true) fun _ => rfl) (fun _ _ => trivial)
        hcompile).1
    have hiff := Code.dropComments_text_eq_iff hfaithful
    refine ⟨_, rfl, rfl, hiff, fun hnames => hiff.2 fun t ht => Line.residue_of_notMem ?_⟩
    simpa [isOneLine] using (compile_lines .oneLine hnames hcompile).2 t ht

/-- A program in whose unit, with comments, an instruction stands that nobody wrote. -/
def smuggled : Program := ⟨[.unplaced (.declare "x\n    hlt ;" .integer none)]⟩

/-- The name of the variable ends the comment, and what follows is an instruction. -/
theorem comments_drop_out_fails_smuggled : ∃ a b, compile {} smuggled = .ok a ∧
    compile { comments := false } smuggled = .ok b ∧ dropComments a.text ≠ b.text := by
  have hmem : ((compile {} smuggled).toOption.any fun a =>
      a.code.contains (.comment ":x\n    hlt ;/num")) = true := by
    decide +kernel
  cases ha : compile {} smuggled with
  | error e =>
    rw [ha] at hmem
    cases hmem
  | ok a =>
    rw [ha] at hmem
    have hfaithful :=
      (compile_lines (.any (q := .foreign fun _ => true) fun _ => rfl) (fun _ _ => trivial) ha).1
    refine ⟨a, ⟨a.code.uncommented, a.stats⟩, rfl, ?_, fun heq => ?_⟩
    · rw [compile_uncommented, ha]
      rfl
    · have hresidue := (Code.dropComments_text_eq_iff hfaithful).1 heq _
        (List.contains_iff_mem.1 hmem)
      exact absurd hresidue (by decide +kernel)

end KuAsm
